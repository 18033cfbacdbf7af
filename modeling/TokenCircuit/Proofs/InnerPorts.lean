import TokenCircuit.Proofs.JoinedFields

/-!
# Ports that instances no longer have

Of the ports that a target had, its token-driven form has none, unless the host's two are among them. So whatever the
main module connects to an instance must be rewired. A port of an instance is recognized where it stands alone and has a
place; a part of a port, and a port that no channel lists, are not. What has no side that is recognized stays, and then
refers to a port that is gone (`Circuit.channelize_inner_ports_iff`).
-/

namespace TokenCircuit

/-- The port of an instance that a chain of fields, positions and accesses starts with. -/
def Expr.innerPort? : Expr → Option (String × String)
  | .field (.ref inst) port => some (inst, port)
  | .field base _ | .index base _ | .access base _ => base.innerPort?
  | _ => none

theorem Stmt.isLeaf_of_mem_sides {s : Stmt} {e : Expr} (h : e ∈ s.sides) : s.isLeaf = true := by
  cases s with
  | when | block | skip => cases h
  | _ => rfl

/-- The ports of a token-driven module are the host's two and the host ports of the channels. -/
theorem Module.Modelled.mem_ports {m : Module} {a : Analysis} {host : HostSignals} {config : Config} {t : TokenModel}
    (h : m.Modelled a host config t) {name : String} : name ∈ t.module.ports.map (·.name) ↔
      name = config.hostClock ∨ name = config.hostReset ∨ ∃ c ∈ t.channels, ∃ g, c.carried? = some (name, g) := by
  have hcarried : (∃ c ∈ t.channels, ∃ g, c.carried? = some (name, g)) ↔
      name ∈ (t.plan.interface.channels.filterMap Channel.carried?).map Prod.fst := by
    simp [TokenModel.channels, List.mem_filterMap]
    tauto
  show name ∈ t.ports.map (·.name) ↔ _
  rw [h.map_name_ports, hcarried, Interface.filterMap_carried]
  simp only [List.mem_cons, List.map_append, List.map_map, Function.comp_def, List.mem_append]
  tauto

/-! ### Instances stay -/

namespace Rewiring

variable {r : Rewiring} {s : Stmt}

theorem mem_hostConnects {s' : Stmt} (h : s' ∈ r.hostConnects s) :
    ∃ name, s' = .connect (.field (.ref name) r.config.hostClock) r.host.clock ∨
      s' = .connect (.field (.ref name) r.config.hostReset) r.host.reset := by
  cases s with
  | inst name module =>
    have h : s' ∈ if name ∈ r.instances then _ else [] := h
    split at h
    · exact ⟨name, List.mem_pair.1 h⟩
    · cases h
  | _ => cases h

end Rewiring

theorem Module.targetOf?_rewired {m rewired : Module} {a : Analysis} {layouts : OrderedMap String Layout}
    {host : HostSignals} {config : Config} (h : (m.rewired a layouts host config).outcome = .ok rewired)
    (inst : String) : rewired.targetOf? a inst = m.targetOf? a inst := by
  rw [targetOf?, targetOf?, filterMap_rewired h Stmt.instance?_eq_none]

/-! ### Ports of instances -/

namespace Circuit

/-- If the instance is one of a target, it has the port. -/
def HasInnerPort (c : Circuit) (a : Analysis) (m : Module) (inst port : String) : Prop :=
  ∀ target ∈ m.targetOf? a inst, ∀ m' ∈ c.module? target, port ∈ m'.ports.map (·.name)

instance (c : Circuit) (a : Analysis) (m : Module) (inst port : String) : Decidable (c.HasInnerPort a m inst port) :=
  inferInstanceAs (Decidable (∀ _ ∈ _, _))

/-- Where a side of a connection or an invalidation in `m` is a port of an instance of a target, or a part of one at any
depth, the instance has that port. -/
def InnerPortsExist (c : Circuit) (a : Analysis) (m : Module) : Prop :=
  ∀ s ∈ m.body.preorder, ∀ e ∈ s.sides, ∀ x ∈ e.innerPort?, c.HasInnerPort a m x.1 x.2

instance (c : Circuit) (a : Analysis) (m : Module) : Decidable (c.InnerPortsExist a m) :=
  inferInstanceAs (Decidable (∀ _ ∈ _, _))

variable {c : Circuit} {a : Analysis} {config : Config} {top rewired : Module} {models : List (String × TokenModel)}
  {records : List (Target × Option Target)} {out : Channelization}

/-- An instance of a target is an instance of its token-driven form afterwards. -/
theorem Channelized.modelled_of_targetOf? (h : c.Channelized a config models records out) {inst target : String}
    {m : Module} (hinst : m.targetOf? a inst = some target) : ∃ old t, c.module? target = some old ∧
      c.targetModel a config target = .ok t ∧ old.Modelled a (.ofConfig config) config t ∧
      out.circuit.module? target = some t.module := by
  have htarget : target ∈ a.targets.toList := (Module.targetOf?_eq_some hinst).2
  obtain ⟨⟨_, t⟩, hx, rfl⟩ := List.mem_map.1 (h.targets ▸ htarget)
  obtain ⟨old, hold, ht, hresult⟩ := h.modelled _ hx
  exact ⟨old, t, hold, by rw [targetModel, hold]; exact ht, Module.tokenModel_ok ht, hresult⟩

theorem Channelized.hasInnerPort_of_host (h : c.Channelized a config models records out) {inst port : String}
    (hport : port = config.hostClock ∨ port = config.hostReset) : out.circuit.HasInnerPort a top inst port := by
  intro target htarget m' hm'
  obtain ⟨old, t, -, -, hmodelled, hfound⟩ := h.modelled_of_targetOf? htarget
  cases hm'.symm.trans hfound
  exact hmodelled.mem_ports.2 (hport.imp_right .inl)

theorem Channelized.hasInnerPort_of_joined (h : c.Channelized a config models records out)
    (hrewired : c.MainRewired a config top rewired records) {e hostPort : Expr} {x : String × String}
    (hport : (top.rewiring a (c.layouts a config) (.ofConfig config) config).channelPort? e = some hostPort)
    (hx : x ∈ hostPort.innerPort?) : out.circuit.HasInnerPort a top x.1 x.2 := by
  obtain ⟨_, g, path, hcarries⟩ := h.carries hrewired hport
  cases hcarries with
  | outer => cases hx
  | inner hinst hmodel _ hchannel hcarried =>
    cases hx
    intro target htarget m' hm'
    cases htarget.symm.trans hinst
    obtain ⟨old, t, -, hmodel', hmodelled, hresult⟩ := h.modelled_of_targetOf? htarget
    cases hmodel.symm.trans hmodel'
    cases hm'.symm.trans hresult
    exact hmodelled.mem_ports.2 (.inr (.inr ⟨_, hchannel, g, hcarried⟩))

/-- A port that the target had is gone, unless it bears the name of one of the host's. -/
theorem Channelized.host_of_hasInnerPort (h : c.Channelized a config models records out) {inst port target : String}
    (hinst : top.targetOf? a inst = some target) (hold : c.HasInnerPort a top inst port)
    (hnew : out.circuit.HasInnerPort a top inst port) : port = config.hostClock ∨ port = config.hostReset := by
  obtain ⟨old, t, hfound, -, hmodelled, hresult⟩ := h.modelled_of_targetOf? hinst
  rcases hmodelled.mem_ports.1 (hnew target hinst _ hresult) with hclock | hreset | ⟨ch, hch, g, hcarried⟩
  · exact .inl hclock
  · exact .inr hreset
  · -- the host ports of channels have names that are new to the target
    have hown : port ∈ old.ownNames := List.mem_append_left _ (hold target hinst old hfound)
    exact absurd (Module.mem_initialNames.2 (.inr (.inr hown))) (hmodelled.planned.hostPort_not_mem hch hcarried)

/-- Given that the main module takes only ports of instances that the instances have, this is so afterwards exactly if
every connection or invalidation with such a port has a side that is recognized, or the port is one of the host's. -/
theorem channelize_inner_ports_iff {annotations : List Annotation}
    (h : (c.channelize a annotations config).outcome = .ok out) (hmain : c.main ∉ a.targets)
    (htop : c.module? c.main = some top) (hports : c.InnerPortsExist a top) :
    ∃ rewired, out.circuit.module? c.main = some rewired ∧ (out.circuit.InnerPortsExist a rewired ↔
      ∀ s ∈ top.body.preorder,
        (∀ e ∈ s.sides, (top.rewiring a (c.layouts a config) (.ofConfig config) config).regards e = false) →
        ∀ e ∈ s.sides, ∀ x ∈ e.innerPort?, top.targetOf? a x.1 ≠ none →
        x.2 = config.hostClock ∨ x.2 = config.hostReset) := by
  obtain ⟨models, records, hdone⟩ := channelize_ok h
  obtain ⟨top', rewired, hmainRewired, hresult, hrewired⟩ := hdone.rewired hmain
  cases htop.symm.trans hmainRewired.found
  have hsame : ∀ inst port, out.circuit.HasInnerPort a rewired inst port ↔
      out.circuit.HasInnerPort a top inst port := by
    intro inst port
    rw [HasInnerPort, HasInnerPort, Module.targetOf?_rewired hrewired]
  refine ⟨rewired, hresult, fun hexist s hs hstays e he x hx hinst => ?_, fun hstays s' hs' e he x hx => ?_⟩
  · obtain ⟨target, htarget⟩ := Option.ne_none_iff_exists'.1 hinst
    have hthere := Module.mem_rewired_of_stays hrewired hs (Stmt.isLeaf_of_mem_sides he) hstays
    exact hdone.host_of_hasInnerPort htarget (hports s hs e he x hx) ((hsame _ _).1 (hexist s hthere e he x hx))
  · rw [hsame]
    obtain ⟨s, hs, ⟨rfl, hkept⟩ | hconnect | ⟨pair, hpair, rfl⟩⟩ :=
      Module.mem_rewired hrewired hs' (Stmt.isLeaf_of_mem_sides he)
    · -- it was there before
      intro target htarget
      have hinst : top.targetOf? a x.1 ≠ none := by
        rw [htarget]
        exact Option.some_ne_none target
      exact hdone.hasInnerPort_of_host (hstays _ hs hkept e he x hx hinst) target htarget
    · -- it connects an instance to the host
      obtain ⟨name, rfl | rfl⟩ := Rewiring.mem_hostConnects hconnect
      · rcases List.mem_pair.1 he with rfl | rfl
        · cases hx
          exact hdone.hasInnerPort_of_host (.inl rfl)
        · cases hx
      · rcases List.mem_pair.1 he with rfl | rfl
        · cases hx
          exact hdone.hasInnerPort_of_host (.inr rfl)
        · cases hx
    · -- it joins two channels
      obtain ⟨loc, value, -, hsink, hsource, -⟩ := Rewiring.channelPair?_eq_some.1 hpair
      rcases List.mem_pair.1 he with rfl | rfl
      · exact hdone.hasInnerPort_of_joined hmainRewired hsink hx
      · exact hdone.hasInnerPort_of_joined hmainRewired hsource hx

end Circuit

/-- The main module around the two adders uses only ports that they still have. -/
theorem Demo.Stages.inner_ports_exist : circuit.InnerPortsExist analysis top ∧
    ∃ out rewired, (circuit.channelize analysis [] {}).outcome = .ok out ∧ out.circuit.module? "Top" = some rewired ∧
      out.circuit.InnerPortsExist analysis rewired := by
  have hok : ((circuit.channelize analysis [] {}).outcome.toOption.map fun _ => ()) = some () := by decide +kernel
  obtain ⟨out, hout, -⟩ := exists_ok_of_map hok
  have hports : circuit.InnerPortsExist analysis top := by decide +kernel
  have htop : circuit.module? circuit.main = some top := by decide +kernel
  obtain ⟨rewired, hresult, hiff⟩ := Circuit.channelize_inner_ports_iff hout (by decide +kernel) htop hports
  exact ⟨hports, out, rewired, hout, hresult, hiff.2 (by decide +kernel)⟩

namespace Demo.Buffer

/-- A port with two fields, one of which is passed on. -/
def buffer : Module where
  name := "Buffer"
  ports := [
    .input "clock" .clock,
    .input "io" (.bundle [⟨"lhs", false, .uint 16⟩, ⟨"rhs", false, .uint 16⟩]),
    .output "out" (.uint 16)]
  body := .block [.connect (.ref "out") (.field (.ref "io") "lhs")]

def top : Module where
  name := "Top"
  ports := [.input "clock" .clock, .input "lhs" (.uint 16), .output "out" (.uint 16)]
  body := .block [
    .inst "buffer" "Buffer",
    .connect (.field (.ref "buffer") "clock") (.ref "clock"),
    .connect (.field (.field (.ref "buffer") "io") "lhs") (.ref "lhs"),
    .connect (.ref "out") (.field (.ref "buffer") "out")]

def circuit : Circuit := { main := "Top", modules := [top, buffer] }

def analysis : Analysis := .ofFacts [
  .input "Buffer" "io" ⟨some "clock", ["io"]⟩,
  .output "Buffer" "out" ⟨some "clock", ["out"]⟩,
  .edge "Buffer" "out" "io",
  .target "Buffer",
  .topChannel "out" .output ["out"]]

/-- A field of a port is still connected after the port is gone. -/
theorem part_of_gone_port : circuit.InnerPortsExist analysis top ∧
    ∃ out rewired, (circuit.channelize analysis [] {}).outcome = .ok out ∧ out.circuit.module? "Top" = some rewired ∧
      .connect (.field (.field (.ref "buffer") "io") "lhs") (.ref "lhs") ∈ rewired.body.preorder ∧
      ¬ out.circuit.InnerPortsExist analysis rewired := by
  have hfound :
      ((circuit.channelize analysis [] {}).outcome.toOption.map fun out => (out.circuit.module? "Top").map fun m =>
      decide (.connect (.field (.field (.ref "buffer") "io") "lhs") (.ref "lhs") ∈ m.body.preorder ∧
        ¬ out.circuit.InnerPortsExist analysis m)) = some (some true) := by
    decide +kernel
  obtain ⟨out, hout, hfound⟩ := exists_ok_of_map hfound
  obtain ⟨rewired, hrewired, hdangling⟩ := Option.map_eq_some_iff.1 hfound
  exact ⟨by decide +kernel, out, rewired, hout, hrewired, of_decide_eq_true hdangling⟩

end Demo.Buffer

end TokenCircuit
