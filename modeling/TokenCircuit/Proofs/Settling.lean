import TokenCircuit.Proofs.Payloads
import TokenCircuit.Proofs.Protocol

/-!
# Every cycle settles

The rules do not wait for each other in a circle. What an output offers depends on registers and on the environment;
whether the data channels are done depends on the offers, and with it the finishing wire; all else depends on registers,
the environment and the finishing wire. So a pass over the rules that gives every wire what is connected to it
comes to rest after a few repetitions, whatever the registers and the environment hold
(`Module.Modelled.exists_settled`).
-/

namespace TokenCircuit

namespace Rule

variable {x : Rule} {field : String} {path : List String}

theorem at?_hostPort {d : DataChannel} (h : at? (.hostPort d) (field :: path) = some x) :
    x = .accept d ∧ field = "ready" ∨ x = .offer d ∧ field = "valid" ∨
      x = .stamp d ∧ field = "bits" ∧ path.head? = some "time" := by
  unfold at? at h
  split at h <;> simp_all

theorem at?_clockPort {g : PortGroup} (h : at? (.clockPort g) (field :: path) = some x) :
    x = .clockReady g ∧ field = "ready" := by
  unfold at? at h
  split at h <;> simp_all

end Rule

namespace Plan

variable (p : Plan) (host : HostSignals) (g : Connectivity) (st env r : Valuation)

def partNamed? (name : String) : Option Part := p.parts.find? (p.nameOf · = name)

/-- Of the rules for the fields of a host port only some exist, depending on the channel. -/
def drives : Rule → Bool
  | .accept d => d ∈ p.interface.inputs
  | .offer d => d ∈ p.interface.outputs
  | .stamp d => d ∈ p.interface.outputs ∧ d.timestamped ∧ p.domains.simTime.isSome
  | _ => true

/-- What a part shows where no rule drives it. -/
def undriven : Part → Signal
  | .flag c => c.flagValue.value env
  | y => env (p.nameOf y)

/-- What a part shows after a pass: a register its state, a wire what is connected to it in `r`. -/
def shown (y : Part) : Signal := fun path =>
  match y.init? with
  | some _ => st (p.nameOf y) path
  | none =>
    match Rule.at? y path with
    | some x => if p.drives x then (p.connected host g r x).value r (path.drop x.path.length) else p.undriven env y path
    | none => p.undriven env y path

def pass : Valuation := fun name =>
  match p.partNamed? name with
  | some y => p.shown host g st env r y
  | none => env name

/-- A valuation shows what the environment does: it holds the signals that no rule of the protocol drives. -/
structure Shows (p : Plan) (env r : Valuation) : Prop where
  input : ∀ {d}, d ∈ p.interface.inputs → ∀ {field}, field ≠ "ready" → ∀ path,
    r d.hostPort (field :: path) = env d.hostPort (field :: path)
  ready : ∀ {d}, d ∈ p.interface.outputs → d.ready.value r = d.ready.value env
  bits : ∀ {d}, d ∈ p.interface.outputs → ∀ {path}, (d.timestamped = true → path.head? ≠ some "time") →
    r d.hostPort ("bits" :: path) = env d.hostPort ("bits" :: path)
  clock : ∀ {group}, p.interface.clock.group? = some group → ∀ {field}, field ≠ "ready" → ∀ path,
    r (sinkName group.name) (field :: path) = env (sinkName group.name) (field :: path)
  other : ∀ {name}, (∀ y ∈ p.parts, p.nameOf y ≠ name) → r name = env name

/-- A valuation keeps the pace of the environment: tokens come in and are taken when the environment says. -/
structure Paces (p : Plan) (env r : Valuation) : Prop where
  valid : ∀ {d}, d ∈ p.interface.inputs → d.valid.value r = d.valid.value env
  ready : ∀ {d}, d ∈ p.interface.outputs → d.ready.value r = d.ready.value env
  validity : p.interface.clock.validity.value r = p.interface.clock.validity.value env

/-- The host signals are none of those that the protocol declares. -/
def Outside (p : Plan) (host : HostSignals) : Prop :=
  ∀ name ∈ host.clock.refs ++ host.reset.refs, ∀ y ∈ p.parts, p.nameOf y ≠ name

theorem Shows.paces {p : Plan} {env r : Valuation} (h : p.Shows env r) : p.Paces env r where
  valid hd := funext fun path => h.input hd (by decide) path
  ready := h.ready
  validity := by
    cases hclock : p.interface.clock with
    | virtual clock => rw [ClockSource.validity, Expr.bit, Expr.value_literal, Expr.value_literal]
    | channel group =>
      have hgroup : p.interface.clock.group? = some group := by rw [hclock]; rfl
      exact funext fun path => h.clock hgroup (by decide) path

theorem Shows.hostClock {p : Plan} {host : HostSignals} {env r : Valuation} (h : p.Shows env r)
    (hout : p.Outside host) : host.clock.value r = host.clock.value env :=
  Expr.value_congr fun name hname => h.other (hout name (List.mem_append_left _ hname))

theorem Shows.hostReset {p : Plan} {host : HostSignals} {env r : Valuation} (h : p.Shows env r)
    (hout : p.Outside host) : host.reset.value r = host.reset.value env :=
  Expr.value_congr fun name hname => h.other (hout name (List.mem_append_right _ hname))

end Plan

namespace Module.Planned

variable {m : Module} {a : Analysis} {config : Config} {p : Plan} {host : HostSignals} {g : Connectivity}
  {st env r r' : Valuation} {y : Part} {x : Rule} {d : DataChannel}

theorem partNamed?_nameOf (h : m.Planned a config p) (hy : y ∈ p.parts) : p.partNamed? (p.nameOf y) = some y := by
  cases hfound : p.partNamed? (p.nameOf y) with
  | none => simpa using List.find?_eq_none.1 hfound y hy
  | some y' =>
    have hname : p.nameOf y' = p.nameOf y := by simpa using List.find?_some hfound
    rw [h.part_eq (List.mem_of_find?_eq_some hfound) hy hname]

theorem not_mem_outputs (h : m.Planned a config p) (hd : d ∈ p.interface.inputs) : d ∉ p.interface.outputs := by
  obtain ⟨t, hgrows⟩ := h.names
  have hnodup := hgrows.nodup
  rw [Plan.map_nameOf_parts] at hnodup
  have hports : (p.interface.data.map (·.hostPort)).Nodup :=
    hnodup.sublist ((List.sublist_append_right _ _).trans
      ((List.sublist_append_left _ _).trans (List.sublist_append_left _ _)))
  intro hout
  exact (List.nodup_append.1 hports.of_map).2.2 d hd d hout rfl

theorem pass_nameOf (h : m.Planned a config p) (hy : y ∈ p.parts) :
    p.pass host g st env r (p.nameOf y) = p.shown host g st env r y := by
  rw [Plan.pass, h.partNamed?_nameOf hy]

theorem pass_reg (h : m.Planned a config p) {init : Expr} (hy : y ∈ p.parts) (hinit : y.init? = some init) :
    p.pass host g st env r (p.nameOf y) = st (p.nameOf y) := by
  funext path
  rw [h.pass_nameOf hy, Plan.shown, hinit]

theorem pass_place (h : m.Planned a config p) (hy : x.part ∈ p.parts) (hinit : x.part.init? = none)
    (hdrives : p.drives x = true) :
    (p.place x).value (p.pass host g st env r) = (p.connected host g r x).value r := by
  funext rest
  rw [Plan.place, Expr.value_follow, Expr.value_ref, h.pass_nameOf hy]
  show p.shown host g st env r x.part (x.path ++ rest) = _
  rw [Plan.shown, hinit, Rule.at?_path]
  simp [hdrives]

theorem pass_undriven (h : m.Planned a config p) (hy : y ∈ p.parts) (hinit : y.init? = none) {path : List String}
    (hat : ∀ x, Rule.at? y path = some x → p.drives x = false) :
    p.pass host g st env r (p.nameOf y) path = p.undriven env y path := by
  rw [h.pass_nameOf hy, Plan.shown, hinit]
  cases hx : Rule.at? y path with
  | none => rfl
  | some x => simp [hat x hx]

theorem shows_pass (h : m.Planned a config p) : p.Shows env (p.pass host g st env r) where
  input {d} hd field hfield path := by
    refine h.pass_undriven (y := .hostPort d) (Plan.hostPort_mem_parts.2 (List.mem_append_left _ hd)) rfl fun x hx => ?_
    rcases Rule.at?_hostPort hx with ⟨rfl, hready⟩ | ⟨rfl, -⟩ | ⟨rfl, -⟩
    · exact absurd hready hfield
    · simpa [Plan.drives] using h.not_mem_outputs hd
    · simp [Plan.drives, h.not_mem_outputs hd]
  ready {d} hd := by
    funext path
    have hpart : .hostPort d ∈ p.parts := Plan.hostPort_mem_parts.2 (List.mem_append_right _ hd)
    refine h.pass_undriven hpart rfl fun x hx => ?_
    rcases Rule.at?_hostPort hx with ⟨rfl, -⟩ | ⟨rfl, hfield⟩ | ⟨rfl, hfield, -⟩
    · have hin : d ∉ p.interface.inputs := fun hin => h.not_mem_outputs hin hd
      simpa [Plan.drives] using hin
    · simp at hfield
    · simp at hfield
  bits {d} hd path htime := by
    have hpart : .hostPort d ∈ p.parts := Plan.hostPort_mem_parts.2 (List.mem_append_right _ hd)
    refine h.pass_undriven hpart rfl fun x hx => ?_
    rcases Rule.at?_hostPort hx with ⟨rfl, hfield⟩ | ⟨rfl, hfield⟩ | ⟨rfl, -, hpath⟩
    · simp at hfield
    · simp at hfield
    · cases hstamped : d.timestamped with
      | true => exact absurd hpath (htime hstamped)
      | false => simp [Plan.drives, hstamped]
  clock {group} hgroup field hfield path := by
    refine h.pass_undriven (y := .clockPort group) (Plan.clockPort_mem_parts.2 hgroup) rfl fun x hx => ?_
    exact absurd (Rule.at?_clockPort hx).2 hfield
  other {name} hname := by
    have hnone : p.partNamed? name = none := List.find?_eq_none.2 fun y hy => by simpa using hname y hy
    rw [Plan.pass, hnone]

end Module.Planned

/-! ### What the rules read -/

/-- Two valuations agree on all that the rules read, the wires of the protocol apart. -/
structure Plan.Alike (p : Plan) (host : HostSignals) (r r' : Valuation) : Prop where
  reg : ∀ {y init}, y ∈ p.parts → y.init? = some init →
    (Expr.ref (p.nameOf y)).value r = (Expr.ref (p.nameOf y)).value r'
  valid : ∀ {d}, d ∈ p.interface.inputs → d.valid.value r = d.valid.value r'
  ready : ∀ {d}, d ∈ p.interface.outputs → d.ready.value r = d.ready.value r'
  validity : p.interface.clock.validity.value r = p.interface.clock.validity.value r'
  clock : host.clock.value r = host.clock.value r'
  reset : host.reset.value r = host.reset.value r'

namespace Plan.Alike

variable {p : Plan} {host : HostSignals} {g : Connectivity} {r r' : Valuation} {d : DataChannel} {x : Rule}

theorem not_fired (h : p.Alike host r r') (hd : d ∈ p.interface.data) :
    d.isFired.not.value r = d.isFired.not.value r' :=
  Expr.value_prim_congr fun e he => by
    rw [List.mem_singleton.1 he]
    exact h.reg (fired_mem_parts.2 hd) rfl

theorem offer (h : p.Alike host r r') (hd : d ∈ p.interface.outputs) :
    (p.connected host g r (.offer d)).value r = (p.connected host g r' (.offer d)).value r' := by
  refine Expr.value_conj_congr fun e he => ?_
  rcases List.mem_append.1 he with he | he
  · obtain ⟨d', hd', rfl⟩ := List.mem_map.1 he
    exact h.valid (Interface.mem_inputs_of_sources hd')
  · rw [List.mem_singleton.1 he]
    exact h.not_fired (List.mem_append_right _ hd)

theorem dataDone (h : p.Alike host r r') (hoffers : ∀ d ∈ p.interface.outputs, d.valid.value r = d.valid.value r') :
    p.dataDone.value r = p.dataDone.value r' := by
  refine Expr.value_conj_congr fun e he => ?_
  rcases List.mem_append.1 he with he | he
  · obtain ⟨d, hd, rfl⟩ := List.mem_map.1 he
    have hfiring : d.isFiring.value r = d.isFiring.value r' := Expr.value_prim_congr fun e he => by
      rcases List.mem_pair.1 he with rfl | rfl
      · exact hoffers d hd
      · exact h.ready hd
    refine Expr.value_prim_congr fun e he => ?_
    rcases List.mem_pair.1 he with rfl | rfl
    · exact h.reg (fired_mem_parts.2 (List.mem_append_right _ hd)) rfl
    · exact hfiring
  · obtain ⟨d, hd, rfl⟩ := List.mem_map.1 he
    exact h.valid hd

/-- The rules for wires read nothing else than the offers and the finishing wire. -/
theorem connected (h : p.Alike host r r') (hoffers : ∀ d ∈ p.interface.outputs, d.valid.value r = d.valid.value r')
    (hfin : p.finishing.value r = p.finishing.value r') {r₀ : Valuation} (hx : x ∈ p.active r₀)
    (hinit : x.part.init? = none) : (p.connected host g r x).value r = (p.connected host g r' x).value r' := by
  have hpart := part_mem_of_active hx
  cases x with
  | doneInit | enable | fired | simTime => cases hinit
  | gateSource c => exact h.clock
  | gateEnable c =>
    have hnot : host.reset.not.value r = host.reset.not.value r' := Expr.value_prim_congr fun e he => by
      rw [List.mem_singleton.1 he]
      exact h.reset
    show (Expr.conj [c.enable, p.finishing, host.reset.not, p.domains.doneInit]).value r = Expr.value _ r'
    refine Expr.value_conj_congr fun e he => ?_
    simp only [List.mem_cons, List.not_mem_nil, or_false] at he
    rcases he with rfl | rfl | rfl | rfl
    · exact h.reg (enable_mem_parts.2 (gate_mem_parts.1 hpart)) rfl
    · exact hfin
    · exact hnot
    · exact h.reg doneInit_mem_parts rfl
  | accept d =>
    refine Expr.value_prim_congr fun e he => ?_
    rcases List.mem_pair.1 he with rfl | rfl
    · exact hfin
    · exact h.not_fired (hostPort_mem_parts.1 hpart)
  | offer d =>
    have hd : d ∈ p.interface.outputs := by simpa [active] using hx
    exact h.offer hd
  | clockReady group => exact h.dataDone hoffers
  | finishing =>
    refine Expr.value_prim_congr fun e he => ?_
    rcases List.mem_pair.1 he with rfl | rfl
    · exact h.dataDone hoffers
    · exact h.validity
  | stamp d =>
    cases htime : p.domains.simTime with
    | none => simp [active, htime] at hx
    | some t =>
      simp only [Plan.connected, ClockDomains.time?, htime, Option.map_some, Option.getD_some]
      exact h.reg (simTime_mem_parts.2 htime) rfl

end Plan.Alike

/-! ### Passes come to rest -/

namespace Module.Planned

variable {m : Module} {a : Analysis} {config : Config} {p : Plan} {host : HostSignals} {g : Connectivity}
  {st env r r' : Valuation} {d : DataChannel} {x : Rule}

/-- The host ports that the configuration names are taken before anything is declared. -/
theorem outside_ofConfig (h : m.Planned a config p) : p.Outside (.ofConfig config) := by
  rintro name hname y hy rfl
  refine h.part_not_mem hy ?_
  rcases List.mem_pair.1 hname with hname | hname <;> simp [initialNames, NameSupply.addAll, hname]

theorem alike_pass (h : m.Planned a config p) (hout : p.Outside host) :
    p.Alike host (p.pass host g st env r) (p.pass host g st env r') := by
  have hr : p.Shows env (p.pass host g st env r) := h.shows_pass
  have hr' : p.Shows env (p.pass host g st env r') := h.shows_pass
  refine ⟨?_, ?_, ?_, ?_, ?_, ?_⟩
  · intro y init hy hinit
    rw [Expr.value_ref, Expr.value_ref, h.pass_reg hy hinit, h.pass_reg hy hinit]
  · intro d hd
    exact (hr.paces.valid hd).trans (hr'.paces.valid hd).symm
  · intro d hd
    exact (hr.ready hd).trans (hr'.ready hd).symm
  · exact hr.paces.validity.trans hr'.paces.validity.symm
  · exact (hr.hostClock hout).trans (hr'.hostClock hout).symm
  · exact (hr.hostReset hout).trans (hr'.hostReset hout).symm

theorem pass_wire (h : m.Planned a config p) {r₀ : Valuation} (hx : x ∈ p.active r₀) (hinit : x.part.init? = none) :
    (p.place x).value (p.pass host g st env r) = (p.connected host g r x).value r := by
  refine h.pass_place (Plan.part_mem_of_active hx) hinit ?_
  cases x with
  | accept d | offer d => simpa [Plan.active, Plan.drives] using hx
  | stamp d =>
    have hstamp : p.domains.simTime.isSome = true ∧ d ∈ p.interface.outputs ∧ d.timestamped = true := by
      simpa [Plan.active] using hx
    simpa [Plan.drives] using ⟨hstamp.2.1, hstamp.2.2, hstamp.1⟩
  | doneInit | enable | fired | simTime | gateSource | gateEnable | clockReady | finishing => rfl

/-- After four passes every wire holds what is connected to it: offers rest from the second pass on, the finishing wire
from the third and all else from the fourth. -/
theorem connected_pass (h : m.Planned a config p) (hout : p.Outside host) (hx : x ∈ p.active r)
    (hinit : x.part.init? = none) :
    let pass := p.pass host g st env
    (p.connected host g (pass (pass (pass r'))) x).value (pass (pass (pass r'))) =
      (p.connected host g (pass (pass (pass (pass r')))) x).value (pass (pass (pass (pass r')))) := by
  intro pass
  have halike : ∀ r r', p.Alike host (pass r) (pass r') := fun r r' => h.alike_pass hout
  have hoffers : ∀ r r', ∀ d ∈ p.interface.outputs, d.valid.value (pass (pass r)) = d.valid.value (pass (pass r')) := by
    intro r r' d hd
    have hactive : Rule.offer d ∈ p.active r := by simp [Plan.active, hd]
    calc d.valid.value (pass (pass r)) = (p.connected host g (pass r) (.offer d)).value (pass r) :=
          h.pass_wire hactive rfl
      _ = (p.connected host g (pass r') (.offer d)).value (pass r') := (halike r r').offer hd
      _ = d.valid.value (pass (pass r')) := (h.pass_wire hactive rfl).symm
  have hfin : ∀ r r', p.finishing.value (pass (pass (pass r))) = p.finishing.value (pass (pass (pass r'))) := by
    intro r r'
    have hactive : Rule.finishing ∈ p.active r := by simp [Plan.active]
    calc p.finishing.value (pass (pass (pass r)))
        = (p.dataDone.and p.interface.clock.validity).value (pass (pass r)) := h.pass_wire hactive rfl
      _ = (p.dataDone.and p.interface.clock.validity).value (pass (pass r')) := by
        refine Expr.value_prim_congr fun e he => ?_
        rcases List.mem_pair.1 he with rfl | rfl
        · exact (halike _ _).dataDone (hoffers r r')
        · exact (halike _ _).validity
      _ = p.finishing.value (pass (pass (pass r'))) := (h.pass_wire hactive rfl).symm
  exact (halike _ _).connected (hoffers _ _) (hfin _ _) hx hinit

theorem flagValue_congr (h : m.Planned a config p) {c : ClockDomain} (hc : c ∈ p.domains.all)
    (hbits : ∀ group, p.interface.clock = .channel group → ∀ path,
      r (sinkName group.name) ("bits" :: path) = r' (sinkName group.name) ("bits" :: path)) :
    c.flagValue.value r = c.flagValue.value r' := by
  obtain ⟨-, hvalue⟩ := h.domain_spec hc
  cases hclock : p.interface.clock with
  | virtual clock =>
    rw [hclock] at hvalue
    rw [← Except.ok.inj hvalue, Expr.bit, Expr.value_literal, Expr.value_literal]
  | channel group =>
    rw [hclock] at hvalue
    have hpayload : (Channel.clock (.channel group)).payload c.clock = .ok c.flagValue := hvalue
    obtain ⟨hostPort, group', rest, hcarried, -, heq, -⟩ := Channel.payload_ok hpayload
    obtain ⟨rfl, rfl⟩ := Prod.mk.inj (Option.some.inj hcarried)
    rw [heq, Expr.value_follow, Expr.value_follow]
    funext path
    exact hbits group hclock _

theorem pass_flag (h : m.Planned a config p) {c : ClockDomain} (hc : c ∈ p.domains.all) :
    p.pass host g st env r c.flag = c.flagValue.value env := by
  funext path
  exact h.pass_undriven (y := .flag c) (Plan.flag_mem_parts.2 hc) rfl fun x hx => by cases hx

/-- Whatever the registers and the environment hold, the wires can settle. -/
theorem exists_settled (h : m.Planned a config p) (hout : p.Outside host) (retained : List Port) (st env : Valuation) :
    ∃ r, Settled (p.protocol retained host config) st r ∧ p.Shows env r := by
  let pass := p.pass host (a.connectivity m.name) st env
  have hshows : p.Shows env (pass (pass (pass (pass env)))) := h.shows_pass
  refine ⟨pass (pass (pass (pass env))), ⟨?_, ?_, ?_⟩, hshows⟩
  · intro name type clock reset init hreg
    obtain ⟨y, hy, rfl, hinit, -⟩ := Plan.part_of_reg hreg
    exact h.pass_reg hy hinit
  · intro name value hnode
    obtain ⟨c, hc, rfl, rfl⟩ := Plan.domain_of_node hnode
    refine (h.pass_flag hc).trans (h.flagValue_congr hc fun group hgroup path => ?_).symm
    exact hshows.clock (by rw [hgroup]; rfl) (by decide) path
  · -- any other place is driven by an active rule, and after four passes it holds what the rule connects to it
    intro loc value hdriver hloc
    have hmem := Stmt.mem_of_driver? hdriver
    rw [Plan.connections_protocol retained host config _ h.dependencies] at hmem
    obtain ⟨x, hx, heq⟩ := List.mem_map.1 hmem
    obtain ⟨rfl, rfl⟩ := Prod.mk.inj heq
    cases hinit : x.part.init? with
    | none => exact (h.pass_wire hx hinit).trans (h.connected_pass hout hx hinit)
    | some init =>
      obtain ⟨type, hreg⟩ := Plan.reg_of_part retained host config (Plan.part_mem_of_active hx) hinit
      exact absurd (Plan.place_reg hinit) (hloc _ _ _ _ _ hreg)

end Module.Planned

namespace Module.Modelled

variable {m : Module} {a : Analysis} {config : Config} {t : TokenModel}

theorem exists_settled (h : m.Modelled a (.ofConfig config) config t) (st env : Valuation) :
    ∃ r, Settled t.protocol st r ∧ t.plan.Shows env r := by
  rw [h.protocol_eq]
  exact h.planned.exists_settled h.planned.outside_ofConfig _ st env

theorem reset_of_shows (h : m.Modelled a (.ofConfig config) config t) {env r : Valuation} (hr : t.plan.Shows env r) :
    (HostSignals.ofConfig config).reset.isHigh r = (HostSignals.ofConfig config).reset.isHigh env :=
  Expr.isHigh_congr (hr.hostReset h.planned.outside_ofConfig)

theorem exists_cycles (h : m.Modelled a (.ofConfig config) config t) (clock : Expr) (st : Valuation)
    (envs : List Valuation) : ∃ rs, IsRun t.protocol clock st rs ∧ List.Forall₂ t.plan.Shows envs rs := by
  induction envs generalizing st with
  | nil => exact ⟨[], trivial, .nil⟩
  | cons env envs ih =>
    obtain ⟨r, hs, hr⟩ := h.exists_settled st env
    obtain ⟨rs, hrun, hrs⟩ := ih (nextState t.protocol clock r)
    exact ⟨r :: rs, ⟨hs, hrun⟩, .cons hr hrs⟩

theorem exists_afterReset (h : m.Modelled a (.ofConfig config) config t) :
    ∃ st, AfterReset t.protocol (HostSignals.ofConfig config).clock (HostSignals.ofConfig config).reset st := by
  obtain ⟨r, hs, hr⟩ := h.exists_settled (fun _ _ => 0) fun _ _ => 1
  exact ⟨_, _, r, hs, h.reset_of_shows hr, rfl⟩

/-- There is a run for everything that the environment may do while host reset is low. -/
theorem exists_run (h : m.Modelled a (.ofConfig config) config t) {envs : List Valuation}
    (hlow : ∀ env ∈ envs, (HostSignals.ofConfig config).reset.isHigh env = false) :
    ∃ st rs, t.Run (.ofConfig config) st rs ∧ List.Forall₂ t.plan.Shows envs rs := by
  obtain ⟨st, hst⟩ := h.exists_afterReset
  obtain ⟨rs, hrun, hrs⟩ := h.exists_cycles (HostSignals.ofConfig config).clock st envs
  refine ⟨st, rs, ⟨hst, hrun, fun r' hr' => ?_⟩, hrs⟩
  obtain ⟨env, henv, hshows⟩ := exists_mem_left hrs hr'
  exact (h.reset_of_shows hshows).trans (hlow env henv)

end Module.Modelled

/-! ### Willing partners -/

namespace Plan.Obeys

variable {p : Plan} {host : HostSignals} {g : Connectivity} {st r st' : Valuation}

/-- With all inputs there, an output that has not fired is valid, so it fires as soon as it is ready. -/
theorem firedOrFiring_eq (h : p.Obeys host g st r st') (hinputs : ∀ d ∈ p.interface.inputs, d.valid.isHigh r = true)
    {d : DataChannel} (hd : d ∈ p.interface.outputs) :
    d.firedOrFiring.isHigh r = (d.isFired.isHigh r || d.ready.isHigh r) := by
  have hsources : (p.interface.sources g d).all (·.valid.isHigh r) = true :=
    List.all_eq_true.2 fun d' hd' => hinputs d' (Interface.mem_inputs_of_sources hd')
  rw [DataChannel.firedOrFiring, Expr.isHigh_or, DataChannel.isHigh_isFiring, DataChannel.transfers, h.offer hd,
    hsources]
  cases d.isFired.isHigh r <;> rfl

/-- The data channels are done when every input is there and every output has been taken or can be. -/
theorem dataDone_eq (h : p.Obeys host g st r st') : p.dataDone.isHigh r =
    (p.interface.outputs.all (fun d => d.isFired.isHigh r || d.ready.isHigh r) &&
      p.interface.inputs.all (·.valid.isHigh r)) := by
  rw [dataDone, Expr.isHigh_conj, List.all_append, List.all_map, List.all_map]
  cases hinputs : p.interface.inputs.all (·.valid.isHigh r) with
  | false =>
    have hnone : p.interface.inputs.all ((fun e => e.isHigh r) ∘ fun d => d.valid) = false := hinputs
    rw [hnone, Bool.and_false, Bool.and_false]
  | true =>
    have hall : p.interface.inputs.all ((fun e => e.isHigh r) ∘ fun d => d.valid) = true := hinputs
    rw [hall]
    congr 1
    rw [Bool.eq_iff_iff, List.all_eq_true, List.all_eq_true]
    refine forall₂_congr fun d hd => ?_
    rw [Function.comp_apply, h.firedOrFiring_eq (List.all_eq_true.1 hinputs) hd]

theorem finishing_eq (h : p.Obeys host g st r st') : p.finishing.isHigh r =
    (p.interface.outputs.all (fun d => d.isFired.isHigh r || d.ready.isHigh r) &&
      p.interface.inputs.all (·.valid.isHigh r) && p.interface.clock.validity.isHigh r) := by
  rw [h.finishing, h.dataDone_eq]

end Plan.Obeys

/-- An environment in which every token is there at once, and taken at once. -/
def Config.eager (config : Config) : Valuation := fun name path => if name = config.hostReset ∧ path = [] then 0 else 1

theorem Config.eager_field {config : Config} (name field : String) :
    (Expr.field (.ref name) field).isHigh config.eager = true := by
  simp [Expr.isHigh, Expr.value_field, Config.eager]

theorem Config.reset_eager {config : Config} : (HostSignals.ofConfig config).reset.isHigh config.eager = false := by
  simp [HostSignals.ofConfig, Expr.isHigh, Config.eager]

namespace Module.Modelled

variable {m : Module} {a : Analysis} {config : Config} {t : TokenModel} {st r : Valuation}

theorem finishing_eager (h : m.Modelled a (.ofConfig config) config t) (hs : Settled t.protocol st r)
    (hr : t.plan.Paces config.eager r) : t.plan.finishing.isHigh r = true := by
  rw [(h.obeys hs).finishing_eq, Bool.and_eq_true, Bool.and_eq_true, List.all_eq_true, List.all_eq_true]
  refine ⟨⟨fun d hd => ?_, fun d hd => ?_⟩, ?_⟩
  · have hready : d.ready.isHigh r = true := (Expr.isHigh_congr (hr.ready hd)).trans (Config.eager_field _ _)
    rw [hready, Bool.or_true]
  · exact (Expr.isHigh_congr (hr.valid hd)).trans (Config.eager_field _ _)
  · rw [Expr.isHigh_congr hr.validity]
    cases t.plan.interface.clock with
    | virtual clock => exact Expr.isHigh_bit
    | channel group => exact Config.eager_field _ _

/-- With willing partners every host cycle ends a target cycle, for as long as one likes. -/
theorem exists_eager_run (h : m.Modelled a (.ofConfig config) config t) (n : Nat) :
    ∃ st rs, t.Run (.ofConfig config) st rs ∧ rs.length = n ∧ ∀ r ∈ rs, t.plan.finishing.isHigh r = true := by
  have hlow : ∀ env ∈ List.replicate n config.eager, (HostSignals.ofConfig config).reset.isHigh env = false := by
    intro env henv
    rw [List.eq_of_mem_replicate henv]
    exact Config.reset_eager
  obtain ⟨st, rs, hrun, hshows⟩ := h.exists_run hlow
  refine ⟨st, rs, hrun, ?_, ?_⟩
  · rw [← hshows.length_eq, List.length_replicate]
  · intro r hr
    obtain ⟨st', hs⟩ := hrun.cycles.settled hr
    obtain ⟨env, henv, hshown⟩ := exists_mem_left hshows hr
    rw [List.eq_of_mem_replicate henv] at hshown
    exact h.finishing_eager hs hshown.paces

end Module.Modelled

end TokenCircuit
