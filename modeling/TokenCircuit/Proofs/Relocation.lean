import TokenCircuit.Demo.Stages
import TokenCircuit.Proofs.Channelizing
import TokenCircuit.Proofs.Hygiene
import TokenCircuit.Proofs.Payloads
import TokenCircuit.Proofs.Placing

/-!
# Where recorded ports are found

The rename table tells the new place of a port by a dotted name: a host port and the fields below it, or a gate and its
output. Names without dots make such a name readable (`dottedParts_intercalate`). The first part is then found among the
ports of the new module, since the host ports of channels have names of their own, and the fields lead through the type
of the host port to the type of the old port.
-/

namespace TokenCircuit

/-! ### Dotted names -/

/-- A name that can be a part of a dotted name. -/
def DotFree (name : String) : Prop := '.' ∉ name.toList

instance (name : String) : Decidable (DotFree name) := inferInstanceAs (Decidable (_ ∉ _))

/-- The parts of a dotted name. -/
def dottedParts (name : String) : List String := (name.toList.splitOn '.').map String.ofList

theorem dottedParts_intercalate {parts : List String} (h : ∀ part ∈ parts, DotFree part) (hne : parts ≠ []) :
    dottedParts (".".intercalate parts) = parts := by
  have hsplit : (parts.map String.toList).map String.ofList = parts := by simp [Function.comp_def]
  rw [dottedParts, String.toList_intercalate]
  have hdots : ".".toList = ['.'] := rfl
  rw [hdots, List.splitOn_intercalate '.' ?_ (by simpa using hne), hsplit]
  intro part hpart
  obtain ⟨name, hname, rfl⟩ := List.mem_map.1 hpart
  exact h name hname

namespace DotFree

theorem append {a b : String} (ha : DotFree a) (hb : DotFree b) : DotFree (a ++ b) := by
  rw [DotFree, String.toList_append, List.mem_append, not_or]
  exact ⟨ha, hb⟩

theorem of_isSuffix {a b : String} (hb : DotFree b) (h : a.toList <:+ b.toList) : DotFree a :=
  fun hdot => hb (h.subset hdot)

theorem hostPortName {channel : String} (h : DotFree channel) (direction : Direction) :
    DotFree (hostPortName channel direction) := by
  cases direction with
  | input => exact h.append (by decide)
  | output => exact h.append (by decide)

theorem numbered {base : String} (h : DotFree base) (k : Nat) : DotFree (numbered base k) := by
  have hdigits : DotFree k.repr := by
    intro hdot
    have hdigit := Nat.isDigit_of_mem_toDigits (by decide) (by decide) (by simpa using hdot : '.' ∈ Nat.toDigits 10 k)
    cases hdigit
  exact (h.append (by decide)).append hdigits

theorem freshName {base : String} (h : DotFree base) (s : NameSupply) : DotFree (s.freshName base) := by
  unfold NameSupply.freshName
  split
  · obtain ⟨i, -, heq, -⟩ := @NameSupply.freeVariant_spec s base s.used.size 0
    rw [heq]
    exact h.numbered _
  · exact h

end DotFree

/-! ### Host ports -/

namespace Module.Planned

variable {m : Module} {a : Analysis} {config : Config} {p : Plan} {c : Channel} {hostPort : String} {g : PortGroup}

theorem hostPort_not_mem (h : m.Planned a config p) (hc : c ∈ p.interface.channels)
    (hcarried : c.carried? = some (hostPort, g)) : hostPort ∉ m.initialNames config := by
  simp only [Interface.channels, List.mem_cons, List.mem_append, List.mem_map] at hc
  rcases hc with rfl | ⟨d, hd, rfl⟩ | ⟨d, hd, rfl⟩
  · cases hclock : p.interface.clock with
    | virtual clock => rw [hclock] at hcarried; cases hcarried
    | channel g' =>
      rw [hclock] at hcarried
      cases hcarried
      exact h.part_not_mem (Plan.clockPort_mem_parts.2 (by rw [hclock]; rfl))
  · cases hcarried
    exact h.part_not_mem (Plan.hostPort_mem_parts.2 (List.mem_append_left _ hd))
  · cases hcarried
    exact h.part_not_mem (Plan.hostPort_mem_parts.2 (List.mem_append_right _ hd))

theorem nodup_hostPorts (h : m.Planned a config p) : (p.interface.data.map (·.hostPort) ++
    p.interface.clock.group?.toList.map fun g => sinkName g.name).Nodup := by
  obtain ⟨t, hgrows⟩ := h.names
  have hnodup := hgrows.nodup
  rw [Plan.map_nameOf_parts, List.append_assoc] at hnodup
  exact (List.nodup_append_comm.1 hnodup.of_append_left)

end Module.Planned

namespace Module.Modelled

variable {m : Module} {a : Analysis} {host : HostSignals} {config : Config} {t : TokenModel} {c : Channel}
  {hostPort : String} {g : PortGroup}

/-- The host port of a channel is found by its name and has the channel's payload. -/
theorem port?_hostPort (h : m.Modelled a host config t) (hc : c ∈ t.plan.interface.channels)
    (hcarried : c.carried? = some (hostPort, g)) :
    ∃ type, g.payloadType = .ok type ∧ t.module.port? hostPort = some ⟨c.direction, hostPort, .decoupled type⟩ := by
  obtain ⟨ports, hports, heq⟩ := h.ports
  have hnodup : (ports.map (·.name)).Nodup := by
    rw [Plan.map_name_channelPorts hports]
    exact h.planned.nodup_hostPorts
  obtain ⟨found, hfound, hmap⟩ := bind_eq_ok.1 hports
  have hordered : c ∈ t.plan.interface.hostOrder := by
    simp only [Interface.channels, Interface.hostOrder, List.mem_cons, List.mem_append, List.not_mem_nil, or_false]
      at hc ⊢
    tauto
  obtain ⟨port?, hmem, hport⟩ := exists_mem_right (mapM_eq_ok.1 hfound) hordered
  rcases Channel.hostPort?_ok hport with ⟨hnone, -⟩ | ⟨hostPort', g', type, hsome, htype, rfl⟩
  · rw [hcarried] at hnone
    cases hnone
  · rw [hcarried] at hsome
    cases hsome
    refine ⟨type, htype, ?_⟩
    have hmem : ⟨c.direction, hostPort, .decoupled type⟩ ∈ ports := by
      rw [← Except.ok.inj hmap]
      exact List.mem_filterMap.2 ⟨_, hmem, rfl⟩
    have hhost : config.hostPorts.find? (·.name == hostPort) = none := by
      refine List.find?_eq_none.2 fun port hport hname => h.planned.hostPort_not_mem hc hcarried (mem_initialNames.2 ?_)
      simp only [Config.hostPorts, List.mem_cons, List.not_mem_nil, or_false] at hport
      rcases hport with rfl | rfl
      · exact .inl (beq_iff_eq.1 hname).symm
      · exact .inr (.inl (beq_iff_eq.1 hname).symm)
    have hfind := find?_of_nodup hnodup hmem
    show t.ports.find? (·.name == hostPort) = _
    rw [heq, List.find?_append, hhost, hfind]
    rfl

end Module.Modelled

/-! ### Locations in a token-driven module -/

/-- The names of all channels. -/
def Analysis.channelNames (a : Analysis) : List String :=
  (a.modules.values.flatMap fun facts => facts.inputs.keys ++ facts.outputs.keys) ++ a.topChannels.keys

theorem Analysis.mem_channelNames {a : Analysis} {module name : String} {direction : Direction} {spec : ChannelSpec}
    (h : (name, spec) ∈ (a.specs module direction).entries) : name ∈ a.channelNames := by
  have hkey : name ∈ (a.facts module).inputs.keys ++ (a.facts module).outputs.keys := by
    cases direction with
    | input => exact List.mem_append_left _ (List.mem_map_of_mem (f := Prod.fst) h)
    | output => exact List.mem_append_right _ (List.mem_map_of_mem (f := Prod.fst) h)
  unfold facts at hkey
  cases hfacts : a.modules.get? module with
  | none => rw [hfacts] at hkey; cases hkey
  | some facts =>
    rw [hfacts] at hkey
    exact List.mem_append_left _ (List.mem_flatMap.2 ⟨facts, OrderedMap.mem_values_iff.2 ⟨module, hfacts⟩, hkey⟩)

namespace Module

/-- The dotted name leads from a port of the module through its fields to a signal of the given type. -/
def FieldAt (m : Module) (reference : String) (type : SignalType) : Prop :=
  ∃ first path port, dottedParts reference = first :: path ∧ m.port? first = some port ∧
    port.type.follow? path = some type

/-- The dotted name is that of the gated clock of a gate in the module. -/
def GateAt (m : Module) (config : Config) (reference : String) : Prop :=
  ∃ gate, dottedParts reference = [gate, "O"] ∧ .inst gate config.clockGate ∈ m.body.preorder

end Module

theorem Channel.location_ok {c : Channel} {domains : ClockDomains} {port : String} {placement : Placement}
    (h : c.placement domains port = .ok (some placement)) :
    (∃ hostPort g path, c.carried? = some (hostPort, g) ∧ g.payloadPath port = .ok path ∧
      placement.location = .channel hostPort path) ∨
    ∃ clock d, c = .clock (.virtual clock) ∧ domains.domain? port = some d ∧
      placement.location = .gatedClock d.gatedClock := by
  cases c with
  | clock source =>
    cases source with
    | channel g =>
      obtain ⟨path, hpath, hfound⟩ := map_eq_ok.1 h
      obtain ⟨d, -, rfl⟩ := Option.map_eq_some_iff.1 hfound
      exact .inl ⟨_, g, path, rfl, hpath, rfl⟩
    | virtual clock =>
      obtain ⟨d, hd, rfl⟩ := Option.map_eq_some_iff.1 (Except.ok.inj h)
      exact .inr ⟨clock, d, rfl, hd, rfl⟩
  | input d =>
    obtain ⟨path, hpath, hfound⟩ := map_eq_ok.1 h
    cases hfound
    exact .inl ⟨_, _, path, rfl, hpath, rfl⟩
  | output d =>
    obtain ⟨path, hpath, hfound⟩ := map_eq_ok.1 h
    cases hfound
    exact .inl ⟨_, _, path, rfl, hpath, rfl⟩

/-- The parts of a place in a channel, unless there are dots in the names that it is made of. -/
theorem PortLocation.dottedParts_reference {channel port hostPort : String} {ports path : List String}
    {timestamped : Bool} (hhost : DotFree hostPort) (hport : DotFree port)
    (hpath : Payload.path channel ports port timestamped = .ok path) :
    dottedParts (PortLocation.channel hostPort path).reference = hostPort :: path := by
  refine dottedParts_intercalate (fun part hpart => ?_) (List.cons_ne_nil _ _)
  rcases List.mem_cons.1 hpart with rfl | hpart
  · exact hhost
  · rcases Payload.mem_path hpath hpart with rfl | rfl | hsuffix
    · decide
    · decide
    · exact hport.of_isSuffix hsuffix

/-- The gate of a clock has a name without dots if the clock has. -/
theorem Module.Planned.dottedParts_gatedClock {m : Module} {a : Analysis} {config : Config} {p : Plan}
    (h : m.Planned a config p) {clock : String} {d : ClockDomain} (hd : p.domains.domain? clock = some d)
    (hclock : DotFree clock) : dottedParts (PortLocation.gatedClock d.gatedClock).reference = [d.buffer, "O"] := by
  obtain ⟨s, hbuffer⟩ := h.domains.buffer d (OrderedMap.mem_values_iff.2 ⟨clock, hd⟩)
  obtain ⟨hname, -⟩ := h.domains.describe clock d hd
  have hdotFree : DotFree d.buffer := by
    rw [hbuffer, hname]
    exact (hclock.append (by decide)).freshName s
  have htext : (PortLocation.gatedClock d.gatedClock).reference = ".".intercalate [d.buffer, "O"] := by
    rw [String.intercalate_cons_cons, String.intercalate_singleton]
    rfl
  rw [htext]
  refine dottedParts_intercalate (fun part hpart => ?_) (List.cons_ne_nil _ _)
  rcases List.mem_cons.1 hpart with rfl | hpart
  · exact hdotFree
  · rw [List.mem_singleton.1 hpart]
    decide

theorem TokenModel.mem_preorder_of_declarations {t : TokenModel} {s s' : Stmt} (hs : s ∈ t.declarations)
    (hs' : s' ∈ s.preorder) : s' ∈ t.module.body.preorder := by
  rw [TokenModel.module, Stmt.preorder, Stmt.preorderList_eq_flatMap]
  refine List.mem_cons_of_mem _ (List.mem_flatMap.2 ⟨s, ?_, hs'⟩)
  exact List.mem_append_left _ (List.mem_append_left _ hs)

namespace Module.Modelled

variable {m : Module} {a : Analysis} {host : HostSignals} {config : Config} {t : TokenModel}

theorem gateAt_gatedClock (h : m.Modelled a host config t) {clock : String} {d : ClockDomain}
    (hd : t.plan.domains.domain? clock = some d) (hclock : DotFree clock) :
    t.module.GateAt config (PortLocation.gatedClock d.gatedClock).reference := by
  refine ⟨d.buffer, h.planned.dottedParts_gatedClock hd hclock, ?_⟩
  have hgate : .inst d.buffer config.clockGate ∈ t.declarations := by
    rw [h.declarations]
    exact Plan.mem_declarations.2 (.inl ⟨.gate d, Plan.gate_mem_parts.2 (OrderedMap.mem_values_iff.2 ⟨clock, hd⟩), rfl⟩)
  exact TokenModel.mem_preorder_of_declarations hgate (List.mem_singleton_self _)

/-- A location in the layout is a field of a host port that has the type of the port, or the gated clock of the only
clock input. -/
theorem layout_ok (h : m.Modelled a host config t) (hnames : m.ownNames.Nodup)
    (hdots : ∀ name ∈ m.ownNames, DotFree name) (hchannels : ∀ name ∈ a.channelNames, DotFree name) {port : String}
    {location : PortLocation} (hget : t.layout.get? port = some location) :
    ∃ q, m.port? port = some q ∧ (t.module.FieldAt location.reference (Payload.carrier q) ∨
      (m.clockInputs = [q] ∧ (∀ entry ∈ (a.inputs m.name).entries, m.carriesClocks entry.2 = false) ∧
        t.module.GateAt config location.reference)) := by
  rw [TokenModel.get?_layout] at hget
  obtain ⟨placement, hplaced, rfl⟩ := Option.map_eq_some_iff.1 hget
  obtain ⟨c, hc, hlists, hplacement⟩ := h.planned.exists_channel_of_placed hplaced
  obtain ⟨q, hq, rfl⟩ := List.mem_map.1 hlists
  have hmem : q ∈ m.ports := h.planned.mem_ports hc hq
  have hdotFree : DotFree q.name := hdots _ (List.mem_append_left _ (List.mem_map_of_mem hmem))
  refine ⟨q, find?_of_nodup hnames.of_append_left hmem, ?_⟩
  rcases Channel.location_ok hplacement with
    ⟨hostPort, g, path, hcarried, hpath, hlocation⟩ | ⟨clock, d, rfl, hd, hlocation⟩
  · obtain ⟨direction, spec, hspec, hname, -⟩ := h.planned.spec_of_carried hc hcarried
    obtain ⟨type, htype, hfound⟩ := h.port?_hostPort hc hcarried
    rw [Channel.ports_of_carried hcarried] at hq
    refine .inl ⟨hostPort, path, _, ?_, hfound, Payload.follow?_path hq hpath htype⟩
    have hhost : DotFree hostPort := hname ▸ (hchannels _ (Analysis.mem_channelNames hspec)).hostPortName direction
    rw [hlocation, PortLocation.dottedParts_reference hhost hdotFree hpath]
  · obtain ⟨hinputs, hnone⟩ := h.planned.virtual_ok hc
    obtain rfl : q = clock := List.mem_singleton.1 hq
    refine .inr ⟨hinputs, hnone, ?_⟩
    rw [hlocation]
    exact h.gateAt_gatedClock hd hdotFree

end Module.Modelled

/-! ### Locations in the main module -/

/-- The names of the host ports of the top channels. -/
def Analysis.topHostPorts (a : Analysis) : List String :=
  a.topChannels.entries.map fun entry => hostPortName entry.1 entry.2.direction

theorem Analysis.nodup_topHostPorts (a : Analysis) : a.topHostPorts.Nodup :=
  List.pairwise_map.2 ((List.pairwise_map.1 a.topChannels.nodup).imp fun hne heq => hne (hostPortName_injective heq).1)

namespace Module

variable {m rewired : Module} {a : Analysis} {config : Config} {channel : String} {c : TopChannel}

theorem topChannelPort_ok {port : Port} (h : m.topChannelPort channel c = .ok port) :
    ∃ ports type, m.resolvePorts channel c.ports = .ok ports ∧ Payload.type channel ports c.timestamped = .ok type ∧
      port = ⟨c.direction, hostPortName channel c.direction, .decoupled type⟩ := by
  obtain ⟨ports, hports, h⟩ := bind_eq_ok.1 h
  obtain ⟨type, htype, h⟩ := bind_eq_ok.1 h
  exact ⟨ports, type, hports, mapError_eq_ok.1 htype, (Except.ok.inj h).symm⟩

theorem map_name_topChannelPorts {entries : List (String × TopChannel)} {ports : List Port}
    (h : List.Forall₂ (fun entry port => m.topChannelPort entry.1 entry.2 = .ok port) entries ports) :
    ports.map (·.name) = entries.map fun entry => hostPortName entry.1 entry.2.direction := by
  induction h with
  | nil => rfl
  | cons hport _ ih =>
    obtain ⟨_, _, -, -, rfl⟩ := topChannelPort_ok hport
    rw [List.map_cons, List.map_cons, ih]

theorem name_portOr {fallback : Port} : (m.portOr fallback).name = fallback.name := by
  unfold portOr
  cases hfound : m.port? fallback.name with
  | none => rfl
  | some port => simpa using List.find?_some hfound

/-- The host port of a top channel is found by its name, if no other port has it. -/
theorem Rewired.port?_hostPort (h : m.Rewired a config rewired) (hentry : (channel, c) ∈ a.topChannels.entries)
    (hown : hostPortName channel c.direction ∉ m.ownNames)
    (hhost : hostPortName channel c.direction ∉ [config.hostClock, config.hostReset]) :
    ∃ ports type, m.resolvePorts channel c.ports = .ok ports ∧ Payload.type channel ports c.timestamped = .ok type ∧
      rewired.port? (hostPortName channel c.direction) =
        some ⟨c.direction, hostPortName channel c.direction, .decoupled type⟩ := by
  obtain ⟨channelPorts, hall, hports⟩ := h.ports
  obtain ⟨port, hmem, hport⟩ := exists_mem_right hall hentry
  obtain ⟨ports, type, hresolved, htype, rfl⟩ := topChannelPort_ok hport
  refine ⟨ports, type, hresolved, htype, ?_⟩
  have hnodup : (channelPorts.map (·.name)).Nodup := by
    rw [map_name_topChannelPorts hall]
    exact a.nodup_topHostPorts
  have hfirst : (config.hostPorts.map m.portOr).find? (·.name == hostPortName channel c.direction) = none := by
    refine List.find?_eq_none.2 fun port hport hname => hhost ?_
    obtain ⟨fallback, hfallback, rfl⟩ := List.mem_map.1 hport
    rw [beq_iff_eq, name_portOr] at hname
    rw [← hname]
    exact List.mem_map_of_mem (f := Port.name) hfallback
  have hsecond : (m.survivingPorts a config).find? (·.name == hostPortName channel c.direction) = none := by
    refine List.find?_eq_none.2 fun port hport hname => hown ?_
    rw [← beq_iff_eq.1 hname]
    exact List.mem_append_left _ (List.mem_map_of_mem (List.mem_filter.1 hport).1)
  have hfind := find?_of_nodup hnodup hmem
  rw [port?, hports, List.find?_append, List.find?_append, hfirst, hsecond, hfind]
  rfl

end Module

/-! ### The rename table as a whole -/

namespace Circuit

/-- The names in each module are distinct, no name holds a dot, and the host ports of top channels have names that are
new to the main module. -/
structure PlainNames (c : Circuit) (a : Analysis) (config : Config) : Prop where
  distinct : ∀ m ∈ c.modules, m.ownNames.Nodup
  dotFree : ∀ m ∈ c.modules, ∀ name ∈ m.ownNames, DotFree name
  channels : ∀ name ∈ a.channelNames, DotFree name
  top : ∀ m, c.module? c.main = some m → ∀ entry ∈ a.topChannels.entries,
    hostPortName entry.1 entry.2.direction ∉ m.ownNames ++ [config.hostClock, config.hostReset]

variable {c : Circuit} {a : Analysis} {config : Config} {records : List (Target × Option Target)} {out : Channelization}

theorem PlainNames.of_main {main : Module} (hmain : c.module? c.main = some main)
    (hdistinct : ∀ m ∈ c.modules, m.ownNames.Nodup) (hdots : ∀ m ∈ c.modules, ∀ name ∈ m.ownNames, DotFree name)
    (hchannels : ∀ name ∈ a.channelNames, DotFree name) (hhost : ∀ entry ∈ a.topChannels.entries,
      hostPortName entry.1 entry.2.direction ∉ main.ownNames ++ [config.hostClock, config.hostReset]) :
    c.PlainNames a config where
  distinct := hdistinct
  dotFree := hdots
  channels := hchannels
  top m hm := by
    obtain rfl : main = m := Option.some.inj (hmain.symm.trans hm)
    exact hhost

/-- A port in a top channel is found below the host port of that channel. -/
theorem MainRewired.record_ok {top rewired : Module} (h : c.MainRewired a config top rewired records)
    (hnames : c.PlainNames a config) {old new : Target} (hrecord : (old, some new) ∈ records) :
    old.module = c.main ∧ new.module = c.main ∧
      ∃ port, top.port? old.reference = some port ∧ rewired.FieldAt new.reference (Payload.carrier port) := by
  obtain ⟨placed, hall, rfl⟩ := h.records
  rcases List.mem_append.1 hrecord with hrecord | hrecord
  · obtain ⟨_, hmember, hplaced⟩ := exists_mem_left hall hrecord
    obtain ⟨⟨channel, tc⟩, hentry, hmember⟩ := List.mem_flatMap.1 hmember
    obtain ⟨port, hport, rfl⟩ := List.mem_map.1 hmember
    obtain ⟨path, hpath, heq⟩ := map_eq_ok.1 hplaced
    cases heq
    have hfree := hnames.top top h.found _ hentry
    rw [List.mem_append, not_or] at hfree
    obtain ⟨ports, type, hports, htype, hfound⟩ := h.result.port?_hostPort hentry hfree.1 hfree.2
    have hlisted := Module.map_name_resolvePorts hports
    rw [← hlisted] at hport hpath
    obtain ⟨q, hq, rfl⟩ := List.mem_map.1 hport
    have hq? : top.port? q.name = some q := Module.port?_of_resolvePorts hports hq
    have hown : q.name ∈ top.ownNames := List.mem_append_left _ (List.mem_map_of_mem (List.mem_of_find?_eq_some hq?))
    have hdotFree := hnames.dotFree top (List.mem_of_find?_eq_some h.found) _ hown
    have hchannel : DotFree channel :=
      hnames.channels _ (List.mem_append_right _ (List.mem_map_of_mem (f := Prod.fst) hentry))
    refine ⟨rfl, rfl, q, hq?, _, path, _, ?_, hfound, Payload.follow?_path hq hpath htype⟩
    exact PortLocation.dottedParts_reference (hchannel.hostPortName _) hdotFree hpath
  · obtain ⟨_, -, heq⟩ := List.mem_map.1 hrecord
    cases heq

/-- What the rename table tells about a port is true: the place is in the new module and has the type of the port, or
the port was the only clock and the place is the gated clock that stands for it. -/
theorem channelize_renames_resolve {annotations : List Annotation} (hnames : c.PlainNames a config)
    (h : (c.channelize a annotations config).outcome = .ok out) {old new : Target}
    (hentry : out.renames.get? old = some new) :
    new.module = old.module ∧ ∃ m m' port, c.module? old.module = some m ∧ out.circuit.module? old.module = some m' ∧
      m.port? old.reference = some port ∧
      (m'.FieldAt new.reference (if port.type = .clock then .uint 1 else port.type) ∨
        (old.module ∈ a.targets ∧ m.clockInputs = [port] ∧
          (∀ entry ∈ (a.inputs m.name).entries, m.carriesClocks entry.2 = false) ∧
          m'.GateAt config new.reference)) := by
  obtain ⟨models, records, hdone⟩ := channelize_ok h
  rw [hdone.renames] at hentry
  rcases List.mem_append.1 (RenameMap.mem_of_get?_putAll hentry) with hrecord | hrecord
  · -- a port of a target
    obtain ⟨⟨target, t⟩, hx, hrecord⟩ := List.mem_flatMap.1 hrecord
    obtain ⟨⟨port, location⟩, hlocation, heq⟩ := List.mem_map.1 hrecord
    cases heq
    obtain ⟨m, hm, ht, hresult⟩ := hdone.modelled _ hx
    have hmem : m ∈ c.modules := List.mem_of_find?_eq_some hm
    obtain ⟨q, hq, hplace⟩ := (Module.tokenModel_ok ht).layout_ok (hnames.distinct m hmem) (hnames.dotFree m hmem)
      hnames.channels (OrderedMap.get?_eq_some_iff.2 hlocation)
    have htarget : target ∈ a.targets.toList := hdone.targets ▸ List.mem_map_of_mem (f := Prod.fst) hx
    refine ⟨rfl, m, t.module, q, hm, hresult, hq, ?_⟩
    rw [← Payload.carrier_eq]
    exact hplace.imp_right fun hgate => ⟨htarget, hgate⟩
  · -- a port of the main module
    rcases hdone.main with ⟨-, rfl⟩ | ⟨top, rewired, -, hmain, hresult, -⟩
    · cases hrecord
    · obtain ⟨hold, hnew, port, hport, hplace⟩ := hmain.record_ok hnames hrecord
      refine ⟨hnew.trans hold.symm, top, rewired, port, ?_, ?_, hport, .inl ?_⟩
      · rw [hold, hmain.found]
      · rw [hold, hresult]
      · rwa [← Payload.carrier_eq]

end Circuit

namespace Demo

theorem Sampler.plainNames_circuit : Sampler.circuit.PlainNames Sampler.analysis {} :=
  .of_main (rfl : Sampler.circuit.module? Sampler.circuit.main = some Sampler.top) (by decide +kernel)
    (by decide +kernel) (by decide +kernel) (by decide +kernel)

theorem Stages.plainNames_circuit : Stages.circuit.PlainNames Stages.analysis {} :=
  .of_main (rfl : Stages.circuit.module? Stages.circuit.main = some Stages.top) (by decide +kernel)
    (by decide +kernel) (by decide +kernel) (by decide +kernel)

/-- The sample port of the main module is found beside the time of the samples, and the slow clock of the sampler as a
flag among the clocks. The only clock of an adder is found behind its gate. -/
theorem samples_and_clocks_found :
    (Sampler.circuit.PlainNames Sampler.analysis {} ∧
      ∃ out, (Sampler.circuit.channelize Sampler.analysis [] {}).outcome = .ok out ∧
        out.renames.get? ⟨"Top", "sample"⟩ = some ⟨"Top", "sample_source.bits.data"⟩ ∧
        out.renames.get? ⟨"Sampler", "clock_slow"⟩ = some ⟨"Sampler", "clock_sink.bits.data.slow"⟩ ∧
        (∃ m, out.circuit.module? "Top" = some m ∧ m.FieldAt "sample_source.bits.data" (.uint 8)) ∧
        ∃ m, out.circuit.module? "Sampler" = some m ∧ m.FieldAt "clock_sink.bits.data.slow" (.uint 1)) ∧
    Stages.circuit.PlainNames Stages.analysis {} ∧
      ∃ out, (Stages.circuit.channelize Stages.analysis [] {}).outcome = .ok out ∧
        out.renames.get? ⟨"Stage", "clock"⟩ = some ⟨"Stage", "clock_buffer.O"⟩ ∧
        ∃ m, out.circuit.module? "Stage" = some m ∧ m.GateAt {} "clock_buffer.O" := by
  refine ⟨⟨Sampler.plainNames_circuit, ?_⟩, Stages.plainNames_circuit, ?_⟩
  · have h : ((Sampler.circuit.channelize Sampler.analysis [] {}).outcome.toOption.map fun out =>
        (out.renames.get? ⟨"Top", "sample"⟩, out.renames.get? ⟨"Sampler", "clock_slow"⟩)) =
        some (some ⟨"Top", "sample_source.bits.data"⟩, some ⟨"Sampler", "clock_sink.bits.data.slow"⟩) := by
      decide +kernel
    obtain ⟨out, hout, hentries⟩ := exists_ok_of_map h
    obtain ⟨hsample, hslow⟩ := Prod.mk.inj hentries
    -- no module here has a single clock, so nothing lies behind a gate
    have hclocks : ∀ m ∈ Sampler.circuit.modules, m.clockInputs.length = 2 := by decide +kernel
    have hfield : ∀ {old new} port, out.renames.get? old = some new →
        (Sampler.circuit.module? old.module).bind (·.port? old.reference) = some port →
        ∃ m, out.circuit.module? old.module = some m ∧
          m.FieldAt new.reference (if port.type = .clock then .uint 1 else port.type) := by
      intro old new port hentry hport
      obtain ⟨-, m, m', port', hm, hresult, hport', hplace⟩ :=
        Circuit.channelize_renames_resolve Sampler.plainNames_circuit hout hentry
      rw [hm, Option.bind_some, hport'] at hport
      cases hport
      rcases hplace with hfield | ⟨-, hsingle, -⟩
      · exact ⟨m', hresult, hfield⟩
      · have htwo := hclocks m (List.mem_of_find?_eq_some hm)
        rw [hsingle] at htwo
        cases htwo
    refine ⟨out, hout, hsample, hslow, ?_, ?_⟩
    · exact hfield (.output "sample" (.uint 8)) hsample (by decide +kernel)
    · exact hfield (.input "clock_slow" .clock) hslow (by decide +kernel)
  · have h : ((Stages.circuit.channelize Stages.analysis [] {}).outcome.toOption.map fun out =>
        (out.renames.get? ⟨"Stage", "clock"⟩, (out.circuit.module? "Stage").bind (·.port? "clock_buffer"))) =
        some (some ⟨"Stage", "clock_buffer.O"⟩, none) := by
      decide +kernel
    obtain ⟨out, hout, hfacts⟩ := exists_ok_of_map h
    obtain ⟨hentry, hnone⟩ := Prod.mk.inj hfacts
    obtain ⟨-, m, m', port, -, hresult, -, hplace⟩ :=
      Circuit.channelize_renames_resolve Stages.plainNames_circuit hout hentry
    rcases hplace with ⟨first, path, q, hparts, hfirst, -⟩ | ⟨-, -, -, hgate⟩
    · -- the gate is no port
      have hdots : dottedParts "clock_buffer.O" = ["clock_buffer", "O"] := by decide
      obtain ⟨rfl, -⟩ := List.cons.inj (hdots.symm.trans hparts)
      rw [hresult, Option.bind_some, hfirst] at hnone
      cases hnone
    · exact ⟨out, hout, hentry, m', hresult, hgate⟩

end Demo

end TokenCircuit
