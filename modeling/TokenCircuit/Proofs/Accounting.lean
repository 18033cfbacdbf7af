import TokenCircuit.Proofs.Relocation
import TokenCircuit.Proofs.Scoping

/-!
# Every port is accounted for

Three steps write into the rename table: one for each target, one for the ports in top channels and one for the ports
that the main module loses. They do not get in each other's way. A target writes about its own ports only, and among
them about those that a channel claims and the virtual clock (`Module.Planned.placed_iff`); a port about which it writes
nothing lives on as a wire. The main module writes at last, if it is no target: a port in a top channel is recorded
before anything is recorded as lost, and a port that is neither stays as it was (`Module.Rewired.eq_of_port?`).
-/

namespace TokenCircuit

/-- A channel of the module claims the port. -/
def Analysis.Claims (a : Analysis) (module port : String) : Prop :=
  ∃ direction, ∃ entry ∈ (a.specs module direction).entries, port ∈ entry.2.ports

/-- The port is in a top channel. -/
def Analysis.InTopChannel (a : Analysis) (port : String) : Prop := ∃ entry ∈ a.topChannels.entries, port ∈ entry.2.ports

/-- The port is the only clock input of a module without a clock channel. -/
def Module.VirtualClock (m : Module) (a : Analysis) (port : Port) : Prop :=
  m.clockInputs = [port] ∧ ∀ entry ∈ (a.inputs m.name).entries, m.carriesClocks entry.2 = false

/-! ### The ports of a target -/

namespace Module.Planned

variable {m : Module} {a : Analysis} {config : Config} {p : Plan} {q : Port}

/-- Every description of a channel has become a channel with the ports that it names. -/
theorem exists_channel_of_spec (h : m.Planned a config p) {direction : Direction} {entry : String × ChannelSpec}
    (hentry : entry ∈ (a.specs m.name direction).entries) :
    ∃ c ∈ p.interface.channels, c.ports.map (·.name) = entry.2.ports := by
  have hdata : ∀ d ∈ p.interface.data, m.resolvePorts d.name entry.2.ports = .ok d.ports →
      ∃ c ∈ p.interface.channels, c.ports.map (·.name) = entry.2.ports := by
    intro d hd hports
    rcases List.mem_append.1 hd with hd | hd
    · exact ⟨.input d, by simp [Interface.channels, hd], map_name_resolvePorts hports⟩
    · exact ⟨.output d, by simp [Interface.channels, hd], map_name_resolvePorts hports⟩
  cases direction with
  | output =>
    obtain ⟨d, hd, hmakes⟩ := exists_mem_right h.outputs hentry
    exact hdata d (List.mem_append_right _ hd) (hmakes.name ▸ hmakes.ports)
  | input =>
    by_cases hclaims : p.interface.clock.claims entry.1 = true
    · -- the clock channel is not among the data channels
      rcases clockSource_ok h.clock with ⟨g, spec, hclock, hspec, -, -, hports, -⟩ | ⟨clock, hclock, -⟩
      · have hname : g.name = entry.1 := by simpa [hclock, ClockSource.claims] using hclaims
        obtain rfl : spec = entry.2 := by
          have hget : (a.inputs m.name).get? entry.1 = some entry.2 := OrderedMap.get?_eq_some_iff.2 hentry
          rw [← hname, OrderedMap.get?_eq_some_iff.2 hspec] at hget
          exact Option.some.inj hget
        exact ⟨.clock (.channel g), by simp [Interface.channels, hclock], map_name_resolvePorts hports⟩
      · simp [hclock, ClockSource.claims] at hclaims
    · have hspec : entry ∈ m.inputSpecs a p.interface.clock := List.mem_filter.2 ⟨hentry, by simpa using hclaims⟩
      obtain ⟨d, hd, hmakes⟩ := exists_mem_right h.inputs hspec
      exact hdata d (List.mem_append_left _ hd) (hmakes.name ▸ hmakes.ports)

/-- The ports with a place are those that a channel claims and the virtual clock. -/
theorem placed_iff (h : m.Planned a config p) (hnames : (m.ports.map (·.name)).Nodup) (hq : q ∈ m.ports) :
    q.name ∈ p.placements ↔ a.Claims m.name q.name ∨ m.VirtualClock a q := by
  constructor
  · intro hplaced
    obtain ⟨placement, hget⟩ := OrderedMap.mem_iff_get?.1 hplaced
    obtain ⟨c, hc, hlists, -⟩ := h.exists_channel_of_placed hget
    cases hcarried : c.carried? with
    | some carried =>
      obtain ⟨direction, spec, hspec, -, hports⟩ := h.spec_of_carried hc hcarried
      rw [Channel.Lists, Channel.ports_of_carried hcarried, map_name_resolvePorts hports] at hlists
      exact .inl ⟨direction, _, hspec, hlists⟩
    | none =>
      obtain ⟨clock, rfl⟩ := Channel.virtual_of_carried hcarried
      have hclock : clock ∈ m.ports := h.mem_ports hc (List.mem_singleton_self clock)
      have hname : q.name = clock.name := List.mem_singleton.1 hlists
      rw [List.inj_on_of_nodup_map hnames hq hclock hname]
      exact .inr (h.virtual_ok hc)
  · rintro (⟨direction, entry, hentry, hport⟩ | ⟨hinputs, hnone⟩)
    · obtain ⟨c, hc, hports⟩ := h.exists_channel_of_spec hentry
      refine h.placed_of_lists hc ?_
      rw [Channel.Lists, hports]
      exact hport
    · -- without a clock channel the only clock input is the clock source
      rcases clockSource_ok h.clock with ⟨g, spec, -, hspec, hcarries, -⟩ | ⟨clock, hclock, hinputs', -⟩
      · rw [hnone _ hspec] at hcarries
        cases hcarries
      · obtain rfl : q = clock := by
          rw [hinputs] at hinputs'
          exact (List.cons.inj hinputs').1
        exact h.placed_of_lists (c := .clock (.virtual q)) (by simp [Interface.channels, hclock])
          (List.mem_singleton_self _)

end Module.Planned

theorem Module.Modelled.wire_of_not_placed {m : Module} {a : Analysis} {host : HostSignals} {config : Config}
    {t : TokenModel} (h : m.Modelled a host config t) {q : Port} (hq : q ∈ m.ports)
    (hplaced : q.name ∉ t.plan.placements) : .wire q.name q.type ∈ t.module.body.preorder := by
  have hretained : q ∈ t.plan.retained m := List.mem_filter.2 ⟨hq, by simpa using hplaced⟩
  have hwire : .wire q.name q.type ∈ t.declarations := by
    rw [h.declarations]
    exact Plan.mem_declarations.2 (.inr ⟨q, hretained, rfl⟩)
  exact TokenModel.mem_preorder_of_declarations hwire (List.mem_singleton_self _)

/-! ### The ports of the main module -/

namespace Module

variable {m rewired : Module} {a : Analysis} {config : Config} {q : Port}

/-- A port that a rewired module still has is the old one, unless a host port took its name. -/
theorem Rewired.eq_of_port? (h : m.Rewired a config rewired) (hnames : (m.ports.map (·.name)).Nodup)
    (htop : ∀ entry ∈ a.topChannels.entries, hostPortName entry.1 entry.2.direction ∉ m.ports.map (·.name))
    (hq : q ∈ m.ports) {q' : Port} (hq' : rewired.port? q.name = some q') : q' = q := by
  obtain ⟨channelPorts, hall, hports⟩ := h.ports
  have hname : q'.name = q.name := by simpa using List.find?_some hq'
  have hmem : q' ∈ rewired.ports := List.mem_of_find?_eq_some hq'
  rw [hports, List.append_assoc, List.mem_append, List.mem_append] at hmem
  rcases hmem with hmem | hmem | hmem
  · -- the module has a port of its own under the name of a host signal
    obtain ⟨fallback, -, rfl⟩ := List.mem_map.1 hmem
    have hfound : m.port? q.name = some q := find?_of_nodup hnames hq
    rw [name_portOr] at hname
    rw [portOr, hname, hfound]
    rfl
  · exact List.inj_on_of_nodup_map hnames (List.mem_filter.1 hmem).1 hq hname
  · have hhost : q'.name ∈ channelPorts.map (·.name) := List.mem_map_of_mem hmem
    rw [map_name_topChannelPorts hall] at hhost
    obtain ⟨entry, hentry, heq⟩ := List.mem_map.1 hhost
    refine absurd (List.mem_map_of_mem hq) (?_ : q.name ∉ m.ports.map (·.name))
    rw [← hname, ← heq]
    exact htop entry hentry

theorem Rewired.mem_ports_of_inTopChannel (h : m.Rewired a config rewired) {port : String}
    (hport : a.InTopChannel port) : port ∈ m.ports.map (·.name) := by
  obtain ⟨entry, hentry, hport⟩ := hport
  obtain ⟨channelPorts, hall, -⟩ := h.ports
  obtain ⟨_, -, hchannel⟩ := exists_mem_right hall hentry
  obtain ⟨ports, -, hresolved, -⟩ := topChannelPort_ok hchannel
  rw [← map_name_resolvePorts hresolved] at hport
  obtain ⟨q, hq, rfl⟩ := List.mem_map.1 hport
  exact List.mem_map_of_mem (List.mem_of_find?_eq_some (port?_of_resolvePorts hresolved hq))

end Module

namespace Circuit

variable {c : Circuit} {a : Analysis} {config : Config} {models : List (String × TokenModel)} {top rewired : Module}
  {records : List (Target × Option Target)} {out : Channelization} {port : String} {x : String × TokenModel}
  {new : Option Target}

theorem mem_gonePorts_iff :
    port ∈ gonePorts top rewired ↔ ∃ q ∈ top.ports, q.name = port ∧ rewired.port? port = none := by
  unfold gonePorts
  constructor
  · intro hgone
    obtain ⟨q, hq, rfl⟩ := List.mem_map.1 hgone
    obtain ⟨hport, hnone⟩ := List.mem_filter.1 hq
    exact ⟨q, hport, rfl, Option.isNone_iff_eq_none.1 hnone⟩
  · rintro ⟨q, hq, rfl, hnone⟩
    exact List.mem_map_of_mem (List.mem_filter.2 ⟨hq, by rw [hnone]; rfl⟩)

theorem mem_gonePorts {q : Port} (hq : q ∈ top.ports) :
    q.name ∈ gonePorts top rewired ↔ rewired.port? q.name = none := by
  rw [mem_gonePorts_iff]
  exact ⟨fun ⟨_, _, _, hnone⟩ => hnone, fun hnone => ⟨q, hq, rfl, hnone⟩⟩

namespace MainRewired

theorem record_placed {placed : List (Target × Option Target)}
    (hall : List.Forall₂ (fun member record => RenameMap.topRecord c.main member = .ok record)
      (RenameMap.topMembers a.topChannels) placed) {old : Target} (hrecord : (old, new) ∈ placed) :
    old.module = c.main ∧ a.InTopChannel old.reference ∧ new.isSome = true := by
  obtain ⟨member, hmember, hrecord⟩ := exists_mem_left hall hrecord
  obtain ⟨entry, hentry, hmember⟩ := List.mem_flatMap.1 hmember
  obtain ⟨port, hport, rfl⟩ := List.mem_map.1 hmember
  obtain ⟨path, -, heq⟩ := map_eq_ok.1 hrecord
  cases heq
  exact ⟨rfl, ⟨entry, hentry, hport⟩, rfl⟩

/-- What is recorded about a port of the main module: a place if it is in a top channel, and else that it is lost if it
is. -/
theorem lookup_records (h : c.MainRewired a config top rewired records) (port : String) :
    (a.InTopChannel port ∧ ∃ place, records.lookup ⟨c.main, port⟩ = some (some place)) ∨
    (¬ a.InTopChannel port ∧
      records.lookup ⟨c.main, port⟩ = if port ∈ gonePorts top rewired then some none else none) := by
  obtain ⟨placed, hall, rfl⟩ := h.records
  by_cases htop : a.InTopChannel port
  · refine .inl ⟨htop, ?_⟩
    obtain ⟨entry, hentry, hport⟩ := htop
    have hmember : (entry.1, entry.2, port) ∈ RenameMap.topMembers a.topChannels :=
      List.mem_flatMap.2 ⟨entry, hentry, List.mem_map_of_mem hport⟩
    obtain ⟨record, hrecord, hok⟩ := exists_mem_right hall hmember
    obtain ⟨path, -, rfl⟩ := map_eq_ok.1 hok
    obtain ⟨new, hlookup, hmem⟩ := exists_lookup hrecord
    obtain ⟨place, rfl⟩ := Option.isSome_iff_exists.1 (record_placed hall hmem).2.2
    -- the places stand before the losses, so a port that is lost as well still has its place
    refine ⟨place, ?_⟩
    rw [List.lookup_append, hlookup]
    rfl
  · refine .inr ⟨htop, ?_⟩
    have hnone : placed.lookup ⟨c.main, port⟩ = none := lookup_eq_none fun _ hmem => htop (record_placed hall hmem).2.1
    rw [List.lookup_append, hnone, Option.none_or, RenameMap.lookup_lostRecords]

theorem record_main (h : c.MainRewired a config top rewired records) {old : Target} (hrecord : (old, new) ∈ records) :
    old.module = c.main ∧ old.reference ∈ top.ports.map (·.name) := by
  obtain ⟨placed, hall, rfl⟩ := h.records
  rcases List.mem_append.1 hrecord with hrecord | hrecord
  · obtain ⟨hmodule, hport, -⟩ := record_placed hall hrecord
    exact ⟨hmodule, h.result.mem_ports_of_inTopChannel hport⟩
  · obtain ⟨port, hport, heq⟩ := List.mem_map.1 hrecord
    cases heq
    obtain ⟨q, hq, rfl⟩ := List.mem_map.1 hport
    exact ⟨rfl, List.mem_map_of_mem (List.mem_filter.1 hq).1⟩

end MainRewired

/-! ### The table -/

namespace Channelized

theorem get?_entries (h : c.Channelized a config models records out) (target : Target) :
    out.renames.entries.get? target = (targetRecords models ++ records).lookup target := by
  rw [h.renames, RenameMap.get?_entries_putAll]
  rfl

theorem mem_targets (h : c.Channelized a config models records out) (hx : x ∈ models) : x.1 ∈ a.targets := by
  have hmem : x.1 ∈ models.map Prod.fst := List.mem_map_of_mem hx
  rwa [h.targets] at hmem

/-- What is recorded about a target comes from its own layout. -/
theorem record_target (h : c.Channelized a config models records out) (hx : x ∈ models)
    (hrecord : (⟨x.1, port⟩, new) ∈ targetRecords models ++ records) :
    ∃ location, x.2.layout.get? port = some location ∧ new = some ⟨x.1, location.reference⟩ := by
  rcases List.mem_append.1 hrecord with hrecord | hrecord
  · obtain ⟨y, hy, hrecord⟩ := List.mem_flatMap.1 hrecord
    obtain ⟨entry, hentry, heq⟩ := List.mem_map.1 hrecord
    simp only [Prod.mk.injEq, Target.mk.injEq] at heq
    obtain ⟨⟨hname, rfl⟩, rfl⟩ := heq
    -- no target comes twice
    have hnodup : (models.map Prod.fst).Nodup := h.targets ▸ a.targets.nodup
    obtain rfl : y = x := List.inj_on_of_nodup_map hnodup hy hx hname
    exact ⟨entry.2, OrderedMap.get?_eq_some_iff.2 hentry, rfl⟩
  · rcases h.main with ⟨-, rfl⟩ | ⟨top, rewired, hmain, hrewired, -⟩
    · cases hrecord
    · -- the main module would be a target
      have hname : x.1 = c.main := (hrewired.record_main hrecord).1
      exact absurd (h.mem_targets hx) (hname ▸ hmain)

theorem get?_target (h : c.Channelized a config models records out) (hx : x ∈ models) (port : String) :
    out.renames.entries.get? ⟨x.1, port⟩ = (x.2.layout.get? port).map fun location =>
      some ⟨x.1, location.reference⟩ := by
  rw [h.get?_entries]
  cases hlocation : x.2.layout.get? port with
  | none =>
    refine lookup_eq_none fun new hrecord => ?_
    obtain ⟨location, hlocation', -⟩ := h.record_target hx hrecord
    rw [hlocation] at hlocation'
    cases hlocation'
  | some location =>
    have hentry : (port, location) ∈ x.2.layout.entries := OrderedMap.get?_eq_some_iff.1 hlocation
    have hrecord : (⟨x.1, port⟩, some ⟨x.1, location.reference⟩) ∈ targetRecords models ++ records :=
      List.mem_append_left _ (List.mem_flatMap.2 ⟨x, hx, List.mem_map.2 ⟨_, hentry, rfl⟩⟩)
    obtain ⟨new, hlookup, hrecord'⟩ := exists_lookup hrecord
    obtain ⟨location', hlocation', rfl⟩ := h.record_target hx hrecord'
    rw [hlocation] at hlocation'
    cases hlocation'
    exact hlookup

theorem get?_main (h : c.Channelized a config models records out) (hmain : c.main ∉ a.targets) (port : String) :
    out.renames.entries.get? ⟨c.main, port⟩ = records.lookup ⟨c.main, port⟩ := by
  have hnone : (targetRecords models).lookup ⟨c.main, port⟩ = none := by
    refine lookup_eq_none fun new hrecord => hmain ?_
    obtain ⟨x, hx, hrecord⟩ := List.mem_flatMap.1 hrecord
    obtain ⟨entry, -, heq⟩ := List.mem_map.1 hrecord
    have hname : x.1 = c.main := congrArg (fun record => record.1.module) heq
    exact hname ▸ h.mem_targets hx
  rw [h.get?_entries, List.lookup_append, hnone, Option.none_or]

/-- Whatever is recorded is recorded about a port of a target or of the main module. -/
theorem port_of_mem (h : c.Channelized a config models records out) {old : Target} (hold : old ∈ out.renames.entries) :
    (old.module ∈ a.targets ∨ old.module = c.main) ∧
      ∃ m, c.module? old.module = some m ∧ old.reference ∈ m.ports.map (·.name) := by
  obtain ⟨new, hnew⟩ := OrderedMap.mem_iff_get?.1 hold
  rw [h.get?_entries] at hnew
  rcases List.mem_append.1 (mem_of_lookup hnew) with hrecord | hrecord
  · obtain ⟨x, hx, hrecord⟩ := List.mem_flatMap.1 hrecord
    obtain ⟨entry, hentry, heq⟩ := List.mem_map.1 hrecord
    cases heq
    obtain ⟨m, hm, ht, -⟩ := h.modelled x hx
    refine ⟨.inl (h.mem_targets hx), m, hm, ?_⟩
    have hplanned := (Module.tokenModel_ok ht).planned
    have hlocation : x.2.layout.get? entry.1 = some entry.2 := OrderedMap.get?_eq_some_iff.2 hentry
    rw [TokenModel.get?_layout] at hlocation
    obtain ⟨placement, hplaced, -⟩ := Option.map_eq_some_iff.1 hlocation
    obtain ⟨channel, hchannel, hlists, -⟩ := hplanned.exists_channel_of_placed hplaced
    obtain ⟨q, hq, hname⟩ := List.mem_map.1 hlists
    exact hname ▸ List.mem_map_of_mem (hplanned.mem_ports hchannel hq)
  · rcases h.main with ⟨-, rfl⟩ | ⟨top, rewired, -, hrewired, -⟩
    · cases hrecord
    · obtain ⟨hmodule, hport⟩ := hrewired.record_main hrecord
      exact ⟨.inr hmodule, top, hmodule ▸ hrewired.found, hport⟩

/-- A port of a target has a new place if it has one in the plan, and otherwise is a wire. -/
theorem target_port (h : c.Channelized a config models records out) (hx : x ∈ models) {m : Module}
    (ht : m.Modelled a (.ofConfig config) config x.2) {q : Port} (hq : q ∈ m.ports) :
    ((out.renames.get? ⟨x.1, q.name⟩).isSome = true ↔ q.name ∈ x.2.plan.placements) ∧
      ((out.renames.get? ⟨x.1, q.name⟩).isSome = true ∨
        ⟨x.1, q.name⟩ ∉ out.renames.entries ∧ .wire q.name q.type ∈ x.2.module.body.preorder) := by
  have hget := h.get?_target hx q.name
  rw [TokenModel.get?_layout] at hget
  by_cases hplaced : q.name ∈ x.2.plan.placements
  · obtain ⟨placement, hplacement⟩ := OrderedMap.mem_iff_get?.1 hplaced
    rw [hplacement] at hget
    have hsome : (out.renames.get? ⟨x.1, q.name⟩).isSome = true := by
      rw [RenameMap.get?, hget]
      rfl
    exact ⟨⟨fun _ => hplaced, fun _ => hsome⟩, .inl hsome⟩
  · rw [OrderedMap.get?_eq_none_iff.2 hplaced] at hget
    have hnone : ¬ (out.renames.get? ⟨x.1, q.name⟩).isSome = true := by
      rw [RenameMap.get?, hget]
      exact Bool.false_ne_true
    refine ⟨⟨fun hsome => absurd hsome hnone, fun hmem => absurd hmem hplaced⟩,
      .inr ⟨?_, ht.wire_of_not_placed hq hplaced⟩⟩
    exact OrderedMap.get?_eq_none_iff.1 hget

theorem main_port (h : c.Channelized a config models records out) (hmain : c.main ∉ a.targets)
    (hrewired : c.MainRewired a config top rewired records) {q : Port} (hq : q ∈ top.ports) :
    ((out.renames.get? ⟨c.main, q.name⟩).isSome = true ↔ a.InTopChannel q.name) ∧
      (out.renames.isDeleted ⟨c.main, q.name⟩ = true ↔ ¬ a.InTopChannel q.name ∧ rewired.port? q.name = none) ∧
      (¬ a.InTopChannel q.name → rewired.port? q.name ≠ none → ⟨c.main, q.name⟩ ∉ out.renames.entries) := by
  rw [RenameMap.get?, RenameMap.isDeleted, ← OrderedMap.get?_eq_none_iff, h.get?_main hmain]
  rcases hrewired.lookup_records q.name with ⟨hin, place, hlookup⟩ | ⟨hout, hlookup⟩
  · rw [hlookup]
    simp [hin]
  · rw [hlookup]
    by_cases hgone : rewired.port? q.name = none
    · rw [if_pos ((mem_gonePorts hq).2 hgone)]
      simp [hout, hgone]
    · rw [if_neg (mt (mem_gonePorts hq).1 hgone)]
      simp [hout, hgone]

end Channelized

/-- Every port is accounted for once. A port of a target has a new place exactly if a channel claims it or it is the
virtual clock, and otherwise lives on as a wire of its type. A port of a main module that is no target has a new place
exactly if it is in a top channel; it is deleted exactly if it is in none and the new main module does not have it, and
otherwise it is unchanged. Nothing else is in the table. -/
theorem channelize_accounts_for_ports {annotations : List Annotation}
    (hports : ∀ m ∈ c.modules, (m.ports.map (·.name)).Nodup)
    (htop : ∀ m, c.module? c.main = some m → ∀ entry ∈ a.topChannels.entries,
      hostPortName entry.1 entry.2.direction ∉ m.ports.map (·.name))
    (h : (c.channelize a annotations config).outcome = .ok out) :
    out.renames.entries.keys.Nodup ∧
    (∀ target ∈ a.targets, ∃ m m', c.module? target = some m ∧ out.circuit.module? target = some m' ∧
      ∀ port ∈ m.ports,
        ((out.renames.get? ⟨target, port.name⟩).isSome = true ↔ a.Claims target port.name ∨ m.VirtualClock a port) ∧
        ((out.renames.get? ⟨target, port.name⟩).isSome = true ∨
          ⟨target, port.name⟩ ∉ out.renames.entries ∧ .wire port.name port.type ∈ m'.body.preorder)) ∧
    (c.main ∉ a.targets → ∃ m m', c.module? c.main = some m ∧ out.circuit.module? c.main = some m' ∧
      ∀ port ∈ m.ports,
        ((out.renames.get? ⟨c.main, port.name⟩).isSome = true ↔ a.InTopChannel port.name) ∧
        (out.renames.isDeleted ⟨c.main, port.name⟩ = true ↔
          ¬ a.InTopChannel port.name ∧ m'.port? port.name = none) ∧
        ((out.renames.get? ⟨c.main, port.name⟩).isSome = true ∨ out.renames.isDeleted ⟨c.main, port.name⟩ = true ∨
          ⟨c.main, port.name⟩ ∉ out.renames.entries ∧ m'.port? port.name = some port)) ∧
    ∀ old ∈ out.renames.entries, (old.module ∈ a.targets ∨ old.module = c.main) ∧
      ∃ m, c.module? old.module = some m ∧ old.reference ∈ m.ports.map (·.name) := by
  obtain ⟨models, records, hdone⟩ := channelize_ok h
  refine ⟨out.renames.entries.nodup, ?_, ?_, fun old hold => hdone.port_of_mem hold⟩
  · intro target htarget
    obtain ⟨x, hx, rfl⟩ : ∃ x ∈ models, x.1 = target := List.mem_map.1 (hdone.targets ▸ htarget)
    obtain ⟨m, hm, ht, hresult⟩ := hdone.modelled x hx
    have hmodelled := Module.tokenModel_ok ht
    refine ⟨m, x.2.module, hm, hresult, fun port hport => ?_⟩
    obtain ⟨hsome, hfate⟩ := hdone.target_port hx hmodelled hport
    have hplaced := hmodelled.planned.placed_iff (hports m (List.mem_of_find?_eq_some hm)) hport
    rw [name_of_module? hm] at hplaced
    exact ⟨hsome.trans hplaced, hfate⟩
  · intro hmain
    rcases hdone.main with ⟨htarget, -⟩ | ⟨top, rewired, -, hrewired, hresult, -⟩
    · exact absurd htarget hmain
    · refine ⟨top, rewired, hrewired.found, hresult, fun port hport => ?_⟩
      obtain ⟨hsome, hdeleted, hstays⟩ := hdone.main_port hmain hrewired hport
      refine ⟨hsome, hdeleted, ?_⟩
      by_cases hin : a.InTopChannel port.name
      · exact .inl (hsome.2 hin)
      · cases hfound : rewired.port? port.name with
        | none => exact .inr (.inl (hdeleted.2 ⟨hin, hfound⟩))
        | some port' =>
          have hnames := hports top (List.mem_of_find?_eq_some hrewired.found)
          have hsame := hrewired.result.eq_of_port? hnames (htop top hrewired.found) hport hfound
          exact .inr (.inr ⟨hstays hin (by rw [hfound]; exact Option.some_ne_none _), by rw [hsame]⟩)

end Circuit

/-- With an output clock that no channel claims, and the clocks of the main module in no top channel: the output clock
becomes a wire, the clocks of the main module are gone and the step has a new place. -/
theorem Demo.Sampler.clock_wired_or_deleted :
    let c : Circuit := { circuit with modules := [top, forwarder] }
    let a : Analysis := { analysis with topChannels := .ofList (analysis.topChannels.entries.drop 1) }
    (∀ m ∈ c.modules, (m.ports.map (·.name)).Nodup) ∧
    (∀ m, c.module? c.main = some m → ∀ entry ∈ a.topChannels.entries,
      hostPortName entry.1 entry.2.direction ∉ m.ports.map (·.name)) ∧
    ∃ out m', (c.channelize a [] {}).outcome = .ok out ∧ out.circuit.module? "Sampler" = some m' ∧
      (out.renames.get? ⟨"Sampler", "in_step"⟩).isSome = true ∧
      ⟨"Sampler", "clock_out"⟩ ∉ out.renames.entries ∧ .wire "clock_out" .clock ∈ m'.body.preorder ∧
      out.renames.isDeleted ⟨"Top", "clock_fast"⟩ = true := by
  intro c a
  have hports : ∀ m ∈ c.modules, (m.ports.map (·.name)).Nodup := by decide +kernel
  have hmain : c.module? c.main = some top := by decide +kernel
  have htop : ∀ m, c.module? c.main = some m → ∀ entry ∈ a.topChannels.entries,
      hostPortName entry.1 entry.2.direction ∉ m.ports.map (·.name) := by
    intro m hm
    obtain rfl : top = m := Option.some.inj (hmain.symm.trans hm)
    decide +kernel
  have hfacts : ((c.channelize a [] {}).outcome.toOption.map fun out =>
      (out.renames.get? ⟨"Sampler", "clock_out"⟩, (out.circuit.module? "Top").map fun m => m.port? "clock_fast")) =
        some (none, some none) := by
    decide +kernel
  obtain ⟨out, hout, hfound⟩ := exists_ok_of_map hfacts
  obtain ⟨hclock, hgone⟩ := Prod.mk.inj hfound
  obtain ⟨-, htargets, hrewired, -⟩ := Circuit.channelize_accounts_for_ports hports htop hout
  obtain ⟨m, m', hm, hm', hfates⟩ := htargets "Sampler" (by decide +kernel)
  obtain ⟨top', rewired, htop', hrewired', hlost⟩ := hrewired (by decide +kernel)
  have hforwarder : c.module? "Sampler" = some forwarder := by decide +kernel
  obtain rfl : forwarder = m := Option.some.inj (hforwarder.symm.trans hm)
  obtain rfl : top = top' := Option.some.inj (hmain.symm.trans htop')
  refine ⟨hports, htop, out, m', hout, hm', ?_⟩
  have hstep := (hfates (.input "in_step" (.uint 8)) (by decide +kernel)).1.2
    (.inl ⟨.input, ("in", ⟨some "clock_fast", ["in_reset", "in_step"]⟩), by decide +kernel, by decide⟩)
  have hwire := (hfates (.output "clock_out" .clock) (by decide +kernel)).2
  rcases hwire with hsome | ⟨hkey, hwire⟩
  · rw [show (Port.output "clock_out" .clock).name = "clock_out" from rfl, hclock] at hsome
    cases hsome
  · refine ⟨hstep, hkey, hwire, (hlost (.input "clock_fast" .clock) (by decide +kernel)).2.1.2 ⟨?_, ?_⟩⟩
    · unfold Analysis.InTopChannel
      decide +kernel
    · have hmap : (out.circuit.module? c.main).map (fun m => m.port? "clock_fast") = some none := hgone
      rw [hrewired'] at hmap
      exact Option.some.inj hmap

end TokenCircuit
