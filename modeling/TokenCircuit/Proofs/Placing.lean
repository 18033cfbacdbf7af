import TokenCircuit.Proofs.Planning
import Mathlib.Data.List.Induction

/-!
# Where ports go

The placements of a plan are collected channel by channel, and a later channel overrides an earlier one. So a port goes
where the last channel that lists it puts it (`Module.Planned.placed_by_last`), and a port that no channel lists goes
nowhere (`Module.Planned.not_placed`).
-/

namespace TokenCircuit

namespace OrderedMap

variable {κ α : Type} [DecidableEq κ] {k : κ} {v : α}

theorem get?_foldl_insert_of_not_mem {l : List (κ × α)} (h : k ∉ l.map Prod.fst) (m : OrderedMap κ α) :
    (l.foldl (fun m p => m.insert p.1 p.2) m).get? k = m.get? k := by
  induction l generalizing m with
  | nil => rfl
  | cons p l ih =>
    obtain ⟨hp, hl⟩ := not_or.1 (List.mem_cons.not.1 h)
    rw [List.foldl_cons, ih hl, get?_insert, if_neg hp]

theorem get?_foldl_insert {l : List (κ × α)} (hk : k ∈ l.map Prod.fst) (hv : ∀ w, (k, w) ∈ l → w = v)
    (m : OrderedMap κ α) : (l.foldl (fun m p => m.insert p.1 p.2) m).get? k = some v := by
  induction l generalizing m with
  | nil => cases hk
  | cons p l ih =>
    rw [List.foldl_cons]
    by_cases hl : k ∈ l.map Prod.fst
    · exact ih hl (fun w hw => hv w (List.mem_cons_of_mem _ hw)) _
    · obtain ⟨a, b⟩ := p
      obtain rfl : k = a := (List.mem_cons.1 hk).resolve_right hl
      rw [get?_foldl_insert_of_not_mem hl, get?_insert, if_pos rfl, hv b (List.mem_cons_self ..)]

theorem mem_foldl_insert {l : List (κ × α)} {m : OrderedMap κ α} :
    k ∈ l.foldl (fun m p => m.insert p.1 p.2) m ↔ k ∈ l.map Prod.fst ∨ k ∈ m := by
  induction l generalizing m with
  | nil => simp
  | cons p l ih =>
    rw [List.foldl_cons, ih, mem_insert, List.map_cons, List.mem_cons]
    tauto

theorem mem_of_get?_foldl_insert {l : List (κ × α)} {m : OrderedMap κ α}
    (h : (l.foldl (fun m p => m.insert p.1 p.2) m).get? k = some v) : (k, v) ∈ l ∨ m.get? k = some v := by
  induction l generalizing m with
  | nil => exact .inr h
  | cons p l ih =>
    rcases ih h with hl | hm
    · exact .inl (List.mem_cons_of_mem _ hl)
    · rw [get?_insert] at hm
      split at hm
      · next hk =>
        cases hm
        exact .inl (hk ▸ List.mem_cons_self ..)
      · exact .inr hm

/-- The last entry of a key counts. -/
theorem get?_ofList_filterMap {β : Type} (f : β → Option (κ × α)) (l : List β) : (ofList (l.filterMap f)).get? k =
    l.reverse.findSome? fun x => (f x).bind fun p => if p.1 = k then some p.2 else none := by
  induction l using List.reverseRecOn with
  | nil => rfl
  | append_singleton l x ih =>
    rw [List.filterMap_append, ofList, List.foldl_append, ← ofList, List.reverse_append, List.reverse_singleton,
      List.singleton_append, List.findSome?_cons, List.filterMap_cons]
    cases f x with
    | none => exact ih
    | some p =>
      show ((ofList (l.filterMap f)).insert p.1 p.2).get? k = _
      rw [get?_insert, Option.bind_some]
      by_cases hk : p.1 = k
      · rw [if_pos hk, if_pos hk.symm]
      · rw [if_neg hk, if_neg (Ne.symm hk), ih]

end OrderedMap

namespace Channel

variable {c : Channel} {domains : ClockDomains} {port : String}

/-- Whether a port is one of the channel's. -/
def Lists (c : Channel) (port : String) : Prop := port ∈ c.ports.map (·.name)

/-- What is to stand for a port of the channel in the logic of the module: the gated clock for a clock of the clock
source, and the field of the payload for a port of a data channel. -/
def StandsFor (domains : ClockDomains) (port : String) (value : Expr) : Channel → Prop
  | .clock _ => ∃ d, domains.domain? port = some d ∧ value = d.gatedClock
  | .input d => (Channel.input d).payload port = .ok value
  | .output d => (Channel.output d).payload port = .ok value

theorem ports_of_carried {hostPort : String} {g : PortGroup} (h : c.carried? = some (hostPort, g)) :
    c.ports = g.ports := by
  cases c with
  | clock source =>
    cases source with
    | channel => cases h; rfl
    | virtual => cases h
  | input | output => cases h; rfl

/-- Only a virtual clock has no host port. -/
theorem virtual_of_carried (h : c.carried? = none) : ∃ clock, c = .clock (.virtual clock) := by
  cases c with
  | clock source =>
    cases source with
    | channel => cases h
    | virtual clock => exact ⟨clock, rfl⟩
  | input | output => cases h

theorem mem_zip_filterMap {ports : List Port} {found : List (Option Placement)}
    (h : List.Forall₂ (fun port placement => c.placement domains port.name = .ok placement) ports found)
    {placement : Placement} :
    (port, placement) ∈ ((ports.zip found).filterMap fun (port, placement) => placement.map (port.name, ·)) ↔
      port ∈ ports.map (·.name) ∧ c.placement domains port = .ok (some placement) := by
  induction h with
  | nil => simp
  | @cons q found ports founds hq _ ih =>
    rw [List.zip_cons_cons, List.filterMap_cons, List.map_cons, List.mem_cons]
    cases found with
    | none =>
      simp only [Option.map_none, ih]
      refine ⟨fun h => ⟨.inr h.1, h.2⟩, fun h => ⟨h.1.resolve_left fun e => ?_, h.2⟩⟩
      rw [e, hq] at h
      cases h.2
    | some own =>
      simp only [Option.map_some, List.mem_cons, ih, Prod.mk.injEq]
      constructor
      · rintro (⟨rfl, rfl⟩ | h)
        · exact ⟨.inl rfl, hq⟩
        · exact ⟨.inr h.1, h.2⟩
      · rintro ⟨rfl | hp, hplaced⟩
        · rw [hq] at hplaced
          cases hplaced
          exact .inl ⟨rfl, rfl⟩
        · exact .inr ⟨hp, hplaced⟩

theorem mem_placements {placed : List (String × Placement)} (h : c.placements domains = .ok placed)
    {placement : Placement} :
    (port, placement) ∈ placed ↔ c.Lists port ∧ c.placement domains port = .ok (some placement) := by
  obtain ⟨found, hfound, h⟩ := bind_eq_ok.1 h
  cases h
  exact mem_zip_filterMap (mapM_eq_ok.1 hfound)

theorem placement_ok {placed : List (String × Placement)} (h : c.placements domains = .ok placed)
    (hport : c.Lists port) : ∃ placement, c.placement domains port = .ok placement := by
  obtain ⟨found, hfound, -⟩ := bind_eq_ok.1 h
  obtain ⟨q, hq, rfl⟩ := List.mem_map.1 hport
  obtain ⟨placement, -, hplacement⟩ := exists_mem_right (mapM_eq_ok.1 hfound) hq
  exact ⟨placement, hplacement⟩

end Channel

theorem TokenModel.get?_layout {t : TokenModel} {port : String} :
    t.layout.get? port = (t.plan.placements.get? port).map (·.location) :=
  OrderedMap.get?_map

namespace Module.Planned

variable {m : Module} {a : Analysis} {config : Config} {p : Plan} {c : Channel} {port : String}

theorem placements_ok (h : m.Planned a config p) (hc : c ∈ p.interface.channels) :
    ∃ placed, c.placements p.domains = .ok placed := by
  obtain ⟨placed, hplaced, -⟩ := bind_eq_ok.1 h.placements
  obtain ⟨own, -, hown⟩ := exists_mem_right (mapM_eq_ok.1 hplaced) hc
  exact ⟨own, hown⟩

theorem eq_clock_of_mem {source : ClockSource} (hc : .clock source ∈ p.interface.channels) :
    source = p.interface.clock := by
  simpa [Interface.channels] using hc

theorem exists_domain (h : m.Planned a config p) {source : ClockSource} (hc : .clock source ∈ p.interface.channels)
    (hport : (Channel.clock source).Lists port) : ∃ d, p.domains.domain? port = some d := by
  rw [eq_clock_of_mem hc] at hport
  exact OrderedMap.mem_iff_get?.1 ((h.domains.mem_iff port).2 hport)

/-- A channel of the plan has a place for each of its ports, and what stands for the port is as it should be. -/
theorem exists_placement (h : m.Planned a config p) (hc : c ∈ p.interface.channels) (hport : c.Lists port) :
    ∃ placement, c.placement p.domains port = .ok (some placement) ∧ c.StandsFor p.domains port placement.value := by
  obtain ⟨placed, hplaced⟩ := h.placements_ok hc
  obtain ⟨placement, hplacement⟩ := Channel.placement_ok hplaced hport
  cases c with
  | clock source =>
    obtain ⟨d, hd⟩ := h.exists_domain hc hport
    cases source with
    | channel g =>
      obtain ⟨path, hpath, -⟩ := map_eq_ok.1 hplacement
      exact ⟨⟨.channel (sinkName g.name) path, d.gatedClock⟩,
        by simp [Channel.placement, hpath, hd, Except.map], d, hd, rfl⟩
    | virtual clock =>
      exact ⟨⟨.gatedClock d.gatedClock, d.gatedClock⟩, by simp [Channel.placement, hd], d, hd, rfl⟩
  | input d =>
    obtain ⟨path, hpath, rfl⟩ := map_eq_ok.1 hplacement
    exact ⟨_, hplacement, map_eq_ok.2 ⟨path, hpath, rfl⟩⟩
  | output d =>
    obtain ⟨path, hpath, rfl⟩ := map_eq_ok.1 hplacement
    exact ⟨_, hplacement, map_eq_ok.2 ⟨path, hpath, rfl⟩⟩

theorem lists_of_mem_flatten {domains : ClockDomains} {cs : Channels} {placed : List (List (String × Placement))}
    (h : List.Forall₂ (fun c placed => c.placements domains = .ok placed) cs placed)
    (hmem : port ∈ placed.flatten.map Prod.fst) : ∃ c ∈ cs, c.Lists port := by
  obtain ⟨⟨_, placement⟩, hentry, rfl⟩ := List.mem_map.1 hmem
  obtain ⟨own, hown, hentry⟩ := List.mem_flatten.1 hentry
  obtain ⟨c, hc, hplaced⟩ := exists_mem_left h hown
  exact ⟨c, hc, ((Channel.mem_placements hplaced).1 hentry).1⟩

theorem exists_payload (h : m.Planned a config p) {o : DataChannel} (ho : o ∈ p.interface.outputs) {q : Port}
    (hq : q ∈ o.ports) : ∃ value, (Channel.output o).payload q.name = .ok value := by
  have hc : Channel.output o ∈ p.interface.channels := by simp [Interface.channels, ho]
  obtain ⟨placement, -, hstands⟩ := h.exists_placement hc (List.mem_map_of_mem hq)
  exact ⟨placement.value, hstands⟩

/-- A port that several channels list goes with the last of them. -/
theorem placed_by_last (h : m.Planned a config p) {pre post : Channels} (hcs : p.interface.channels = pre ++ c :: post)
    (hport : c.Lists port) (hlast : ∀ c' ∈ post, ¬ c'.Lists port) :
    ∃ placement, p.placements.get? port = some placement ∧ c.StandsFor p.domains port placement.value := by
  obtain ⟨placement, hplacement, hstands⟩ := h.exists_placement (c := c) (by simp [hcs]) hport
  refine ⟨placement, ?_, hstands⟩
  obtain ⟨placed, hplaced, hmap⟩ := bind_eq_ok.1 h.placements
  rw [hcs, List.mapM_append] at hplaced
  obtain ⟨before, -, hplaced⟩ := bind_eq_ok.1 hplaced
  obtain ⟨after, hafter, hplaced⟩ := bind_eq_ok.1 hplaced
  rw [List.mapM_cons] at hafter
  obtain ⟨own, hown, hafter⟩ := bind_eq_ok.1 hafter
  obtain ⟨rest, hrest, hafter⟩ := bind_eq_ok.1 hafter
  cases hafter
  cases hplaced
  -- what the channels before `c` place is overridden, and those after it do not list the port
  rw [← Except.ok.inj hmap, OrderedMap.ofList, List.flatten_append, List.flatten_cons, List.foldl_append,
    List.foldl_append, OrderedMap.get?_foldl_insert_of_not_mem]
  · refine OrderedMap.get?_foldl_insert ?_ ?_ _
    · exact List.mem_map_of_mem ((Channel.mem_placements hown).2 ⟨hport, hplacement⟩)
    · intro w hw
      have hw := ((Channel.mem_placements hown).1 hw).2
      rw [hplacement] at hw
      cases hw
      rfl
  · exact fun hmem => (lists_of_mem_flatten (mapM_eq_ok.1 hrest) hmem).elim fun c' hc' => hlast c' hc'.1 hc'.2

/-- A place is given by a channel that lists the port. -/
theorem exists_channel_of_placed (h : m.Planned a config p) {placement : Placement}
    (hget : p.placements.get? port = some placement) :
    ∃ c ∈ p.interface.channels, c.Lists port ∧ c.placement p.domains port = .ok (some placement) := by
  obtain ⟨placed, hplaced, hmap⟩ := bind_eq_ok.1 h.placements
  rw [← Except.ok.inj hmap, OrderedMap.ofList] at hget
  rcases OrderedMap.mem_of_get?_foldl_insert hget with hmem | hnone
  · obtain ⟨own, hown, hmem⟩ := List.mem_flatten.1 hmem
    obtain ⟨c, hc, hplaced⟩ := exists_mem_left (mapM_eq_ok.1 hplaced) hown
    exact ⟨c, hc, (Channel.mem_placements hplaced).1 hmem⟩
  · cases hnone

/-- A port that some channel lists has a place. -/
theorem placed_of_lists (h : m.Planned a config p) (hc : c ∈ p.interface.channels) (hport : c.Lists port) :
    port ∈ p.placements := by
  obtain ⟨placed, hplaced, hmap⟩ := bind_eq_ok.1 h.placements
  obtain ⟨placement, hplacement, -⟩ := h.exists_placement hc hport
  obtain ⟨own, hown, hc⟩ := exists_mem_right (mapM_eq_ok.1 hplaced) hc
  rw [← Except.ok.inj hmap]
  refine OrderedMap.mem_foldl_insert.2 (.inl (List.mem_map.2 ⟨(port, placement), ?_, rfl⟩))
  exact List.mem_flatten.2 ⟨own, hown, (Channel.mem_placements hc).2 ⟨hport, hplacement⟩⟩

/-- What a host port carries is described on one side of the module, and the port is named for it. -/
theorem spec_of_carried (h : m.Planned a config p) (hc : c ∈ p.interface.channels) {hostPort : String} {g : PortGroup}
    (hcarried : c.carried? = some (hostPort, g)) :
    ∃ direction spec, (g.name, spec) ∈ (a.specs m.name direction).entries ∧ hostPort = hostPortName g.name direction ∧
      m.resolvePorts g.name spec.ports = .ok g.ports := by
  simp only [Interface.channels, List.mem_cons, List.mem_append, List.mem_map] at hc
  rcases hc with rfl | ⟨d, hd, rfl⟩ | ⟨d, hd, rfl⟩
  · rcases clockSource_ok h.clock with ⟨g', spec, hclock, hspec, -, -, hports, -⟩ | ⟨clock, hclock, -⟩
    · rw [hclock] at hcarried
      cases hcarried
      exact ⟨.input, spec, hspec, rfl, hports⟩
    · rw [hclock] at hcarried
      cases hcarried
  · cases hcarried
    exact h.spec_data (List.mem_append_left _ hd)
  · cases hcarried
    exact h.spec_data (List.mem_append_right _ hd)

/-- A virtual clock is the only clock input of a module without a clock channel. -/
theorem virtual_ok (h : m.Planned a config p) {clock : Port} (hc : .clock (.virtual clock) ∈ p.interface.channels) :
    m.clockInputs = [clock] ∧ ∀ entry ∈ (a.inputs m.name).entries, m.carriesClocks entry.2 = false := by
  have hclock := eq_clock_of_mem hc
  rcases clockSource_ok h.clock with ⟨g, spec, hg, -⟩ | ⟨clock', hvirtual, hinputs, hnone⟩
  · cases hclock.trans hg
  · cases hclock.trans hvirtual
    exact ⟨hinputs, hnone⟩

/-- The ports of a channel are ports of the module. -/
theorem mem_ports (h : m.Planned a config p) (hc : c ∈ p.interface.channels) {q : Port} (hq : q ∈ c.ports) :
    q ∈ m.ports := by
  cases hcarried : c.carried? with
  | some carried =>
    obtain ⟨direction, spec, -, -, hports⟩ := h.spec_of_carried hc hcarried
    rw [Channel.ports_of_carried hcarried] at hq
    exact List.mem_of_find?_eq_some (port?_of_resolvePorts hports hq)
  | none =>
    -- the only clock input
    obtain ⟨clock, rfl⟩ := Channel.virtual_of_carried hcarried
    have hq : q ∈ m.clockInputs := (h.virtual_ok hc).1 ▸ hq
    exact (List.mem_filter.1 hq).1

theorem not_placed (h : m.Planned a config p) (hport : ∀ c ∈ p.interface.channels, ¬ c.Lists port) :
    p.placements.get? port = none := by
  obtain ⟨placed, hplaced, hmap⟩ := bind_eq_ok.1 h.placements
  rw [← Except.ok.inj hmap, OrderedMap.ofList, OrderedMap.get?_foldl_insert_of_not_mem]
  · rfl
  · exact fun hmem => (lists_of_mem_flatten (mapM_eq_ok.1 hplaced) hmem).elim fun c hc => hport c hc.1 hc.2

end Module.Planned

end TokenCircuit
