import TokenCircuit.Demo.Sampler
import TokenCircuit.Proofs.Relocation

/-!
# Channels that carry a time

Whether the tokens of a channel carry a time is settled in two places. The channels of a module look it up when they are
made (`Module.Planned.timestamped_of_carried`). A top channel takes over what is known when it is described
(`Analysis.get?_topChannels_add`), and nothing that is found later changes it but another description. So facts in the
wrong order give the two sides of a channel different host ports, and `Analysis.timestamps_agree_iff` tells which orders
are right.
-/

namespace TokenCircuit

theorem pair_sublist_concat {α : Type} {x y z : α} {l : List α} :
    [x, y].Sublist (l ++ [z]) ↔ [x, y].Sublist l ∨ x ∈ l ∧ y = z := by
  have hconcat : [x, y].Sublist (l ++ [z]) ↔ [y, x].Sublist (z :: l.reverse) := by
    rw [← List.reverse_sublist, List.reverse_append]
    rfl
  have hrest : [x, y].Sublist l ↔ [y, x].Sublist l.reverse := List.reverse_sublist.symm
  rw [hconcat, hrest]
  constructor
  · intro h
    cases h with
    | cons _ h => exact .inl h
    | cons_cons _ h => exact .inr ⟨by simpa using h, rfl⟩
  · rintro (h | ⟨hx, rfl⟩)
    · exact h.cons z
    · exact List.Sublist.cons_cons y (by simpa using hx)

namespace Analysis

variable {a : Analysis} {f : Fact} {facts : List Fact} {channel : String} {tc : TopChannel}

theorem ofFacts_concat : ofFacts (facts ++ [f]) = (ofFacts facts).add f := List.foldl_append

theorem isTimestamped_iff : a.isTimestamped channel = true ↔ channel ∈ a.timestamps := decide_eq_true_iff

theorem isTimestamped_add :
    (a.add f).isTimestamped channel = true ↔ f = .timestamp channel ∨ a.isTimestamped channel = true := by
  rw [isTimestamped_iff, isTimestamped_iff]
  cases f with
  | timestamp channel' =>
    have hmem : channel ∈ a.timestamps.insert channel' ↔ channel = channel' ∨ channel ∈ a.timestamps :=
      OrderedSet.mem_insert
    rw [Fact.timestamp.injEq, eq_comm]
    exact hmem
  | _ => simp [add, updateModule]

theorem isTimestamped_ofFacts : (ofFacts facts).isTimestamped channel = true ↔ .timestamp channel ∈ facts := by
  induction facts using List.reverseRecOn with
  | nil => simp [ofFacts, isTimestamped]
  | append_singleton facts f ih =>
    rw [ofFacts_concat, isTimestamped_add, ih, List.mem_append, List.mem_singleton, or_comm, eq_comm]

/-- A description of a top channel replaces what was known of it, and no other fact touches it. -/
theorem get?_topChannels_add (a : Analysis) (f : Fact) (channel : String) :
    (∃ direction ports, f = .topChannel channel direction ports ∧
      (a.add f).topChannels.get? channel = some ⟨direction, ports, a.isTimestamped channel⟩) ∨
    (∀ direction ports, f ≠ .topChannel channel direction ports) ∧
      (a.add f).topChannels.get? channel = a.topChannels.get? channel := by
  cases f with
  | topChannel channel' direction ports =>
    have hget : (a.add (.topChannel channel' direction ports)).topChannels.get? channel =
        if channel = channel' then some ⟨direction, ports, a.isTimestamped channel'⟩ else a.topChannels.get? channel :=
      OrderedMap.get?_insert
    by_cases hsame : channel = channel'
    · subst hsame
      exact .inl ⟨direction, ports, rfl, by rw [hget, if_pos rfl]⟩
    · refine .inr ⟨fun _ _ heq => ?_, by rw [hget, if_neg hsame]⟩
      cases heq
      exact hsame rfl
  | _ => exact .inr ⟨fun _ _ => Fact.noConfusion, rfl⟩

/-- A top channel carries a time if it was marked before it was described, the last time or any time before. -/
theorem timestamped_topChannel (h : (ofFacts facts).topChannels.get? channel = some tc) : tc.timestamped = true ↔
    ∃ direction ports, [.timestamp channel, .topChannel channel direction ports].Sublist facts := by
  induction facts using List.reverseRecOn with
  | nil => cases h
  | append_singleton facts f ih =>
    rw [ofFacts_concat] at h
    simp only [pair_sublist_concat, exists_or]
    rcases get?_topChannels_add (ofFacts facts) f channel with ⟨direction, ports, rfl, hget⟩ | ⟨hother, hget⟩
    · -- what is described now was marked if it was at any time before
      cases hget.symm.trans h
      rw [isTimestamped_ofFacts]
      constructor
      · exact fun hmarked => .inr ⟨direction, ports, hmarked, rfl⟩
      · rintro (⟨_, _, hsub⟩ | ⟨_, _, hmarked, -⟩)
        · exact hsub.subset (List.mem_cons_self ..)
        · exact hmarked
    · rw [hget] at h
      rw [ih h]
      refine ⟨.inl, ?_⟩
      rintro (hsub | ⟨direction, ports, -, heq⟩)
      · exact hsub
      · exact absurd heq.symm (hother direction ports)

/-- If the channel is marked at all, the top channel of that name is described after that. -/
def MarkedInTime (facts : List Fact) (channel : String) : Prop :=
  .timestamp channel ∈ facts →
    ∃ direction ports, [.timestamp channel, .topChannel channel direction ports].Sublist facts

theorem timestamped_eq_iff (h : (ofFacts facts).topChannels.get? channel = some tc) :
    tc.timestamped = (ofFacts facts).isTimestamped channel ↔ MarkedInTime facts channel := by
  have hmarked : (∃ direction ports, [.timestamp channel, .topChannel channel direction ports].Sublist facts) →
      .timestamp channel ∈ facts := fun ⟨_, _, hsub⟩ => hsub.subset (List.mem_cons_self ..)
  rw [Bool.eq_iff_iff, timestamped_topChannel h, isTimestamped_ofFacts, MarkedInTime]
  exact ⟨Iff.mpr, fun htime => ⟨hmarked, htime⟩⟩

end Analysis

/-- The channels of a module carry a time if they are marked, whenever that was. -/
theorem Module.Planned.timestamped_of_carried {m : Module} {a : Analysis} {config : Config} {p : Plan}
    (h : m.Planned a config p) {c : Channel} (hc : c ∈ p.interface.channels) {hostPort : String} {g : PortGroup}
    (hcarried : c.carried? = some (hostPort, g)) : g.timestamped = a.isTimestamped g.name := by
  simp only [Interface.channels, List.mem_cons, List.mem_append, List.mem_map] at hc
  rcases hc with rfl | ⟨d, hd, rfl⟩ | ⟨d, hd, rfl⟩
  · rcases clockSource_ok h.clock with ⟨g', spec, hclock, -, -, -, -, htime⟩ | ⟨clock, hclock, -⟩
    · rw [hclock] at hcarried
      cases hcarried
      exact htime
    · rw [hclock] at hcarried
      cases hcarried
  · obtain ⟨spec, -, hmakes⟩ := exists_mem_left h.inputs hd
    cases hcarried
    exact hmakes.name ▸ hmakes.timestamped
  · obtain ⟨spec, -, hmakes⟩ := exists_mem_left h.outputs hd
    cases hcarried
    exact hmakes.name ▸ hmakes.timestamped

/-! ### Host ports -/

/-- The type of a host port: a handshake around a payload, and around its time if `timed`. -/
def SignalType.token (timed : Bool) (data : SignalType) : SignalType :=
  .decoupled (if timed then .timestamped data else data)

theorem Payload.exists_token {channel : String} {ports : List Port} {timed : Bool} {type : SignalType}
    (h : Payload.type channel ports timed = .ok type) : ∃ data, SignalType.decoupled type = .token timed data := by
  obtain ⟨data, -, rfl⟩ := map_eq_ok.1 h
  exact ⟨data, rfl⟩

theorem Module.Rewired.exists_hostPort {m rewired : Module} {a : Analysis} {config : Config} {channel : String}
    {tc : TopChannel} (h : m.Rewired a config rewired) (hget : a.topChannels.get? channel = some tc) :
    ∃ data, ⟨tc.direction, hostPortName channel tc.direction, .token tc.timestamped data⟩ ∈ rewired.ports := by
  obtain ⟨channelPorts, hall, hports⟩ := h.ports
  obtain ⟨port, hmem, hport⟩ := exists_mem_right hall (OrderedMap.get?_eq_some_iff.1 hget)
  obtain ⟨_, _, -, htype, rfl⟩ := topChannelPort_ok hport
  obtain ⟨data, heq⟩ := Payload.exists_token htype
  refine ⟨data, ?_⟩
  rw [hports, ← heq]
  exact List.mem_append_right _ hmem

theorem Module.Modelled.exists_hostPort {m : Module} {a : Analysis} {host : HostSignals} {config : Config}
    {t : TokenModel} (h : m.Modelled a host config t) {c : Channel} (hc : c ∈ t.plan.interface.channels)
    {hostPort : String} {g : PortGroup} (hcarried : c.carried? = some (hostPort, g)) :
    ∃ data, ⟨c.direction, hostPort, .token (a.isTimestamped g.name) data⟩ ∈ t.module.ports := by
  obtain ⟨_, htype, hport⟩ := h.port?_hostPort hc hcarried
  obtain ⟨data, heq⟩ := Payload.exists_token htype
  refine ⟨data, ?_⟩
  rw [← h.planned.timestamped_of_carried hc hcarried, ← heq]
  exact List.mem_of_find?_eq_some hport

/-- Facts may come in any order. A top channel is then taken for one that carries a time as the channels of its name
are, exactly if a channel that is marked is described after that. The host ports follow: that of the top channel has a
time if the top channel is taken for such a one, and that of a channel in a module if the channel is marked. -/
theorem Analysis.timestamps_agree_iff {facts : List Fact} {channel : String} {tc : TopChannel}
    (h : (ofFacts facts).topChannels.get? channel = some tc) :
    (tc.timestamped = (ofFacts facts).isTimestamped channel ↔ MarkedInTime facts channel) ∧
    (∀ (top rewired : Module) (layouts : OrderedMap String Layout) (host : HostSignals) (config : Config),
      (top.rewired (ofFacts facts) layouts host config).outcome = .ok rewired →
        ∃ data, ⟨tc.direction, hostPortName channel tc.direction, .token tc.timestamped data⟩ ∈ rewired.ports) ∧
    ∀ (m : Module) (host : HostSignals) (config : Config) (t : TokenModel),
      (m.tokenModel (ofFacts facts) host config).outcome = .ok t →
        ∀ c ∈ t.plan.interface.channels, ∀ hostPort g, c.carried? = some (hostPort, g) → g.name = channel →
          ∃ data, ⟨c.direction, hostPort, .token ((ofFacts facts).isTimestamped channel) data⟩ ∈ t.module.ports := by
  refine ⟨timestamped_eq_iff h, fun top rewired layouts host config hrewired => ?_, ?_⟩
  · exact (Module.rewired_ok hrewired).exists_hostPort h
  · rintro m host config t hmodel c hc hostPort g hcarried rfl
    exact (Module.tokenModel_ok hmodel).exists_hostPort hc hcarried

namespace Demo.Sampler

/-- The clocks are marked before they are described, so they come with a time outside the sampler and inside. -/
theorem clocks_carry_time : ∃ tc, analysis.topChannels.get? "clock" = some tc ∧
    tc.timestamped = analysis.isTimestamped "clock" ∧ ∃ rewired t data data',
      (top.rewired analysis ∅ (.ofConfig {}) {}).outcome = .ok rewired ∧
      (sampler.tokenModel analysis (.ofConfig {}) {}).outcome = .ok t ∧
      ⟨.input, "clock_sink", .token tc.timestamped data⟩ ∈ rewired.ports ∧
      ⟨.input, "clock_sink", .token (analysis.isTimestamped "clock") data'⟩ ∈ t.module.ports := by
  have hget : analysis.topChannels.get? "clock" = some ⟨.input, ["clock_fast", "clock_slow"], true⟩ := by decide +kernel
  obtain ⟨hagree, houter, hinner⟩ := Analysis.timestamps_agree_iff hget
  have htop : ((top.rewired analysis ∅ (.ofConfig {}) {}).outcome.toOption.map fun _ => ()) = some () := by
    decide +kernel
  have hclock : ((sampler.tokenModel analysis (.ofConfig {}) {}).outcome.toOption.map (·.plan.interface.clock)) =
      some (.channel ⟨"clock", [.input "clock_fast" .clock, .input "clock_slow" .clock], true⟩) := by decide +kernel
  obtain ⟨rewired, hrewired, -⟩ := exists_ok_of_map htop
  obtain ⟨t, ht, hclock⟩ := exists_ok_of_map hclock
  obtain ⟨data, houter⟩ := houter top rewired ∅ (.ofConfig {}) {} hrewired
  have hmem : .clock t.plan.interface.clock ∈ t.plan.interface.channels := List.mem_cons_self
  rw [hclock] at hmem
  obtain ⟨data', hinner⟩ := hinner sampler (.ofConfig {}) {} t ht _ hmem _ _ rfl rfl
  refine ⟨_, hget, hagree.2 fun _ => ⟨.input, ["clock_fast", "clock_slow"], by decide⟩, rewired, t, data, data', ?_⟩
  exact ⟨hrewired, ht, houter, hinner⟩

/-- A top channel that is described first does not learn that it is marked. -/
theorem sample_marked_too_late :
    let a : Analysis := .ofFacts [.topChannel "sample" .output ["sample"], .timestamp "sample"]
    ∃ tc, a.topChannels.get? "sample" = some tc ∧ tc.timestamped = false ∧ a.isTimestamped "sample" = true := by
  intro a
  have hget : a.topChannels.get? "sample" = some ⟨.output, ["sample"], false⟩ := by decide +kernel
  exact ⟨_, hget, rfl, by decide +kernel⟩

end Demo.Sampler

end TokenCircuit
