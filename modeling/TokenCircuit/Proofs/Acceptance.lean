import TokenCircuit.Proofs.Hygiene
import TokenCircuit.Proofs.Payloads
import TokenCircuit.Proofs.Placing
import TokenCircuit.Proofs.Resolution

/-!
# Modules that can be made token-driven

`Module.Channelizable` says what the description of a module must satisfy: it has clocks, the host ports of its channels
are free, every data channel has ports, a time base and a clock, and the ports of a channel have fields of their own.
Each step of planning asks for a part of this and no more. The types of the host ports are worked out last, when nothing
can go wrong: the same fields have served to place the ports.
-/

namespace TokenCircuit

/-! ### What a description must satisfy -/

namespace Module

variable (m : Module) (a : Analysis)

/-- The channel names at least one port, and all that it names are clocks of the module. -/
def CarriesClocks (spec : ChannelSpec) : Prop :=
  spec.ports ≠ [] ∧ ∀ name ∈ spec.ports, ∃ port, m.port? name = some port ∧ port.isClock = true

theorem carriesClocks_iff {m : Module} {spec : ChannelSpec} : m.carriesClocks spec = true ↔ m.CarriesClocks spec := by
  simp [carriesClocks, CarriesClocks, Option.any_eq_true]

instance : DecidablePred m.CarriesClocks := fun _ => decidable_of_iff _ carriesClocks_iff

/-- The clock channel: the first input that carries clocks. -/
def clockChannel? : Option (String × ChannelSpec) :=
  (a.inputs m.name).entries.find? fun entry => m.CarriesClocks entry.2

/-- The target clocks: those of the clock channel, or else all clock inputs. -/
def clockNames : List String := ((m.clockChannel? a).map (·.2.ports)).getD (m.clockInputs.map (·.name))

def dataSpecs : List (String × ChannelSpec) :=
  (a.inputs m.name).entries.filter (m.clockChannel? a ≠ some ·) ++ (a.outputs m.name).entries

/-- A clock channel has no clock of its own, and a module without one has a single clock input. -/
structure HasClocks : Prop where
  channel : ∀ clock, m.clockChannel? a = some clock → clock.2.clock = none
  virtual : m.clockChannel? a = none → m.clockInputs.length = 1

/-- No host port of a channel has a name that the module or the host uses. -/
def FreeHostPorts (config : Config) : Prop := ∀ direction, ∀ entry ∈ (a.specs m.name direction).entries,
  hostPortName entry.1 direction ∉ config.hostClock :: config.hostReset :: m.ownNames

/-- A data channel names ports of the module, has a time only if the clock channel has one, and belongs to exactly one
target clock; with a clock channel it must say to which. -/
structure Admits (entry : String × ChannelSpec) : Prop where
  ports : ∀ name ∈ entry.2.ports, ∃ port ∈ m.ports, port.name = name
  time : a.isTimestamped entry.1 = true → ∃ clock, m.clockChannel? a = some clock ∧ a.isTimestamped clock.1 = true
  driver : ∀ k, entry.2.clock = some k →
    ∃! port, port ∈ m.clockNames a ∧ Relation.ReflTransGen (a.connectivity m.name).Drives k port
  undeclared : entry.2.clock = none → m.clockChannel? a = none

/-- What the description of a module must satisfy. -/
structure Channelizable (config : Config) : Prop where
  clocks : m.HasClocks a
  hostPorts : m.FreeHostPorts a config
  data : ∀ entry ∈ m.dataSpecs a, m.Admits a entry
  fields : ∀ direction, ∀ entry ∈ (a.specs m.name direction).entries, Payload.Separates entry.1 entry.2.ports

end Module

/-! ### The clock source -/

namespace Module

variable {m : Module} {a : Analysis} {config : Config} {clock : ClockSource} {entry : String × ChannelSpec}

theorem succeeds_resolvePorts {channel : String} {names : List String} :
    Succeeds (m.resolvePorts channel names) ↔ ∀ name ∈ names, ∃ port ∈ m.ports, port.name = name := by
  rw [resolvePorts, succeeds_mapM]
  refine forall₂_congr fun name _ => ?_
  cases hport : m.port? name with
  | none =>
    refine iff_of_false not_succeeds_error ?_
    rintro ⟨port, hmem, hname⟩
    exact List.find?_eq_none.1 hport port hmem (by simpa using hname)
  | some port =>
    exact iff_of_true succeeds_ok ⟨port, List.mem_of_find?_eq_some hport, by simpa using List.find?_some hport⟩

theorem clockChannel?_spec (h : m.clockChannel? a = some entry) :
    entry ∈ (a.inputs m.name).entries ∧ m.CarriesClocks entry.2 :=
  ⟨List.mem_of_find?_eq_some h, by simpa using List.find?_some h⟩

theorem clockSource_eq_ok : m.clockSource (a.inputs m.name) a.isTimestamped = .ok clock ↔
    (∃ entry ports, m.clockChannel? a = some entry ∧ entry.2.clock = none ∧
      m.resolvePorts entry.1 entry.2.ports = .ok ports ∧ clock = .channel ⟨entry.1, ports, a.isTimestamped entry.1⟩) ∨
    ∃ port, m.clockChannel? a = none ∧ m.clockInputs = [port] ∧ clock = .virtual port := by
  have hfind : (a.inputs m.name).entries.find? (fun entry => m.carriesClocks entry.2) = m.clockChannel? a := by
    refine congrArg (List.find? · _) (funext fun entry => ?_)
    rw [Bool.eq_iff_iff, decide_eq_true_iff]
    exact carriesClocks_iff
  unfold clockSource
  rw [hfind]
  cases m.clockChannel? a with
  | some entry =>
    cases hclock : entry.2.clock with
    | some k => simp [hclock]
    | none => simp [hclock, map_eq_ok, @eq_comm _ clock]
  | none =>
    rcases m.clockInputs with _ | ⟨port, _ | ⟨port', ports⟩⟩ <;> simp [eq_comm]

theorem hasClocks_iff : m.HasClocks a ↔ (∀ clock, m.clockChannel? a = some clock → clock.2.clock = none) ∧
    (m.clockChannel? a = none → m.clockInputs.length = 1) :=
  ⟨fun h => ⟨h.channel, h.virtual⟩, fun h => ⟨h.1, h.2⟩⟩

theorem succeeds_clockSource : Succeeds (m.clockSource (a.inputs m.name) a.isTimestamped) ↔ m.HasClocks a := by
  simp only [Succeeds, clockSource_eq_ok, hasClocks_iff, List.length_eq_one_iff]
  cases hchannel : m.clockChannel? a with
  | none => simp
  | some entry =>
    -- the ports of a clock channel are known to exist
    obtain ⟨-, -, hclocks⟩ := clockChannel?_spec hchannel
    have hports : Succeeds (m.resolvePorts entry.1 entry.2.ports) := by
      refine succeeds_resolvePorts.2 fun name hname => ?_
      obtain ⟨port, hport, -⟩ := hclocks name hname
      exact ⟨port, List.mem_of_find?_eq_some hport, by simpa using List.find?_some hport⟩
    obtain ⟨ports, hports⟩ := hports
    simp [hports]

end Module

/-! ### Data channels and host ports of a description -/

namespace Module

variable {m : Module} {a : Analysis} {config : Config} {clock : ClockSource} {entry : String × ChannelSpec}

theorem mem_specs_iff : (∃ direction, entry ∈ (a.specs m.name direction).entries) ↔
    m.clockChannel? a = some entry ∨ entry ∈ m.dataSpecs a := by
  have hclock : m.clockChannel? a = some entry → entry ∈ (a.inputs m.name).entries := fun h => (clockChannel?_spec h).1
  have hside : (∃ direction, entry ∈ (a.specs m.name direction).entries) ↔
      entry ∈ (a.inputs m.name).entries ∨ entry ∈ (a.outputs m.name).entries := by
    constructor
    · rintro ⟨_ | _, h⟩
      · exact .inl h
      · exact .inr h
    · rintro (h | h)
      · exact ⟨.input, h⟩
      · exact ⟨.output, h⟩
  rw [hside, dataSpecs, List.mem_append, List.mem_filter, decide_eq_true_iff]
  tauto

theorem forall_specs_iff {P : String × ChannelSpec → Prop} :
    (∀ direction, ∀ entry ∈ (a.specs m.name direction).entries, P entry) ↔
      (∀ entry, m.clockChannel? a = some entry → P entry) ∧ ∀ entry ∈ m.dataSpecs a, P entry := by
  constructor
  · intro h
    refine ⟨fun entry hentry => ?_, fun entry hentry => ?_⟩
    · obtain ⟨direction, hmem⟩ := mem_specs_iff.2 (.inl hentry)
      exact h direction entry hmem
    · obtain ⟨direction, hmem⟩ := mem_specs_iff.2 (.inr hentry)
      exact h direction entry hmem
  · rintro ⟨hclock, hdata⟩ direction entry hentry
    rcases mem_specs_iff.1 ⟨direction, hentry⟩ with hentry | hentry
    · exact hclock entry hentry
    · exact hdata entry hentry

/-- A clock source claims the entry of the clock channel and no other. -/
theorem inputSpecs_eq (h : m.clockSource (a.inputs m.name) a.isTimestamped = .ok clock) :
    m.inputSpecs a clock = (a.inputs m.name).entries.filter (m.clockChannel? a ≠ some ·) := by
  refine List.filter_congr fun entry hentry => ?_
  rcases clockSource_eq_ok.1 h with ⟨found, ports, hfound, -, -, rfl⟩ | ⟨port, hnone, -, rfl⟩
  · have hsame : found.1 = entry.1 ↔ found = entry :=
      ⟨fun heq => List.inj_on_of_nodup_map (a.inputs m.name).nodup (clockChannel?_spec hfound).1 hentry heq,
        congrArg Prod.fst⟩
    simp [ClockSource.claims, hfound, hsame]
  · simp [ClockSource.claims, hnone]

theorem map_snd_described (h : m.clockSource (a.inputs m.name) a.isTimestamped = .ok clock) :
    (m.described a clock).map Prod.snd = m.dataSpecs a := by
  rw [described, inputSpecs_eq h, dataSpecs, List.map_append, List.map_map, List.map_map]
  exact congrArg₂ (· ++ ·) (List.map_id _) (List.map_id _)

theorem map_name_ports (h : m.clockSource (a.inputs m.name) a.isTimestamped = .ok clock) :
    clock.ports.map (·.name) = m.clockNames a := by
  rcases clockSource_eq_ok.1 h with ⟨entry, ports, hentry, -, hports, rfl⟩ | ⟨port, hnone, hport, rfl⟩
  · rw [clockNames, hentry]
    exact map_name_resolvePorts hports
  · rw [clockNames, hnone, hport]
    rfl

theorem isVirtual_iff (h : m.clockSource (a.inputs m.name) a.isTimestamped = .ok clock) :
    clock.isVirtual = true ↔ m.clockChannel? a = none := by
  rcases clockSource_eq_ok.1 h with ⟨entry, ports, hentry, -, -, rfl⟩ | ⟨port, hnone, -, rfl⟩
  · simp [ClockSource.isVirtual, hentry]
  · simp [ClockSource.isVirtual, hnone]

theorem isSome_time?_iff (h : m.clockSource (a.inputs m.name) a.isTimestamped = .ok clock) :
    clock.time?.isSome = true ↔ ∃ entry, m.clockChannel? a = some entry ∧ a.isTimestamped entry.1 = true := by
  rcases clockSource_eq_ok.1 h with ⟨entry, ports, hentry, -, -, rfl⟩ | ⟨port, hnone, -, rfl⟩
  · simp [ClockSource.time?, hentry]
  · simp [ClockSource.time?, hnone]

end Module

/-- The host ports of the channels that are described for a module. -/
def Analysis.hostPorts (a : Analysis) (module : String) : List String :=
  (a.inputs module).keys.map (hostPortName · .input) ++ (a.outputs module).keys.map (hostPortName · .output)

theorem Analysis.nodup_hostPorts (a : Analysis) (module : String) : (a.hostPorts module).Nodup := by
  have hside : ∀ (specs : OrderedMap String ChannelSpec) direction, (specs.keys.map (hostPortName · direction)).Nodup :=
    fun specs direction => specs.nodup.map fun _ _ heq => (hostPortName_injective heq).1
  refine List.nodup_append.2 ⟨hside _ _, hside _ _, ?_⟩
  simp only [List.mem_map]
  rintro _ ⟨input, -, rfl⟩ _ ⟨output, -, rfl⟩ heq
  cases (hostPortName_injective heq).2

theorem Analysis.mem_hostPorts {a : Analysis} {module name : String} : name ∈ a.hostPorts module ↔
    ∃ direction, ∃ entry ∈ (a.specs module direction).entries, hostPortName entry.1 direction = name := by
  simp only [hostPorts, OrderedMap.keys, List.mem_append, List.mem_map, exists_exists_and_eq_and]
  constructor
  · rintro (⟨entry, hentry, hname⟩ | ⟨entry, hentry, hname⟩)
    · exact ⟨.input, entry, hentry, hname⟩
    · exact ⟨.output, entry, hentry, hname⟩
  · rintro ⟨_ | _, entry, hentry, hname⟩
    · exact .inl ⟨entry, hentry, hname⟩
    · exact .inr ⟨entry, hentry, hname⟩

theorem NameSupply.succeeds_reserveHostPorts {module : String} {ports : List (String × String)} {s : NameSupply} :
    Succeeds (reserveHostPorts module ports s) ↔ (ports.map Prod.snd).Nodup ∧ ∀ n ∈ ports.map Prod.snd, n ∉ s := by
  constructor
  · rintro ⟨t, ht⟩
    have hgrows := grows_reserveHostPorts ht
    exact ⟨hgrows.nodup, hgrows.unused⟩
  · rintro ⟨hnodup, hfree⟩
    induction ports generalizing s with
    | nil => exact succeeds_ok
    | cons port ports ih =>
      obtain ⟨hport, hnodup⟩ := List.nodup_cons.1 hnodup
      obtain ⟨hfirst, hfree⟩ := List.forall_mem_cons.1 hfree
      rw [reserveHostPorts, if_neg hfirst]
      refine ih hnodup fun n hn => ?_
      rw [mem_add, not_or]
      exact ⟨fun heq => hport (heq ▸ hn), hfree n hn⟩

theorem ClockSource.filter_claims {g : PortGroup} {names : List String} (h : names.Nodup) :
    (names.filter fun name => !(ClockSource.channel g).claims name) = names.erase g.name := by
  rw [h.erase_eq_filter]
  refine List.filter_congr fun name _ => ?_
  rw [Bool.eq_iff_iff]
  simp [claims, @eq_comm _ g.name]

namespace Module

variable {m : Module} {a : Analysis} {config : Config} {clock : ClockSource}

/-- The clock channel comes first and is left out among the inputs. -/
theorem hostPortNames_perm (h : m.clockSource (a.inputs m.name) a.isTimestamped = .ok clock) :
    ((hostPortNames clock (m.inputSpecs a clock) (a.outputs m.name).entries).map Prod.snd).Perm
      (a.hostPorts m.name) := by
  have hinputs : (m.inputSpecs a clock).map Prod.fst = (a.inputs m.name).keys.filter (!clock.claims ·) := by
    rw [OrderedMap.keys, List.filter_map]
    rfl
  have hkeys :
      (clock.group?.toList.map (·.name) ++ (m.inputSpecs a clock).map Prod.fst).Perm (a.inputs m.name).keys := by
    rw [hinputs]
    rcases clockSource_eq_ok.1 h with ⟨entry, ports, hentry, -, -, rfl⟩ | ⟨port, -, -, rfl⟩
    · have hmem : entry.1 ∈ (a.inputs m.name).keys := List.mem_map_of_mem (clockChannel?_spec hentry).1
      rw [ClockSource.filter_claims (show (a.inputs m.name).keys.Nodup from (a.inputs m.name).nodup)]
      exact (List.perm_cons_erase hmem).symm
    · simp [ClockSource.group?, ClockSource.claims]
  have hnames := (hkeys.map (hostPortName · .input)).append_right ((a.outputs m.name).keys.map (hostPortName · .output))
  rw [map_snd_hostPortNames]
  simpa [Analysis.hostPorts, OrderedMap.keys, hostPortName, Function.comp_def] using hnames

theorem succeeds_reserve (h : m.clockSource (a.inputs m.name) a.isTimestamped = .ok clock) :
    Succeeds (NameSupply.reserveHostPorts m.name (hostPortNames clock (m.inputSpecs a clock) (a.outputs m.name).entries)
      (m.initialNames config)) ↔ m.FreeHostPorts a config := by
  have hperm := hostPortNames_perm h
  rw [NameSupply.succeeds_reserveHostPorts, hperm.nodup_iff, and_iff_right (a.nodup_hostPorts m.name)]
  simp only [hperm.mem_iff, Analysis.mem_hostPorts, mem_initialNames, FreeHostPorts, List.mem_cons]
  exact ⟨fun hfree direction entry hentry => hfree _ ⟨direction, entry, hentry, rfl⟩,
    fun hfree n ⟨direction, entry, hentry, hname⟩ => hname ▸ hfree direction entry hentry⟩

end Module

/-! ### Payloads of channels -/

theorem PortGroup.succeeds_payloadPaths {g : PortGroup} :
    (∀ port ∈ g.ports, Succeeds (g.payloadPath port.name)) ↔ Payload.Separates g.name (g.ports.map (·.name)) := by
  constructor
  · intro h
    rcases hports : g.ports with _ | ⟨port, ports⟩
    · exact Payload.separates_of_length (Nat.zero_le 1)
    · have hport : port ∈ g.ports := hports ▸ List.mem_cons_self ..
      rw [← hports]
      exact (Payload.succeeds_path (List.mem_map_of_mem hport)).1 (h port hport)
  · exact fun h port hport => (Payload.succeeds_path (List.mem_map_of_mem hport)).2 h

namespace Channel

variable {c : Channel} {domains : ClockDomains}

/-- What the host port carries, if there is one, can be told apart. -/
def Fits (c : Channel) : Prop :=
  ∀ carried, c.carried? = some carried → Payload.Separates carried.2.name (carried.2.ports.map (·.name))

theorem fits_of_carried {hostPort : String} {g : PortGroup} (h : c.carried? = some (hostPort, g)) :
    c.Fits ↔ ∀ port ∈ c.ports, Succeeds (g.payloadPath port.name) := by
  rw [ports_of_carried h, PortGroup.succeeds_payloadPaths, Fits, h]
  simp

theorem fits_of_virtual {clock : Port} : (Channel.clock (.virtual clock)).Fits := fun _ h => by cases h

theorem fits_input {d : DataChannel} : (Channel.input d).Fits ↔ Payload.Separates d.name (d.ports.map (·.name)) := by
  simp [Fits, carried?]

theorem fits_output {d : DataChannel} : (Channel.output d).Fits ↔ Payload.Separates d.name (d.ports.map (·.name)) := by
  simp [Fits, carried?]

theorem succeeds_flagValues : (∀ port ∈ c.ports, Succeeds (ClockDomains.flagValue c port.name)) ↔ c.Fits := by
  cases hcarried : c.carried? with
  | none =>
    obtain ⟨clock, rfl⟩ := virtual_of_carried hcarried
    exact iff_of_true (fun _ _ => succeeds_ok) fits_of_virtual
  | some carried =>
    rw [fits_of_carried hcarried]
    refine forall₂_congr fun port _ => ?_
    have hvalue : ClockDomains.flagValue c port.name = c.payload port.name := by
      cases c with
      | clock source =>
        cases source with
        | channel => rfl
        | virtual => cases hcarried
      | input | output => rfl
    rw [hvalue, payload, hcarried, succeeds_map]

theorem succeeds_placement {carried : String × PortGroup} (h : c.carried? = some carried) {port : String} :
    Succeeds (c.placement domains port) ↔ Succeeds (carried.2.payloadPath port) := by
  cases c with
  | clock source =>
    cases source with
    | channel =>
      cases h
      rw [placement, succeeds_map]
    | virtual => cases h
  | input | output =>
    cases h
    rw [placement, succeeds_map]

theorem succeeds_placements : Succeeds (c.placements domains) ↔ c.Fits := by
  rw [placements, succeeds_bind_pure, succeeds_mapM]
  cases hcarried : c.carried? with
  | none =>
    obtain ⟨clock, rfl⟩ := virtual_of_carried hcarried
    exact iff_of_true (fun _ _ => succeeds_ok) fits_of_virtual
  | some carried =>
    rw [fits_of_carried hcarried]
    exact forall₂_congr fun port _ => succeeds_placement hcarried

theorem succeeds_hostPort? : Succeeds c.hostPort? ↔ c.Fits := by
  cases hcarried : c.carried? with
  | none =>
    obtain ⟨clock, rfl⟩ := virtual_of_carried hcarried
    exact iff_of_true succeeds_ok fits_of_virtual
  | some carried =>
    rw [hostPort?, hcarried, succeeds_map, PortGroup.payloadType, Payload.succeeds_type, Fits, hcarried]
    simp

end Channel

theorem Interface.succeeds_placements {i : Interface} {domains : ClockDomains} :
    Succeeds (i.placements domains) ↔ ∀ c ∈ i.channels, c.Fits := by
  rw [placements, succeeds_bind_pure, succeeds_mapM]
  exact forall₂_congr fun c _ => Channel.succeeds_placements

theorem Plan.succeeds_channelPorts {p : Plan} : Succeeds p.channelPorts ↔ ∀ c ∈ p.interface.channels, c.Fits := by
  have hmem : ∀ c, c ∈ p.interface.hostOrder ↔ c ∈ p.interface.channels := fun c => by
    simp only [Interface.channels, Interface.hostOrder, List.mem_cons, List.mem_append, List.not_mem_nil, or_false]
    tauto
  rw [channelPorts, succeeds_bind_pure, succeeds_mapM]
  exact forall_congr' fun c => imp_congr (hmem c) Channel.succeeds_hostPort?

/-! ### Domains and data channels -/

namespace ClockDomains

variable {c : Channel} {isVirtual : Bool} {s : NameSupply}

theorem succeeds_addDomains {ports : List Port} {domains : OrderedMap String ClockDomain} :
    Succeeds (addDomains c isVirtual ports domains s).outcome ↔ ∀ port ∈ ports, Succeeds (flagValue c port.name) := by
  induction ports generalizing domains s with
  | nil => exact iff_of_true succeeds_ok (by simp)
  | cons port ports ih =>
    simp only [addDomains, Logged.outcome_bind, Logged.outcome_liftM, Logged.outcome_emit]
    rw [succeeds_bind, List.forall_mem_cons]
    constructor
    · rintro ⟨value, hvalue, hrest⟩
      exact ⟨⟨value, hvalue⟩, ih.1 hrest⟩
    · rintro ⟨⟨value, hvalue⟩, hrest⟩
      exact ⟨value, hvalue, ih.2 hrest⟩

/-- The names of the domains are fresh, so only their flags can be missing. -/
theorem succeeds_synthesize {config : Config} : Succeeds (synthesize c config s).outcome ↔ c.Fits := by
  simp only [synthesize, Logged.outcome_bind]
  rw [succeeds_bind, ← Channel.succeeds_flagValues, ← succeeds_addDomains]
  refine exists_congr fun made => and_iff_left_of_imp fun _ => ?_
  cases clockTime? c <;> exact succeeds_ok

theorem DomainsOf.succeeds_resolve_none {clock : ClockSource} {ds : ClockDomains} (h : DomainsOf (.clock clock) ds)
    {g : Connectivity} {module channel : String} :
    Succeeds (ds.resolve g clock.isVirtual module channel none) ↔ clock.isVirtual = true := by
  cases clock with
  | channel => exact iff_of_false not_succeeds_error (by simp [ClockSource.isVirtual])
  | virtual port =>
    refine iff_of_true ?_ rfl
    -- the domain of the virtual clock is there
    obtain ⟨d, hd⟩ := OrderedMap.mem_iff_get?.1 ((h.mem_iff port.name).2 (List.mem_singleton_self _))
    have hall : d ∈ ds.all := OrderedMap.mem_values_iff.2 ⟨_, hd⟩
    cases hds : ds.all with
    | nil => exact absurd (hds ▸ hall) List.not_mem_nil
    | cons first rest =>
      unfold resolve
      rw [hds]
      exact succeeds_ok

end ClockDomains

theorem ChannelContext.succeeds_checked {ctx : ChannelContext} {channel : String} {spec : ChannelSpec} :
    Succeeds (ctx.checked channel spec) ↔ Succeeds (ctx.module.resolvePorts channel spec.ports) ∧
      (ctx.analysis.isTimestamped channel = true → ctx.domains.simTime.isSome) ∧
      Succeeds (ctx.domains.resolve (ctx.analysis.connectivity ctx.module.name) ctx.clock.isVirtual ctx.module.name
        channel spec.clock) := by
  constructor
  · rintro ⟨⟨ports, domain⟩, h⟩
    obtain ⟨hports, htime, hdomain⟩ := checked_ok h
    exact ⟨⟨ports, hports⟩, htime, domain, hdomain⟩
  · rintro ⟨⟨ports, hports⟩, htime, hdomain⟩
    rw [checked_eq hports htime, succeeds_map]
    exact hdomain

namespace Module

variable {m : Module} {a : Analysis} {config : Config} {w : Groundwork}

theorem succeeds_checked_iff (h : m.groundwork a config = .ok w) {entry : String × ChannelSpec} :
    Succeeds ((w.context m a).checked entry.1 entry.2) ↔ m.Admits a entry := by
  obtain ⟨hclock, hdomains⟩ := groundwork_ok h
  have htime : w.domains.simTime.isSome = true ↔
      ∃ clock, m.clockChannel? a = some clock ∧ a.isTimestamped clock.1 = true := by
    rw [← isSome_time?_iff hclock, ← Option.isSome_map, hdomains.time]
    rfl
  have hdomain : Succeeds (w.domains.resolve (a.connectivity m.name) w.clock.isVirtual m.name entry.1 entry.2.clock) ↔
      (∀ k, entry.2.clock = some k → ∃! port, port ∈ m.clockNames a ∧
        Relation.ReflTransGen (a.connectivity m.name).Drives k port) ∧
      (entry.2.clock = none → m.clockChannel? a = none) := by
    cases entry.2.clock with
    | none => simp [hdomains.succeeds_resolve_none, isVirtual_iff hclock]
    | some k => simp [hdomains.succeeds_resolve_iff, ClockSource.IsDriver, map_name_ports hclock]
  refine ChannelContext.succeeds_checked.trans ⟨?_, ?_⟩
  · rintro ⟨hports, hstamped, hresolve⟩
    obtain ⟨hdriver, hundeclared⟩ := hdomain.1 hresolve
    exact ⟨succeeds_resolvePorts.1 hports, fun hentry => htime.1 (hstamped hentry), hdriver, hundeclared⟩
  · rintro ⟨hports, hstamped, hdriver, hundeclared⟩
    exact ⟨succeeds_resolvePorts.2 hports, fun hentry => htime.2 (hstamped hentry), hdomain.2 ⟨hdriver, hundeclared⟩⟩

theorem succeeds_interface (h : m.groundwork a config = .ok w) :
    Succeeds (w.interface m a) ↔ ∀ entry ∈ m.dataSpecs a, m.Admits a entry := by
  rw [(w.agree_interface m a).succeeds_iff, succeeds_mapM, ← map_snd_described (groundwork_ok h).1, List.forall_mem_map]
  exact forall₂_congr fun x _ => succeeds_checked_iff h

end Module

/-! ### From the steps to the whole -/

namespace Module

variable {m : Module} {a : Analysis} {config : Config} {w : Groundwork}

theorem fits_clock_iff {clock : ClockSource} (h : m.clockSource (a.inputs m.name) a.isTimestamped = .ok clock) :
    (Channel.clock clock).Fits ↔ ∀ entry, m.clockChannel? a = some entry → Payload.Separates entry.1 entry.2.ports := by
  rcases clockSource_eq_ok.1 h with ⟨entry, ports, hentry, -, hports, rfl⟩ | ⟨port, hnone, -, rfl⟩
  · simp [Channel.Fits, Channel.carried?, hentry, map_name_resolvePorts hports]
  · exact iff_of_true Channel.fits_of_virtual (by simp [hnone])

theorem succeeds_groundwork : Succeeds (m.groundwork a config) ↔ m.HasClocks a ∧ m.FreeHostPorts a config ∧
    ∀ entry, m.clockChannel? a = some entry → Payload.Separates entry.1 entry.2.ports := by
  rw [← succeeds_clockSource, groundwork, succeeds_bind]
  constructor
  · rintro ⟨clock, hclock, h⟩
    obtain ⟨names, hnames, h⟩ := succeeds_bind.1 h
    obtain ⟨made, hmade, -⟩ := succeeds_bind.1 h
    exact ⟨⟨clock, hclock⟩, (succeeds_reserve hclock).1 ⟨names, hnames⟩,
      (fits_clock_iff hclock).1 (ClockDomains.succeeds_synthesize.1 (succeeds_mapError.1 ⟨made, hmade⟩))⟩
  · rintro ⟨⟨clock, hclock⟩, hfree, hfits⟩
    obtain ⟨names, hnames⟩ := (succeeds_reserve hclock).2 hfree
    refine ⟨clock, hclock, succeeds_bind.2 ⟨names, hnames, ?_⟩⟩
    rw [succeeds_bind_pure]
    exact succeeds_mapError.2 (ClockDomains.succeeds_synthesize.2 ((fits_clock_iff hclock).2 hfits))

end Module

theorem ChannelContext.separates_iff {ctx : ChannelContext} {direction : Direction}
    {specs : List (String × ChannelSpec)} {ds : List DataChannel} (h : List.Forall₂ (ctx.Makes direction) specs ds) :
    (∀ d ∈ ds, Payload.Separates d.name (d.ports.map (·.name))) ↔
      ∀ entry ∈ specs, Payload.Separates entry.1 entry.2.ports := by
  have hsame : ∀ {entry d}, ctx.Makes direction entry d →
      (Payload.Separates d.name (d.ports.map (·.name)) ↔ Payload.Separates entry.1 entry.2.ports) := by
    intro entry d hmakes
    rw [hmakes.name, Module.map_name_resolvePorts hmakes.ports]
  constructor
  · intro hds entry hentry
    obtain ⟨d, hd, hmakes⟩ := exists_mem_right h hentry
    exact (hsame hmakes).1 (hds d hd)
  · intro hspecs d hd
    obtain ⟨entry, hentry, hmakes⟩ := exists_mem_left h hd
    exact (hsame hmakes).2 (hspecs entry hentry)

theorem Module.fits_iff {m : Module} {a : Analysis} {config : Config} {w : Groundwork} {i : Interface}
    (hw : m.groundwork a config = .ok w) (hi : w.interface m a = .ok i) : (∀ c ∈ i.channels, c.Fits) ↔
      ∀ direction, ∀ entry ∈ (a.specs m.name direction).entries, Payload.Separates entry.1 entry.2.ports := by
  obtain ⟨hclock, -⟩ := groundwork_ok hw
  obtain ⟨hsame, hinputs, houtputs⟩ := Groundwork.interface_ok hi
  rw [forall_specs_iff, dataSpecs, ← inputSpecs_eq hclock, List.forall_mem_append, ← fits_clock_iff hclock,
    ← ChannelContext.separates_iff hinputs, ← ChannelContext.separates_iff houtputs, Interface.channels, hsame,
    List.forall_mem_cons, List.forall_mem_append, List.forall_mem_map, List.forall_mem_map]
  simp only [Channel.fits_input, Channel.fits_output]

namespace Module

variable {m : Module} {a : Analysis} {host : HostSignals} {config : Config}

theorem succeeds_plan : Succeeds (m.plan a config).outcome ↔ m.Channelizable a config := by
  rw [outcome_plan, succeeds_bind]
  constructor
  · rintro ⟨w, hw, h⟩
    obtain ⟨i, hi, h⟩ := succeeds_bind.1 h
    rw [succeeds_bind_pure, ChannelizeError.ofPayload, succeeds_mapError, Interface.succeeds_placements] at h
    obtain ⟨hclocks, hports, -⟩ := succeeds_groundwork.1 ⟨w, hw⟩
    exact ⟨hclocks, hports, (succeeds_interface hw).1 ⟨i, hi⟩, (fits_iff hw hi).1 h⟩
  · rintro ⟨hclocks, hports, hdata, hfields⟩
    obtain ⟨w, hw⟩ := succeeds_groundwork.2 ⟨hclocks, hports, (forall_specs_iff.1 hfields).1⟩
    obtain ⟨i, hi⟩ := (succeeds_interface hw).2 hdata
    refine ⟨w, hw, succeeds_bind.2 ⟨i, hi, ?_⟩⟩
    rw [succeeds_bind_pure, ChannelizeError.ofPayload, succeeds_mapError, Interface.succeeds_placements]
    exact (fits_iff hw hi).2 hfields

/-- Where the ports of a plan are placed, the types of the host ports are known to exist. -/
theorem succeeds_tokenModel : Succeeds (m.tokenModel a host config).outcome ↔ Succeeds (m.plan a config).outcome := by
  rw [outcome_tokenModel, succeeds_bind]
  refine exists_congr fun p => and_iff_left_of_imp fun hp => ?_
  rw [succeeds_bind_pure, ChannelizeError.ofPayload, succeeds_mapError, Plan.succeeds_channelPorts]
  exact Interface.succeeds_placements.1 ⟨_, (plan_ok hp).placements⟩

end Module

/-- A module can be made token-driven exactly if its description satisfies all that `Channelizable` asks for; if it does
not, there is an error. -/
theorem Module.tokenModel_ok_iff (m : Module) (a : Analysis) (host : HostSignals) (config : Config) :
    ((∃ t, (m.tokenModel a host config).outcome = .ok t) ↔ m.Channelizable a config) ∧
      ((∃ e, (m.tokenModel a host config).outcome = .error e) ↔ ¬ m.Channelizable a config) := by
  have hiff : Succeeds (m.tokenModel a host config).outcome ↔ m.Channelizable a config :=
    succeeds_tokenModel.trans succeeds_plan
  exact ⟨hiff, not_succeeds_iff.symm.trans (not_congr hiff)⟩

example : Demo.Sampler.sampler.Channelizable Demo.Sampler.analysis {} :=
  Module.succeeds_plan.1 (succeeds_of_isOk (by decide +kernel))

end TokenCircuit
