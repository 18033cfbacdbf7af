import TokenCircuit.Proofs.JoinedFields

/-!
# Host ports have room for what they carry

The place of a port below its host port and the type of the host port are worked out apart. Both come down to the names
of the fields: the places exist if and only if the type does (`PortGroup.succeeds_payloadPath`), and the fields of the
type are those of the ports, in their order (`PortGroup.exists_fields`). A rewired top module has the types of its
channels, so the places of their ports can be recorded.
-/

namespace TokenCircuit

namespace Payload

variable {channel : String} {ports : List Port} {names : List String}

/-- The field is there to carry the port. -/
structure FieldOf (channel : String) (port : Port) (field : Field SignalType) : Prop where
  name : IsField channel port.name field.name
  flipped : field.flipped = false
  type : field.type = if port.type = .clock then .uint 1 else port.type

theorem fields_zipWith (h : List.Forall₂ (fun port name => IsField channel port.name name) ports names) :
    (List.zipWith (fun name port => Field.mk name false (carrier port)) names ports).map (·.name) = names ∧
      List.Forall₂ (FieldOf channel) ports
        (List.zipWith (fun name port => ⟨name, false, carrier port⟩) names ports) := by
  induction h with
  | nil => exact ⟨rfl, .nil⟩
  | cons hfield _ ih => exact ⟨congrArg _ ih.1, .cons ⟨hfield, rfl, carrier_eq⟩ ih.2⟩

end Payload

namespace PortGroup

variable {g : PortGroup} {q : Port} {type : SignalType} {field : Field SignalType}

theorem succeeds_payloadPath (hq : q ∈ g.ports) : Succeeds (g.payloadPath q.name) ↔ Succeeds g.payloadType :=
  (Payload.succeeds_path (List.mem_map_of_mem hq)).trans Payload.succeeds_type.symm

/-- Several ports lie in the fields of a bundle, each in its own. -/
theorem exists_fields (hmany : 2 ≤ g.ports.length) (htype : g.payloadType = .ok type) : ∃ fields,
    (SignalType.decoupled type).follow? (Payload.basePath g.timestamped) = some (.bundle fields) ∧
      (fields.map (·.name)).Nodup ∧ List.Forall₂ (Payload.FieldOf g.name) g.ports fields := by
  obtain ⟨data, hdata, rfl⟩ := map_eq_ok.1 htype
  rw [Payload.dataType_of_many (by omega)] at hdata
  obtain ⟨names, hnames, rfl⟩ := map_eq_ok.1 hdata
  have hfields : List.Forall₂ (fun port name => Payload.IsField g.name port.name name) g.ports names :=
    (List.forall₂_map_left_iff.1 (Payload.forall₂_fieldNamesFrom hnames)).imp fun _ _ => Payload.fieldName_eq_ok.1
  obtain ⟨hname, hports⟩ := Payload.fields_zipWith hfields
  refine ⟨_, Payload.follow?_basePath, ?_, hports⟩
  rw [hname]
  exact (Payload.fieldNamesFrom_ok hnames).2.1

/-- The place of a port is the field that is there to carry it. -/
theorem payloadPath_of_field (hmany : 2 ≤ g.ports.length) (hq : q ∈ g.ports) (htype : g.payloadType = .ok type)
    (hfield : Payload.FieldOf g.name q field) :
    g.payloadPath q.name = .ok (Payload.basePath g.timestamped ++ [field.name]) := by
  obtain ⟨path, hpath⟩ := (succeeds_payloadPath hq).2 ⟨type, htype⟩
  have hname : g.field? q.name = some field.name := by
    rw [field?, if_neg (by omega), Payload.fieldName_eq_ok.2 hfield.name]
    rfl
  rw [hpath, payloadPath_eq hpath, hname]
  rfl

end PortGroup

namespace Channel

variable {c : Channel} {q : Port} {hostPort : String} {g : PortGroup} {type : SignalType}

/-- The host port carries the port `q` of the channel at the end of the path, and there the value of `q` is taken from.
-/
structure CarriesAt (c : Channel) (hostPort q : Port) (path : List String) : Prop where
  place : c.payloadPath q.name = .ok path
  type : hostPort.type.follow? path = some (if q.type = .clock then .uint 1 else q.type)
  value : c.payload q.name = .ok ((Expr.ref hostPort.name).follow path)

/-- The payload of the host port is a bundle of these fields, one for each port of the channel. -/
structure HasFields (c : Channel) (hostPort : Port) (fields : List (Field SignalType)) : Prop where
  bundle : hostPort.type.follow? (Payload.basePath c.timestamped) = some (.bundle fields)
  distinct : (fields.map (·.name)).Nodup
  ordered : List.Forall₂ (fun q field => Payload.FieldOf c.name q field ∧
    c.payloadPath q.name = .ok (Payload.basePath c.timestamped ++ [field.name])) c.ports fields

theorem name_of_carried (h : c.carried? = some (hostPort, g)) : c.name = g.name := by
  cases c with
  | clock source =>
    cases source with
    | channel => cases h; rfl
    | virtual => cases h
  | input | output => cases h; rfl

theorem payloadPath_of_carried (h : c.carried? = some (hostPort, g)) (port : String) :
    c.payloadPath port = g.payloadPath port := by
  rw [payloadPath, h]

theorem carriesAt_of_type {path : List String} (h : c.carried? = some (hostPort, g)) (hq : q ∈ c.ports)
    (htype : g.payloadType = .ok type) (hpath : c.payloadPath q.name = .ok path) :
    c.CarriesAt ⟨c.direction, hostPort, .decoupled type⟩ q path := by
  have hown := hpath
  rw [payloadPath_of_carried h] at hown
  rw [ports_of_carried h] at hq
  refine ⟨hpath, ?_, ?_⟩
  · rw [← Payload.carrier_eq]
    exact Payload.follow?_path hq hown htype
  · rw [payload, h]
    exact map_eq_ok.2 ⟨path, hown, rfl⟩

theorem exists_hasFields (h : c.carried? = some (hostPort, g)) (hmany : 2 ≤ c.ports.length)
    (htype : g.payloadType = .ok type) : ∃ fields, c.HasFields ⟨c.direction, hostPort, .decoupled type⟩ fields := by
  have htime : c.timestamped = g.timestamped := by simp [timestamped, h]
  rw [ports_of_carried h] at hmany
  obtain ⟨fields, hbundle, hdistinct, hordered⟩ := PortGroup.exists_fields hmany htype
  refine ⟨fields, htime ▸ hbundle, hdistinct, ?_⟩
  rw [htime, name_of_carried h, ports_of_carried h]
  refine ((List.forall₂_and_left _ _).2 ⟨fun q hq => hq, hordered⟩).imp fun q field ⟨hq, hfield⟩ => ⟨hfield, ?_⟩
  rw [payloadPath_of_carried h]
  exact PortGroup.payloadPath_of_field hmany hq htype hfield

end Channel

/-! ### Top channels -/

theorem RenameMap.recordTopPorts_eq_ok {m : RenameMap} {top : String} {members : List (String × TopChannel × String)}
    (h : ∀ member ∈ members, Payload.Separates member.1 member.2.1.ports ∧ member.2.2 ∈ member.2.1.ports) :
    (recordTopPorts top members m).2 = .ok () := by
  induction members generalizing m with
  | nil => rfl
  | cons member members ih =>
    obtain ⟨hfields, hport⟩ := h member (List.mem_cons_self ..)
    obtain ⟨path, hpath⟩ : Succeeds (Payload.path member.1 member.2.1.ports member.2.2 member.2.1.timestamped) :=
      (Payload.succeeds_path hport).2 hfields
    rw [recordTopPorts, hpath]
    exact ih fun other hother => h other (List.mem_cons_of_mem _ hother)

/-- A rewired module has a host port for each top channel, so the ports of the channel have places. -/
theorem Module.Rewired.separates {m rewired : Module} {a : Analysis} {config : Config} (h : m.Rewired a config rewired)
    {entry : String × TopChannel} (hentry : entry ∈ a.topChannels.entries) :
    Payload.Separates entry.1 entry.2.ports := by
  obtain ⟨channelPorts, hall, -⟩ := h.ports
  obtain ⟨port, -, hport⟩ := exists_mem_right hall hentry
  obtain ⟨ports, type, hresolved, htype, -⟩ := topChannelPort_ok hport
  rw [← map_name_resolvePorts hresolved]
  exact Payload.succeeds_type.1 ⟨type, htype⟩

theorem Module.Rewired.recordTop_eq_ok {m rewired : Module} {a : Analysis} {config : Config}
    (h : m.Rewired a config rewired) (renames : RenameMap) (top : String) :
    (renames.recordTop top a.topChannels).2 = .ok () := by
  refine RenameMap.recordTopPorts_eq_ok fun member hmember => ?_
  obtain ⟨entry, hentry, hmember⟩ := List.mem_flatMap.1 hmember
  obtain ⟨port, hport, rfl⟩ := List.mem_map.1 hmember
  exact ⟨h.separates hentry, hport⟩

/-- The ports of a channel have places if and only if the channel has a host port. The type of the host port then has
the type of each port at its place, and several ports lie side by side, in their order, each in a field named by what
its name adds to that of the channel. Once a top module is rewired, recording where the ports of its channels went does
not fail. -/
theorem payload_places_match_types :
    (∀ c : Channel, (∀ clock, c ≠ .clock (.virtual clock)) →
      (∀ q ∈ c.ports, (Succeeds (c.payloadPath q.name) ↔ Succeeds c.hostPort?)) ∧
      ∀ found, c.hostPort? = .ok found → ∃ hostPort, found = some hostPort ∧ c.hostPortName? = some hostPort.name ∧
        (∀ q ∈ c.ports, ∃ path, c.CarriesAt hostPort q path) ∧
        (2 ≤ c.ports.length → ∃ fields, c.HasFields hostPort fields)) ∧
    ∀ (m rewired : Module) (a : Analysis) (layouts : OrderedMap String Layout) (host : HostSignals) (config : Config),
      (m.rewired a layouts host config).outcome = .ok rewired →
        ∀ (renames : RenameMap) (top : String), (renames.recordTop top a.topChannels).2 = .ok () := by
  refine ⟨fun c hc => ?_, fun m rewired a layouts host config h => (Module.rewired_ok h).recordTop_eq_ok⟩
  obtain ⟨⟨hostPort, g⟩, hcarried⟩ : ∃ carried, c.carried? = some carried := by
    refine Option.ne_none_iff_exists'.1 fun hnone => ?_
    obtain ⟨clock, hvirtual⟩ := Channel.virtual_of_carried hnone
    exact hc clock hvirtual
  have hpaths : ∀ q ∈ c.ports, (Succeeds (c.payloadPath q.name) ↔ Succeeds c.hostPort?) := by
    intro q hq
    rw [Channel.ports_of_carried hcarried] at hq
    rw [Channel.payloadPath_of_carried hcarried, Channel.hostPort?, hcarried, succeeds_map]
    exact PortGroup.succeeds_payloadPath hq
  refine ⟨hpaths, fun found hfound => ?_⟩
  rcases Channel.hostPort?_ok hfound with ⟨hnone, -⟩ | ⟨_, _, type, hsome, htype, rfl⟩
  · cases hcarried.symm.trans hnone
  · cases hcarried.symm.trans hsome
    refine ⟨_, rfl, by rw [Channel.hostPortName?, hcarried]; rfl, fun q hq => ?_, fun hmany => ?_⟩
    · obtain ⟨path, hpath⟩ := (hpaths q hq).2 ⟨_, hfound⟩
      exact ⟨path, Channel.carriesAt_of_type hcarried hq htype hpath⟩
    · exact Channel.exists_hasFields hcarried hmany htype

namespace Demo.Sampler

def clockChannel : Channel :=
  .clock (.channel ⟨"clock", [.input "clock_fast" .clock, .input "clock_slow" .clock], true⟩)

/-- The flags of the two clocks of the sampler lie beside the time, and the top channels have places for their ports. -/
theorem slow_flag_has_place : (∃ hostPort, clockChannel.hostPort? = .ok (some hostPort) ∧
      clockChannel.CarriesAt hostPort (.input "clock_slow" .clock) ["bits", "data", "slow"] ∧
      ∃ fields, clockChannel.HasFields hostPort fields) ∧
    ∃ rewired, (top.rewired analysis ∅ (.ofConfig {}) {}).outcome = .ok rewired ∧
      (RenameMap.recordTop {} "Top" analysis.topChannels).2 = .ok () := by
  have hreal : ∀ clock, clockChannel ≠ .clock (.virtual clock) := fun clock h => by cases h
  obtain ⟨hchannel, htop⟩ := payload_places_match_types
  obtain ⟨hplaces, hports⟩ := hchannel clockChannel hreal
  have hslow : clockChannel.payloadPath "clock_slow" = .ok ["bits", "data", "slow"] :=
    toOption_eq_some.1 (by decide +kernel)
  have hmember : Port.input "clock_slow" .clock ∈ clockChannel.ports := by decide
  constructor
  · obtain ⟨found, hfound⟩ := (hplaces _ hmember).1 ⟨_, hslow⟩
    obtain ⟨hostPort, rfl, -, hcarries, hfields⟩ := hports found hfound
    obtain ⟨path, hpath⟩ := hcarries _ hmember
    cases hslow.symm.trans hpath.place
    exact ⟨hostPort, hfound, hpath, hfields (by decide)⟩
  · have hok : ((top.rewired analysis ∅ (.ofConfig {}) {}).outcome.isOk) = true := by decide +kernel
    obtain ⟨rewired, hrewired⟩ := succeeds_of_isOk hok
    exact ⟨rewired, hrewired, htop top rewired analysis ∅ _ _ hrewired {} "Top"⟩

end Demo.Sampler

end TokenCircuit
