import TokenCircuit.Proofs.Joining
import TokenCircuit.Proofs.Relocation

/-!
# Which fields a join connects

Two channels are joined by their host ports as a whole, whichever of their ports were connected. So two ports come
together only if they lie at the same place below the two host ports. That place is the place of the payload, and the
field of the port in it unless the port is the whole payload (`PortGroup.payloadPath_eq`). The channels of the two sides
describe their payloads each on its own, and nothing makes them agree.
-/

namespace TokenCircuit

namespace PortGroup

variable {g g' : PortGroup} {port port' : String} {path path' : List String}

/-- The field of a port in the payload; a single port is the payload. -/
def field? (g : PortGroup) (port : String) : Option String :=
  if g.ports.length ≤ 1 then none else (Payload.fieldName g.name port).toOption

theorem payloadPath_eq (h : g.payloadPath port = .ok path) :
    path = Payload.basePath g.timestamped ++ (g.field? port).toList := by
  unfold payloadPath Payload.path at h
  rw [List.length_map] at h
  unfold field?
  split at h
  · next hlength =>
    rw [if_pos hlength, Option.toList_none, List.append_nil]
    exact (Except.ok.inj h).symm
  · next hlength =>
    obtain ⟨names, hnames, h⟩ := bind_eq_ok.1 h
    split at h
    · next name hname =>
      rw [if_neg hlength, Payload.fieldName_of_lookup hnames hname]
      exact (Except.ok.inj h).symm
    · cases h

/-- The ports lie at the same place below their host ports: both channels carry a time or neither does, and the fields
are the same. By coincidence, what is beside a time in one channel may be a field of that name in another. -/
def Aligned (g g' : PortGroup) (port port' : String) : Prop :=
  (g.timestamped = g'.timestamped ∧ g.field? port = g'.field? port') ∨
  (g.timestamped = true ∧ g'.timestamped = false ∧ g.field? port = none ∧ g'.field? port' = some "data") ∨
  (g.timestamped = false ∧ g'.timestamped = true ∧ g.field? port = some "data" ∧ g'.field? port' = none)

theorem aligned_iff (h : g.payloadPath port = .ok path) (h' : g'.payloadPath port' = .ok path') :
    path = path' ↔ g.Aligned g' port port' := by
  rw [payloadPath_eq h, payloadPath_eq h', Aligned]
  cases g.timestamped <;> cases g'.timestamped <;> cases g.field? port <;> cases g'.field? port' <;>
    simp [Payload.basePath, @eq_comm _ "data"]

end PortGroup

/-- The host ports of all channels, with what they carry. -/
theorem Interface.filterMap_carried (i : Interface) : i.channels.filterMap Channel.carried? =
    i.clock.group?.toList.map (fun g => (sinkName g.name, g)) ++ i.data.map fun d => (d.hostPort, d.toPortGroup) := by
  have hdata : ∀ ds : List DataChannel, (ds.map Channel.input).filterMap Channel.carried? =
        ds.map (fun d => (d.hostPort, d.toPortGroup)) ∧
      (ds.map Channel.output).filterMap Channel.carried? = ds.map fun d => (d.hostPort, d.toPortGroup) := by
    intro ds
    rw [List.filterMap_map, List.filterMap_map, ← List.filterMap_eq_map]
    exact ⟨rfl, rfl⟩
  rw [channels, List.filterMap_cons, List.filterMap_append, (hdata _).1, (hdata _).2, ← List.map_append, ← data]
  cases i.clock <;> rfl

namespace Module.Planned

variable {m : Module} {a : Analysis} {config : Config} {p : Plan} {c c' : Channel} {hostPort : String}
  {g g' : PortGroup}

/-- Every host port is that of one channel. -/
theorem eq_of_carried (h : m.Planned a config p) (hc : c ∈ p.interface.channels)
    (hcarried : c.carried? = some (hostPort, g)) (hc' : c' ∈ p.interface.channels)
    (hcarried' : c'.carried? = some (hostPort, g')) : g = g' := by
  have hnodup : ((p.interface.channels.filterMap Channel.carried?).map Prod.fst).Nodup := by
    rw [Interface.filterMap_carried]
    simpa [Function.comp_def] using List.nodup_append_comm.1 h.nodup_hostPorts
  have hmem : (hostPort, g) ∈ p.interface.channels.filterMap Channel.carried? := List.mem_filterMap.2 ⟨c, hc, hcarried⟩
  have hmem' : (hostPort, g') ∈ p.interface.channels.filterMap Channel.carried? :=
    List.mem_filterMap.2 ⟨c', hc', hcarried'⟩
  exact congrArg Prod.snd (List.inj_on_of_nodup_map hnodup hmem hmem' rfl)

end Module.Planned

/-- A port has its place in a channel from a channel with that host port. -/
theorem Module.Modelled.channel_of_layout {m : Module} {a : Analysis} {host : HostSignals} {config : Config}
    {t : TokenModel} (h : m.Modelled a host config t) {port hostPort : String} {path : List String}
    (hplace : t.layout.get? port = some (.channel hostPort path)) :
    ∃ c ∈ t.channels, ∃ g, c.carried? = some (hostPort, g) ∧ g.payloadPath port = .ok path := by
  rw [TokenModel.get?_layout] at hplace
  obtain ⟨placement, hplaced, hlocation⟩ := Option.map_eq_some_iff.1 hplace
  obtain ⟨c, hc, -, hplacement⟩ := h.planned.exists_channel_of_placed hplaced
  rcases Channel.location_ok hplacement with ⟨hostPort', g, path', hcarried, hpath, heq⟩ | ⟨_, _, -, -, heq⟩
  · cases hlocation.symm.trans heq
    exact ⟨c, hc, g, hcarried, hpath⟩
  · cases hlocation.symm.trans heq

theorem Module.mem_topMembers {channels : OrderedMap String TopChannel} {port hostPort : String}
    (h : (topMembers channels).get? port = some hostPort) : ∃ channel tc, (channel, tc) ∈ channels.entries ∧
      port ∈ tc.ports ∧ hostPort = hostPortName channel tc.direction := by
  have hlisted := (OrderedMap.mem_of_get?_foldl_insert h).resolve_right (by rintro ⟨⟩)
  obtain ⟨⟨channel, tc⟩, hentry, hmember⟩ := List.mem_flatMap.1 hlisted
  obtain ⟨_, hport, heq⟩ := List.mem_map.1 hmember
  cases heq
  exact ⟨channel, tc, hentry, hport, rfl⟩

namespace Circuit

/-- The expression is the port of that name, of an instance of a target or of the main module itself, and the port has
its place in the channel `g`, below the host port and along the path. -/
inductive Carries (c : Circuit) (a : Analysis) (config : Config) (top : Module) :
    Expr → (port : String) → (g : PortGroup) → (hostPort : Expr) → (path : List String) → Prop
  | inner {inst target port hostPort : String} {t : TokenModel} {ch : Channel} {g : PortGroup} {path : List String}
      (hinst : top.targetOf? a inst = some target) (hmodel : c.targetModel a config target = .ok t)
      (hplace : t.layout.get? port = some (.channel hostPort path))
      (hchannel : ch ∈ t.channels) (hcarried : ch.carried? = some (hostPort, g)) :
      Carries c a config top (.field (.ref inst) port) port g (.field (.ref inst) hostPort) path
  | outer {channel port : String} {tc : TopChannel} {ports : List Port} {path : List String}
      (hentry : (channel, tc) ∈ a.topChannels.entries) (hports : top.resolvePorts channel tc.ports = .ok ports)
      (hmember : (Module.topMembers a.topChannels).get? port = some (hostPortName channel tc.direction))
      (hpath : Payload.path channel tc.ports port tc.timestamped = .ok path) :
      Carries c a config top (.ref port) port ⟨channel, ports, tc.timestamped⟩
        (.ref (hostPortName channel tc.direction)) path

variable {c : Circuit} {a : Analysis} {config : Config} {top rewired : Module} {models : List (String × TokenModel)}
  {records : List (Target × Option Target)} {out : Channelization} {e hostPort : Expr} {port : String} {g : PortGroup}
  {path : List String}

/-- The place in the channel is the one that the channel gives to the port. -/
theorem Carries.payloadPath (h : c.Carries a config top e port g hostPort path) : g.payloadPath port = .ok path := by
  cases h with
  | inner hinst hmodel hplace hchannel hcarried =>
    obtain ⟨m, -, ht⟩ := targetModel_ok hmodel
    have hmodelled := Module.tokenModel_ok ht
    obtain ⟨ch', hchannel', g', hcarried', hpath⟩ := hmodelled.channel_of_layout hplace
    -- no other channel has this host port
    rw [hmodelled.planned.eq_of_carried hchannel hcarried hchannel' hcarried']
    exact hpath
  | outer hentry hports hmember hpath =>
    rw [PortGroup.payloadPath, Module.map_name_resolvePorts hports]
    exact hpath

/-- What rewiring takes for a port in a channel is one. -/
theorem Channelized.carries (h : c.Channelized a config models records out)
    (hrewired : c.MainRewired a config top rewired records)
    (hport : (top.rewiring a (c.layouts a config) (.ofConfig config) config).channelPort? e = some hostPort) :
    ∃ port g path, c.Carries a config top e port g hostPort path := by
  rcases (top.rewiring a (c.layouts a config) (.ofConfig config) config).shape e with
    ⟨inst, port, layout, rfl, hinst⟩ | ⟨port, member, rfl, hmember⟩ | ⟨-, -, hnone, -⟩
  · simp only [Rewiring.channelPort?, hinst, Option.bind_some, Option.map_eq_some_iff, Option.bind_eq_some_iff] at hport
    obtain ⟨name, ⟨location, hplace, hname⟩, rfl⟩ := hport
    have hlayout := (h.get?_tokenInstances top inst).symm.trans hinst
    obtain ⟨target, htarget, hlayout⟩ := Option.bind_eq_some_iff.1 hlayout
    obtain ⟨-, t, hmodel, rfl⟩ := get?_layouts.1 hlayout
    cases location with
    | gatedClock clock => cases hname
    | channel hostPort path =>
      cases hname
      obtain ⟨m, -, ht⟩ := targetModel_ok hmodel
      obtain ⟨ch, hchannel, g, hcarried, -⟩ := (Module.tokenModel_ok ht).channel_of_layout hplace
      exact ⟨port, g, path, .inner htarget hmodel hplace hchannel hcarried⟩
  · have hport : some (Expr.ref member) = some hostPort := by rwa [Rewiring.channelPort?, hmember] at hport
    cases hport
    obtain ⟨channel, tc, hentry, hin, rfl⟩ := Module.mem_topMembers hmember
    obtain ⟨channelPorts, hall, -⟩ := hrewired.result.ports
    obtain ⟨q, -, hq⟩ := exists_mem_right hall hentry
    obtain ⟨ports, -, hports, -, -⟩ := Module.topChannelPort_ok hq
    obtain ⟨placed, hplaced, -⟩ := hrewired.records
    have hlisted : (channel, tc, port) ∈ RenameMap.topMembers a.topChannels :=
      List.mem_flatMap.2 ⟨_, hentry, List.mem_map_of_mem hin⟩
    obtain ⟨record, -, hrecord⟩ := exists_mem_right hplaced hlisted
    obtain ⟨path, hpath, -⟩ := map_eq_ok.1 hrecord
    exact ⟨port, _, path, .outer hentry hports hmember hpath⟩
  · rw [hnone] at hport
    cases hport

/-- What connects two channels becomes a connection of the host ports that carry the two ports. It connects the two
ports exactly if the channels put them at the same place. -/
theorem channelize_joins_aligned {annotations : List Annotation}
    (h : (c.channelize a annotations config).outcome = .ok out) (hmain : c.main ∉ a.targets) :
    ∃ top rewired, c.module? c.main = some top ∧ out.circuit.module? c.main = some rewired ∧
      ∀ s ∈ top.body.preorder, ∀ loc value, (s = .connect loc value ∨ s = .partialConnect loc value) →
      ∀ sink source, (top.rewiring a (c.layouts a config) (.ofConfig config) config).channelPair? s =
        some (sink, source) →
      (∃ s' ∈ rewired.body.preorder, s'.text = (Stmt.partialConnect sink source).text) ∧
      (∃ port g path, c.Carries a config top loc port g sink path) ∧
      (∃ port g path, c.Carries a config top value port g source path) ∧
      ∀ port port' g g' path path', c.Carries a config top loc port g sink path →
        c.Carries a config top value port' g' source path' → (path = path' ↔ g.Aligned g' port port') := by
  obtain ⟨models, records, hdone⟩ := channelize_ok h
  obtain ⟨top, rewired, hmainRewired, hresult, hrewired⟩ := hdone.rewired hmain
  refine ⟨top, rewired, hmainRewired.found, hresult, fun s hs loc value hsides sink source hpair => ?_⟩
  obtain ⟨loc', value', hsides', hsink, hsource, -⟩ := Rewiring.channelPair?_eq_some.1 hpair
  obtain ⟨rfl, rfl⟩ : loc' = loc ∧ value' = value := by
    rcases hsides with rfl | rfl <;> simpa [eq_comm] using hsides'
  refine ⟨Module.exists_join_of_rewired hrewired hs hpair, hdone.carries hmainRewired hsink,
    hdone.carries hmainRewired hsource, ?_⟩
  exact fun port port' g g' path path' hloc hvalue => PortGroup.aligned_iff hloc.payloadPath hvalue.payloadPath

end Circuit

namespace Demo.Stages

/-- In an adder the operands lie one field deeper than the sum. -/
theorem stage_layout : ∃ t, circuit.targetModel analysis {} "Stage" = .ok t ∧
    t.layout.get? "io_lhs" = some (.channel "io_sink" ["bits", "lhs"]) ∧
    t.layout.get? "sum" = some (.channel "sum_source" ["bits"]) := by
  have hplaces : ((circuit.targetModel analysis {} "Stage").toOption.map fun t =>
      (t.layout.get? "io_lhs", t.layout.get? "sum")) =
      some (some (.channel "io_sink" ["bits", "lhs"]), some (.channel "sum_source" ["bits"])) := by
    decide +kernel
  obtain ⟨t, ht, hplaces⟩ := exists_ok_of_map hplaces
  exact ⟨t, ht, congrArg Prod.fst hplaces, congrArg Prod.snd hplaces⟩

/-- An operand of the first adder is carried on both sides of the join that it is connected by, at the same place. -/
theorem operand_joined : ∃ out rewired, (circuit.channelize analysis [] {}).outcome = .ok out ∧
    out.circuit.module? "Top" = some rewired ∧ (∃ s ∈ rewired.body.preorder, s.text = "first.io_sink <- io_sink") ∧
    ∃ port port' g g' path path',
      circuit.Carries analysis {} top (inner "first" "io_lhs") port g (inner "first" "io_sink") path ∧
      circuit.Carries analysis {} top (.ref "io_lhs") port' g' (.ref "io_sink") path' ∧
      path = path' ∧ g.Aligned g' port port' := by
  have hok : ((circuit.channelize analysis [] {}).outcome.toOption.map fun _ => ()) = some () := by decide +kernel
  obtain ⟨out, hout, -⟩ := exists_ok_of_map hok
  obtain ⟨top', rewired, htop, hresult, hjoins⟩ := Circuit.channelize_joins_aligned hout (by decide +kernel)
  obtain rfl : top = top' := Option.some.inj htop
  obtain ⟨⟨s, hs, htext⟩, ⟨port, g, path, hloc⟩, ⟨port', g', path', hvalue⟩, haligned⟩ :=
    hjoins (.connect (inner "first" "io_lhs") (.ref "io_lhs")) (by decide +kernel) _ _ (.inl rfl)
      (inner "first" "io_sink") (.ref "io_sink") (by decide +kernel)
  have hinner : path = ["bits", "lhs"] := by
    obtain ⟨t, ht, hplace, -⟩ := stage_layout
    have hfirst : top.targetOf? analysis "first" = some "Stage" := by decide +kernel
    cases hloc with
    | inner hinst hmodel hplace' =>
      cases hfirst.symm.trans hinst
      cases ht.symm.trans hmodel
      cases hplace.symm.trans hplace'
      rfl
  have houter : path' = ["bits", "lhs"] := by
    have hio : ∀ entry ∈ analysis.topChannels.entries, hostPortName entry.1 entry.2.direction = "io_sink" →
        (Payload.path entry.1 entry.2.ports "io_lhs" entry.2.timestamped).toOption = some ["bits", "lhs"] := by
      decide +kernel
    generalize hhost : Expr.ref "io_sink" = hostPort at hvalue
    cases hvalue with
    | outer hentry hports hmember hpath =>
      have hfound := hio _ hentry (Expr.ref.inj hhost).symm
      rw [hpath] at hfound
      exact Option.some.inj hfound
  have heq : path = path' := hinner.trans houter.symm
  refine ⟨out, rewired, hout, hresult, ⟨s, hs, htext.trans (by decide +kernel)⟩, ?_⟩
  exact ⟨port, port', g, g', path, path', hloc, hvalue, heq, (haligned _ _ _ _ _ _ hloc hvalue).1 heq⟩

/-- The sum of the first adder is an operand of the second, and the two are joined. But an operand lies one field
deeper. -/
theorem sum_not_aligned : ∃ out rewired t, (circuit.channelize analysis [] {}).outcome = .ok out ∧
    .connect (inner "second" "io_lhs") (inner "first" "sum") ∈ top.body.preorder ∧
    out.circuit.module? "Top" = some rewired ∧
    .partialConnect (inner "second" "io_sink") (inner "first" "sum_source") ∈ rewired.body.preorder ∧
    circuit.targetModel analysis {} "Stage" = .ok t ∧
    t.layout.get? "io_lhs" = some (.channel "io_sink" ["bits", "lhs"]) ∧
    t.layout.get? "sum" = some (.channel "sum_source" ["bits"]) := by
  have hjoined : ((circuit.channelize analysis [] {}).outcome.toOption.map fun out =>
      (out.circuit.module? "Top").map fun m =>
        decide (.partialConnect (inner "second" "io_sink") (inner "first" "sum_source") ∈ m.body.preorder)) =
      some (some true) := by
    decide +kernel
  obtain ⟨out, hout, hfound⟩ := exists_ok_of_map hjoined
  obtain ⟨rewired, hrewired, hmem⟩ := Option.map_eq_some_iff.1 hfound
  obtain ⟨t, ht, hplaces⟩ := stage_layout
  exact ⟨out, rewired, t, hout, by decide +kernel, hrewired, of_decide_eq_true hmem, ht, hplaces⟩

end Demo.Stages

end TokenCircuit
