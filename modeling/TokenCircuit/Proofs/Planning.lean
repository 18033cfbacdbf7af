import TokenCircuit.Demo.Sampler
import TokenCircuit.Model.Basic
import TokenCircuit.Proofs.Names

/-!
# What a plan promises

A plan that is made has passed every check, and `Module.Planned` states at once what that means: where its clock
source, domains, channels and placements come from, and that the components it adds to the module (`Plan.parts`) have
names of their own. Distinct parts have distinct names (`Module.Planned.part_eq`), which is what later arguments about
the emitted statements rest on.
-/

namespace TokenCircuit

/-- A component that the protocol adds to a module. -/
inductive Part where
  | clockPort (group : PortGroup)
  | hostPort (channel : DataChannel)
  | finishing
  | enable (domain : ClockDomain)
  | gate (domain : ClockDomain)
  | flag (domain : ClockDomain)
  | doneInit
  | simTime (time : SimTime)
  | fired (channel : DataChannel)

/-- The clock channel, unless the clock is virtual. -/
def ClockSource.group? : ClockSource → Option PortGroup
  | .channel g => some g
  | .virtual _ => none

namespace Plan

variable (p : Plan)

def nameOf : Part → String
  | .clockPort g => sinkName g.name
  | .hostPort d => d.hostPort
  | .finishing => p.finishingWire
  | .enable c => c.enableReg
  | .gate c => c.buffer
  | .flag c => c.flag
  | .doneInit => p.domains.doneInitReg
  | .simTime t => t.reg
  | .fired d => d.fired

/-- The parts of the protocol, in the order in which their names are settled. -/
def parts : List Part :=
  p.interface.clock.group?.toList.map .clockPort ++ p.interface.data.map .hostPort ++
    .finishing :: p.domains.all.flatMap (fun c => [.enable c, .gate c, .flag c]) ++
    .doneInit :: p.domains.simTime.toList.map .simTime ++ p.interface.data.map .fired

def context (m : Module) (a : Analysis) : ChannelContext := ⟨m, a, p.interface.clock, p.domains⟩

theorem map_nameOf_parts : p.parts.map p.nameOf =
    (p.interface.clock.group?.toList.map fun g => sinkName g.name) ++ p.interface.data.map (·.hostPort) ++
      p.finishingWire :: p.domains.names ++ p.interface.data.map (·.fired) := by
  have hdomains : (p.domains.all.flatMap fun c => [Part.enable c, .gate c, .flag c]).map p.nameOf =
      p.domains.all.flatMap ClockDomain.names := by
    rw [List.map_flatMap]; rfl
  simp [parts, ClockDomains.names, nameOf, hdomains, Function.comp_def, Option.toList_map]

section Members

variable {p}

@[simp] theorem clockPort_mem_parts {g : PortGroup} : .clockPort g ∈ p.parts ↔ p.interface.clock.group? = some g := by
  simp [parts]

@[simp] theorem hostPort_mem_parts {d : DataChannel} : .hostPort d ∈ p.parts ↔ d ∈ p.interface.data := by
  simp [parts]

@[simp] theorem finishing_mem_parts : .finishing ∈ p.parts := by simp [parts]

@[simp] theorem enable_mem_parts {c : ClockDomain} : .enable c ∈ p.parts ↔ c ∈ p.domains.all := by
  simp [parts]

@[simp] theorem gate_mem_parts {c : ClockDomain} : .gate c ∈ p.parts ↔ c ∈ p.domains.all := by
  simp [parts]

@[simp] theorem flag_mem_parts {c : ClockDomain} : .flag c ∈ p.parts ↔ c ∈ p.domains.all := by
  simp [parts]

@[simp] theorem doneInit_mem_parts : .doneInit ∈ p.parts := by simp [parts]

@[simp] theorem simTime_mem_parts {t : SimTime} : .simTime t ∈ p.parts ↔ p.domains.simTime = some t := by
  simp [parts]

@[simp] theorem fired_mem_parts {d : DataChannel} : .fired d ∈ p.parts ↔ d ∈ p.interface.data := by
  simp [parts]

end Members

end Plan

theorem hostPortName_injective {channel channel' : String} {direction direction' : Direction}
    (h : hostPortName channel direction = hostPortName channel' direction') :
    channel = channel' ∧ direction = direction' := by
  have hchars := congrArg String.toList h
  have hend : ∀ {l l' : List Char}, l ++ "_sink".toList = l' ++ "_source".toList → False := by
    intro l l' heq
    have hlast := congrArg List.getLast? heq
    simp at hlast
  cases direction <;> cases direction' <;>
    simp only [hostPortName, sinkName, sourceName, String.toList_append] at hchars
  · exact ⟨String.toList_injective (List.append_cancel_right hchars), rfl⟩
  · exact (hend hchars).elim
  · exact (hend hchars.symm).elim
  · exact ⟨String.toList_injective (List.append_cancel_right hchars), rfl⟩

/-- The channels that are described on one side of a module. -/
def Analysis.specs (a : Analysis) (module : String) : Direction → OrderedMap String ChannelSpec
  | .input => a.inputs module
  | .output => a.outputs module

namespace Module

def inputSpecs (m : Module) (a : Analysis) (clock : ClockSource) : List (String × ChannelSpec) :=
  (a.inputs m.name).entries.filter fun (name, _) => !clock.claims name

/-- What is known of a plan that has been made. -/
structure Planned (m : Module) (a : Analysis) (config : Config) (p : Plan) : Prop where
  clock : m.clockSource (a.inputs m.name) a.isTimestamped = .ok p.interface.clock
  domains : ClockDomains.DomainsOf (.clock p.interface.clock) p.domains
  inputs : List.Forall₂ ((p.context m a).Makes .input) (m.inputSpecs a p.interface.clock) p.interface.inputs
  outputs : List.Forall₂ ((p.context m a).Makes .output) (a.outputs m.name).entries p.interface.outputs
  placements : p.interface.placements p.domains = .ok p.placements
  dependencies : p.dependencies = p.interface.channels.dependencies (a.connectivity m.name)
  names : ∃ t, (m.initialNames config).Grows (p.parts.map p.nameOf) t

theorem map_hostPort_of_makes {ctx : ChannelContext} {direction : Direction} {specs : List (String × ChannelSpec)}
    {ds : List DataChannel} (h : List.Forall₂ (ctx.Makes direction) specs ds) :
    ds.map (·.hostPort) = specs.map fun spec => hostPortName spec.1 direction := by
  induction h with
  | nil => rfl
  | cons hmake _ ih => rw [List.map_cons, List.map_cons, hmake.hostPort, ih]

theorem map_snd_hostPortNames (clock : ClockSource) (inputs outputs : List (String × ChannelSpec)) :
    (hostPortNames clock inputs outputs).map Prod.snd = (clock.group?.toList.map fun g => sinkName g.name) ++
      (inputs.map (fun spec => hostPortName spec.1 .input) ++ outputs.map fun spec => hostPortName spec.1 .output) := by
  cases clock <;>
    simp [hostPortNames, Channel.hostPortName?, Channel.carried?, ClockSource.group?, hostPortName, Function.comp_def]

theorem plan_ok {m : Module} {a : Analysis} {config : Config} {p : Plan} (h : (m.plan a config).outcome = .ok p) :
    m.Planned a config p := by
  simp only [plan, Logged.outcome_bind, Logged.outcome_liftM, Logged.outcome_mapError] at h
  obtain ⟨clock, hclock, h⟩ := bind_eq_ok.1 h
  obtain ⟨reserved, hreserve, h⟩ := bind_eq_ok.1 h
  obtain ⟨⟨domains, t₁⟩, hdomains, h⟩ := bind_eq_ok.1 h
  obtain ⟨⟨inputs, t₂⟩, hinputs, h⟩ := bind_eq_ok.1 h
  obtain ⟨⟨outputs, t₃⟩, houtputs, h⟩ := bind_eq_ok.1 h
  obtain ⟨placements, hplaced, h⟩ := bind_eq_ok.1 h
  cases h
  obtain ⟨hof, hdomainNames⟩ := ClockDomains.synthesize_ok (mapError_eq_ok.1 hdomains)
  obtain ⟨hin, hinNames⟩ := ChannelContext.dataChannels_ok hinputs
  obtain ⟨hout, houtNames⟩ := ChannelContext.dataChannels_ok houtputs
  refine ⟨hclock, hof, hin, hout, mapError_eq_ok.1 hplaced, rfl, t₃, ?_⟩
  -- the steps hand out names in the order of the parts
  have hports := NameSupply.grows_reserveHostPorts hreserve
  rw [map_snd_hostPortNames, ← map_hostPort_of_makes hin, ← map_hostPort_of_makes hout] at hports
  have hall := ((hports.trans (.fresh _ config.finishing)).trans hdomainNames).trans (hinNames.trans houtNames)
  rw [Plan.map_nameOf_parts]
  simpa [Interface.data] using hall

/-- What is known of a token-driven module. -/
structure Modelled (m : Module) (a : Analysis) (host : HostSignals) (config : Config) (t : TokenModel) : Prop where
  planned : m.Planned a config t.plan
  declarations : t.declarations = t.plan.declarations (t.plan.retained m) host config
  logic : t.logic = m.redirectedBody t.plan.standIn
  rules : t.rules = t.plan.firingRules host
  name : t.name = m.name
  ports : ∃ ports, t.plan.channelPorts = .ok ports ∧ t.ports = config.hostPorts ++ ports

theorem tokenModel_ok {m : Module} {a : Analysis} {host : HostSignals} {config : Config} {t : TokenModel}
    (h : (m.tokenModel a host config).outcome = .ok t) : m.Modelled a host config t := by
  simp only [tokenModel, Logged.outcome_bind, Logged.outcome_liftM, Logged.outcome_emit, Logged.outcome_emitAll] at h
  obtain ⟨-, -, h⟩ := bind_eq_ok.1 h
  obtain ⟨p, hplan, h⟩ := bind_eq_ok.1 h
  obtain ⟨-, -, h⟩ := bind_eq_ok.1 h
  obtain ⟨-, -, h⟩ := bind_eq_ok.1 h
  obtain ⟨ports, hports, h⟩ := bind_eq_ok.1 h
  obtain ⟨-, -, h⟩ := bind_eq_ok.1 h
  cases h
  exact ⟨plan_ok hplan, rfl, rfl, rfl, rfl, ports, mapError_eq_ok.1 hports, rfl⟩

end Module

/-! ### The ports of a channel -/

namespace Module

variable {m : Module} {channel : String} {names : List String} {ports : List Port}

theorem resolvePorts_ok (h : m.resolvePorts channel names = .ok ports) :
    List.Forall₂ (fun name port => m.port? name = some port ∧ port.name = name) names ports := by
  refine (mapM_eq_ok.1 h).imp fun name port hport => ?_
  split at hport
  · next port' hfound =>
    cases hport
    exact ⟨hfound, by simpa using List.find?_some hfound⟩
  · cases hport

theorem map_name_resolvePorts (h : m.resolvePorts channel names = .ok ports) : ports.map (·.name) = names := by
  have hall := resolvePorts_ok h
  clear h
  induction hall with
  | nil => rfl
  | cons hport _ ih => rw [List.map_cons, ih, hport.2]

theorem port?_of_resolvePorts (h : m.resolvePorts channel names = .ok ports) {port : Port} (hport : port ∈ ports) :
    m.port? port.name = some port := by
  obtain ⟨name, -, hfound, rfl⟩ := exists_mem_left (resolvePorts_ok h) hport
  exact hfound

/-- A clock channel is an input that carries clocks and has none; a virtual clock is the only clock input there is. -/
theorem clockSource_ok {inputs : OrderedMap String ChannelSpec} {timestamped : String → Bool} {source : ClockSource}
    (h : m.clockSource inputs timestamped = .ok source) :
    (∃ g spec, source = .channel g ∧ (g.name, spec) ∈ inputs.entries ∧ m.carriesClocks spec = true ∧
      spec.clock = none ∧ m.resolvePorts g.name spec.ports = .ok g.ports ∧ g.timestamped = timestamped g.name) ∨
    ∃ clock, source = .virtual clock ∧ m.clockInputs = [clock] ∧
      ∀ entry ∈ inputs.entries, m.carriesClocks entry.2 = false := by
  unfold clockSource at h
  split at h
  · next channel spec hfound =>
    split at h
    · cases h
    · next hclock =>
      obtain ⟨ports, hports, rfl⟩ := map_eq_ok.1 h
      refine .inl ⟨_, spec, rfl, List.mem_of_find?_eq_some hfound, by simpa using List.find?_some hfound,
        ?_, hports, rfl⟩
      simpa using hclock
  · next hnone =>
    split at h
    · next clock hclocks =>
      cases h
      refine .inr ⟨clock, rfl, hclocks, fun entry hentry => ?_⟩
      simpa using List.find?_eq_none.1 hnone entry hentry
    · cases h

end Module

/-! ### The domain of a channel -/

theorem ClockDomains.mem_all_of_resolve {ds : ClockDomains} {g : Connectivity} {isVirtual : Bool}
    {module channel : String} {clock : Option String} {c : ClockDomain}
    (h : ds.resolve g isVirtual module channel clock = .ok c) : c ∈ ds.all := by
  unfold resolve at h
  split at h
  · split at h
    · next hall => cases h; rw [hall]; exact List.mem_cons_self ..
    · cases h
  · dsimp only at h
    split at h
    · next hfound =>
      cases h
      obtain ⟨k, -, hk⟩ := List.mem_filterMap.1 (hfound ▸ List.mem_singleton_self c)
      exact OrderedMap.mem_values_iff.2 ⟨k, hk⟩
    · cases h

namespace Plan

variable {p : Plan} {m : Module} {a : Analysis} {specs : OrderedMap String ChannelSpec} {d : DataChannel}
  {c c' : ClockDomain}

/-- A data channel, described in `specs`, belongs to the domain `c`. -/
def Resolves (p : Plan) (m : Module) (a : Analysis) (specs : OrderedMap String ChannelSpec) (d : DataChannel)
    (c : ClockDomain) : Prop :=
  ∃ spec, specs.get? d.name = some spec ∧
    p.domains.resolve (a.connectivity m.name) p.interface.clock.isVirtual m.name d.name spec.clock = .ok c

theorem Resolves.mem_all (h : p.Resolves m a specs d c) : c ∈ p.domains.all :=
  let ⟨_, _, hresolve⟩ := h; ClockDomains.mem_all_of_resolve hresolve

theorem Resolves.unique (h : p.Resolves m a specs d c) (h' : p.Resolves m a specs d c') : c = c' := by
  obtain ⟨spec, hspec, hresolve⟩ := h
  obtain ⟨spec', hspec', hresolve'⟩ := h'
  cases hspec.symm.trans hspec'
  cases hresolve.symm.trans hresolve'
  rfl

theorem resolves_of_makes {direction : Direction} {spec : String × ChannelSpec} (hspec : spec ∈ specs.entries)
    (h : (p.context m a).Makes direction spec d) :
    ∃ c, p.Resolves m a specs d c ∧ d.enable = c.channelEnable direction := by
  obtain ⟨c, hresolve, henable⟩ := h.domain
  exact ⟨c, ⟨spec.2, OrderedMap.get?_eq_some_iff.2 (h.name ▸ hspec), h.name ▸ hresolve⟩, henable⟩

end Plan

namespace Module.Planned

variable {m : Module} {a : Analysis} {config : Config} {p : Plan}

/-- Distinct parts have distinct names. -/
theorem part_eq (h : m.Planned a config p) {x y : Part} (hx : x ∈ p.parts) (hy : y ∈ p.parts)
    (hname : p.nameOf x = p.nameOf y) : x = y := by
  obtain ⟨t, hgrows⟩ := h.names
  exact List.inj_on_of_nodup_map hgrows.nodup hx hy hname

/-- No part takes a name that the module or the host uses. -/
theorem part_not_mem (h : m.Planned a config p) {x : Part} (hx : x ∈ p.parts) : p.nameOf x ∉ m.initialNames config := by
  obtain ⟨t, hgrows⟩ := h.names
  exact hgrows.unused _ (List.mem_map_of_mem hx)

theorem resolves_input (h : m.Planned a config p) {d : DataChannel} (hd : d ∈ p.interface.inputs) :
    ∃ c, p.Resolves m a (a.inputs m.name) d c ∧ d.enable = c.channelEnable .input := by
  obtain ⟨spec, hspec, hmakes⟩ := exists_mem_left h.inputs hd
  exact Plan.resolves_of_makes (List.mem_filter.1 hspec).1 hmakes

theorem resolves_output (h : m.Planned a config p) {d : DataChannel} (hd : d ∈ p.interface.outputs) :
    ∃ c, p.Resolves m a (a.outputs m.name) d c ∧ d.enable = c.channelEnable .output := by
  obtain ⟨spec, hspec, hmakes⟩ := exists_mem_left h.outputs hd
  exact Plan.resolves_of_makes hspec hmakes

/-- A data channel is described on its side of the module, and its ports are those that the description names. -/
theorem spec_data (h : m.Planned a config p) {d : DataChannel} (hd : d ∈ p.interface.data) :
    ∃ direction spec, (d.name, spec) ∈ (a.specs m.name direction).entries ∧
      d.hostPort = hostPortName d.name direction ∧ m.resolvePorts d.name spec.ports = .ok d.ports := by
  have hmade : ∃ direction, ∃ entry ∈ (a.specs m.name direction).entries, (p.context m a).Makes direction entry d := by
    rcases List.mem_append.1 hd with hd | hd
    · obtain ⟨entry, hentry, hmakes⟩ := exists_mem_left h.inputs hd
      exact ⟨.input, entry, (List.mem_filter.1 hentry).1, hmakes⟩
    · obtain ⟨entry, hentry, hmakes⟩ := exists_mem_left h.outputs hd
      exact ⟨.output, entry, hentry, hmakes⟩
  obtain ⟨direction, ⟨name, spec⟩, hentry, hmakes⟩ := hmade
  obtain rfl : d.name = name := hmakes.name
  exact ⟨direction, spec, hentry, hmakes.hostPort, hmakes.ports⟩

theorem enable_data (h : m.Planned a config p) {d : DataChannel} (hd : d ∈ p.interface.data) :
    ∃ c ∈ p.domains.all, ∃ direction, d.enable = c.channelEnable direction := by
  rcases List.mem_append.1 hd with hd | hd
  · obtain ⟨c, hc, henable⟩ := h.resolves_input hd
    exact ⟨c, hc.mem_all, .input, henable⟩
  · obtain ⟨c, hc, henable⟩ := h.resolves_output hd
    exact ⟨c, hc.mem_all, .output, henable⟩

theorem domain_spec (h : m.Planned a config p) {c : ClockDomain} (hc : c ∈ p.domains.all) :
    c.isVirtual = p.interface.clock.isVirtual ∧
      ClockDomains.flagValue (.clock p.interface.clock) c.clock = .ok c.flagValue := by
  obtain ⟨k, hk⟩ := OrderedMap.mem_values_iff.1 hc
  obtain ⟨rfl, hvirtual, hvalue⟩ := h.domains.describe k c hk
  exact ⟨hvirtual, hvalue⟩

end Module.Planned

/-- The sampler, which has a clock channel and two domains, can be made token-driven. -/
theorem Demo.Sampler.exists_tokenModel : ∃ t, (sampler.tokenModel analysis (.ofConfig {}) {}).outcome = .ok t ∧
    t.plan.interface.inputs.map (·.name) = ["in"] ∧ t.plan.interface.outputs.map (·.name) = ["count", "sample"] := by
  have h : ((sampler.tokenModel analysis (.ofConfig {}) {}).outcome.toOption.map fun t =>
      (t.plan.interface.inputs.map (·.name), t.plan.interface.outputs.map (·.name))) =
      some (["in"], ["count", "sample"]) := by
    decide +kernel
  obtain ⟨t, ht, heq⟩ := exists_ok_of_map h
  exact ⟨t, ht, (Prod.mk.inj heq).1, (Prod.mk.inj heq).2⟩

end TokenCircuit
