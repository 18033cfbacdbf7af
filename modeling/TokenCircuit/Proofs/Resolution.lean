import TokenCircuit.Demo.Sampler
import TokenCircuit.Proofs.Planning
import TokenCircuit.Proofs.Reachability

/-!
# The domain of a channel

Planning takes three steps: the groundwork up to the clock domains, the data channels one after the other, and the
places of the ports (`Module.outcome_plan`). A data channel is checked by itself, so the first check that fails stops it
all, with the error of that check. The domain of a channel is looked for among the clocks of the clock source that the
declared clock is or is influenced by; it is found if there is one, and with none or several they are listed, each once.
-/

namespace TokenCircuit

/-! ### The steps of planning -/

/-- What is settled before the data channels. -/
structure Groundwork where
  clock : ClockSource
  finishingWire : String
  domains : ClockDomains
  names : NameSupply

namespace Module

variable {m : Module} {a : Analysis} {host : HostSignals} {config : Config} {w : Groundwork}

/-- Plans all that comes before the data channels. -/
def groundwork (m : Module) (a : Analysis) (config : Config) : Except ChannelizeError Groundwork := do
  let clock ← m.clockSource (a.inputs m.name) a.isTimestamped
  let names ← NameSupply.reserveHostPorts m.name (hostPortNames clock (m.inputSpecs a clock) (a.outputs m.name).entries)
    (m.initialNames config)
  let (finishingWire, names) := names.fresh config.finishing
  let (domains, names) ← (ClockDomains.synthesize (.clock clock) config names).outcome.mapError .payload
  return ⟨clock, finishingWire, domains, names⟩

end Module

namespace Groundwork

def context (w : Groundwork) (m : Module) (a : Analysis) : ChannelContext := ⟨m, a, w.clock, w.domains⟩

def interface (w : Groundwork) (m : Module) (a : Analysis) : Except ChannelizeError Interface := do
  let (inputs, names) ← ((w.context m a).dataChannels .input (m.inputSpecs a w.clock) w.names).outcome
  let (outputs, _) ← ((w.context m a).dataChannels .output (a.outputs m.name).entries names).outcome
  return ⟨w.clock, inputs, outputs⟩

theorem interface_ok {w : Groundwork} {m : Module} {a : Analysis} {i : Interface} (h : w.interface m a = .ok i) :
    i.clock = w.clock ∧ List.Forall₂ ((w.context m a).Makes .input) (m.inputSpecs a w.clock) i.inputs ∧
    List.Forall₂ ((w.context m a).Makes .output) (a.outputs m.name).entries i.outputs := by
  obtain ⟨⟨inputs, names⟩, hinputs, h⟩ := bind_eq_ok.1 h
  obtain ⟨⟨outputs, _⟩, houtputs, h⟩ := bind_eq_ok.1 h
  cases h
  exact ⟨rfl, (ChannelContext.dataChannels_ok hinputs).1, (ChannelContext.dataChannels_ok houtputs).1⟩

end Groundwork

namespace Module

variable {m : Module} {a : Analysis} {host : HostSignals} {config : Config} {w : Groundwork}

theorem outcome_plan (m : Module) (a : Analysis) (config : Config) : (m.plan a config).outcome = (do
    let w ← m.groundwork a config
    let i ← w.interface m a
    let placements ← ChannelizeError.ofPayload (i.placements w.domains)
    return ⟨w.finishingWire, w.domains, i, placements, i.channels.dependencies (a.connectivity m.name)⟩) := by
  simp only [plan, groundwork, Groundwork.interface, Logged.outcome_bind, Logged.outcome_liftM, Logged.outcome_mapError,
    bind_assoc, pure_bind]
  rfl

theorem outcome_tokenModel (m : Module) (a : Analysis) (host : HostSignals) (config : Config) :
    (m.tokenModel a host config).outcome = (do
      let p ← (m.plan a config).outcome
      let ports ← ChannelizeError.ofPayload p.channelPorts
      return ⟨p, p.declarations (p.retained m) host config, m.redirectedBody p.standIn, p.firingRules host, m.name,
        config.hostPorts ++ ports⟩) := by
  simp only [tokenModel, Logged.outcome_bind, Logged.outcome_liftM, Logged.outcome_emit, Logged.outcome_emitAll]
  rfl

theorem groundwork_of_plan {p : Plan} (h : (m.plan a config).outcome = .ok p) : ∃ w, m.groundwork a config = .ok w ∧
    p.interface.clock = w.clock ∧ p.domains = w.domains := by
  rw [outcome_plan] at h
  obtain ⟨w, hw, h⟩ := bind_eq_ok.1 h
  obtain ⟨i, hi, h⟩ := bind_eq_ok.1 h
  obtain ⟨placements, -, h⟩ := bind_eq_ok.1 h
  cases h
  exact ⟨w, hw, (Groundwork.interface_ok hi).1, rfl⟩

theorem groundwork_ok (h : m.groundwork a config = .ok w) :
    m.clockSource (a.inputs m.name) a.isTimestamped = .ok w.clock ∧
      ClockDomains.DomainsOf (.clock w.clock) w.domains := by
  obtain ⟨clock, hclock, h⟩ := bind_eq_ok.1 h
  obtain ⟨reserved, -, h⟩ := bind_eq_ok.1 h
  obtain ⟨⟨domains, names⟩, hdomains, h⟩ := bind_eq_ok.1 h
  cases h
  exact ⟨hclock, (ClockDomains.synthesize_ok (mapError_eq_ok.1 hdomains)).1⟩

/-- The data channels in the order in which they are made. -/
def described (m : Module) (a : Analysis) (clock : ClockSource) : List (Direction × String × ChannelSpec) :=
  (m.inputSpecs a clock).map (.input, ·) ++ (a.outputs m.name).entries.map (.output, ·)

end Module

/-! ### Checks, channel by channel -/

namespace ChannelContext

variable {ctx : ChannelContext} {direction : Direction} {channel : String} {spec : ChannelSpec} {ports : List Port}

theorem agree_mapM_checked (specs : List (String × ChannelSpec)) (s : NameSupply) :
    Agree Eq (fun _ _ => True) (ctx.dataChannels direction specs s).outcome
      ((specs.map (direction, ·)).mapM fun x => ctx.checked x.2.1 x.2.2) := by
  induction specs generalizing s with
  | nil => exact .ok trivial
  | cons x specs ih =>
    rw [List.map_cons, List.mapM_cons]
    simp only [dataChannels, Logged.outcome_bind, Logged.outcome_liftM, Logged.outcome_emit]
    exact .bind_same (fun _ => rfl) fun made _ => (ih _).bind fun _ _ _ => .ok trivial

/-- For a channel with known ports and a time base only the domain is left to look for. -/
theorem checked_eq (hports : ctx.module.resolvePorts channel spec.ports = .ok ports)
    (htime : ctx.analysis.isTimestamped channel = true → ctx.domains.simTime.isSome) : ctx.checked channel spec =
      (ctx.domains.resolve (ctx.analysis.connectivity ctx.module.name) ctx.clock.isVirtual ctx.module.name channel
        spec.clock).map (ports, ·) := by
  have hbase : ¬ (ctx.analysis.isTimestamped channel && ctx.domains.simTime.isNone) = true := by
    rw [Bool.and_eq_true, Option.isNone_iff_eq_none]
    rintro ⟨hstamped, hnone⟩
    simpa [hnone] using htime hstamped
  rw [checked, hports]
  show (if _ then _ else _) = _
  rw [if_neg hbase]
  cases ctx.domains.resolve (ctx.analysis.connectivity ctx.module.name) ctx.clock.isVirtual ctx.module.name channel
    spec.clock <;>
    rfl

end ChannelContext

/-- The data channels are made if each passes its check; the first that does not tells why. -/
theorem Groundwork.agree_interface (w : Groundwork) (m : Module) (a : Analysis) : Agree Eq (fun _ _ => True)
    (w.interface m a) ((m.described a w.clock).mapM fun x => (w.context m a).checked x.2.1 x.2.2) := by
  rw [interface, Module.described, List.mapM_append]
  refine (ChannelContext.agree_mapM_checked _ _).bind fun _ _ _ => ?_
  exact (ChannelContext.agree_mapM_checked _ _).bind fun _ _ _ => .ok trivial

/-! ### Clocks that drive a signal -/

/-- A clock of the source that is the signal or influences it. -/
def ClockSource.IsDriver (clock : ClockSource) (g : Connectivity) (signal port : String) : Prop :=
  port ∈ clock.ports.map (·.name) ∧ Relation.ReflTransGen g.Drives signal port

instance {clock : ClockSource} {g : Connectivity} {signal port : String} : Decidable (clock.IsDriver g signal port) :=
  decidable_of_iff (port ∈ clock.ports.map (·.name) ∧ (port = signal ∨ port ∈ g.reachable signal)) <| by
    rw [Connectivity.mem_reachable, ← Relation.reflTransGen_iff_eq_or_transGen, ClockSource.IsDriver]

namespace ClockDomains

variable {ds : ClockDomains} {g : Connectivity} {isVirtual : Bool} {module channel signal port : String}
  {clock : ClockSource}

theorem mem_driversOf :
    port ∈ ds.driversOf g signal ↔ port ∈ ds.domains ∧ Relation.ReflTransGen g.Drives signal port := by
  rw [driversOf, List.mem_eraseDups, List.mem_filter, List.mem_cons, Connectivity.mem_reachable,
    Relation.reflTransGen_iff_eq_or_transGen, decide_eq_true_iff, and_comm]

theorem nodup_driversOf : (ds.driversOf g signal).Nodup := nodup_eraseDups _

theorem driversOf_eq_singleton :
    ds.driversOf g signal = [port] ↔ ∀ port', port' ∈ ds.driversOf g signal ↔ port' = port := by
  rw [← List.perm_singleton, List.perm_ext_iff_of_nodup nodup_driversOf (List.nodup_singleton port)]
  simp only [List.mem_singleton]

theorem resolve_eq_ok {c : ClockDomain} (hdriver : ds.driversOf g signal = [port]) (hc : ds.domain? port = some c) :
    ds.resolve g isVirtual module channel (some signal) = .ok c := by
  simp [resolve, hdriver, hc]

theorem resolve_eq_error (h : ∀ port, ds.driversOf g signal ≠ [port]) :
    ds.resolve g isVirtual module channel (some signal) =
      .error (.ambiguousClockDriver module channel signal (ds.driversOf g signal)) := by
  unfold resolve
  dsimp only
  split
  · next hdriver _ => exact absurd hdriver (h _)
  · rfl

namespace DomainsOf

theorem mem_driversOf_iff (h : DomainsOf (.clock clock) ds) :
    port ∈ ds.driversOf g signal ↔ clock.IsDriver g signal port := by
  rw [mem_driversOf, h.mem_iff]
  rfl

theorem resolve_of_driver (h : DomainsOf (.clock clock) ds)
    (hone : ∀ port', clock.IsDriver g signal port' ↔ port' = port) :
    ∃ c, ds.domain? port = some c ∧ ds.resolve g isVirtual module channel (some signal) = .ok c := by
  have hport : port ∈ ds.domains := (h.mem_iff port).2 ((hone port).2 rfl).1
  obtain ⟨c, hc⟩ := OrderedMap.mem_iff_get?.1 hport
  have hdriver : ds.driversOf g signal = [port] :=
    driversOf_eq_singleton.2 fun port' => h.mem_driversOf_iff.trans (hone port')
  exact ⟨c, hc, resolve_eq_ok hdriver hc⟩

theorem resolve_of_not_driver (h : DomainsOf (.clock clock) ds) (hnot : ¬ ∃! port, clock.IsDriver g signal port) :
    ds.resolve g isVirtual module channel (some signal) =
      .error (.ambiguousClockDriver module channel signal (ds.driversOf g signal)) := by
  refine resolve_eq_error fun port hdriver => hnot ⟨port, ?_⟩
  have hone := driversOf_eq_singleton.1 hdriver
  exact ⟨h.mem_driversOf_iff.1 ((hone port).2 rfl), fun port' hport' => (hone port').1 (h.mem_driversOf_iff.2 hport')⟩

theorem succeeds_resolve_iff (h : DomainsOf (.clock clock) ds) :
    Succeeds (ds.resolve g isVirtual module channel (some signal)) ↔ ∃! port, clock.IsDriver g signal port := by
  constructor
  · intro hok
    by_contra hnot
    rw [h.resolve_of_not_driver hnot] at hok
    exact not_succeeds_error hok
  · rintro ⟨port, hport, hone⟩
    obtain ⟨c, -, hc⟩ := h.resolve_of_driver fun port' => ⟨hone port', fun heq => heq ▸ hport⟩
    exact ⟨c, hc⟩

end DomainsOf

end ClockDomains

/-! ### Channels that are reached -/

namespace Module

variable {m : Module} {a : Analysis} {host : HostSignals} {config : Config} {w : Groundwork} {direction : Direction}
  {channel : String} {spec : ChannelSpec}

/-- Planning comes to look for the domain of a channel: the groundwork `w` is laid, the channels before it passed their
checks, and it has its ports and its time base. -/
structure Reaches (m : Module) (a : Analysis) (config : Config) (w : Groundwork) (direction : Direction)
    (channel : String) (spec : ChannelSpec) : Prop where
  groundwork : m.groundwork a config = .ok w
  earlier : ∃ before after, m.described a w.clock = before ++ (direction, channel, spec) :: after ∧
    ∀ x ∈ before, Succeeds ((w.context m a).checked x.2.1 x.2.2)
  ports : Succeeds (m.resolvePorts channel spec.ports)
  time : a.isTimestamped channel = true → w.domains.simTime.isSome

/-- A channel that fails its check stops the change of the module. -/
theorem Reaches.tokenModel_eq_error (h : m.Reaches a config w direction channel spec) {e : ChannelizeError}
    (hchecked : (w.context m a).checked channel spec = .error e) : (m.tokenModel a host config).outcome = .error e := by
  obtain ⟨before, after, hdescribed, hbefore⟩ := h.earlier
  have hinterface : w.interface m a = .error e := by
    refine (w.agree_interface m a).eq_error ?_
    rw [hdescribed]
    exact mapM_eq_error hbefore hchecked
  rw [outcome_tokenModel, outcome_plan, h.groundwork]
  show (w.interface m a >>= _) >>= _ = _
  rw [hinterface]
  rfl

end Module

def Interface.side (i : Interface) : Direction → List DataChannel
  | .input => i.inputs
  | .output => i.outputs

namespace Module

variable {m : Module} {a : Analysis} {host : HostSignals} {config : Config} {w : Groundwork} {direction : Direction}
  {channel : String} {spec : ChannelSpec} {t : TokenModel}

theorem plan_of_tokenModel (h : (m.tokenModel a host config).outcome = .ok t) :
    (m.plan a config).outcome = .ok t.plan := by
  rw [outcome_tokenModel] at h
  obtain ⟨p, hp, h⟩ := bind_eq_ok.1 h
  obtain ⟨ports, -, h⟩ := bind_eq_ok.1 h
  cases h
  exact hp

theorem Planned.exists_made {p : Plan} (h : m.Planned a config p) {x : String × ChannelSpec}
    (hx : (direction, x) ∈ m.described a p.interface.clock) :
    ∃ d ∈ p.interface.side direction, (p.context m a).Makes direction x d := by
  rcases List.mem_append.1 hx with hx | hx
  · obtain ⟨y, hy, heq⟩ := List.mem_map.1 hx
    cases heq
    exact exists_mem_right h.inputs hy
  · obtain ⟨y, hy, heq⟩ := List.mem_map.1 hx
    cases heq
    exact exists_mem_right h.outputs hy

/-- A channel of a token-driven module is enabled by the domain that its check found. -/
theorem Reaches.enable_eq (h : m.Reaches a config w direction channel spec) {ports : List Port} {c : ClockDomain}
    (hchecked : (w.context m a).checked channel spec = .ok (ports, c))
    (ht : (m.tokenModel a host config).outcome = .ok t) :
    ∃ d ∈ t.plan.interface.side direction, d.name = channel ∧ d.enable = c.channelEnable direction := by
  have hplan := plan_of_tokenModel ht
  obtain ⟨w', hw', hclock, hdomains⟩ := groundwork_of_plan hplan
  cases h.groundwork.symm.trans hw'
  have hcontext : t.plan.context m a = w.context m a := by rw [Plan.context, hclock, hdomains, Groundwork.context]
  obtain ⟨before, after, hdescribed, -⟩ := h.earlier
  have hmem : (direction, channel, spec) ∈ m.described a t.plan.interface.clock := by
    rw [hclock, hdescribed]
    exact List.mem_append_right _ (List.mem_cons_self ..)
  obtain ⟨d, hd, hmakes⟩ := (plan_ok hplan).exists_made hmem
  rw [hcontext] at hmakes
  obtain ⟨c', hresolve, henable⟩ := hmakes.domain
  cases hresolve.symm.trans (ChannelContext.checked_ok hchecked).2.2
  exact ⟨d, hd, hmakes.name, henable⟩

end Module

/-- The enable of a channel: the flag of the domain for an input and its negation for an output; under a virtual clock
every cycle counts for both. -/
theorem ClockDomains.DomainsOf.channelEnable_eq {clock : ClockSource} {ds : ClockDomains}
    (h : DomainsOf (.clock clock) ds) {port : String} {c : ClockDomain} (hc : ds.domain? port = some c)
    (direction : Direction) :
    c.channelEnable direction =
      if clock.isVirtual then .bit true else if direction = .input then .ref c.flag else (Expr.ref c.flag).not := by
  obtain ⟨-, hvirtual, -⟩ := h.describe port c hc
  have hsame : c.isVirtual = clock.isVirtual := hvirtual
  cases direction with
  | input => simp [ClockDomain.channelEnable, ClockDomain.highPhase, ClockDomain.clockFlag, hsame]
  | output => simp [ClockDomain.channelEnable, ClockDomain.lowPhase, ClockDomain.clockFlag, hsame]

/-- Let planning reach a channel with a declared clock. The channel passes exactly if one clock of the clock source is
the declared one or influences it, and then it is enabled by the domain of that clock. Otherwise the module is rejected,
and the error lists all clocks of the clock source with that property, each once. -/
theorem Module.channel_domain_exact {m : Module} {a : Analysis} {config : Config} {w : Groundwork}
    {direction : Direction} {channel k : String} {spec : ChannelSpec} (h : m.Reaches a config w direction channel spec)
    (hclock : spec.clock = some k) (host : HostSignals) :
    (Succeeds ((w.context m a).checked channel spec) ↔ ∃! port, w.clock.IsDriver (a.connectivity m.name) k port) ∧
    (∀ port, (∀ port', w.clock.IsDriver (a.connectivity m.name) k port' ↔ port' = port) →
      ∃ c ports, w.domains.domain? port = some c ∧ (w.context m a).checked channel spec = .ok (ports, c) ∧
        c.channelEnable direction =
          (if w.clock.isVirtual then .bit true else if direction = .input then .ref c.flag else (Expr.ref c.flag).not) ∧
        ∀ t, (m.tokenModel a host config).outcome = .ok t →
          ∃ d ∈ t.plan.interface.side direction, d.name = channel ∧ d.enable = c.channelEnable direction) ∧
    ((¬ ∃! port, w.clock.IsDriver (a.connectivity m.name) k port) → ∃ drivers,
      (m.tokenModel a host config).outcome = .error (.ambiguousClockDriver m.name channel k drivers) ∧ drivers.Nodup ∧
        ∀ port, port ∈ drivers ↔ w.clock.IsDriver (a.connectivity m.name) k port) := by
  obtain ⟨-, hdomains⟩ := groundwork_ok h.groundwork
  obtain ⟨ports, hports⟩ := h.ports
  have hchecked : (w.context m a).checked channel spec = _ := ChannelContext.checked_eq hports h.time
  rw [hclock] at hchecked
  refine ⟨?_, fun port hone => ?_, fun hnot => ?_⟩
  · rw [hchecked, succeeds_map]
    exact hdomains.succeeds_resolve_iff
  · obtain ⟨c, hc, hresolve⟩ := hdomains.resolve_of_driver hone
    have hok : (w.context m a).checked channel spec = .ok (ports, c) := hchecked.trans (map_eq_ok.2 ⟨c, hresolve, rfl⟩)
    exact ⟨c, ports, hc, hok, hdomains.channelEnable_eq hc direction, fun t ht => h.enable_eq hok ht⟩
  · refine ⟨w.domains.driversOf (a.connectivity m.name) k, h.tokenModel_eq_error ?_, ClockDomains.nodup_driversOf,
      fun port => hdomains.mem_driversOf_iff⟩
    rw [hchecked]
    exact congrArg (Except.map _) (hdomains.resolve_of_not_driver hnot)

namespace Demo.Sampler

/-- A sampler whose input runs on a clock that is made from the fast one and feeds back into it, and whose count runs on
a mix of both clocks. -/
def mixed : Analysis := .ofFacts [
  .input "Sampler" "clock" ⟨none, ["clock_fast", "clock_slow"]⟩,
  .input "Sampler" "in" ⟨some "gated", ["in_reset", "in_step"]⟩,
  .output "Sampler" "count" ⟨some "mixed", ["count"]⟩,
  .edge "Sampler" "gated" "clock_fast",
  .edge "Sampler" "clock_fast" "gated",
  .edge "Sampler" "mixed" "gated",
  .edge "Sampler" "mixed" "clock_slow"]

/-- The input is in the domain of the fast clock; the count has two clocks to choose from. -/
theorem mixed_clock_is_ambiguous : ∃ w, sampler.Reaches mixed {} w .input "in" ⟨some "gated", ["in_reset", "in_step"]⟩ ∧
    (∃ c ports, w.domains.domain? "clock_fast" = some c ∧
      (w.context sampler mixed).checked "in" ⟨some "gated", ["in_reset", "in_step"]⟩ = .ok (ports, c)) ∧
    sampler.Reaches mixed {} w .output "count" ⟨some "mixed", ["count"]⟩ ∧
    ∃ drivers, (sampler.tokenModel mixed (.ofConfig {}) {}).outcome =
        .error (.ambiguousClockDriver "Sampler" "count" "mixed" drivers) ∧
      drivers.Nodup ∧ ∀ port, port ∈ drivers ↔ port = "clock_fast" ∨ port = "clock_slow" := by
  have hlaid : (sampler.groundwork mixed {}).toOption.map (·.clock) =
      some (.channel ⟨"clock", [.input "clock_fast" .clock, .input "clock_slow" .clock], false⟩) := by
    decide +kernel
  obtain ⟨w, hw, hclock⟩ := exists_ok_of_map hlaid
  have hdescribed : sampler.described mixed w.clock = [(.input, "in", ⟨some "gated", ["in_reset", "in_step"]⟩),
      (.output, "count", ⟨some "mixed", ["count"]⟩)] := by
    rw [hclock]
    decide +kernel
  have hclocks : ∀ {signal port}, w.clock.IsDriver (mixed.connectivity "Sampler") signal port →
      port = "clock_fast" ∨ port = "clock_slow" := by
    rintro signal port ⟨hport, -⟩
    simpa [hclock, ClockSource.ports, Port.input] using hport
  have hin : sampler.Reaches mixed {} w .input "in" ⟨some "gated", ["in_reset", "in_step"]⟩ :=
    ⟨hw, ⟨[], _, hdescribed, by simp⟩, succeeds_of_isOk (by decide +kernel), fun h => absurd h (by decide +kernel)⟩
  obtain ⟨-, haccepted, -⟩ := Module.channel_domain_exact hin rfl (.ofConfig {})
  obtain ⟨c, ports, hc, hchecked, -⟩ := haccepted "clock_fast" fun port => by
    constructor
    · intro h
      rcases hclocks h with rfl | rfl
      · rfl
      · rw [hclock] at h
        exact absurd h (by decide +kernel)
    · rintro rfl
      rw [hclock]
      decide +kernel
  have hcount : sampler.Reaches mixed {} w .output "count" ⟨some "mixed", ["count"]⟩ :=
    ⟨hw, ⟨[_], [], hdescribed, by simpa using ⟨_, hchecked⟩⟩, succeeds_of_isOk (by decide +kernel),
      fun h => absurd h (by decide +kernel)⟩
  obtain ⟨-, -, hrejected⟩ := Module.channel_domain_exact hcount rfl (.ofConfig {})
  have hboth : ∀ {port}, port = "clock_fast" ∨ port = "clock_slow" →
      w.clock.IsDriver (mixed.connectivity "Sampler") "mixed" port := by
    rw [hclock]
    rintro port (rfl | rfl) <;> decide +kernel
  have hseveral : ¬ ∃! port, w.clock.IsDriver (mixed.connectivity "Sampler") "mixed" port := by
    rintro ⟨port, -, hone⟩
    have hsame := (hone _ (hboth (.inl rfl))).trans (hone _ (hboth (.inr rfl))).symm
    exact absurd hsame (by decide)
  obtain ⟨drivers, herror, hnodup, hdrivers⟩ := hrejected hseveral
  exact ⟨w, hin, ⟨c, ports, hc, hchecked⟩, hcount, drivers, herror, hnodup,
    fun port => (hdrivers port).trans ⟨hclocks, hboth⟩⟩

end Demo.Sampler

end TokenCircuit
