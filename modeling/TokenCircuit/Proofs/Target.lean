import TokenCircuit.Proofs.Dependencies
import TokenCircuit.Proofs.Gating
import TokenCircuit.Proofs.Placing
import Mathlib.Data.List.Induction

/-!
# A target behind its channels

The protocol is built around the logic of a module, the target. All that the protocol needs to know of it is here: the
value of an output port is a function of the target's state and of the inputs that influence the port, and the state
changes when a target clock ticks (`TargetLogic`). A run with a target takes its tokens from given streams, one stream
for each channel that comes in, and shows at its outputs what the logic makes of them (`TokenModel.TargetRun`).
-/

namespace TokenCircuit

universe u

variable {S : Type u}

/-- A token moves through the host port in the cycle. -/
def Handshake.moves (port : String) (r : Valuation) : Bool := (valid port).isHigh r && (ready port).isHigh r

/-- The host ports through which tokens come in. -/
def Interface.sinks (i : Interface) : List String :=
  i.clock.group?.toList.map (fun g => sinkName g.name) ++ i.inputs.map (·.hostPort)

namespace Plan

variable (p : Plan)

/-- Where a port of an input channel is found in the channel's payload. -/
def inputPayload? (port : String) : Option Expr :=
  p.interface.inputs.findSome? fun d =>
    if port ∈ d.ports.map (·.name) then ((Channel.input d).payload port).toOption else none

/-- The values of the ports of all input channels. -/
def payloads (r : Valuation) (port : String) : Signal :=
  match p.inputPayload? port with
  | some value => value.value r
  | none => fun _ => 0

theorem payloads_congr {r v : Valuation} {name : String}
    (hbits : ∀ d ∈ p.interface.inputs, name ∈ d.ports.map (·.name) → ∀ path,
      r d.hostPort ("bits" :: path) = v d.hostPort ("bits" :: path)) : p.payloads r name = p.payloads v name := by
  unfold payloads
  cases hfound : p.inputPayload? name with
  | none => rfl
  | some value =>
    obtain ⟨d, hd, hsome⟩ := List.exists_of_findSome?_eq_some hfound
    obtain ⟨hname, hpayload⟩ := Option.ite_none_right_eq_some.1 hsome
    obtain ⟨hostPort, group, rest, hcarried, -, rfl, -⟩ := Channel.payload_ok (toOption_eq_some.1 hpayload)
    obtain ⟨rfl, -⟩ := Prod.mk.inj (Option.some.inj hcarried)
    show ((Expr.ref d.hostPort).follow _).value r = ((Expr.ref d.hostPort).follow _).value v
    rw [Expr.value_follow, Expr.value_follow]
    funext path
    exact hbits d hd hname _

def ticking (r : Valuation) : List String := (p.domains.all.filter (·.ticks r)).map (·.clock)

end Plan

/-- The logic of a target with states `S`. -/
structure TargetLogic (S : Type u) where
  /-- The value of an output port, given the values of the input ports. -/
  output : (port : String) → S → (String → Signal) → Signal
  /-- The state after some clocks tick. -/
  next : S → (String → Signal) → (clocks : List String) → S

namespace TargetLogic

variable (L : TargetLogic S) (p : Plan)

/-- The state after a cycle: it changes only if a clock ticks. -/
def step (s : S) (r : Valuation) : S := if p.ticking r = [] then s else L.next s (p.payloads r) (p.ticking r)

/-- The value of an output port depends on no other input ports than those that influence it. -/
def Local (g : Connectivity) : Prop :=
  ∀ o ∈ p.interface.outputs, ∀ port ∈ o.ports, ∀ s values values',
    (∀ d ∈ p.interface.inputs, ∀ port' ∈ d.ports, Relation.TransGen g.Drives port.name port'.name →
      values port'.name = values' port'.name) →
    L.output port.name s values = L.output port.name s values'

end TargetLogic

/-- The next token of every stream, when so many have come in before. -/
def nextTokens (tokens : String → Nat → Signal) (taken : String → Nat) : Valuation := fun port path =>
  match path with
  | "bits" :: rest => tokens port (taken port) rest
  | _ => 0

section Runs

variable (t : TokenModel) (host : HostSignals) (L : TargetLogic S) (s : S) (tokens : String → Nat → Signal)
  (st : Valuation)

/-- The cycle `r` can follow the cycles `rs` of a run with a target. Whenever a channel that comes in is valid, its bits
are the next token of its stream that has not moved yet, and the payloads of the outputs are what the logic says. -/
structure TokenModel.Follows (rs : List Valuation) (r : Valuation) : Prop where
  settled : Settled t.protocol (stateAfter t.protocol host.clock st rs) r
  low : host.reset.isHigh r = false
  fed : ∀ port ∈ t.plan.interface.sinks, (Handshake.valid port).isHigh r = true →
    ∀ path, r port ("bits" :: path) = tokens port (rs.countP (Handshake.moves port)) path
  driven : ∀ o ∈ t.plan.interface.outputs, ∀ port ∈ o.ports, ∀ value, (Channel.output o).payload port.name = .ok value →
    value.value r = L.output port.name (rs.foldl (L.step t.plan) s) (t.plan.payloads r)

/-- A run with a target that is in the state `s` after host reset. -/
inductive TokenModel.TargetRun : List Valuation → Prop
  | start : AfterReset t.protocol host.clock host.reset st → TargetRun []
  | cycle {rs : List Valuation} {r : Valuation} : TargetRun rs → t.Follows host L s tokens st rs r →
      TargetRun (rs ++ [r])

end Runs

theorem TokenModel.TargetRun.run {t : TokenModel} {host : HostSignals} {L : TargetLogic S} {s : S}
    {tokens : String → Nat → Signal} {st : Valuation} {rs : List Valuation} (h : t.TargetRun host L s tokens st rs) :
    t.Run host st rs := by
  induction h with
  | start hst => exact ⟨hst, trivial, fun r hr => by cases hr⟩
  | @cycle rs r _ hfollows ih =>
    refine ⟨ih.start, isRun_append.2 ⟨ih.cycles, hfollows.settled, trivial⟩, fun r' hr' => ?_⟩
    rcases List.mem_append.1 hr' with hr' | hr'
    · exact ih.low r' hr'
    · rw [List.mem_singleton.1 hr']
      exact hfollows.low

/-- What an output channel sends: the values of its ports, and the time if it is timestamped. -/
@[ext] structure Token where
  payload : List Signal
  time : Option Signal

namespace DataChannel

variable (d : DataChannel)

/-- The token that is at an output channel in the cycle. -/
def token (r : Valuation) : Token where
  payload := d.ports.map fun port =>
    match (Channel.output d).payload port.name with
    | .ok value => value.value r
    | .error _ => fun _ => 0
  time := if d.timestamped then some ((Handshake.time d.hostPort).value r) else none

def sent (rs : List Valuation) : List Token := (rs.filter d.transfers).map d.token

theorem length_sent {rs : List Valuation} : (d.sent rs).length = rs.countP d.transfers := by
  rw [sent, List.length_map, List.countP_eq_length_filter]

end DataChannel

/-! ### What is there when channels are valid -/

/-- Where a channel that comes in is valid, its bits are as in `v`. -/
def Plan.Sees (p : Plan) (r v : Valuation) : Prop :=
  ∀ port ∈ p.interface.sinks, (Handshake.valid port).isHigh r = true →
    ∀ path, r port ("bits" :: path) = v port ("bits" :: path)

theorem Interface.hostPort_mem_sinks {i : Interface} {d : DataChannel} (hd : d ∈ i.inputs) : d.hostPort ∈ i.sinks :=
  List.mem_append_right _ (List.mem_map_of_mem hd)

theorem Interface.clock_mem_sinks {i : Interface} {g : PortGroup} (hg : i.clock = .channel g) :
    sinkName g.name ∈ i.sinks := by
  simp [sinks, hg, ClockSource.group?]

namespace Plan.Sees

variable {p : Plan} {r v : Valuation}

theorem payloads_eq (h : p.Sees r v) {name : String}
    (hvalid : ∀ d ∈ p.interface.inputs, name ∈ d.ports.map (·.name) → d.valid.isHigh r = true) :
    p.payloads r name = p.payloads v name :=
  p.payloads_congr fun d hd hname path => h d.hostPort (Interface.hostPort_mem_sinks hd) (hvalid d hd hname) path

end Plan.Sees

namespace Module.Planned

variable {m : Module} {a : Analysis} {config : Config} {p : Plan} {r v : Valuation} {c : ClockDomain}

theorem flagValue_sees (h : m.Planned a config p) (hsees : p.Sees r v)
    (hvalid : p.interface.clock.validity.isHigh r = true) (hc : c ∈ p.domains.all) :
    c.flagValue.value r = c.flagValue.value v := by
  refine h.flagValue_congr hc fun group hgroup path => ?_
  rw [hgroup] at hvalid
  exact hsees _ (Interface.clock_mem_sinks hgroup) hvalid path

theorem source_sees (h : m.Planned a config p) (hsees : p.Sees r v)
    (hvalid : p.interface.clock.validity.isHigh r = true) {u : SimTime} (hu : p.domains.simTime = some u) :
    u.source.value r = u.source.value v := by
  have htime := h.domains.time
  rw [hu] at htime
  cases hclock : p.interface.clock with
  | virtual clock => rw [hclock] at htime; cases htime
  | channel group =>
    rw [hclock] at htime hvalid
    obtain ⟨-, hsource⟩ := Option.ite_none_right_eq_some.1 htime.symm
    have heq : Handshake.time (sinkName group.name) = u.source := Option.some.inj hsource
    rw [← heq]
    funext path
    exact hsees _ (Interface.clock_mem_sinks hclock) hvalid ("time" :: path)

end Module.Planned

/-! ### Runs exist -/

/-- A host port at which the ports of a channel show `values`. -/
def PortGroup.assemble (g : PortGroup) (values : String → Signal) : Signal := fun path =>
  (g.ports.findSome? fun port =>
    match g.payloadPath port.name with
    | .ok q => if q <+: path then some (values port.name (path.drop q.length)) else none
    | .error _ => none).getD 0

theorem PortGroup.assemble_append {g : PortGroup} {values : String → Signal} {port : Port} {q rest : List String}
    (hport : port ∈ g.ports) (hq : g.payloadPath port.name = .ok q) :
    g.assemble values (q ++ rest) = values port.name rest := by
  unfold assemble
  cases hfound : g.ports.findSome? _ with
  | none =>
    have hnone := List.findSome?_eq_none_iff.1 hfound port hport
    simp [hq] at hnone
  | some value =>
    obtain ⟨port', hport', hvalue⟩ := List.exists_of_findSome?_eq_some hfound
    split at hvalue
    · next q' hq' =>
      obtain ⟨hbegins, hvalue⟩ := Option.ite_none_right_eq_some.1 hvalue
      obtain ⟨rfl, hname⟩ :=
        Payload.eq_of_isPrefix (List.mem_map_of_mem hport) (List.mem_map_of_mem hport') hq hq' hbegins
      rw [List.drop_left, hname] at hvalue
      exact (Option.some.inj hvalue).symm
    · cases hvalue

/-- An environment as `env` in which the outputs show `values` and the other host ports the bits of `v`. -/
def Plan.feed (p : Plan) (values : String → Signal) (v env : Valuation) : Valuation := fun name path =>
  match path with
  | "bits" :: rest =>
    match p.partNamed? name with
    | some (.hostPort d) =>
      if d ∈ p.interface.outputs then d.assemble values ("bits" :: rest) else v name ("bits" :: rest)
    | _ => v name ("bits" :: rest)
  | _ => env name path

theorem Plan.paces_feed {p : Plan} {values : String → Signal} {v env r : Valuation}
    (h : p.Paces (p.feed values v env) r) : p.Paces env r where
  valid hd := h.valid hd
  ready hd := h.ready hd
  validity := by
    refine h.validity.trans ?_
    cases p.interface.clock with
    | virtual clock => rw [ClockSource.validity, Expr.bit, Expr.value_literal, Expr.value_literal]
    | channel group => rfl

namespace Module.Planned

variable {m : Module} {a : Analysis} {config : Config} {p : Plan} {values : String → Signal} {v env : Valuation}

theorem feed_output (h : m.Planned a config p) {o : DataChannel} (ho : o ∈ p.interface.outputs) {path : List String} :
    p.feed values v env o.hostPort ("bits" :: path) = o.assemble values ("bits" :: path) := by
  have hnamed : p.partNamed? o.hostPort = some (.hostPort o) :=
    h.partNamed?_nameOf (Plan.hostPort_mem_parts.2 (List.mem_append_right _ ho))
  simp [Plan.feed, hnamed, ho]

theorem feed_sink (h : m.Planned a config p) {port : String} (hport : port ∈ p.interface.sinks) {path : List String} :
    p.feed values v env port ("bits" :: path) = v port ("bits" :: path) := by
  rcases List.mem_append.1 hport with hport | hport
  · obtain ⟨group, hgroup, rfl⟩ := List.mem_map.1 hport
    have hnamed : p.partNamed? (sinkName group.name) = some (.clockPort group) :=
      h.partNamed?_nameOf (Plan.clockPort_mem_parts.2 (Option.mem_toList.1 hgroup))
    simp [Plan.feed, hnamed]
  · obtain ⟨d, hd, rfl⟩ := List.mem_map.1 hport
    have hnamed : p.partNamed? d.hostPort = some (.hostPort d) :=
      h.partNamed?_nameOf (Plan.hostPort_mem_parts.2 (List.mem_append_left _ hd))
    simp [Plan.feed, hnamed, h.not_mem_outputs hd]

end Module.Planned

namespace Plan.Shows

variable {m : Module} {a : Analysis} {config : Config} {p : Plan} {values : String → Signal} {v env r : Valuation}

theorem fed (hr : p.Shows (p.feed values v env) r) (h : m.Planned a config p) {port : String}
    (hport : port ∈ p.interface.sinks) (path : List String) : r port ("bits" :: path) = v port ("bits" :: path) := by
  have hfeed : p.feed values v env port ("bits" :: path) = v port ("bits" :: path) := h.feed_sink hport
  rw [← hfeed]
  rcases List.mem_append.1 hport with hport | hport
  · obtain ⟨group, hgroup, rfl⟩ := List.mem_map.1 hport
    exact hr.clock (Option.mem_toList.1 hgroup) (by decide) path
  · obtain ⟨d, hd, rfl⟩ := List.mem_map.1 hport
    exact hr.input hd (by decide) path

theorem driven (hr : p.Shows (p.feed values v env) r) (h : m.Planned a config p) {o : DataChannel}
    (ho : o ∈ p.interface.outputs) {port : Port} (hport : port ∈ o.ports) {value : Expr}
    (hvalue : (Channel.output o).payload port.name = .ok value) : value.value r = values port.name := by
  obtain ⟨hostPort, group, rest, hcarried, hpath, rfl, htime⟩ := Channel.payload_ok hvalue
  obtain ⟨rfl, rfl⟩ := Prod.mk.inj (Option.some.inj hcarried)
  rw [Expr.value_follow]
  funext path
  have hbits : r o.hostPort ("bits" :: (rest ++ path)) = _ := hr.bits ho fun hstamped => by
    rw [List.head?_append, htime hstamped, Option.some_or]
    decide
  exact hbits.trans ((h.feed_output ho).trans (PortGroup.assemble_append hport hpath))

end Plan.Shows

namespace Module.Modelled

variable {m : Module} {a : Analysis} {config : Config} {t : TokenModel} (L : TargetLogic S) (s : S)
  (tokens : String → Nat → Signal) (st : Valuation) (rs : List Valuation)

theorem exists_follows (h : m.Modelled a (.ofConfig config) config t) {env : Valuation}
    (hlow : (HostSignals.ofConfig config).reset.isHigh env = false) :
    ∃ r, t.Follows (.ofConfig config) L s tokens st rs r ∧ t.plan.Paces env r := by
  let v := nextTokens tokens fun port => rs.countP (Handshake.moves port)
  let values := fun port => L.output port (rs.foldl (L.step t.plan) s) (t.plan.payloads v)
  obtain ⟨r, hs, hr⟩ := h.exists_settled (stateAfter t.protocol (HostSignals.ofConfig config).clock st rs)
    (t.plan.feed values v env)
  refine ⟨r, ⟨hs, (h.reset_of_shows hr).trans hlow, fun port hport _ path => ?_, ?_⟩, Plan.paces_feed hr.paces⟩
  · exact hr.fed h.planned hport path
  · intro o ho port hport value hvalue
    have hpayloads : t.plan.payloads r = t.plan.payloads v := funext fun name =>
      t.plan.payloads_congr fun d hd _ path => hr.fed h.planned (Interface.hostPort_mem_sinks hd) path
    rw [hpayloads]
    exact hr.driven h.planned ho hport hvalue

/-- Whatever the target does and whatever tokens there are, they can come and go at any pace. -/
theorem exists_targetRun (h : m.Modelled a (.ofConfig config) config t) {envs : List Valuation}
    (hlow : ∀ env ∈ envs, (HostSignals.ofConfig config).reset.isHigh env = false) :
    ∃ st rs, t.TargetRun (.ofConfig config) L s tokens st rs ∧ List.Forall₂ t.plan.Paces envs rs := by
  obtain ⟨st, hst⟩ := h.exists_afterReset
  refine ⟨st, ?_⟩
  induction envs using List.reverseRecOn with
  | nil => exact ⟨[], .start hst, .nil⟩
  | append_singleton envs env ih =>
    obtain ⟨rs, hrun, hrs⟩ := ih fun env' henv' => hlow env' (List.mem_append_left _ henv')
    obtain ⟨r, hfollows, hr⟩ := h.exists_follows L s tokens st rs
      (hlow env (List.mem_append_right _ (List.mem_singleton_self _)))
    exact ⟨rs ++ [r], .cycle hrun hfollows, List.rel_append hrs (.cons hr .nil)⟩

end Module.Modelled

end TokenCircuit
