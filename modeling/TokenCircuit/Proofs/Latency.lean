import TokenCircuit.Proofs.Target

/-!
# Latency insensitivity

What a run sends does not depend on when tokens come and go. The streams of tokens and the logic of the target alone
determine a sequence of snapshots, one for each epoch (`Snapshot.ofEpoch`): which tokens are next, which channels and
clocks take part, the state of the target, and what has been sent. Every run goes through these snapshots at a pace of
its own (`Tracks`). Within an epoch nothing moves but outputs, each of which can only send the token that the snapshot
has for it, and the cycle that ends the epoch sees the next token of every stream. So any two runs have sent a beginning
of the same sequence.
-/

namespace TokenCircuit

universe u

variable {S : Type u}

/-- The levels of the flags, given the clock token. -/
def Plan.withFlags (p : Plan) (v : Valuation) : Valuation := fun name =>
  match p.partNamed? name with
  | some (.flag c) => c.flagValue.value v
  | _ => v name

/-- Where a target stands when an epoch starts. -/
structure Snapshot (S : Type u) where
  state : S
  /-- How many tokens have come in through a host port. -/
  taken : String → Nat
  /-- The channels that move no token in this epoch. -/
  skips : DataChannel → Bool
  enabled : ClockDomain → Bool
  /-- It is not the first epoch. -/
  started : Bool
  time : Signal
  sent : DataChannel → List Token

namespace Snapshot

variable (p : Plan) (L : TargetLogic S) (tokens : String → Nat → Signal) (s : S) (x : Snapshot S)

def start : Snapshot S := ⟨s, fun _ => 0, fun _ => false, fun _ => true, false, fun _ => 0, fun _ => []⟩

def view : Valuation := nextTokens tokens x.taken

/-- The clocks that tick when the epoch ends. -/
def ticking : List String := (p.domains.all.filter fun c => x.enabled c && x.started).map (·.clock)

/-- The token that an output has for the epoch. -/
def token (o : DataChannel) : Token where
  payload := o.ports.map fun port => L.output port.name x.state (p.payloads (x.view tokens))
  time := if o.timestamped then some x.time else none

def next : Snapshot S where
  state := if x.ticking p = [] then x.state else L.next x.state (p.payloads (x.view tokens)) (x.ticking p)
  taken port := x.taken port + if p.interface.inputs.any (fun d => d.hostPort = port && x.skips d) then 0 else 1
  skips d := !d.enable.isHigh (p.withFlags (x.view tokens))
  enabled c := c.flagValue.isHigh (x.view tokens)
  started := true
  time :=
    match p.domains.simTime with
    | some u => u.source.value (x.view tokens)
    | none => x.time
  sent o := x.sent o ++ if x.skips o then [] else [x.token p L tokens o]

def ofEpoch : Nat → Snapshot S
  | 0 => start s
  | k + 1 => (ofEpoch k).next p L tokens

end Snapshot

/-- The registers `st` and the cycles `rs` of a run that is in the epoch of the snapshot `x`. -/
structure Tracks (p : Plan) (L : TargetLogic S) (tokens : String → Nat → Signal) (s : S) (x : Snapshot S)
    (st : Valuation) (rs : List Valuation) : Prop where
  state : rs.foldl (L.step p) s = x.state
  taken : ∀ port ∈ p.interface.sinks, rs.countP (Handshake.moves port) = x.taken port
  skips : ∀ d ∈ p.interface.inputs, d.isFired.isHigh st = x.skips d
  enabled : ∀ c ∈ p.domains.all, c.enable.isHigh st = x.enabled c
  started : p.domains.doneInit.isHigh st = x.started
  time : ∀ {u}, p.domains.simTime = some u → st u.reg = x.time
  fired : ∀ o ∈ p.interface.outputs, x.skips o = true → o.isFired.isHigh st = true
  sent : ∀ o ∈ p.interface.outputs,
    o.sent rs = x.sent o ++ if o.isFired.isHigh st && !x.skips o then [x.token p L tokens o] else []

theorem Tracks.takes_part {p : Plan} {L : TargetLogic S} {tokens : String → Nat → Signal} {s : S} {x : Snapshot S}
    {st : Valuation} {rs : List Valuation} {o : DataChannel} (h : Tracks p L tokens s x st rs)
    (ho : o ∈ p.interface.outputs) (hfired : o.isFired.isHigh st = false) : x.skips o = false := by
  cases hskips : x.skips o with
  | false => rfl
  | true =>
    rw [h.fired o ho hskips] at hfired
    cases hfired

namespace Module.Modelled

variable {m : Module} {a : Analysis} {host : HostSignals} {config : Config} {t : TokenModel} {L : TargetLogic S}
  {tokens : String → Nat → Signal} {s : S} {st : Valuation}

theorem tracks_afterReset (h : m.Modelled a host config t) (hst : AfterReset t.protocol host.clock host.reset st) :
    Tracks t.plan L tokens s (.start s) st [] where
  state := rfl
  taken port hport := rfl
  skips d hd := h.fired_afterReset (List.mem_append_left _ hd) hst
  enabled c hc := h.enable_afterReset hc hst
  started := h.doneInit_afterReset hst
  time {u} hu := by
    obtain ⟨r, hr⟩ := h.value_afterReset hst (Plan.simTime_mem_parts.2 hu) rfl
    refine hr.trans ?_
    rw [Expr.value_literal]
    rfl
  fired o ho hskips := by cases hskips
  sent o ho := by
    rw [h.fired_afterReset (List.mem_append_right _ ho) hst]
    rfl

end Module.Modelled

/-- The cycle `r` comes next in a run that tracks `x`. -/
structure Continues (t : TokenModel) (host : HostSignals) (L : TargetLogic S) (tokens : String → Nat → Signal) (s : S)
    (x : Snapshot S) (st : Valuation) (rs : List Valuation) (r : Valuation) : Prop where
  tracks : Tracks t.plan L tokens s x st rs
  settled : Settled t.protocol st r
  low : host.reset.isHigh r = false
  sees : t.plan.Sees r (x.view tokens)
  driven : ∀ o ∈ t.plan.interface.outputs, ∀ port ∈ o.ports, ∀ value, (Channel.output o).payload port.name = .ok value →
    value.value r = L.output port.name x.state (t.plan.payloads r)

theorem TokenModel.Follows.continues {t : TokenModel} {host : HostSignals} {L : TargetLogic S}
    {tokens : String → Nat → Signal} {s : S} {x : Snapshot S} {st r : Valuation} {rs : List Valuation}
    (h : t.Follows host L s tokens st rs r)
    (hx : Tracks t.plan L tokens s x (stateAfter t.protocol host.clock st rs) rs) :
    Continues t host L tokens s x (stateAfter t.protocol host.clock st rs) rs r where
  tracks := hx
  settled := h.settled
  low := h.low
  sees port hport hvalid path := by
    rw [h.fed port hport hvalid path, hx.taken port hport]
    rfl
  driven := by
    rw [← hx.state]
    exact h.driven

theorem ClockSource.eq_channel {source : ClockSource} {g : PortGroup} (h : source.group? = some g) :
    source = .channel g := by
  cases source with
  | channel g' => rw [Option.some.inj h]
  | virtual clock => cases h

namespace Plan.Obeys

variable {p : Plan} {host : HostSignals} {g : Connectivity} {st r st' : Valuation}

theorem moves_clock (h : p.Obeys host g st r st') {group : PortGroup} (hclock : p.interface.clock = .channel group) :
    Handshake.moves (sinkName group.name) r = p.finishing.isHigh r := by
  rw [Handshake.moves, h.clockReady (hclock ▸ rfl), h.finishing, hclock, Bool.and_comm]
  rfl

theorem moves_quiet (h : p.Obeys host g st r st') (hfin : p.finishing.isHigh r = false) {port : String}
    (hport : port ∈ p.interface.sinks) : Handshake.moves port r = false := by
  rcases List.mem_append.1 hport with hport | hport
  · obtain ⟨group, hgroup, rfl⟩ := List.mem_map.1 hport
    rw [h.moves_clock (ClockSource.eq_channel (Option.mem_toList.1 hgroup)), hfin]
  · obtain ⟨d, hd, rfl⟩ := List.mem_map.1 hport
    exact h.not_transfers_input hd hfin

theorem ticking_quiet (h : p.Obeys host g st r st') (hfin : p.finishing.isHigh r = false) : p.ticking r = [] := by
  have hnone : p.domains.all.filter (·.ticks r) = [] := by
    refine List.filter_eq_nil_iff.2 fun c hc => ?_
    rw [h.gate hc, hfin, Bool.false_and, Bool.and_false]
    exact Bool.false_ne_true
  rw [ticking, hnone, List.map_nil]

end Plan.Obeys

namespace Module.Planned

variable {m : Module} {a : Analysis} {config : Config} {p : Plan} {host : HostSignals} {st r st' v : Valuation}

theorem withFlags_flag (h : m.Planned a config p) {c : ClockDomain} (hc : c ∈ p.domains.all) :
    p.withFlags v c.flag = c.flagValue.value v := by
  have hnamed : p.partNamed? c.flag = some (.flag c) := h.partNamed?_nameOf (Plan.flag_mem_parts.2 hc)
  rw [Plan.withFlags, hnamed]

theorem any_skips_clock (h : m.Planned a config p) {group : PortGroup} (hgroup : p.interface.clock.group? = some group)
    {skips : DataChannel → Bool} :
    p.interface.inputs.any (fun d => d.hostPort = sinkName group.name && skips d) = false := by
  refine List.any_eq_false.2 fun d hd hany => ?_
  obtain ⟨hname, -⟩ : d.hostPort = sinkName group.name ∧ skips d = true := by simpa using hany
  have hpart : Part.hostPort d = Part.clockPort group :=
    h.part_eq (Plan.hostPort_mem_parts.2 (List.mem_append_left _ hd)) (Plan.clockPort_mem_parts.2 hgroup) hname
  cases hpart

theorem any_skips_input (h : m.Planned a config p) {d : DataChannel} (hd : d ∈ p.interface.inputs)
    {skips : DataChannel → Bool} :
    p.interface.inputs.any (fun d' => d'.hostPort = d.hostPort && skips d') = skips d := by
  rw [Bool.eq_iff_iff, List.any_eq_true]
  constructor
  · rintro ⟨d', hd', hany⟩
    obtain ⟨hname, hskips⟩ : d'.hostPort = d.hostPort ∧ skips d' = true := by simpa using hany
    have hpart : Part.hostPort d' = Part.hostPort d :=
      h.part_eq (Plan.hostPort_mem_parts.2 (List.mem_append_left _ hd'))
        (Plan.hostPort_mem_parts.2 (List.mem_append_left _ hd)) hname
    cases hpart
    exact hskips
  · intro hskips
    exact ⟨d, hd, by simp [hskips]⟩

theorem enable_sees (h : m.Planned a config p) (hobeys : p.Obeys host (a.connectivity m.name) st r st')
    (hflags : ∀ c ∈ p.domains.all, c.flagValue.value r = c.flagValue.value v) {d : DataChannel}
    (hd : d ∈ p.interface.data) : d.enable.isHigh r = d.enable.isHigh (p.withFlags v) := by
  obtain ⟨c, hc, direction, henable⟩ := h.enable_data hd
  have hflag : c.clockFlag.isHigh r = c.clockFlag.isHigh (p.withFlags v) := by
    refine Expr.isHigh_congr ?_
    rw [ClockDomain.clockFlag, Expr.value_ref, Expr.value_ref, hobeys.flag hc, h.withFlags_flag hc, hflags c hc]
  rw [henable]
  cases direction with
  | input =>
    rw [ClockDomain.channelEnable, ClockDomain.highPhase]
    split
    · rw [Expr.isHigh_bit, Expr.isHigh_bit]
    · exact hflag
  | output =>
    rw [ClockDomain.channelEnable, ClockDomain.lowPhase]
    split
    · rw [Expr.isHigh_bit, Expr.isHigh_bit]
    · rw [Expr.isHigh_not, Expr.isHigh_not, hflag]

end Module.Planned

namespace Continues

variable {m : Module} {a : Analysis} {host : HostSignals} {config : Config} {t : TokenModel} {L : TargetLogic S}
  {tokens : String → Nat → Signal} {s : S} {x : Snapshot S} {st r : Valuation} {rs : List Valuation} {o : DataChannel}

/-- In a valid output stands the token of the epoch. -/
theorem token_eq (h : Continues t host L tokens s x st rs r) (hm : m.Modelled a host config t)
    (hdisjoint : a.PortsDisjoint m.name) (hlocal : L.Local t.plan (a.connectivity m.name))
    (ho : o ∈ t.plan.interface.outputs) (hvalid : o.valid.isHigh r = true) : o.token r = x.token t.plan L tokens o := by
  have hobeys := hm.obeys h.settled
  ext1
  · refine List.map_congr_left fun port hport => ?_
    obtain ⟨value, hvalue⟩ := hm.planned.exists_payload ho hport
    rw [hvalue]
    refine (h.driven o ho port hport value hvalue).trans ?_
    refine hlocal o ho port hport _ _ _ fun d hd port' hport' hreach => ?_
    -- an output is valid only if the inputs are that influence it
    rw [hobeys.offer ho, Bool.and_eq_true] at hvalid
    have hinfluences : port'.name ∈ o.influences (a.connectivity m.name) :=
      List.mem_flatMap.2 ⟨port, hport, Connectivity.mem_reachable.2 hreach⟩
    exact h.sees.payloads_eq fun d' hd' hname =>
      List.all_eq_true.1 hvalid.1 d' (hm.planned.mem_sources hdisjoint hd' hname hinfluences)
  · show (if o.timestamped then some ((Handshake.time o.hostPort).value r) else none) =
      if o.timestamped then some x.time else none
    cases hstamped : o.timestamped with
    | false => rfl
    | true =>
      obtain ⟨spec, -, hmakes⟩ := exists_mem_left hm.planned.outputs ho
      obtain ⟨u, hu⟩ := Option.isSome_iff_exists.1 (hmakes.timeBase hstamped)
      have hreg : r u.reg = st u.reg := hobeys.state (Plan.simTime_mem_parts.2 hu) rfl
      rw [hobeys.stamp ho hstamped hu, hreg, h.tracks.time hu]

theorem sent_append (h : Continues t host L tokens s x st rs r) (hm : m.Modelled a host config t)
    (hdisjoint : a.PortsDisjoint m.name) (hlocal : L.Local t.plan (a.connectivity m.name))
    (ho : o ∈ t.plan.interface.outputs) :
    o.sent (rs ++ [r]) = o.sent rs ++ if o.transfers r then [x.token t.plan L tokens o] else [] := by
  rw [DataChannel.sent, List.filter_append, List.map_append, DataChannel.sent]
  cases hmoves : o.transfers r with
  | false => simp [hmoves]
  | true =>
    have hvalid : o.valid.isHigh r = true := (Bool.and_eq_true .. ▸ hmoves).1
    simp [hmoves, h.token_eq hm hdisjoint hlocal ho hvalid]

theorem ticking_eq (h : Continues t host L tokens s x st rs r) (hm : m.Modelled a host config t)
    (hfin : t.plan.finishing.isHigh r = true) : t.plan.ticking r = x.ticking t.plan := by
  have hobeys := hm.obeys h.settled
  refine congrArg (List.map _) (List.filter_congr fun c hc => ?_)
  rw [hobeys.gate hc, hfin, h.low, hobeys.enable_eq hc, hobeys.doneInit_eq, h.tracks.enabled c hc, h.tracks.started]
  rfl

/-- The cycle that ends the epoch takes a token from every channel that comes in and has not been skipped. -/
theorem moves_eq (h : Continues t host L tokens s x st rs r) (hm : m.Modelled a host config t)
    (hfin : t.plan.finishing.isHigh r = true) {port : String} (hport : port ∈ t.plan.interface.sinks) :
    Handshake.moves port r = !t.plan.interface.inputs.any fun d => d.hostPort = port && x.skips d := by
  have hobeys := hm.obeys h.settled
  rcases List.mem_append.1 hport with hport | hport
  · obtain ⟨group, hgroup, rfl⟩ := List.mem_map.1 hport
    rw [hobeys.moves_clock (ClockSource.eq_channel (Option.mem_toList.1 hgroup)), hfin,
      hm.planned.any_skips_clock (Option.mem_toList.1 hgroup)]
    rfl
  · obtain ⟨d, hd, rfl⟩ := List.mem_map.1 hport
    have hdata : d ∈ t.plan.interface.data := List.mem_append_left _ hd
    rw [hm.planned.any_skips_input hd, ← h.tracks.skips d hd, ← hobeys.fired_eq hdata]
    exact hobeys.transfers_eq hdata hfin

/-- A cycle that does not end the epoch leaves the run in it. -/
theorem quiet (h : Continues t host L tokens s x st rs r) (hm : m.Modelled a host config t)
    (hdisjoint : a.PortsDisjoint m.name) (hlocal : L.Local t.plan (a.connectivity m.name))
    (hfin : t.plan.finishing.isHigh r = false) :
    Tracks t.plan L tokens s x (nextState t.protocol host.clock r) (rs ++ [r]) := by
  have hobeys := hm.obeys h.settled
  have hx := h.tracks
  refine ⟨?state, ?taken, ?skips, ?enabled, ?started, ?time, ?fired, ?sent⟩
  case state =>
    rw [List.foldl_append, hx.state]
    exact if_pos (hobeys.ticking_quiet hfin)
  case taken =>
    intro port hport
    rw [List.countP_append, hx.taken port hport, List.countP_singleton, hobeys.moves_quiet hfin hport]
    rfl
  case skips =>
    intro d hd
    have hdata : d ∈ t.plan.interface.data := List.mem_append_left _ hd
    rw [hobeys.nextFired hdata h.low, hfin, if_neg Bool.false_ne_true, hobeys.not_transfers_input hd hfin,
      Bool.or_false, hobeys.fired_eq hdata, hx.skips d hd]
  case enabled =>
    intro c hc
    have hreg := hobeys.nextEnable hc h.low
    rw [hfin, if_neg Bool.false_ne_true] at hreg
    rw [← hx.enabled c hc, ← hobeys.enable_eq hc]
    exact Expr.isHigh_ref (hreg.trans Expr.value_ref.symm)
  case started =>
    rw [hobeys.nextDoneInit h.low, hfin, Bool.false_or, hobeys.doneInit_eq, hx.started]
  case time =>
    intro u hu
    have hreg := hobeys.nextTime hu h.low
    rw [hfin, if_neg Bool.false_ne_true] at hreg
    rw [hreg, ← hx.time hu]
    exact hobeys.state (Plan.simTime_mem_parts.2 hu) rfl
  case fired =>
    intro o ho hskips
    have hdata : o ∈ t.plan.interface.data := List.mem_append_right _ ho
    rw [hobeys.nextFired hdata h.low, hfin, if_neg Bool.false_ne_true, hobeys.fired_eq hdata, hx.fired o ho hskips,
      Bool.true_or]
  case sent =>
    intro o ho
    have hdata : o ∈ t.plan.interface.data := List.mem_append_right _ ho
    rw [h.sent_append hm hdisjoint hlocal ho, hx.sent o ho, hobeys.nextFired hdata h.low, hfin,
      if_neg Bool.false_ne_true, hobeys.fired_eq hdata]
    cases hfired : o.isFired.isHigh st with
    | true =>
      have hstill := hobeys.not_transfers hdata ((hobeys.fired_eq hdata).trans hfired)
      rw [hstill, Bool.or_false]
      simp
    | false =>
      have hskips := hx.takes_part ho hfired
      cases o.transfers r <;> simp [hskips]

/-- The cycle that ends the epoch takes the run to the next snapshot. -/
theorem finishing (h : Continues t host L tokens s x st rs r) (hm : m.Modelled a host config t)
    (hdisjoint : a.PortsDisjoint m.name) (hlocal : L.Local t.plan (a.connectivity m.name))
    (hfin : t.plan.finishing.isHigh r = true) :
    Tracks t.plan L tokens s (x.next t.plan L tokens) (nextState t.protocol host.clock r) (rs ++ [r]) := by
  have hobeys := hm.obeys h.settled
  have hx := h.tracks
  obtain ⟨hvalid, -⟩ := hobeys.done_of_finishing hfin
  have hclock : t.plan.interface.clock.validity.isHigh r = true := by
    rw [hobeys.finishing, Bool.and_eq_true] at hfin
    exact hfin.2
  have hflags : ∀ c ∈ t.plan.domains.all, c.flagValue.value r = c.flagValue.value (x.view tokens) :=
    fun c hc => hm.planned.flagValue_sees h.sees hclock hc
  have hpayloads : t.plan.payloads r = t.plan.payloads (x.view tokens) :=
    funext fun name => h.sees.payloads_eq fun d hd _ => hvalid d hd
  have hnext : ∀ d ∈ t.plan.interface.data, d.isFired.isHigh (nextState t.protocol host.clock r) =
      (x.next t.plan L tokens).skips d := by
    intro d hd
    rw [hobeys.nextFired hd h.low, hfin, if_pos rfl, hm.planned.enable_sees hobeys hflags hd]
    rfl
  refine ⟨?state, ?taken, ?skips, ?enabled, ?started, ?time, ?fired, ?sent⟩
  case state =>
    rw [List.foldl_append, hx.state]
    show L.step t.plan x.state r = _
    rw [TargetLogic.step, h.ticking_eq hm hfin, hpayloads]
    rfl
  case taken =>
    intro port hport
    rw [List.countP_append, hx.taken port hport, List.countP_singleton, h.moves_eq hm hfin hport]
    show _ = x.taken port + if t.plan.interface.inputs.any (fun d => d.hostPort = port && x.skips d) then 0 else 1
    cases t.plan.interface.inputs.any fun d => d.hostPort = port && x.skips d <;> rfl
  case skips =>
    intro d hd
    exact hnext d (List.mem_append_left _ hd)
  case enabled =>
    intro c hc
    have hreg := hobeys.nextEnable hc h.low
    rw [hfin, if_pos rfl, hobeys.flag hc, hflags c hc] at hreg
    exact Expr.isHigh_ref hreg
  case started =>
    rw [hobeys.nextDoneInit h.low, hfin, Bool.true_or]
    rfl
  case time =>
    intro u hu
    have hreg := hobeys.nextTime hu h.low
    rw [hfin, if_pos rfl, hm.planned.source_sees h.sees hclock hu] at hreg
    rw [hreg, Snapshot.next, hu]
  case fired =>
    intro o ho hskips
    rw [hnext o (List.mem_append_right _ ho), hskips]
  case sent =>
    intro o ho
    have hdata : o ∈ t.plan.interface.data := List.mem_append_right _ ho
    rw [h.sent_append hm hdisjoint hlocal ho, hx.sent o ho, hnext o hdata, Bool.and_not_self,
      hobeys.transfers_eq hdata hfin, hobeys.fired_eq hdata, Snapshot.next]
    cases hfired : o.isFired.isHigh st with
    | true => cases hskips : x.skips o <;> simp [hskips]
    | false => simp [hx.takes_part ho hfired]

end Continues

namespace Module.Modelled

variable {m : Module} {a : Analysis} {host : HostSignals} {config : Config} {t : TokenModel} {L : TargetLogic S}
  {tokens : String → Nat → Signal} {s : S} {st : Valuation} {rs : List Valuation}

/-- A run is in the epoch that the number of its finishing cycles says. -/
theorem tracks_run (h : m.Modelled a host config t) (hdisjoint : a.PortsDisjoint m.name)
    (hlocal : L.Local t.plan (a.connectivity m.name)) (hrun : t.TargetRun host L s tokens st rs) :
    Tracks t.plan L tokens s (.ofEpoch t.plan L tokens s (rs.countP t.plan.finishing.isHigh))
      (stateAfter t.protocol host.clock st rs) rs := by
  induction hrun with
  | start hst => exact h.tracks_afterReset hst
  | @cycle rs r _ hfollows ih =>
    have hnext := hfollows.continues ih
    rw [stateAfter_append, List.countP_append, List.countP_singleton]
    cases hfin : t.plan.finishing.isHigh r with
    | false => exact hnext.quiet h hdisjoint hlocal hfin
    | true => exact hnext.finishing h hdisjoint hlocal hfin

end Module.Modelled

namespace Snapshot

variable {p : Plan} {L : TargetLogic S} {tokens : String → Nat → Signal} {s : S} {o : DataChannel}

theorem sent_isPrefix {j k : Nat} (h : j ≤ k) :
    (ofEpoch p L tokens s j).sent o <+: (ofEpoch p L tokens s k).sent o := by
  induction h with
  | refl => exact List.prefix_rfl
  | step _ ih => exact ih.trans (List.prefix_append ..)

end Snapshot

theorem Tracks.sent_isPrefix {p : Plan} {L : TargetLogic S} {tokens : String → Nat → Signal} {s : S} {x : Snapshot S}
    {st : Valuation} {rs : List Valuation} {o : DataChannel} (h : Tracks p L tokens s x st rs)
    (ho : o ∈ p.interface.outputs) : o.sent rs <+: (x.next p L tokens).sent o := by
  rw [h.sent o ho, Snapshot.next]
  cases o.isFired.isHigh st <;> cases hskips : x.skips o <;> simp [hskips]

/-- Latency insensitivity: of two runs around the same target, with the same streams of tokens, one has sent on every
output a beginning of what the other has sent, times included, whenever tokens come in and outputs are taken. -/
theorem Module.sent_isPrefix_or_isPrefix {m : Module} {a : Analysis} {host : HostSignals} {config : Config}
    {t : TokenModel} (h : (m.tokenModel a host config).outcome = .ok t) (hdisjoint : a.PortsDisjoint m.name)
    {L : TargetLogic S} (hlocal : L.Local t.plan (a.connectivity m.name)) {s : S} {tokens : String → Nat → Signal}
    {st₁ st₂ : Valuation} {rs₁ rs₂ : List Valuation} (hrun₁ : t.TargetRun host L s tokens st₁ rs₁)
    (hrun₂ : t.TargetRun host L s tokens st₂ rs₂) :
    ∀ o ∈ t.plan.interface.outputs, o.sent rs₁ <+: o.sent rs₂ ∨ o.sent rs₂ <+: o.sent rs₁ := by
  intro o ho
  have hm := tokenModel_ok h
  -- both have sent a beginning of what the later of the two epochs has sent at its end
  have hsent : ∀ {st rs k}, t.TargetRun host L s tokens st rs → rs.countP t.plan.finishing.isHigh < k →
      o.sent rs <+: (Snapshot.ofEpoch t.plan L tokens s k).sent o := by
    intro st rs k hrun hk
    exact ((hm.tracks_run hdisjoint hlocal hrun).sent_isPrefix ho).trans (Snapshot.sent_isPrefix hk)
  let epoch₁ := rs₁.countP t.plan.finishing.isHigh
  let epoch₂ := rs₂.countP t.plan.finishing.isHigh
  have hlt₁ : epoch₁ < (max epoch₁ epoch₂).succ := Nat.lt_succ_of_le (Nat.le_max_left ..)
  have hlt₂ : epoch₂ < (max epoch₁ epoch₂).succ := Nat.lt_succ_of_le (Nat.le_max_right ..)
  exact List.prefix_or_prefix_of_prefix (hsent hrun₁ hlt₁) (hsent hrun₂ hlt₂)

/-! ### The sampler, early and late -/

namespace Demo.Sampler

/-- The logic of the sampler, with the counter and the last sample as its state. -/
def logic : TargetLogic (Nat × Nat) where
  output port s _ := fun _ => if port = "count" then s.1 else s.2
  next s values clocks :=
    let cleared := values "in_reset" [] = 1
    (if "clock_fast" ∈ clocks then if cleared then 0 else (s.1 + values "in_step" []) % 256 else s.1,
      if "clock_slow" ∈ clocks then if cleared then 0 else s.1 else s.2)

/-- Streams in which the fast clock has a phase for each token and the slow clock for every second, and the step grows.
-/
def streams (_port : String) (k : Nat) : Signal
  | ["reset"] => 0
  | ["step"] => k
  | ["data", "slow"] => k % 2
  | ["time"] => 10 * k
  | _ => 1

/-- In one run the sampler has its tokens at once, in the other a cycle late. Either way an epoch ends, and both outputs
have sent the same token. -/
theorem sent_late_eq_sent : ∃ t st₁ st₂ r r₁ r₂,
    (sampler.tokenModel analysis (.ofConfig {}) {}).outcome = .ok t ∧ analysis.PortsDisjoint sampler.name ∧
      logic.Local t.plan (analysis.connectivity sampler.name) ∧
      t.TargetRun (.ofConfig {}) logic (3, 2) streams st₁ [r] ∧
      t.TargetRun (.ofConfig {}) logic (3, 2) streams st₂ [r₁, r₂] ∧
      t.plan.finishing.isHigh r = true ∧ t.plan.finishing.isHigh r₁ = false ∧ t.plan.finishing.isHigh r₂ = true ∧
      t.plan.interface.outputs.map (·.name) = ["count", "sample"] ∧
      ∀ o ∈ t.plan.interface.outputs, (o.sent [r]).length = 1 ∧ o.sent [r] = o.sent [r₁, r₂] := by
  obtain ⟨t, ht, hin, hout⟩ := exists_tokenModel
  have hm := Module.tokenModel_ok ht
  have hdisjoint : analysis.PortsDisjoint sampler.name := by
    unfold Analysis.PortsDisjoint
    decide +kernel
  have hlocal : logic.Local t.plan (analysis.connectivity sampler.name) := fun _ _ _ _ _ _ _ _ => rfl
  have hidle : (HostSignals.ofConfig {}).reset.isHigh (fun _ _ => 0) = false := rfl
  have heager : (HostSignals.ofConfig {}).reset.isHigh (Config.eager {}) = false := Config.reset_eager
  obtain ⟨st₁, rs₁, hrun₁, hpaces₁⟩ := hm.exists_targetRun logic (3, 2) streams (List.forall_mem_singleton.2 heager)
  obtain ⟨st₂, rs₂, hrun₂, hpaces₂⟩ := hm.exists_targetRun logic (3, 2) streams
    (List.forall_mem_cons.2 ⟨hidle, List.forall_mem_singleton.2 heager⟩)
  obtain _ | ⟨hr, _ | _⟩ := hpaces₁
  obtain _ | ⟨hr₁, _ | ⟨hr₂, _ | _⟩⟩ := hpaces₂
  next r r₁ r₂ =>
  have hfin : t.plan.finishing.isHigh r = true := hm.finishing_eager hrun₁.run.cycles.1 hr
  have hfin₂ : t.plan.finishing.isHigh r₂ = true := hm.finishing_eager hrun₂.run.cycles.2.1 hr₂
  have hquiet : t.plan.finishing.isHigh r₁ = false := by
    -- the first token is not there yet
    obtain ⟨d, hd, -⟩ := List.map_eq_singleton_iff.1 hin
    have hmem : d ∈ t.plan.interface.inputs := hd ▸ List.mem_singleton_self d
    have hvalid : d.valid.isHigh r₁ = false := Expr.isHigh_congr (hr₁.valid hmem)
    refine Bool.eq_false_iff.2 fun hdone => ?_
    rw [((hm.obeys hrun₂.run.cycles.1).done_of_finishing hdone).1 d hmem] at hvalid
    cases hvalid
  -- in its first epoch an output sends one token
  have hlength : ∀ {st} init {last}, t.Run (.ofConfig {}) st (init ++ [last]) →
      (∀ r ∈ init, t.plan.finishing.isHigh r = false) →
      t.plan.finishing.isHigh last = true → ∀ o ∈ t.plan.interface.outputs, (o.sent (init ++ [last])).length = 1 := by
    intro st init last hrun hinit hlast o ho
    have hdata : o ∈ t.plan.interface.data := List.mem_append_right _ ho
    rw [DataChannel.length_sent, hm.count_epoch hdata ⟨hrun.cycles, hrun.low, hinit, hlast⟩,
      hm.fired_afterReset hdata hrun.start]
    rfl
  refine ⟨t, st₁, st₂, r, r₁, r₂, ht, hdisjoint, hlocal, hrun₁, hrun₂, hfin, hquiet, hfin₂, hout, fun o ho => ?_⟩
  have hone : (o.sent [r]).length = 1 := hlength [] hrun₁.run (by simp) hfin o ho
  have hone₂ : (o.sent [r₁, r₂]).length = 1 := hlength [r₁] hrun₂.run (by simpa using hquiet) hfin₂ o ho
  refine ⟨hone, ?_⟩
  rcases Module.sent_isPrefix_or_isPrefix ht hdisjoint hlocal hrun₁ hrun₂ o ho with hbegins | hbegins
  · exact hbegins.eq_of_length (hone.trans hone₂.symm)
  · exact (hbegins.eq_of_length (hone₂.trans hone.symm)).symm

end Demo.Sampler

end TokenCircuit
