import TokenCircuit.Proofs.Gating
import Mathlib.Data.List.Induction

/-!
# Clock tokens and time

A clock channel hands over one token per epoch, in the finishing cycle. What the token says outlives it in registers: a
flag per clock domain in the enable registers, and the time of a timestamped token in `simTime`. The two kinds of
registers are set by different statements, a mux and a `when`, but both take over the token in a finishing cycle and
stay as they are in any other. So at every moment of a run they hold the last token that was taken (`Plan.Holds`), and
a timestamped output shows in an epoch the time of the token that ended the epoch before.
-/

namespace TokenCircuit

/-! ### The end of the epoch before -/

section Cutting

variable {α : Type} {ends : α → Bool} {rs e before after : List α} {k : Nat} {r : α}

/-- All epochs in order, with the unfinished one at the end. -/
def allEpochs (ends : α → Bool) (rs : List α) : List (List α) := (epochs ends rs).1 ++ [(epochs ends rs).2]

theorem flatten_allEpochs : (allEpochs ends rs).flatten = rs := by
  rw [allEpochs, List.flatten_append, List.flatten_singleton, flatten_epochs]

/-- No cycle of an epoch is finishing that has another one of the epoch after it. -/
theorem quiet_before (he : e ∈ allEpochs ends rs) (hcut : e = before ++ r :: after) : ∀ x ∈ before, ends x = false := by
  intro x hx
  rcases List.mem_append.1 he with he | he
  · obtain ⟨init, last, rfl, hquiet, -⟩ := exists_of_mem_epochs he
    have hinit : init = before ++ (r :: after).dropLast := by
      have hdrop := congrArg List.dropLast hcut
      rwa [List.dropLast_concat, List.dropLast_append_of_ne_nil (List.cons_ne_nil r after)] at hdrop
    exact hquiet x (hinit ▸ List.mem_append_left _ hx)
  · obtain rfl := List.mem_singleton.1 he
    exact ends_rest (hcut ▸ List.mem_append_left _ hx)

/-- Of completed epochs in a row the last cycle is the last finishing one. -/
theorem getLast?_filter_epochs {es : List (List α)} (h : ∀ e ∈ es, e ∈ (epochs ends rs).1) :
    (es.flatten.filter ends).getLast? = es.flatten.getLast? := by
  rcases List.eq_nil_or_concat es with rfl | ⟨es', e, rfl⟩
  · rfl
  · obtain ⟨init, last, rfl, -, hlast⟩ := exists_of_mem_epochs (h e (by simp))
    simp [hlast]

theorem getLast?_filter_concat :
    ((rs ++ [r]).filter ends).getLast? = if ends r then some r else (rs.filter ends).getLast? := by
  by_cases hr : ends r = true
  · simp [hr]
  · simp [hr, List.filter_append]

/-- Seen from a cycle of an epoch, the last finishing cycle is the one that ended the epoch before. -/
theorem getLast?_filter_before (he : (allEpochs ends rs)[k]? = some e) (hcut : e = before ++ r :: after) :
    (∃ rest, rs = (((epochs ends rs).1.take k).flatten ++ before) ++ r :: rest) ∧
      ((((epochs ends rs).1.take k).flatten ++ before).filter ends).getLast? =
        ((epochs ends rs).1.take k).flatten.getLast? := by
  obtain ⟨hk, hget⟩ := List.getElem?_eq_some_iff.1 he
  have htake : (allEpochs ends rs).take k = (epochs ends rs).1.take k := by
    refine List.take_append_of_le_length ?_
    simpa [allEpochs, Nat.lt_succ_iff] using hk
  constructor
  · refine ⟨after ++ ((allEpochs ends rs).drop (k + 1)).flatten, ?_⟩
    calc rs = ((allEpochs ends rs).take k ++ (allEpochs ends rs).drop k).flatten := by
          rw [List.take_append_drop, flatten_allEpochs]
      _ = _ := by rw [List.drop_eq_getElem_cons hk, hget, htake, hcut]; simp
  · have hquiet : before.filter ends = [] :=
      List.filter_eq_nil_iff.2 fun x hx => by simp [quiet_before (List.mem_of_getElem? he) hcut x hx]
    rw [List.filter_append, hquiet, List.append_nil]
    exact getLast?_filter_epochs fun e he => List.mem_of_mem_take he

end Cutting

/-! ### What the registers hold -/

/-- The registers hold what came in the cycle `last`, or their initial values if there was none. -/
structure Plan.Holds (p : Plan) (st : Valuation) (last : Option Valuation) : Prop where
  enable : ∀ c ∈ p.domains.all, st c.enableReg [] = (last.map fun r => c.flagValue.value r []).getD 1
  time : ∀ t, p.domains.simTime = some t → st t.reg [] = (last.map fun r => t.source.value r []).getD 0

namespace Plan.Obeys

variable {p : Plan} {host : HostSignals} {g : Connectivity} {st r st' : Valuation} {last : Option Valuation}

theorem enableReg_eq (h : p.Obeys host g st r st') {c : ClockDomain} (hc : c ∈ p.domains.all) :
    r c.enableReg = st c.enableReg :=
  h.state (enable_mem_parts.2 hc) rfl

theorem simTime_eq (h : p.Obeys host g st r st') {t : SimTime} (ht : p.domains.simTime = some t) : r t.reg = st t.reg :=
  h.state (simTime_mem_parts.2 ht) rfl

/-- A finishing cycle replaces what the registers hold, and any other cycle keeps it. -/
theorem holds (h : p.Obeys host g st r st') (hlow : host.reset.isHigh r = false) (hst : p.Holds st last) :
    p.Holds st' (if p.finishing.isHigh r then some r else last) := by
  by_cases hfin : p.finishing.isHigh r = true
  · rw [if_pos hfin]
    constructor
    · intro c hc
      rw [h.nextEnable hc hlow, if_pos hfin, h.flag hc]
      rfl
    · intro t ht
      rw [h.nextTime ht hlow, if_pos hfin]
      rfl
  · rw [if_neg hfin]
    constructor
    · intro c hc
      rw [h.nextEnable hc hlow, if_neg hfin, h.enableReg_eq hc]
      exact hst.enable c hc
    · intro t ht
      rw [h.nextTime ht hlow, if_neg hfin, h.simTime_eq ht]
      exact hst.time t ht

end Plan.Obeys

theorem TokenModel.Run.of_append {t : TokenModel} {host : HostSignals} {st : Valuation} {rs rs' : List Valuation}
    (h : t.Run host st (rs ++ rs')) : t.Run host st rs :=
  ⟨h.start, (isRun_append.1 h.cycles).1, fun r hr => h.low r (List.mem_append_left _ hr)⟩

namespace Module.Planned

variable {m : Module} {a : Analysis} {config : Config} {p : Plan} {g : PortGroup}

theorem source_simTime (h : m.Planned a config p) (hclock : p.interface.clock = .channel g) :
    p.domains.simTime.map (·.source) = if g.timestamped then some (Handshake.time (sinkName g.name)) else none := by
  rw [h.domains.time, hclock]
  rfl

theorem simTime_of_clock (h : m.Planned a config p) (hclock : p.interface.clock = .channel g)
    (hg : g.timestamped = true) : ∃ t, p.domains.simTime = some t ∧ t.source = Handshake.time (sinkName g.name) := by
  have hsource := h.source_simTime hclock
  rw [if_pos hg] at hsource
  exact Option.map_eq_some_iff.1 hsource

theorem exists_simTime_of_timestamped (h : m.Planned a config p) {d : DataChannel} (hd : d ∈ p.interface.data)
    (hstamped : d.timestamped = true) :
    ∃ g t, p.interface.clock = .channel g ∧ g.timestamped = true ∧ p.domains.simTime = some t := by
  have hsome : p.domains.simTime.isSome = true := by
    rcases List.mem_append.1 hd with hd | hd
    · obtain ⟨entry, -, hmakes⟩ := exists_mem_left h.inputs hd
      exact hmakes.timeBase hstamped
    · obtain ⟨entry, -, hmakes⟩ := exists_mem_left h.outputs hd
      exact hmakes.timeBase hstamped
  obtain ⟨t, ht⟩ := Option.isSome_iff_exists.1 hsome
  -- only a timestamped channel brings a time
  cases hclock : p.interface.clock with
  | virtual clock =>
    have hnone := h.domains.time
    rw [hclock, ht] at hnone
    cases hnone
  | channel g =>
    have hsource := h.source_simTime hclock
    rw [ht] at hsource
    refine ⟨g, t, rfl, ?_, ht⟩
    by_contra hg
    rw [if_neg hg] at hsource
    cases hsource

end Module.Planned

namespace Module.Modelled

variable {m : Module} {a : Analysis} {host : HostSignals} {config : Config} {t : TokenModel} {st r : Valuation}
  {rs e : List Valuation} {k : Nat} {d : DataChannel} {time : SimTime}

theorem holds_afterReset (h : m.Modelled a host config t) (hst : AfterReset t.protocol host.clock host.reset st) :
    t.plan.Holds st none := by
  constructor
  · intro c hc
    obtain ⟨r, hr⟩ := h.value_afterReset hst (Plan.enable_mem_parts.2 hc) rfl
    exact (congrFun hr []).trans (by simp [Expr.bit, Expr.value_literal])
  · intro time ht
    obtain ⟨r, hr⟩ := h.value_afterReset hst (Plan.simTime_mem_parts.2 ht) rfl
    exact (congrFun hr []).trans (by simp [Expr.value_literal])

/-- After every run the registers hold what the last finishing cycle brought. -/
theorem holds_run (h : m.Modelled a host config t) (hrun : t.Run host st rs) :
    t.plan.Holds (stateAfter t.protocol host.clock st rs) (rs.filter t.plan.finishing.isHigh).getLast? := by
  -- from the end of the run, since the last cycle decides
  induction rs using List.reverseRecOn with
  | nil => exact h.holds_afterReset hrun.start
  | append_singleton rs r ih =>
    have hs : Settled t.protocol (stateAfter t.protocol host.clock st rs) r := (isRun_append.1 hrun.cycles).2.1
    have hstep := (h.obeys hs).holds (hrun.low r (by simp)) (ih hrun.of_append)
    rw [stateAfter_append, getLast?_filter_concat]
    exact hstep

theorem clock_transfers_run (h : m.Modelled a host config t) {g : PortGroup}
    (hclock : t.plan.interface.clock = .channel g) (hrun : t.Run host st rs) :
    ∀ r ∈ rs, g.transfers r = t.plan.finishing.isHigh r := by
  intro r hr
  obtain ⟨st₀, hs⟩ := hrun.cycles.settled hr
  exact (h.obeys hs).clock_transfers hclock

/-- After every run the registers hold the last clock token that was handed over. -/
theorem holds_last_token (h : m.Modelled a host config t) {g : PortGroup} (hclock : t.plan.interface.clock = .channel g)
    (hrun : t.Run host st rs) :
    t.plan.Holds (stateAfter t.protocol host.clock st rs) (rs.filter g.transfers).getLast? := by
  rw [List.filter_congr (h.clock_transfers_run hclock hrun)]
  exact h.holds_run hrun

/-- In the cycles of an epoch the time is that of the cycle that ended the epoch before. -/
theorem simTime_epoch (h : m.Modelled a host config t) (hrun : t.Run host st rs)
    (ht : t.plan.domains.simTime = some time) (he : (allEpochs t.plan.finishing.isHigh rs)[k]? = some e) (hr : r ∈ e) :
    r time.reg [] = (((epochs t.plan.finishing.isHigh rs).1.take k).flatten.getLast?.map
      fun r' => time.source.value r' []).getD 0 := by
  obtain ⟨before, after, hcut⟩ := List.append_of_mem hr
  obtain ⟨⟨rest, hsplit⟩, hlast⟩ := getLast?_filter_before he hcut
  have hhere : t.Run host st (((epochs t.plan.finishing.isHigh rs).1.take k).flatten ++ before ++ r :: rest) := by
    rw [← hsplit]
    exact hrun
  have hs : Settled t.protocol _ r := (isRun_append.1 hhere.cycles).2.1
  rw [(h.obeys hs).simTime_eq ht, ← hlast]
  exact (h.holds_run hhere.of_append).time time ht

theorem stamp_epoch (h : m.Modelled a host config t) (hrun : t.Run host st rs) (ht : t.plan.domains.simTime = some time)
    (hd : d ∈ t.plan.interface.outputs) (hstamped : d.timestamped = true)
    (he : (allEpochs t.plan.finishing.isHigh rs)[k]? = some e) (hr : r ∈ e) :
    (Handshake.time d.hostPort).value r [] = (((epochs t.plan.finishing.isHigh rs).1.take k).flatten.getLast?.map
      fun r' => time.source.value r' []).getD 0 := by
  have hmem : r ∈ (allEpochs t.plan.finishing.isHigh rs).flatten := List.mem_flatten.2 ⟨e, List.mem_of_getElem? he, hr⟩
  rw [flatten_allEpochs] at hmem
  obtain ⟨st₀, hs⟩ := hrun.cycles.settled hmem
  rw [(h.obeys hs).stamp hd hstamped ht]
  exact h.simTime_epoch hrun ht he hr

end Module.Modelled

/-- A clock channel hands over a token exactly in the finishing cycles. After every run the enable register of a domain
is what the flag of the domain's clock was in the last token that was handed over, and 1 before the first. Likewise the
time is that of the last token, and 0 before the first, if the clock channel is timestamped. A timestamped output shows
throughout an epoch the time of the token that ended the epoch before, and there are no timestamped data channels
without a timestamped clock channel. -/
theorem Module.registers_hold_last_clock_token {m : Module} {a : Analysis} {host : HostSignals} {config : Config}
    {t : TokenModel} (h : (m.tokenModel a host config).outcome = .ok t) :
    (∀ d ∈ t.plan.interface.data, d.timestamped = true →
      ∃ g time, t.plan.interface.clock = .channel g ∧ g.timestamped = true ∧ t.plan.domains.simTime = some time) ∧
    ∀ g, t.plan.interface.clock = .channel g → ∀ st rs, t.Run host st rs →
      let last := (rs.filter g.transfers).getLast?
      let st' := stateAfter t.protocol host.clock st rs
      (∀ r ∈ rs, g.transfers r = t.plan.finishing.isHigh r) ∧
      (∀ c ∈ t.plan.domains.all, ∃ flag, (Channel.clock (.channel g)).payload c.clock = .ok flag ∧
        c.enable.value st' [] = (last.map fun r => flag.value r []).getD 1) ∧
      (g.timestamped = true → ∃ time, t.plan.domains.simTime = some time ∧
        (Expr.ref time.reg).value st' [] = (last.map fun r => (Handshake.time (sinkName g.name)).value r []).getD 0) ∧
      ∀ d ∈ t.plan.interface.outputs, d.timestamped = true →
        ∀ k e, (allEpochs t.plan.finishing.isHigh rs)[k]? = some e → ∀ r ∈ e,
          (Handshake.time d.hostPort).value r [] =
            (((epochs t.plan.finishing.isHigh rs).1.take k).flatten.getLast?.map
              fun r' => (Handshake.time (sinkName g.name)).value r' []).getD 0 := by
  have hm := tokenModel_ok h
  refine ⟨fun d hd => hm.planned.exists_simTime_of_timestamped hd, ?_⟩
  intro g hclock st rs hrun last st'
  have hholds : t.plan.Holds st' last := hm.holds_last_token hclock hrun
  refine ⟨hm.clock_transfers_run hclock hrun, ?_, ?_, ?_⟩
  · intro c hc
    refine ⟨c.flagValue, (hm.planned.channelEnable_of_channel hc hclock).2.2, ?_⟩
    rw [ClockDomain.enable, Expr.value_ref]
    exact hholds.enable c hc
  · intro hg
    obtain ⟨time, ht, hsource⟩ := hm.planned.simTime_of_clock hclock hg
    refine ⟨time, ht, ?_⟩
    rw [Expr.value_ref, ← hsource]
    exact hholds.time time ht
  · intro d hd hstamped k e he r hr
    obtain ⟨g', -, hclock', hg, -⟩ := hm.planned.exists_simTime_of_timestamped (List.mem_append_right _ hd) hstamped
    obtain rfl : g = g' := ClockSource.channel.inj (hclock.symm.trans hclock')
    obtain ⟨time, ht, hsource⟩ := hm.planned.simTime_of_clock hclock hg
    rw [← hsource]
    exact hm.stamp_epoch hrun ht hd hstamped he hr

/-- In a run of the sampler in which its partners are always willing, the clocks follow the second token after the
second cycle, and the second cycle shows the time of the first token with the sample. -/
theorem Demo.Sampler.sample_shows_time : ∃ t g st r r' d,
    (sampler.tokenModel analysis (.ofConfig {}) {}).outcome = .ok t ∧ t.plan.interface.clock = .channel g ∧
      t.Run (.ofConfig {}) st [r, r'] ∧ d ∈ t.plan.interface.outputs ∧ d.name = "sample" ∧
      (∀ c ∈ t.plan.domains.all, ∃ flag, (Channel.clock (.channel g)).payload c.clock = .ok flag ∧
        c.enable.value (stateAfter t.protocol (HostSignals.ofConfig {}).clock st [r, r']) [] = flag.value r' []) ∧
      (Handshake.time d.hostPort).value r' [] = (Handshake.time (sinkName g.name)).value r [] := by
  have hfacts : ((sampler.tokenModel analysis (.ofConfig {}) {}).outcome.toOption.map fun t =>
      t.plan.interface.outputs.map fun d => (d.name, d.timestamped)) = some [("count", false), ("sample", true)] := by
    decide +kernel
  obtain ⟨t, ht, houtputs⟩ := exists_ok_of_map hfacts
  obtain ⟨d, hd, hsample⟩ := List.mem_map.1 (houtputs ▸ List.mem_cons_of_mem _ (List.mem_singleton_self _))
  obtain ⟨hname, hstamped⟩ := Prod.mk.inj hsample
  obtain ⟨hbase, hholds⟩ := Module.registers_hold_last_clock_token ht
  obtain ⟨g, -, hclock, -⟩ := hbase d (List.mem_append_right _ hd) hstamped
  obtain ⟨st, rs, hrun, hlength, hfin⟩ := (Module.tokenModel_ok ht).exists_eager_run 2
  obtain ⟨r, r', rfl⟩ := List.length_eq_two.1 hlength
  obtain ⟨htransfers, henable, -, htime⟩ := hholds g hclock st [r, r'] hrun
  have hcut : epochs t.plan.finishing.isHigh [r, r'] = ([[r], [r']], []) := by simp [epochs, hfin]
  refine ⟨t, g, st, r, r', d, ht, hclock, hrun, hd, hname, ?_, ?_⟩
  · simpa [htransfers, hfin] using henable
  · simpa [hcut] using htime d hd hstamped 1 [r'] (by simp [allEpochs, hcut]) r' (by simp)

end TokenCircuit
