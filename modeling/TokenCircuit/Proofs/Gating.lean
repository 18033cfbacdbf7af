import TokenCircuit.Proofs.Epochs

/-!
# Clock gates

The enable register of a domain and the fired registers of its inputs are set by different rules, but to opposite
levels: a finishing cycle sets both from the clock flag, and no other cycle changes either, since an input moves its
token in a finishing cycle only. A gate needs the enable register, the finishing wire and `doneInit`; an input needs
the finishing wire and its own register low. So after initialization the gate of a domain opens exactly in the cycles
in which its inputs move their tokens.
-/

namespace TokenCircuit

namespace Plan

/-- The enable register of a domain is high exactly if its input channels have not fired. -/
def InStep (p : Plan) (m : Module) (a : Analysis) (st : Valuation) : Prop :=
  ∀ d ∈ p.interface.inputs, ∀ c, p.Resolves m a (a.inputs m.name) d c → c.enable.isHigh st = !d.isFired.isHigh st

namespace Obeys

variable {p : Plan} {host : HostSignals} {g : Connectivity} {st r st' : Valuation} {d : DataChannel} {c : ClockDomain}

theorem enable_eq (h : p.Obeys host g st r st') (hc : c ∈ p.domains.all) : c.enable.isHigh r = c.enable.isHigh st :=
  Expr.isHigh_ref ((h.state (enable_mem_parts.2 hc) rfl).trans Expr.value_ref.symm)

theorem doneInit_eq (h : p.Obeys host g st r st') : p.domains.doneInit.isHigh r = p.domains.doneInit.isHigh st :=
  Expr.isHigh_ref ((h.state doneInit_mem_parts rfl).trans Expr.value_ref.symm)

theorem not_transfers_input (h : p.Obeys host g st r st') (hd : d ∈ p.interface.inputs)
    (hfin : p.finishing.isHigh r = false) : d.transfers r = false := by
  simp [DataChannel.transfers, h.accept hd, hfin]

end Obeys

end Plan

namespace Module.Planned

variable {m : Module} {a : Analysis} {config : Config} {p : Plan} {host : HostSignals} {st r st' : Valuation}
  {c : ClockDomain}

theorem highPhase_eq (h : m.Planned a config p) (hobeys : p.Obeys host (a.connectivity m.name) st r st')
    (hc : c ∈ p.domains.all) : (c.channelEnable .input).isHigh r = c.clockFlag.isHigh r := by
  cases hclock : p.interface.clock with
  | channel g => rw [(h.channelEnable_of_channel hc hclock).1]
  | virtual clock =>
    obtain ⟨-, hvalue⟩ := h.domain_spec hc
    rw [hclock] at hvalue
    have hflag : c.clockFlag.isHigh r = (Expr.bit true).isHigh r := by
      rw [Except.ok.inj hvalue]
      exact Expr.isHigh_ref (hobeys.flag hc)
    rw [hflag, h.channelEnable_of_virtual hc (hclock ▸ rfl)]

theorem inStep_step (h : m.Planned a config p) (hobeys : p.Obeys host (a.connectivity m.name) st r st')
    (hlow : host.reset.isHigh r = false) (hst : p.InStep m a st) : p.InStep m a st' := by
  intro d hd c hc
  have hdata : d ∈ p.interface.data := List.mem_append_left _ hd
  have hfired := hobeys.nextFired hdata hlow
  have henable := hobeys.nextEnable hc.mem_all hlow
  cases hfin : p.finishing.isHigh r with
  | true =>
    -- both registers take over the flag
    obtain ⟨c', hc', hphase⟩ := h.resolves_input hd
    rw [hfin, if_pos rfl] at hfired henable
    rw [hc.unique hc'] at henable ⊢
    rw [hfired, hphase, h.highPhase_eq hobeys hc'.mem_all, Bool.not_not]
    exact Expr.isHigh_ref (henable.trans Expr.value_ref.symm)
  | false =>
    -- both registers stay
    rw [hfin, if_neg Bool.false_ne_true] at hfired henable
    rw [hfired, hobeys.not_transfers_input hd hfin, Bool.or_false, hobeys.fired_eq hdata, ← hst d hd c hc,
      ← hobeys.enable_eq hc.mem_all]
    exact Expr.isHigh_ref (henable.trans Expr.value_ref.symm)

end Module.Planned

namespace Module.Modelled

variable {m : Module} {a : Analysis} {host : HostSignals} {config : Config} {t : TokenModel} {st r : Valuation}
  {rs : List Valuation} {c : ClockDomain}

theorem enable_afterReset (h : m.Modelled a host config t) (hc : c ∈ t.plan.domains.all)
    (hst : AfterReset t.protocol host.clock host.reset st) : c.enable.isHigh st = true := by
  obtain ⟨r, hr⟩ := h.value_afterReset hst (Plan.enable_mem_parts.2 hc) rfl
  exact (Expr.isHigh_ref hr).trans Expr.isHigh_bit

theorem inStep_afterReset (h : m.Modelled a host config t) (hst : AfterReset t.protocol host.clock host.reset st) :
    t.plan.InStep m a st := by
  intro d hd c hc
  rw [h.enable_afterReset hc.mem_all hst, h.fired_afterReset (List.mem_append_left _ hd) hst]
  rfl

theorem inStep_run (h : m.Modelled a host config t) (hrun : t.Run host st rs) :
    t.plan.InStep m a (stateAfter t.protocol host.clock st rs) := by
  refine hrun.cycles.invariant (h.inStep_afterReset hrun.start) ?_
  intro st' r hr hs hin
  exact h.planned.inStep_step (h.obeys hs) (hrun.low r hr) hin

theorem doneInit_afterReset (h : m.Modelled a host config t) (hst : AfterReset t.protocol host.clock host.reset st) :
    t.plan.domains.doneInit.isHigh st = false := by
  obtain ⟨r, hr⟩ := h.value_afterReset hst Plan.doneInit_mem_parts rfl
  exact (Expr.isHigh_ref hr).trans Expr.isHigh_bit

theorem doneInit_stateAfter (h : m.Modelled a host config t) (hrun : IsRun t.protocol host.clock st rs)
    (hlow : ∀ r ∈ rs, host.reset.isHigh r = false) :
    t.plan.domains.doneInit.isHigh (stateAfter t.protocol host.clock st rs) =
      (t.plan.domains.doneInit.isHigh st || rs.any t.plan.finishing.isHigh) := by
  induction rs generalizing st with
  | nil => simp [stateAfter]
  | cons r rs ih =>
    have hobeys := h.obeys hrun.1
    rw [stateAfter, ih hrun.2 fun x hx => hlow x (List.mem_cons_of_mem _ hx),
      hobeys.nextDoneInit (hlow r (List.mem_cons_self ..)), hobeys.doneInit_eq, List.any_cons,
      Bool.or_comm (t.plan.finishing.isHigh r), Bool.or_assoc]

/-- After initialization the gate of a domain that has inputs opens exactly when they all move a token. -/
theorem ticks_iff (h : m.Modelled a host config t) (hs : Settled t.protocol st r) (hin : t.plan.InStep m a st)
    (hc : c ∈ t.plan.domains.all) (hlow : host.reset.isHigh r = false)
    (hex : ∃ d ∈ t.plan.interface.inputs, t.plan.Resolves m a (a.inputs m.name) d c) :
    c.ticks r = true ↔ t.plan.domains.doneInit.isHigh r = true ∧
      ∀ d ∈ t.plan.interface.inputs, t.plan.Resolves m a (a.inputs m.name) d c → d.transfers r = true := by
  have hobeys := h.obeys hs
  rw [hobeys.gate hc, hlow, Bool.not_false, Bool.true_and, Bool.and_eq_true, Bool.and_eq_true, hobeys.enable_eq hc]
  constructor
  · rintro ⟨henable, hfin, hdone⟩
    refine ⟨hdone, fun d hd hdc => ?_⟩
    have hdata : d ∈ t.plan.interface.data := List.mem_append_left _ hd
    rw [hobeys.transfers_eq hdata hfin, hobeys.fired_eq hdata, ← hin d hd c hdc]
    exact henable
  · rintro ⟨hdone, hall⟩
    obtain ⟨d, hd, hdc⟩ := hex
    have hmoves := hall d hd hdc
    rw [DataChannel.transfers, hobeys.accept hd, Bool.and_eq_true, Bool.and_eq_true] at hmoves
    obtain ⟨-, hfin, hunfired⟩ := hmoves
    rw [hobeys.fired_eq (List.mem_append_left _ hd), ← hin d hd c hdc] at hunfired
    exact ⟨hunfired, hfin, hdone⟩

end Module.Modelled

/-- A target clock ticks exactly when its inputs are consumed, in every cycle after every run from host reset on. No
clock ticks before the first target cycle is over, nor under host reset. -/
theorem Module.ticks_iff_inputs_consumed {m : Module} {a : Analysis} {config : Config} {t : TokenModel}
    (h : (m.tokenModel a (.ofConfig config) config).outcome = .ok t) {st : Valuation} {rs : List Valuation}
    (hrun : t.Run (.ofConfig config) st rs) :
    let st' := stateAfter t.protocol (HostSignals.ofConfig config).clock st rs
    t.plan.domains.doneInit.isHigh st' = rs.any t.plan.finishing.isHigh ∧
    ∀ c ∈ t.plan.domains.all,
      (∀ d ∈ t.plan.interface.inputs, t.plan.Resolves m a (a.inputs m.name) d c →
        c.enable.isHigh st' = !d.isFired.isHigh st') ∧
      (∀ r, Settled t.protocol st' r → (HostSignals.ofConfig config).reset.isHigh r = false →
        (∃ d ∈ t.plan.interface.inputs, t.plan.Resolves m a (a.inputs m.name) d c) →
        (c.ticks r = true ↔ t.plan.domains.doneInit.isHigh r = true ∧
          ∀ d ∈ t.plan.interface.inputs, t.plan.Resolves m a (a.inputs m.name) d c → d.transfers r = true)) ∧
      (∀ r, Settled t.protocol st' r → (∀ r' ∈ rs, t.plan.finishing.isHigh r' = false) → c.ticks r = false) ∧
      ∀ st₀ r, Settled t.protocol st₀ r → (HostSignals.ofConfig config).reset.isHigh r = true → c.ticks r = false := by
  intro st'
  have hm := tokenModel_ok h
  have hin := hm.inStep_run hrun
  have hdone : t.plan.domains.doneInit.isHigh st' = rs.any t.plan.finishing.isHigh := by
    rw [hm.doneInit_stateAfter hrun.cycles hrun.low, hm.doneInit_afterReset hrun.start, Bool.false_or]
  refine ⟨hdone, fun c hc => ⟨fun d hd hdc => hin d hd c hdc, ?_, ?_, ?_⟩⟩
  · intro r hs hlow hex
    exact hm.ticks_iff hs hin hc hlow hex
  · intro r hs hnone
    have hinit : t.plan.domains.doneInit.isHigh r = false := by
      rw [(hm.obeys hs).doneInit_eq, hdone]
      exact List.any_eq_false.2 fun r' hr' => by simp [hnone r' hr']
    rw [(hm.obeys hs).gate hc, hinit, Bool.and_false, Bool.and_false, Bool.and_false]
  · intro st₀ r hs hreset
    rw [(hm.obeys hs).gate hc, hreset, Bool.not_true, Bool.false_and, Bool.and_false, Bool.and_false]

/-- In the second cycle of a run of the sampler in which its partners are always willing, the clock of its input ticks
exactly if the input moves its token. -/
theorem Demo.Sampler.ticks_iff_input_consumed : ∃ t st r r' d c,
    (sampler.tokenModel analysis (.ofConfig {}) {}).outcome = .ok t ∧ t.Run (.ofConfig {}) st [r, r'] ∧
      t.plan.finishing.isHigh r = true ∧ t.plan.domains.doneInit.isHigh r' = true ∧ t.plan.interface.inputs = [d] ∧
      t.plan.Resolves sampler analysis (analysis.inputs sampler.name) d c ∧
      (c.ticks r' = true ↔ d.transfers r' = true) := by
  obtain ⟨t, ht, hin, -⟩ := exists_tokenModel
  have hm := Module.tokenModel_ok ht
  obtain ⟨st, rs, hrun, hlength, hfin⟩ := hm.exists_eager_run 2
  obtain ⟨r, r', rfl⟩ := List.length_eq_two.1 hlength
  obtain ⟨d, hd⟩ : ∃ d, t.plan.interface.inputs = [d] := by
    obtain ⟨d, hd, -⟩ := List.map_eq_singleton_iff.1 hin
    exact ⟨d, hd⟩
  have hmem : d ∈ t.plan.interface.inputs := hd ▸ List.mem_singleton_self d
  obtain ⟨c, hc, -⟩ := hm.planned.resolves_input hmem
  have hs : Settled t.protocol _ r' := hrun.cycles.2.1
  have hfirst : t.Run (.ofConfig {}) st [r] :=
    ⟨hrun.start, ⟨hrun.cycles.1, trivial⟩, fun x hx => hrun.low x (by simp_all)⟩
  obtain ⟨hdone, hall⟩ := Module.ticks_iff_inputs_consumed ht hfirst
  have hopen : t.plan.domains.doneInit.isHigh r' = true := by
    rw [(hm.obeys hs).doneInit_eq]
    refine hdone.trans ?_
    simp [hfin]
  have hticks := (hall c hc.mem_all).2.1 r' hs (hrun.low r' (by simp)) ⟨d, hmem, hc⟩
  refine ⟨t, st, r, r', d, c, ht, hrun, hfin r (by simp), hopen, hd, hc, hticks.trans ?_⟩
  refine ⟨fun h => h.2 d hmem hc, fun h => ⟨hopen, fun d' hd' _ => ?_⟩⟩
  rw [hd, List.mem_singleton] at hd'
  exact hd' ▸ h

end TokenCircuit
