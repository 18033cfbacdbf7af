import TokenCircuit.Proofs.Settling

/-!
# Epochs

An epoch is a stretch of host cycles of which the last one, and no other, is finishing. A channel moves at most one
token in an epoch: while its fired register is high an input is not ready and an output is not valid, and the transfer
itself sets the register. The finishing cycle makes up what is missing, since it waits for every output and takes every
input that has not fired. So a channel that starts an epoch unfired moves exactly one token in it, and a channel that
starts it fired moves none.
-/

namespace TokenCircuit

/-! ### Cutting a run -/

section Cutting

variable {α : Type} {ends : α → Bool} {rs : List α}

/-- The completed epochs of a run, each with the cycle that ends it, and the cycles after the last of them. -/
def epochs (ends : α → Bool) : List α → List (List α) × List α
  | [] => ([], [])
  | r :: rs =>
    if ends r then ([r] :: (epochs ends rs).1, (epochs ends rs).2)
    else
      match (epochs ends rs).1 with
      | [] => ([], r :: (epochs ends rs).2)
      | e :: done => ((r :: e) :: done, (epochs ends rs).2)

theorem flatten_epochs : (epochs ends rs).1.flatten ++ (epochs ends rs).2 = rs := by
  induction rs with
  | nil => rfl
  | cons r rs ih =>
    rw [epochs]
    split
    · simpa using ih
    · split
      · next hnil => simpa [hnil] using ih
      · next hcons => simpa [hcons] using ih

theorem mem_of_mem_epochs {r : α} (hr : r ∈ (epochs ends rs).1.flatten ∨ r ∈ (epochs ends rs).2) : r ∈ rs := by
  have hmem := List.mem_append.2 hr
  rwa [flatten_epochs] at hmem

/-- A completed epoch ends with its only finishing cycle. -/
theorem exists_of_mem_epochs {e : List α} (he : e ∈ (epochs ends rs).1) :
    ∃ init last, e = init ++ [last] ∧ (∀ r ∈ init, ends r = false) ∧ ends last = true := by
  induction rs generalizing e with
  | nil => cases he
  | cons r rs ih =>
    rw [epochs] at he
    split at he
    · next hr =>
      rcases List.mem_cons.1 he with rfl | he
      · exact ⟨[], r, rfl, by simp, hr⟩
      · exact ih he
    · next hr =>
      split at he
      · cases he
      · next e' done hcons =>
        rcases List.mem_cons.1 he with rfl | he
        · obtain ⟨init, last, rfl, hinit, hlast⟩ := ih (hcons ▸ List.mem_cons_self ..)
          refine ⟨r :: init, last, rfl, ?_, hlast⟩
          rintro x (_ | ⟨_, hx⟩)
          · simpa using hr
          · exact hinit x hx
        · exact ih (hcons ▸ List.mem_cons_of_mem _ he)

theorem ends_rest {r : α} (hr : r ∈ (epochs ends rs).2) : ends r = false := by
  induction rs with
  | nil => cases hr
  | cons x rs ih =>
    rw [epochs] at hr
    split at hr
    · exact ih hr
    · next hx =>
      split at hr
      · rcases List.mem_cons.1 hr with rfl | hr
        · simpa using hx
        · exact ih hr
      · exact ih hr

end Cutting

section Runs

variable {ss : List Stmt} {clock : Expr} {st : Valuation} {rs : List Valuation} {ends : Valuation → Bool} {k : Nat}
  {e : List Valuation}

/-- The state in which the epoch of index `k` starts. -/
def epochStart (ss : List Stmt) (clock : Expr) (ends : Valuation → Bool) (st : Valuation) (rs : List Valuation)
    (k : Nat) : Valuation :=
  stateAfter ss clock st ((epochs ends rs).1.take k).flatten

/-- An epoch of a run is a run of its own, from the state in which it starts to the one in which the next one does. -/
theorem run_of_epoch (hrun : IsRun ss clock st rs) (he : (epochs ends rs).1[k]? = some e) :
    IsRun ss clock (epochStart ss clock ends st rs k) e ∧
      epochStart ss clock ends st rs (k + 1) = stateAfter ss clock (epochStart ss clock ends st rs k) e := by
  have htake : (epochs ends rs).1.take (k + 1) = (epochs ends rs).1.take k ++ [e] := by
    rw [List.take_add_one, he, Option.toList_some]
  have hcut : rs = ((epochs ends rs).1.take k).flatten ++
      (e ++ (((epochs ends rs).1.drop (k + 1)).flatten ++ (epochs ends rs).2)) := by
    calc rs = (epochs ends rs).1.flatten ++ (epochs ends rs).2 := flatten_epochs.symm
      _ = ((epochs ends rs).1.take (k + 1) ++ (epochs ends rs).1.drop (k + 1)).flatten ++ (epochs ends rs).2 := by
        rw [List.take_append_drop]
      _ = _ := by simp [htake]
  constructor
  · rw [hcut, isRun_append, isRun_append] at hrun
    exact hrun.2.1
  · rw [epochStart, htake, List.flatten_append, stateAfter_append, epochStart]
    simp

theorem run_of_rest (hrun : IsRun ss clock st rs) :
    IsRun ss clock (epochStart ss clock ends st rs (epochs ends rs).1.length) (epochs ends rs).2 := by
  have hcut : IsRun ss clock st ((epochs ends rs).1.flatten ++ (epochs ends rs).2) := by
    rw [flatten_epochs]
    exact hrun
  rw [epochStart, List.take_length]
  exact (isRun_append.1 hcut).2

end Runs

/-! ### Transfers -/

/-- The clock channel hands over a token in the cycle. -/
def PortGroup.transfers (g : PortGroup) (r : Valuation) : Bool :=
  (Handshake.valid (sinkName g.name)).isHigh r && (Handshake.ready (sinkName g.name)).isHigh r

namespace Plan.Obeys

variable {p : Plan} {host : HostSignals} {g : Connectivity} {st r st' : Valuation} {d : DataChannel}

theorem fired_eq (h : p.Obeys host g st r st') (hd : d ∈ p.interface.data) : d.isFired.isHigh r = d.isFired.isHigh st :=
  Expr.isHigh_ref ((h.state (fired_mem_parts.2 hd) rfl).trans Expr.value_ref.symm)

theorem done_of_finishing (h : p.Obeys host g st r st') (hfin : p.finishing.isHigh r = true) :
    (∀ d ∈ p.interface.inputs, d.valid.isHigh r = true) ∧
      ∀ d ∈ p.interface.outputs, (d.isFired.isHigh r || d.transfers r) = true := by
  rw [h.finishing, Bool.and_eq_true] at hfin
  have hdone := hfin.1
  rw [dataDone, Expr.isHigh_conj, List.all_append, Bool.and_eq_true, List.all_map, List.all_map] at hdone
  refine ⟨List.all_eq_true.1 hdone.2, fun d hd => ?_⟩
  have := List.all_eq_true.1 hdone.1 d hd
  simpa [DataChannel.firedOrFiring] using this

theorem not_transfers (h : p.Obeys host g st r st') (hd : d ∈ p.interface.data) (hfired : d.isFired.isHigh r = true) :
    d.transfers r = false := by
  rw [DataChannel.transfers]
  rcases List.mem_append.1 hd with hd | hd
  · simp [h.accept hd, hfired]
  · simp [h.offer hd, hfired]

/-- In a finishing cycle exactly those channels fire that have not fired yet. -/
theorem transfers_eq (h : p.Obeys host g st r st') (hd : d ∈ p.interface.data) (hfin : p.finishing.isHigh r = true) :
    d.transfers r = !d.isFired.isHigh r := by
  obtain ⟨hinputs, houtputs⟩ := h.done_of_finishing hfin
  rcases List.mem_append.1 hd with hin | hout
  · simp [DataChannel.transfers, h.accept hin, hinputs d hin, hfin]
  · cases hfired : d.isFired.isHigh r with
    | true => exact h.not_transfers hd hfired
    | false => simpa [hfired] using houtputs d hout

/-- The clock channel hands over its token exactly in the finishing cycles. -/
theorem clock_transfers (h : p.Obeys host g st r st') {group : PortGroup}
    (hclock : p.interface.clock = .channel group) : group.transfers r = p.finishing.isHigh r := by
  rw [PortGroup.transfers, h.clockReady (hclock ▸ rfl), h.finishing, hclock, Bool.and_comm]
  rfl

/-- In any other cycle the fired register counts the transfers. -/
theorem transfers_add_fired (h : p.Obeys host g st r st') (hd : d ∈ p.interface.data)
    (hlow : host.reset.isHigh r = false) (hfin : p.finishing.isHigh r = false) :
    (d.transfers r).toNat + (d.isFired.isHigh st).toNat = (d.isFired.isHigh st').toNat := by
  rw [h.nextFired hd hlow, hfin, ← h.fired_eq hd]
  cases hfired : d.isFired.isHigh r with
  | true => simp [h.not_transfers hd hfired]
  | false => simp

end Plan.Obeys

/-- An epoch of a run, from the state `st`. -/
structure TokenModel.Epoch (t : TokenModel) (host : HostSignals) (st : Valuation) (init : List Valuation)
    (last : Valuation) : Prop where
  cycles : IsRun t.protocol host.clock st (init ++ [last])
  low : ∀ r ∈ init ++ [last], host.reset.isHigh r = false
  quiet : ∀ r ∈ init, t.plan.finishing.isHigh r = false
  finishes : t.plan.finishing.isHigh last = true

theorem TokenModel.Run.epoch {t : TokenModel} {host : HostSignals} {st : Valuation} {rs e : List Valuation} {k : Nat}
    (h : t.Run host st rs) (he : (epochs t.plan.finishing.isHigh rs).1[k]? = some e) :
    ∃ init last, e = init ++ [last] ∧
      t.Epoch host (epochStart t.protocol host.clock t.plan.finishing.isHigh st rs k) init last ∧
      epochStart t.protocol host.clock t.plan.finishing.isHigh st rs (k + 1) =
        stateAfter t.protocol host.clock (epochStart t.protocol host.clock t.plan.finishing.isHigh st rs k) e := by
  obtain ⟨init, last, rfl, hquiet, hfinishes⟩ := exists_of_mem_epochs (List.mem_of_getElem? he)
  obtain ⟨hcycles, hnext⟩ := run_of_epoch h.cycles he
  have hmem : ∀ r ∈ init ++ [last], r ∈ (epochs t.plan.finishing.isHigh rs).1.flatten :=
    fun r hr => List.mem_flatten.2 ⟨_, List.mem_of_getElem? he, hr⟩
  exact ⟨init, last, rfl, ⟨hcycles, fun r hr => h.low r (mem_of_mem_epochs (.inl (hmem r hr))), hquiet, hfinishes⟩,
    hnext⟩

namespace Module.Modelled

variable {m : Module} {a : Analysis} {host : HostSignals} {config : Config} {t : TokenModel} {st last : Valuation}
  {rs init : List Valuation} {d : DataChannel}

/-- As long as no cycle is finishing, the fired register counts the transfers. -/
theorem count_transfers (h : m.Modelled a host config t) (hd : d ∈ t.plan.interface.data)
    (hrun : IsRun t.protocol host.clock st rs) (hlow : ∀ r ∈ rs, host.reset.isHigh r = false)
    (hfin : ∀ r ∈ rs, t.plan.finishing.isHigh r = false) :
    rs.countP d.transfers + (d.isFired.isHigh st).toNat =
      (d.isFired.isHigh (stateAfter t.protocol host.clock st rs)).toNat := by
  induction rs generalizing st with
  | nil => simp [stateAfter]
  | cons r rs ih =>
    have hstep := (h.obeys hrun.1).transfers_add_fired hd (hlow r (List.mem_cons_self ..))
      (hfin r (List.mem_cons_self ..))
    have hrest := ih hrun.2 (fun x hx => hlow x (List.mem_cons_of_mem _ hx))
      (fun x hx => hfin x (List.mem_cons_of_mem _ hx))
    have hhead : (r :: rs).countP d.transfers = rs.countP d.transfers + (d.transfers r).toNat := by
      rw [List.countP_cons]
      cases d.transfers r <;> rfl
    rw [stateAfter, ← hrest, ← hstep, hhead]
    omega

theorem count_unfinished (h : m.Modelled a host config t) (hd : d ∈ t.plan.interface.data)
    (hrun : IsRun t.protocol host.clock st rs) (hlow : ∀ r ∈ rs, host.reset.isHigh r = false)
    (hfin : ∀ r ∈ rs, t.plan.finishing.isHigh r = false) :
    rs.countP d.transfers ≤ if d.isFired.isHigh st then 0 else 1 := by
  have hcount := h.count_transfers hd hrun hlow hfin
  have hbound := Bool.toNat_le (d.isFired.isHigh (stateAfter t.protocol host.clock st rs))
  cases hfired : d.isFired.isHigh st with
  | true =>
    rw [hfired, Bool.toNat_true] at hcount
    rw [if_pos rfl]
    omega
  | false =>
    rw [hfired, Bool.toNat_false] at hcount
    rw [if_neg Bool.false_ne_true]
    omega

/-- In a completed epoch a channel moves a token exactly if it starts unfired. -/
theorem count_epoch (h : m.Modelled a host config t) (hd : d ∈ t.plan.interface.data) (he : t.Epoch host st init last) :
    (init ++ [last]).countP d.transfers = if d.isFired.isHigh st then 0 else 1 := by
  obtain ⟨hquiet, hs, -⟩ := isRun_append.1 he.cycles
  -- the fired register knows of a transfer before the last cycle, and the last cycle makes up for a missing one
  have hcount := h.count_transfers hd hquiet (fun r hr => he.low r (List.mem_append_left _ hr)) he.quiet
  have hmissing := (h.obeys hs).transfers_eq hd he.finishes
  rw [(h.obeys hs).fired_eq hd] at hmissing
  rw [List.countP_append, List.countP_singleton, hmissing]
  revert hcount
  cases d.isFired.isHigh st <;> cases d.isFired.isHigh (stateAfter t.protocol host.clock st init) <;> simp

theorem fired_afterReset (h : m.Modelled a host config t) (hd : d ∈ t.plan.interface.data)
    (hst : AfterReset t.protocol host.clock host.reset st) : d.isFired.isHigh st = false := by
  obtain ⟨r, hr⟩ := h.value_afterReset hst (Plan.fired_mem_parts.2 hd) rfl
  exact (Expr.isHigh_ref hr).trans Expr.isHigh_bit

theorem fired_epoch (h : m.Modelled a host config t) (hd : d ∈ t.plan.interface.data) (he : t.Epoch host st init last) :
    d.isFired.isHigh (stateAfter t.protocol host.clock st (init ++ [last])) = !d.enable.isHigh last := by
  obtain ⟨-, hs, -⟩ := isRun_append.1 he.cycles
  have hnext := (h.obeys hs).nextFired hd (he.low last (List.mem_append_right _ (List.mem_singleton_self last)))
  rw [he.finishes, if_pos rfl] at hnext
  rw [stateAfter_append]
  exact hnext

theorem clockFlag_epoch (h : m.Modelled a host config t) {c : ClockDomain} (hc : c ∈ t.plan.domains.all)
    (he : t.Epoch host st init last) : c.clockFlag.isHigh last = c.flagValue.isHigh last :=
  Expr.isHigh_ref ((h.obeys (isRun_append.1 he.cycles).2.1).flag hc)

/-- The cycle that ends an epoch takes a clock token. -/
theorem clock_epoch (h : m.Modelled a host config t) {g : PortGroup} (hclock : t.plan.interface.clock = .channel g)
    (he : t.Epoch host st init last) :
    (Handshake.valid (sinkName g.name)).isHigh last = true ∧
      (Handshake.ready (sinkName g.name)).isHigh last = true := by
  have htransfers := (h.obeys (isRun_append.1 he.cycles).2.1).clock_transfers hclock
  rw [he.finishes] at htransfers
  exact Bool.and_eq_true_iff.1 htransfers

end Module.Modelled

namespace Module.Planned

variable {m : Module} {a : Analysis} {config : Config} {p : Plan} {c : ClockDomain} {g : PortGroup}

theorem channelEnable_of_virtual (h : m.Planned a config p) (hc : c ∈ p.domains.all)
    (hclock : p.interface.clock.isVirtual = true) (direction : Direction) : c.channelEnable direction = .bit true := by
  have hvirtual : c.isVirtual = true := (h.domain_spec hc).1.trans hclock
  cases direction <;> simp [ClockDomain.channelEnable, ClockDomain.highPhase, ClockDomain.lowPhase, hvirtual]

theorem channelEnable_of_channel (h : m.Planned a config p) (hc : c ∈ p.domains.all)
    (hclock : p.interface.clock = .channel g) :
    c.channelEnable .input = c.clockFlag ∧ c.channelEnable .output = c.clockFlag.not ∧
      (Channel.clock (.channel g)).payload c.clock = .ok c.flagValue := by
  obtain ⟨hvirtual, hvalue⟩ := h.domain_spec hc
  rw [hclock] at hvirtual hvalue
  have hvirtual : c.isVirtual = false := hvirtual
  exact ⟨by simp [ClockDomain.channelEnable, ClockDomain.highPhase, hvirtual],
    by simp [ClockDomain.channelEnable, ClockDomain.lowPhase, hvirtual], hvalue⟩

end Module.Planned

/-- A data channel that is unfired when an epoch starts moves exactly one token in it, and any other channel none. All
channels are unfired at first; later an input is when the flag of its clock was high in the clock token that ended the
epoch before, and an output when it was low. With a virtual clock all channels always are. -/
theorem Module.one_transfer_per_epoch {m : Module} {a : Analysis} {config : Config} {t : TokenModel}
    (h : (m.tokenModel a (.ofConfig config) config).outcome = .ok t) {st : Valuation} {rs : List Valuation}
    (hrun : t.Run (.ofConfig config) st rs) :
    let cut := epochs t.plan.finishing.isHigh rs
    let start := epochStart t.protocol (HostSignals.ofConfig config).clock t.plan.finishing.isHigh st rs
    (∀ d ∈ t.plan.interface.data,
      d.isFired.isHigh (start 0) = false ∧
      (∀ k e, cut.1[k]? = some e → e.countP d.transfers = if d.isFired.isHigh (start k) then 0 else 1) ∧
      cut.2.countP d.transfers ≤ if d.isFired.isHigh (start cut.1.length) then 0 else 1) ∧
    ∀ k e last, cut.1[k]? = some e → e.getLast? = some last →
      (∀ clock, t.plan.interface.clock = .virtual clock →
        ∀ d ∈ t.plan.interface.data, d.isFired.isHigh (start (k + 1)) = false) ∧
      ∀ g, t.plan.interface.clock = .channel g →
        (Handshake.valid (sinkName g.name)).isHigh last = true ∧
        (Handshake.ready (sinkName g.name)).isHigh last = true ∧
        (∀ d ∈ t.plan.interface.inputs, ∃ c flag, t.plan.Resolves m a (a.inputs m.name) d c ∧
          (Channel.clock (.channel g)).payload c.clock = .ok flag ∧
          d.isFired.isHigh (start (k + 1)) = !flag.isHigh last) ∧
        ∀ d ∈ t.plan.interface.outputs, ∃ c flag, t.plan.Resolves m a (a.outputs m.name) d c ∧
          (Channel.clock (.channel g)).payload c.clock = .ok flag ∧
          d.isFired.isHigh (start (k + 1)) = flag.isHigh last := by
  intro cut start
  have hm := tokenModel_ok h
  constructor
  · intro d hd
    refine ⟨hm.fired_afterReset hd hrun.start, ?_, ?_⟩
    · intro k e he
      obtain ⟨init, last, rfl, hepoch, -⟩ := hrun.epoch he
      exact hm.count_epoch hd hepoch
    · exact hm.count_unfinished hd (run_of_rest hrun.cycles) (fun r hr => hrun.low r (mem_of_mem_epochs (.inr hr)))
        fun r hr => ends_rest hr
  · intro k e last he hlast
    obtain ⟨init, last', rfl, hepoch, hstart⟩ := hrun.epoch he
    obtain rfl : last' = last := by simpa using hlast
    have hfired : ∀ d ∈ t.plan.interface.data, d.isFired.isHigh (start (k + 1)) = !d.enable.isHigh last' := by
      intro d hd
      exact (congrArg d.isFired.isHigh hstart).trans (hm.fired_epoch hd hepoch)
    constructor
    · intro clock hclock d hd
      obtain ⟨c, hc, direction, henable⟩ := hm.planned.enable_data hd
      rw [hfired d hd, henable, hm.planned.channelEnable_of_virtual hc (hclock ▸ rfl), Expr.isHigh_bit]
      rfl
    · intro g hclock
      obtain ⟨hvalid, hready⟩ := hm.clock_epoch hclock hepoch
      refine ⟨hvalid, hready, ?_, ?_⟩
      · intro d hd
        obtain ⟨c, hresolves, henable⟩ := hm.planned.resolves_input hd
        obtain ⟨hhigh, -, hflag⟩ := hm.planned.channelEnable_of_channel hresolves.mem_all hclock
        refine ⟨c, c.flagValue, hresolves, hflag, ?_⟩
        rw [hfired d (List.mem_append_left _ hd), henable, hhigh, hm.clockFlag_epoch hresolves.mem_all hepoch]
      · intro d hd
        obtain ⟨c, hresolves, henable⟩ := hm.planned.resolves_output hd
        obtain ⟨-, hlow, hflag⟩ := hm.planned.channelEnable_of_channel hresolves.mem_all hclock
        refine ⟨c, c.flagValue, hresolves, hflag, ?_⟩
        rw [hfired d (List.mem_append_right _ hd), henable, hlow, Expr.isHigh_not, Bool.not_not,
          hm.clockFlag_epoch hresolves.mem_all hepoch]

/-- The sampler has a run that consists of one epoch; all three channels move a token in it. -/
theorem Demo.Sampler.one_transfer_each : ∃ t st r,
    (sampler.tokenModel analysis (.ofConfig {}) {}).outcome = .ok t ∧ t.Run (.ofConfig {}) st [r] ∧
      t.plan.interface.data.map (·.name) = ["in", "count", "sample"] ∧
      epochs t.plan.finishing.isHigh [r] = ([[r]], []) ∧ ∀ d ∈ t.plan.interface.data, [r].countP d.transfers = 1 := by
  obtain ⟨t, ht, hin, hout⟩ := exists_tokenModel
  obtain ⟨st, rs, hrun, hlength, hfin⟩ := (Module.tokenModel_ok ht).exists_eager_run 1
  obtain ⟨r, rfl⟩ := List.length_eq_one_iff.1 hlength
  have hcut : epochs t.plan.finishing.isHigh [r] = ([[r]], []) := by simp [epochs, hfin]
  refine ⟨t, st, r, ht, hrun, by simp [Interface.data, hin, hout], hcut, fun d hd => ?_⟩
  obtain ⟨hfirst, hcount, -⟩ := (Module.one_transfer_per_epoch ht hrun).1 d hd
  rw [hcount 0 [r] (by rw [hcut]; rfl), hfirst]
  rfl

end TokenCircuit
