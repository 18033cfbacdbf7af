import TokenCircuit.Proofs.Epochs

/-!
# The protocol has one solution

The rules seem to run in a circle: the finishing wire reads what the outputs offer, an output reads the inputs that it
waits for, and an input is accepted by the finishing wire. But an offer reads the valid signals of inputs only, and
those come from the environment. So two settled cycles with the same registers and the same environment agree first on
the offers, then on the finishing wire and then on every other wire (`Module.Planned.wires_eq`). Every input that an
output waits for is itself a conjunct of the finishing wire, so the offers drop out of it: a cycle is finishing when the
clock and all inputs are there and every output has fired or can.
-/

namespace TokenCircuit

namespace Plan

/-- The wires that say when tokens move and clocks tick. -/
def wires (p : Plan) : List Expr :=
  p.finishing :: p.interface.inputs.map (·.ready) ++
    p.interface.clock.group?.toList.map (fun group => Handshake.ready (sinkName group.name)) ++
    p.interface.outputs.map (·.valid) ++ p.domains.all.map fun c => .field (.ref c.buffer) ClockGate.enable

/-- A valuation has the signals that the environment sets: when tokens come and are taken, the clock token and the host
signals. -/
structure Meets (p : Plan) (host : HostSignals) (env r : Valuation) : Prop extends p.Paces env r where
  token : ∀ {group}, p.interface.clock = .channel group → ∀ path,
    r (sinkName group.name) ("bits" :: path) = env (sinkName group.name) ("bits" :: path)
  clock : host.clock.value r = host.clock.value env
  reset : host.reset.value r = host.reset.value env

variable {p : Plan} {host : HostSignals} {g : Connectivity} {st env r st' : Valuation}

theorem Shows.meets (h : p.Shows env r) (hout : p.Outside host) : p.Meets host env r where
  toPaces := h.paces
  token hclock path := h.clock (hclock ▸ rfl) (by decide) path
  clock := h.hostClock hout
  reset := h.hostReset hout

/-- Every wire is the place of a rule that is active in all cycles. -/
theorem exists_rule_of_wire {e : Expr} (he : e ∈ p.wires) :
    ∃ x, (∀ r, x ∈ p.active r) ∧ x.part.init? = none ∧ p.place x = e := by
  simp only [wires, List.cons_append, List.mem_cons, List.mem_append, List.mem_map, Option.mem_toList] at he
  rcases he with rfl | ((⟨d, hd, rfl⟩ | ⟨group, hgroup, rfl⟩) | ⟨d, hd, rfl⟩) | ⟨c, hc, rfl⟩
  · exact ⟨.finishing, fun r => by simp [active], rfl, rfl⟩
  · exact ⟨.accept d, fun r => by simp [active, hd], rfl, rfl⟩
  · exact ⟨.clockReady group, fun r => by simp [active, hgroup], rfl, rfl⟩
  · exact ⟨.offer d, fun r => by simp [active, hd], rfl, rfl⟩
  · exact ⟨.gateEnable c, fun r => by simp [active, hc], rfl, rfl⟩

end Plan

namespace Module.Planned

variable {m : Module} {a : Analysis} {config : Config} {p : Plan} {host : HostSignals} {retained : List Port}
  {st env r r' : Valuation}

theorem alike_of_meets (hs : Settled (p.protocol retained host config) st r)
    (hs' : Settled (p.protocol retained host config) st r') (hr : p.Meets host env r) (hr' : p.Meets host env r') :
    p.Alike host r r' where
  reg hy hinit := by
    rw [Expr.value_ref, Expr.value_ref, state_part hs hy hinit, state_part hs' hy hinit]
  valid hd := (hr.valid hd).trans (hr'.valid hd).symm
  ready hd := (hr.ready hd).trans (hr'.ready hd).symm
  validity := hr.validity.trans hr'.validity.symm
  clock := hr.clock.trans hr'.clock.symm
  reset := hr.reset.trans hr'.reset.symm

/-- Registers and environment determine the wires. -/
theorem wires_eq (h : m.Planned a config p) (hs : Settled (p.protocol retained host config) st r)
    (hs' : Settled (p.protocol retained host config) st r') (hr : p.Meets host env r) (hr' : p.Meets host env r') :
    p.wires.map (·.value r) = p.wires.map (·.value r') := by
  have halike : p.Alike host r r' := alike_of_meets hs hs' hr hr'
  -- a wire agrees as soon as what is connected to it does
  have hwire : ∀ x : Rule, (∀ r, x ∈ p.active r) → x.part.init? = none →
      (p.connected host (a.connectivity m.name) r x).value r =
        (p.connected host (a.connectivity m.name) r' x).value r' →
      (p.place x).value r = (p.place x).value r' := by
    intro x hx hinit heq
    rw [h.value_place hs (hx r) hinit, heq, ← h.value_place hs' (hx r') hinit]
  have hoffers : ∀ d ∈ p.interface.outputs, d.valid.value r = d.valid.value r' := by
    intro d hd
    exact hwire (.offer d) (fun r => by simp [Plan.active, hd]) rfl (halike.offer hd)
  have hfin : p.finishing.value r = p.finishing.value r' := by
    refine hwire .finishing (fun r => by simp [Plan.active]) rfl ?_
    refine Expr.value_prim_congr fun e he => ?_
    rcases List.mem_pair.1 he with rfl | rfl
    · exact halike.dataDone hoffers
    · exact halike.validity
  refine List.map_congr_left fun e he => ?_
  obtain ⟨x, hx, hinit, rfl⟩ := Plan.exists_rule_of_wire he
  exact hwire x hx hinit (halike.connected hoffers hfin (hx r) hinit)

end Module.Planned

namespace Plan.Obeys

variable {p : Plan} {host : HostSignals} {g : Connectivity} {st r st' : Valuation}

theorem dataDone_iff (h : p.Obeys host g st r st') : p.dataDone.isHigh r = true ↔
    (∀ d ∈ p.interface.inputs, d.valid.isHigh r = true) ∧
      ∀ d ∈ p.interface.outputs, d.isFired.isHigh st = true ∨ d.ready.isHigh r = true := by
  rw [h.dataDone_eq, Bool.and_eq_true, List.all_eq_true, List.all_eq_true, and_comm]
  refine and_congr_right fun _ => forall₂_congr fun d hd => ?_
  rw [h.fired_eq (List.mem_append_right _ hd), Bool.or_eq_true]

theorem validity_iff : p.interface.clock.validity.isHigh r = true ↔
    ∀ group, p.interface.clock = .channel group → (Handshake.valid (sinkName group.name)).isHigh r = true := by
  cases p.interface.clock with
  | virtual clock =>
    refine ⟨fun _ group hgroup => ?_, fun _ => Expr.isHigh_bit⟩
    cases hgroup
  | channel group =>
    refine ⟨fun hvalid group' hgroup => ?_, fun hvalid => hvalid group rfl⟩
    cases hgroup
    exact hvalid

theorem finishing_iff (h : p.Obeys host g st r st') : p.finishing.isHigh r = true ↔
    (∀ group, p.interface.clock = .channel group → (Handshake.valid (sinkName group.name)).isHigh r = true) ∧
      (∀ d ∈ p.interface.inputs, d.valid.isHigh r = true) ∧
      ∀ d ∈ p.interface.outputs, d.isFired.isHigh st = true ∨ d.ready.isHigh r = true := by
  rw [h.finishing, Bool.and_eq_true, and_comm, validity_iff, h.dataDone_iff]

theorem fired_or_ready_iff (h : p.Obeys host g st r st') (hinputs : ∀ d ∈ p.interface.inputs, d.valid.isHigh r = true)
    {d : DataChannel} (hd : d ∈ p.interface.outputs) :
    d.isFired.isHigh st = true ∨ d.ready.isHigh r = true ↔ d.isFired.isHigh st = true ∨ d.transfers r = true := by
  have hfiring := h.firedOrFiring_eq hinputs hd
  rw [DataChannel.firedOrFiring, Expr.isHigh_or, DataChannel.isHigh_isFiring, h.fired_eq (List.mem_append_right _ hd)]
    at hfiring
  rw [← Bool.or_eq_true, ← Bool.or_eq_true, hfiring]

end Plan.Obeys

/-- For all that the registers and the environment may hold, the wires of the protocol have exactly one solution, as
long as the host signals come from outside, as those of the configuration do. In a solution the finishing wire is high
exactly if the clock channel, when there is one, and all inputs are valid and every output has fired or is ready; and
the clock channel is ready under the same condition without its own validity. So a cycle is finishing exactly if the
clock and all inputs are valid and every output has fired or is firing. -/
theorem Module.protocol_has_one_solution {m : Module} {a : Analysis} {host : HostSignals} {config : Config}
    {t : TokenModel} (h : (m.tokenModel a host config).outcome = .ok t) :
    t.plan.Outside (.ofConfig config) ∧
    (t.plan.Outside host → ∀ st env, ∃! levels, ∃ r, Settled t.protocol st r ∧ t.plan.Meets host env r ∧
      levels = t.plan.wires.map (·.value r)) ∧
    ∀ st r, Settled t.protocol st r →
      (t.plan.finishing.isHigh r = true ↔
        (∀ g, t.plan.interface.clock = .channel g → (Handshake.valid (sinkName g.name)).isHigh r = true) ∧
        (∀ d ∈ t.plan.interface.inputs, d.valid.isHigh r = true) ∧
        ∀ d ∈ t.plan.interface.outputs, d.isFired.isHigh st = true ∨ d.ready.isHigh r = true) ∧
      (∀ g, t.plan.interface.clock = .channel g →
        ((Handshake.ready (sinkName g.name)).isHigh r = true ↔
          (∀ d ∈ t.plan.interface.inputs, d.valid.isHigh r = true) ∧
          ∀ d ∈ t.plan.interface.outputs, d.isFired.isHigh st = true ∨ d.ready.isHigh r = true)) ∧
      (t.plan.finishing.isHigh r = true ↔
        (∀ g, t.plan.interface.clock = .channel g → (Handshake.valid (sinkName g.name)).isHigh r = true) ∧
        (∀ d ∈ t.plan.interface.inputs, d.valid.isHigh r = true) ∧
        ∀ d ∈ t.plan.interface.outputs, d.isFired.isHigh st = true ∨ d.transfers r = true) := by
  have hm := tokenModel_ok h
  refine ⟨hm.planned.outside_ofConfig, ?_, ?_⟩
  · intro hout st env
    rw [hm.protocol_eq]
    obtain ⟨r, hs, hshows⟩ := hm.planned.exists_settled hout (t.plan.retained m) st env
    refine ⟨t.plan.wires.map (·.value r), ⟨r, hs, hshows.meets hout, rfl⟩, ?_⟩
    rintro levels ⟨r', hs', hr', rfl⟩
    exact hm.planned.wires_eq hs' hs hr' (hshows.meets hout)
  · intro st r hs
    have hobeys := hm.obeys hs
    refine ⟨hobeys.finishing_iff, ?_, ?_⟩
    · intro g hclock
      rw [hobeys.clockReady (hclock ▸ rfl)]
      exact hobeys.dataDone_iff
    · rw [hobeys.finishing_iff]
      refine and_congr_right fun _ => and_congr_right fun hinputs => ?_
      exact forall₂_congr fun d hd => hobeys.fired_or_ready_iff hinputs hd

/-- Under host reset the wires of the sampler have one solution, too, when all registers are low and every partner is
willing. -/
theorem Demo.Sampler.one_solution_in_reset : ∃ t, (sampler.tokenModel analysis (.ofConfig {}) {}).outcome = .ok t ∧
    t.plan.wires.length = 7 ∧
    ∃! levels, ∃ r, Settled t.protocol (fun _ _ => 0) r ∧ t.plan.Meets (.ofConfig {}) (fun _ _ => 1) r ∧
      levels = t.plan.wires.map (·.value r) := by
  have hfacts : ((sampler.tokenModel analysis (.ofConfig {}) {}).outcome.toOption.map fun t => t.plan.wires.length) =
      some 7 := by
    decide +kernel
  obtain ⟨t, ht, hlength⟩ := exists_ok_of_map hfacts
  obtain ⟨houtside, hsolution, -⟩ := Module.protocol_has_one_solution ht
  exact ⟨t, ht, hlength, hsolution houtside (fun _ _ => 0) fun _ _ => 1⟩

end TokenCircuit
