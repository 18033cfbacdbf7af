import TokenCircuit.Demo.Stages
import TokenCircuit.Proofs.Protocol
import TokenCircuit.Proofs.Reachability

/-!
# What an output waits for

When no port belongs to two channels, every port has one owner, and the channels that an output waits for are all the
inputs with a port that influences one of its own. Its token is offered when theirs are there, and not before
(`Module.outputs_wait_for_influences`).
-/

namespace TokenCircuit

/-- No port belongs to two channels of the module. -/
def Analysis.PortsDisjoint (a : Analysis) (module : String) : Prop :=
  ((a.inputs module).entries ++ (a.outputs module).entries).Pairwise fun spec spec' =>
    ∀ port ∈ spec.2.ports, port ∉ spec'.2.ports

/-- Two channels have no port in common. -/
def DataChannel.Apart (d d' : DataChannel) : Prop := ∀ port ∈ d.ports.map (·.name), port ∉ d'.ports.map (·.name)

/-! ### Channels by position -/

theorem eq_of_mem_zipIdx {α : Type} {l : List α} {x y : α} {n : Nat} (hx : (x, n) ∈ l.zipIdx) (hy : (y, n) ∈ l.zipIdx) :
    x = y :=
  Option.some.inj ((List.mem_zipIdx_iff_getElem?.1 hx).symm.trans (List.mem_zipIdx_iff_getElem?.1 hy))

namespace Channels

variable {cs : Channels} {x : DataChannel × Nat}

theorem mem_inputs : x ∈ cs.inputs ↔ (.input x.1, x.2) ∈ cs.zipIdx := by
  rw [inputs_eq, List.mem_filterMap]
  constructor
  · rintro ⟨⟨c, n⟩, hc, hx⟩
    cases c with
    | input d =>
      cases hx
      exact hc
    | clock | output => cases hx
  · exact fun hx => ⟨_, hx, rfl⟩

theorem nodup_outputs (cs : Channels) : (cs.outputs.map Prod.snd).Nodup := by
  have hlt : cs.zipIdx.Pairwise fun x y => x.2 < y.2 := by
    rw [← List.pairwise_map, List.zipIdx_map_snd]
    exact List.pairwise_lt_range'
  rw [outputs_eq, List.map_filterMap, List.Nodup, List.pairwise_filterMap]
  refine hlt.imp fun {x y} hxy n hn n' hn' => ?_
  simp only [Option.map_map, Option.map_eq_some_iff, Function.comp_apply] at hn hn'
  obtain ⟨-, -, rfl⟩ := hn
  obtain ⟨-, -, rfl⟩ := hn'
  exact Nat.ne_of_lt hxy

theorem exists_of_owner? {port : String} {n : Nat} (h : cs.owner? port = some n) :
    ∃ c d, (c, n) ∈ cs.zipIdx ∧ c.data? = some d ∧ port ∈ d.ports.map (·.name) := by
  obtain ⟨⟨c, n⟩, hlast, rfl⟩ := Option.map_eq_some_iff.1 h
  obtain ⟨hc, howns⟩ := List.mem_filter.1 (List.mem_of_getLast? hlast)
  obtain ⟨d, hd, hport⟩ := (Option.any_eq_true _ _).1 howns
  exact ⟨c, d, hc, hd, by simpa using hport⟩

end Channels

namespace Module.Planned

variable {m : Module} {a : Analysis} {config : Config} {p : Plan}

theorem map_portNames {ctx : ChannelContext} {direction : Direction} {specs : List (String × ChannelSpec)}
    {ds : List DataChannel} (h : List.Forall₂ (ctx.Makes direction) specs ds) :
    (ds.map fun d => d.ports.map (·.name)) = specs.map (·.2.ports) := by
  induction h with
  | nil => rfl
  | cons hmakes _ ih => rw [List.map_cons, List.map_cons, ih, map_name_resolvePorts hmakes.ports]

theorem pairwise_apart (h : m.Planned a config p) (hdisjoint : a.PortsDisjoint m.name) :
    p.interface.data.Pairwise DataChannel.Apart := by
  have hspecs : (m.inputSpecs a p.interface.clock ++ (a.outputs m.name).entries).Pairwise
      fun spec spec' => ∀ port ∈ spec.2.ports, port ∉ spec'.2.ports :=
    hdisjoint.sublist (List.filter_sublist.append_right _)
  have hnames : (p.interface.data.map fun d => d.ports.map (·.name)) =
      (m.inputSpecs a p.interface.clock ++ (a.outputs m.name).entries).map (·.2.ports) := by
    rw [Interface.data, List.map_append, map_portNames h.inputs, map_portNames h.outputs, List.map_append]
  have hpairs : (p.interface.data.map fun d => d.ports.map (·.name)).Pairwise fun l l' => ∀ port ∈ l, port ∉ l' := by
    rw [hnames]
    exact List.pairwise_map.2 hspecs
  rwa [List.pairwise_map] at hpairs

theorem pairwise_channels (h : m.Planned a config p) (hdisjoint : a.PortsDisjoint m.name) :
    p.interface.channels.Pairwise fun c c' => ∀ d d', c.data? = some d → c'.data? = some d' → d.Apart d' := by
  have hdata := h.pairwise_apart hdisjoint
  rw [Interface.data, List.pairwise_append] at hdata
  obtain ⟨hin, hout, hboth⟩ := hdata
  rw [Interface.channels, List.pairwise_cons, List.pairwise_append, List.pairwise_map, List.pairwise_map]
  refine ⟨?_, hin.imp ?_, hout.imp ?_, ?_⟩
  · rintro c - d d' ⟨⟩
  · rintro d d' hapart _ _ ⟨⟩ ⟨⟩
    exact hapart
  · rintro d d' hapart _ _ ⟨⟩ ⟨⟩
    exact hapart
  · intro c hc c' hc'
    obtain ⟨d, hd, rfl⟩ := List.mem_map.1 hc
    obtain ⟨d', hd', rfl⟩ := List.mem_map.1 hc'
    rintro _ _ ⟨⟩ ⟨⟩
    exact hboth d hd d' hd'

/-- With disjoint ports a data channel owns each of its ports. -/
theorem owner?_eq (h : m.Planned a config p) (hdisjoint : a.PortsDisjoint m.name) {c : Channel} {n : Nat}
    {d : DataChannel} {port : String} (hc : (c, n) ∈ p.interface.channels.zipIdx) (hd : c.data? = some d)
    (hport : port ∈ d.ports.map (·.name)) : p.interface.channels.owner? port = some n := by
  have hpairs := List.pairwise_iff_getElem.1 (h.pairwise_channels hdisjoint)
  -- no channel at another position has the port
  have hone : ∀ c' n' d', (c', n') ∈ p.interface.channels.zipIdx → c'.data? = some d' → port ∈ d'.ports.map (·.name) →
      n' = n := by
    intro c' n' d' hc' hd' hport'
    obtain ⟨hn, hcn⟩ := List.getElem?_eq_some_iff.1 (List.mem_zipIdx_iff_getElem?.1 hc)
    obtain ⟨hn', hcn'⟩ := List.getElem?_eq_some_iff.1 (List.mem_zipIdx_iff_getElem?.1 hc')
    rcases Nat.lt_trichotomy n' n with hlt | heq | hlt
    · exact (hpairs n' n hn' hn hlt d' d (hcn' ▸ hd') (hcn ▸ hd) port hport' hport).elim
    · exact heq
    · exact (hpairs n n' hn hn' hlt d d' (hcn ▸ hd) (hcn' ▸ hd') port hport hport').elim
  unfold Channels.owner?
  cases hlast : List.getLast? _ with
  | none =>
    have hlists := List.filter_eq_nil_iff.1 (List.getLast?_eq_none_iff.1 hlast) (c, n) hc
    exact absurd (by simpa [hd] using hport) hlists
  | some x =>
    obtain ⟨hx, hlists⟩ := List.mem_filter.1 (List.mem_of_getLast? hlast)
    obtain ⟨d', hd', hport'⟩ := (Option.any_eq_true _ _).1 hlists
    rw [Option.map_some, hone x.1 x.2 d' hx hd' (by simpa using hport')]

/-- With disjoint ports an input owns a signal exactly if it is one of its ports. -/
theorem mem_owners_iff (h : m.Planned a config p) (hdisjoint : a.PortsDisjoint m.name) {signals : List String}
    {input : DataChannel × Nat} (hinput : input ∈ p.interface.channels.inputs) :
    input.2 ∈ p.interface.channels.owners signals ↔ ∃ port ∈ input.1.ports, port.name ∈ signals := by
  have hc := Channels.mem_inputs.1 hinput
  rw [Channels.owners, List.mem_filterMap]
  constructor
  · rintro ⟨signal, hsignal, howner⟩
    obtain ⟨c, d, hc', hd, hport⟩ := Channels.exists_of_owner? howner
    obtain rfl : .input input.1 = c := eq_of_mem_zipIdx hc hc'
    cases hd
    obtain ⟨port, hmem, rfl⟩ := List.mem_map.1 hport
    exact ⟨port, hmem, hsignal⟩
  · rintro ⟨port, hport, hsignal⟩
    exact ⟨port.name, hsignal, h.owner?_eq hdisjoint hc rfl (List.mem_map_of_mem hport)⟩

theorem mem_sources (h : m.Planned a config p) (hdisjoint : a.PortsDisjoint m.name) {g : Connectivity}
    {o d : DataChannel} {port : String} (hd : d ∈ p.interface.inputs) (hport : port ∈ d.ports.map (·.name))
    (hinfluences : port ∈ o.influences g) : d ∈ p.interface.sources g o := by
  rw [← Interface.map_fst_inputs] at hd
  obtain ⟨input, hinput, rfl⟩ := List.mem_map.1 hd
  obtain ⟨port, hmem, rfl⟩ := List.mem_map.1 hport
  have howner := (h.mem_owners_iff hdisjoint hinput).2 ⟨port, hmem, hinfluences⟩
  exact List.mem_map.2 ⟨input, List.mem_filter.2 ⟨hinput, by simpa using howner⟩, rfl⟩

end Module.Planned

/-! ### Offers -/

namespace Expr

variable {r : Valuation} {e : Expr} {es : List Expr}

theorem value_eq_one_iff {b : Bool} (h : e.value r [] = b.toNat) : e.value r [] = 1 ↔ e.isHigh r = true := by
  rw [isHigh, h]
  cases b <;> simp

/-- A conjunction that ends with a negation is 1 or 0, whatever the signals hold. -/
theorem value_conj_eq_one : (conj (es ++ [e.not])).value r [] = 1 ↔ (conj (es ++ [e.not])).isHigh r = true := by
  cases es with
  | nil =>
    exact value_eq_one_iff (b := e.value r [] == 0)
      (by rw [List.nil_append, conj, List.foldl_nil, Expr.not, value_prim]; rfl)
  | cons x es =>
    rw [List.cons_append, conj, List.foldl_append]
    exact value_eq_one_iff (b := (es.foldl Expr.and x).isHigh r && e.not.isHigh r)
      (by rw [List.foldl_cons, List.foldl_nil, Expr.and, value_prim]; rfl)

end Expr

/-- What is connected later counts. -/
theorem Stmt.driver?_append {ss ss' : List Stmt} {r : Valuation} {loc value : Expr}
    (h : driver? ss' r loc = some value) : driver? (ss ++ ss') r loc = some value := by
  obtain ⟨x, hx, rfl⟩ := Option.map_eq_some_iff.1 h
  rw [driver?, connections_append, List.filter_append, List.getLast?_append, hx]
  rfl

/-- Some port of the output is influenced by some port of the input, over any number of signals in between. -/
def DataChannel.InfluencedBy (output : DataChannel) (g : Connectivity) (input : DataChannel) : Prop :=
  ∃ p ∈ output.ports, ∃ q ∈ input.ports, Relation.TransGen g.Drives p.name q.name

theorem DataChannel.influencedBy_iff {output input : DataChannel} {g : Connectivity} :
    output.InfluencedBy g input ↔ ∃ port ∈ input.ports, port.name ∈ output.influences g := by
  simp only [InfluencedBy, influences, List.mem_flatMap, Connectivity.mem_reachable]
  exact ⟨fun ⟨p, hp, q, hq, h⟩ => ⟨q, hq, p, hp, h⟩, fun ⟨q, hq, p, hp, h⟩ => ⟨p, hp, q, hq, h⟩⟩

/-- What the validity of an output is connected to. -/
def Dependency.offer (dep : Dependency) : Expr := .conj (dep.inputs.map (·.1.valid) ++ [dep.output.1.isFired.not])

theorem Dependency.isHigh_offer {dep : Dependency} {r : Valuation} : dep.offer.isHigh r = true ↔
    r dep.output.1.fired [] = 0 ∧ ∀ input ∈ dep.inputs, input.1.valid.isHigh r = true := by
  have hfired : (!dep.output.1.isFired.isHigh r) = true ↔ r dep.output.1.fired [] = 0 := by
    simp [DataChannel.isFired, Expr.isHigh]
  rw [offer, Expr.isHigh_conj, List.all_append, Bool.and_eq_true, List.all_map, List.all_eq_true, List.all_cons,
    List.all_nil, Bool.and_true, Expr.isHigh_not, hfired, and_comm]
  rfl

/-- The declarations connect nothing. -/
theorem Plan.driver?_protocol {p : Plan} {retained : List Port} {host : HostSignals} {config : Config} {r : Valuation}
    {loc : Expr} : Stmt.driver? (p.protocol retained host config) r loc = Stmt.driver? (p.firingRules host) r loc := by
  rw [Stmt.driver?, Stmt.driver?, protocol, Stmt.connections_append, connections_declarations, List.nil_append]

namespace Module

variable {m : Module} {a : Analysis} {host : HostSignals} {config : Config} {t : TokenModel} {dep : Dependency}

theorem Modelled.map_output (h : m.Modelled a host config t) : t.dependencies.map (·.output) = t.channels.outputs := by
  rw [TokenModel.dependencies, h.planned.dependencies, Channels.dependencies, List.map_map]
  exact List.map_id _

/-- An output's entry holds the inputs that influence it, and no others. -/
theorem Modelled.mem_dependency_iff (h : m.Modelled a host config t) (hdisjoint : a.PortsDisjoint m.name)
    (hdep : dep ∈ t.dependencies) {input : DataChannel × Nat} : input ∈ dep.inputs ↔
      input ∈ t.channels.inputs ∧ dep.output.1.InfluencedBy (a.connectivity m.name) input.1 := by
  rw [TokenModel.dependencies, h.planned.dependencies] at hdep
  obtain ⟨output, -, rfl⟩ := List.mem_map.1 hdep
  rw [List.mem_filter, decide_eq_true_iff]
  refine and_congr_right fun hinput => ?_
  rw [h.planned.mem_owners_iff hdisjoint hinput, DataChannel.influencedBy_iff]

/-- The rule of an output connects its validity to the offer of its entry. -/
theorem Modelled.offer_active (h : m.Modelled a host config t) (hdep : dep ∈ t.dependencies) (r : Valuation) :
    .offer dep.output.1 ∈ t.plan.active r ∧
      t.plan.connected host (a.connectivity m.name) r (.offer dep.output.1) = dep.offer := by
  rw [TokenModel.dependencies, h.planned.dependencies] at hdep
  obtain ⟨output, houtput, rfl⟩ := List.mem_map.1 hdep
  have hmem : output.1 ∈ t.plan.interface.outputs := Interface.map_fst_outputs _ ▸ List.mem_map_of_mem houtput
  refine ⟨by simp [Plan.active, hmem], ?_⟩
  rw [Plan.connected, Interface.sources, List.map_map]
  rfl

theorem Modelled.driver?_valid (h : m.Modelled a host config t) (hdep : dep ∈ t.dependencies) (r : Valuation) :
    Stmt.driver? t.module.body.members r dep.output.1.valid = some dep.offer := by
  obtain ⟨hactive, hconnected⟩ := h.offer_active hdep r
  have hdriver :
      Stmt.driver? (t.plan.protocol (t.plan.retained m) host config) r (t.plan.place (.offer dep.output.1)) = _ :=
    h.planned.driver?_place hactive
  rw [Plan.driver?_protocol, hconnected, ← h.rules] at hdriver
  exact Stmt.driver?_append hdriver

theorem Modelled.isHigh_valid (h : m.Modelled a host config t) (hdep : dep ∈ t.dependencies) {st r : Valuation}
    (hs : Settled t.protocol st r) : dep.output.1.valid.isHigh r = dep.offer.isHigh r := by
  obtain ⟨hactive, hconnected⟩ := h.offer_active hdep r
  have hvalue := h.planned.value_place (h.protocol_eq ▸ hs) hactive rfl
  rw [hconnected] at hvalue
  exact Expr.isHigh_congr hvalue

end Module

/-- Let no port belong to two channels. Every output channel has one entry among the dependencies, which holds exactly
the inputs that influence it over a chain of edges, however long. Its validity is 1 if it has not fired and the inputs
of its entry are valid, and only then; so no token is offered in a cycle in which an input with influence on it has
none. -/
theorem Module.outputs_wait_for_influences {m : Module} {a : Analysis} {host : HostSignals} {config : Config}
    {t : TokenModel} (h : (m.tokenModel a host config).outcome = .ok t) (hdisjoint : a.PortsDisjoint m.name) :
    t.dependencies.map (·.output) = t.channels.outputs ∧ (t.dependencies.map (·.output.2)).Nodup ∧
    ∀ dep ∈ t.dependencies,
      (∀ input, input ∈ dep.inputs ↔
        input ∈ t.channels.inputs ∧ dep.output.1.InfluencedBy (a.connectivity m.name) input.1) ∧
      (∃ value, ∀ r, Stmt.driver? t.module.body.members r dep.output.1.valid = some value ∧
        (value.value r [] = 1 ↔ r dep.output.1.fired [] = 0 ∧ ∀ input ∈ dep.inputs, input.1.valid.isHigh r = true)) ∧
      ∀ st r, Settled t.protocol st r → dep.output.1.valid.isHigh r = true → ∀ input ∈ t.channels.inputs,
        dep.output.1.InfluencedBy (a.connectivity m.name) input.1 → input.1.valid.isHigh r = true := by
  have hm := tokenModel_ok h
  refine ⟨hm.map_output, ?_,
    fun dep hdep => ⟨fun input => hm.mem_dependency_iff hdisjoint hdep, ⟨dep.offer, fun r => ?_⟩, ?_⟩⟩
  · have hpositions := Channels.nodup_outputs t.channels
    rwa [← hm.map_output, List.map_map] at hpositions
  · exact ⟨hm.driver?_valid hdep r, Expr.value_conj_eq_one.trans Dependency.isHigh_offer⟩
  · intro st r hs hvalid input hinput hinfluenced
    rw [hm.isHigh_valid hdep hs] at hvalid
    exact (Dependency.isHigh_offer.1 hvalid).2 input ((hm.mem_dependency_iff hdisjoint hdep).2 ⟨hinput, hinfluenced⟩)

/-- The sum of an adder whose carry feeds back into itself waits for the operands behind the carry. -/
theorem Demo.Stages.sum_waits_behind_cycle :
    let a := Analysis.ofFacts [
      .input "Stage" "io" ⟨some "clock", ["io_lhs", "io_rhs"]⟩,
      .output "Stage" "sum" ⟨some "clock", ["sum"]⟩,
      .edge "Stage" "sum" "carry", .edge "Stage" "carry" "next", .edge "Stage" "next" "carry",
      .edge "Stage" "next" "io_rhs"]
    a.PortsDisjoint stage.name ∧
    ∃ t dep input, (stage.tokenModel a (.ofConfig {}) {}).outcome = .ok t ∧ t.dependencies = [dep] ∧
      dep.inputs = [input] ∧ dep.output.1.name = "sum" ∧ input.1.name = "io" ∧
      ∀ st r, Settled t.protocol st r → dep.output.1.valid.isHigh r = true → input.1.valid.isHigh r = true := by
  intro a
  have hdisjoint : a.PortsDisjoint stage.name := by
    unfold Analysis.PortsDisjoint
    decide +kernel
  have hok : ((stage.tokenModel a (.ofConfig {}) {}).outcome.toOption.map fun t =>
      t.dependencies.map fun dep => (dep.output.1.name, dep.inputs.map (·.1.name))) = some [("sum", ["io"])] := by
    decide +kernel
  obtain ⟨t, ht, hnames⟩ := exists_ok_of_map hok
  obtain ⟨dep, hdep, hnames⟩ := List.map_eq_singleton_iff.1 hnames
  obtain ⟨houtput, hinputs⟩ := Prod.mk.inj hnames
  obtain ⟨input, hinput, hname⟩ := List.map_eq_singleton_iff.1 hinputs
  obtain ⟨-, -, hall⟩ := Module.outputs_wait_for_influences ht hdisjoint
  obtain ⟨hentry, -, hwaits⟩ := hall dep (hdep ▸ List.mem_singleton_self dep)
  obtain ⟨hmem, hinfluenced⟩ := (hentry input).1 (hinput ▸ List.mem_singleton_self input)
  exact ⟨hdisjoint, t, dep, input, ht, hdep, hinput, houtput, hname,
    fun st r hs hvalid => hwaits st r hs hvalid input hmem hinfluenced⟩

end TokenCircuit
