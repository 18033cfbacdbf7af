import TokenCircuit.Proofs.Hygiene
import TokenCircuit.Proofs.Payloads
import TokenCircuit.Proofs.Rewriting

/-!
# Declared before it is used

`Stmt.Scoped` walks through statements with the names known so far: a reference must name one of them, and a declaration
adds one. In the body of a token-driven module the declarations of the protocol come first and refer to ports only. Then
comes the old logic: what stands for a port is a host port or a gate, and a port that nothing stands for has become a
wire. The rules come last and name parts of the protocol.
-/

namespace TokenCircuit

namespace Expr

theorem refs_subst (σ : String → Expr) (e : Expr) : (e.subst σ).refs = e.refs.flatMap fun name => (σ name).refs := by
  induction e with
  | ref name => simp [subst, refs]
  | literal value width => rfl
  | field base name ih => simp [subst, refs, ih]
  | index base position ih => simp [subst, refs, ih]
  | access base position ihb ihp => simp [subst, refs, ihb, ihp]
  | mux cond high low ihc ihh ihl => simp [subst, refs, ihc, ihh, ihl]
  | validIf cond value ihc ihv => simp [subst, refs, ihc, ihv]
  | prim op args consts ih =>
    simp only [subst, refs, substList_eq_map, refsList_eq_flatMap, List.flatMap_map, List.flatMap_assoc]
    exact List.flatMap_congr ih

theorem mem_refs_redirect {σ : String → Option Expr} {e : Expr} {n : String} :
    n ∈ (e.redirect σ).refs ↔ ∃ name ∈ e.refs, n ∈ ((σ name).getD (.ref name)).refs := by
  rw [redirect_eq_subst, refs_subst, List.mem_flatMap]

theorem refs_follow {e : Expr} {path : List String} : (e.follow path).refs = e.refs := by
  unfold follow
  induction path generalizing e with
  | nil => rfl
  | cons name path ih => rw [List.foldl_cons, ih, refs]

theorem mem_refs_of_conj {es : List Expr} {n : String} (h : n ∈ (conj es).refs) : ∃ e ∈ es, n ∈ e.refs := by
  cases es with
  | nil => cases h
  | cons e es =>
    rw [conj] at h
    induction es generalizing e with
    | nil => exact ⟨e, List.mem_cons_self .., h⟩
    | cons e' es ih =>
      obtain ⟨x, hx, hn⟩ := ih (e.and e') h
      rcases List.mem_cons.1 hx with rfl | hx
      · have hn : n ∈ e.refs ∨ n ∈ e'.refs := by simpa [Expr.and, refs] using hn
        rcases hn with hn | hn
        · exact ⟨e, by simp, hn⟩
        · exact ⟨e', by simp, hn⟩
      · exact ⟨x, by simp [hx], hn⟩

end Expr

namespace Stmt

variable {known known' : List String} {ss ss' : List Stmt} {s : Stmt} {P : Expr → Prop}
  {σ : String → Option Expr} {clocks : List String}

/-- The components that the statement itself refers to. -/
def refs (s : Stmt) : List String := s.exprs.flatMap Expr.refs

/-- Every reference names a known component or one that a statement before it declares. -/
def Scoped : (known : List String) → List Stmt → Prop
  | _, [] => True
  | known, s :: ss => (∀ name ∈ s.refs, name ∈ known) ∧ Scoped (known ++ s.declared?.toList) ss

instance decidableScoped : ∀ (known : List String) (ss : List Stmt), Decidable (Scoped known ss)
  | _, [] => inferInstanceAs (Decidable True)
  | known, s :: ss =>
    have := decidableScoped (known ++ s.declared?.toList) ss
    inferInstanceAs (Decidable ((∀ name ∈ s.refs, name ∈ known) ∧ Scoped (known ++ s.declared?.toList) ss))

theorem scoped_append : Scoped known (ss ++ ss') ↔ Scoped known ss ∧ Scoped (known ++ ss.filterMap declared?) ss' := by
  induction ss generalizing known with
  | nil => simp [Scoped]
  | cons s ss ih =>
    rw [List.cons_append, Scoped, Scoped, ih, and_assoc, List.append_assoc]
    cases hd : s.declared? <;> simp [hd]

theorem scoped_of_refs (h : ∀ s ∈ ss, ∀ name ∈ s.refs, name ∈ known) : Scoped known ss := by
  induction ss generalizing known with
  | nil => exact trivial
  | cons s ss ih =>
    refine ⟨h s (List.mem_cons_self ..), ih fun s' hs' name hname => ?_⟩
    exact List.mem_append_left _ (h s' (List.mem_cons_of_mem _ hs') name hname)

theorem Scoped.mono (h : Scoped known ss) (hknown : ∀ name ∈ known, name ∈ known') : Scoped known' ss := by
  induction ss generalizing known known' with
  | nil => exact trivial
  | cons s ss ih =>
    refine ⟨fun name hname => hknown name (h.1 name hname), ih h.2 fun name hname => ?_⟩
    exact List.mem_append.2 ((List.mem_append.1 hname).imp_left (hknown name))

theorem filterMap_preorder (ss : List Stmt) : (ss.flatMap preorder).filterMap declared? = ss.flatMap declaredNames := by
  rw [List.filterMap_flatMap]
  rfl

theorem Scoped.mem_of_refs (h : Scoped known ss) (hs : s ∈ ss) {name : String} (hname : name ∈ s.refs) :
    name ∈ known ++ ss.filterMap declared? := by
  obtain ⟨before, after, rfl⟩ := List.append_of_mem hs
  have hmem := (scoped_append.1 h).2.1 name hname
  rw [List.filterMap_append]
  rcases List.mem_append.1 hmem with hmem | hmem <;> simp [hmem]

theorem scoped_members : Scoped known (s.members.flatMap preorder) ↔ Scoped known s.preorder := by
  cases s with
  | block body =>
    have hnext : known ++ (Stmt.block body).declared?.toList = known := List.append_nil known
    rw [members, preorder, preorderList_eq_flatMap, Scoped, hnext]
    exact ⟨fun h => ⟨fun _ hname => absurd hname List.not_mem_nil, h⟩, fun h => h.2⟩
  | _ => simp [members]

/-- The left side of a connection. -/
def leftSide? : Stmt → Option Expr
  | .connect loc _ | .partialConnect loc _ => some loc
  | _ => none

/-- A left side is redirected, unless it belongs to a clock. -/
theorem eq_of_side {loc e : Expr} (h : e = if loc.isRootedIn clocks then loc else loc.redirect σ) :
    e = loc.redirect σ ∨ (e = loc ∧ loc.isRootedIn clocks = true) := by
  split at h
  · next hroot => exact .inr ⟨h, hroot⟩
  · exact .inl h

/-- An expression of a redirected statement is redirected, or it is a left side that stayed. -/
theorem mem_exprs_redirect {e : Expr} (h : e ∈ (s.redirect σ clocks).exprs) :
    (∃ e' ∈ s.exprs, e = e'.redirect σ) ∨ (s.leftSide? = some e ∧ e.isRootedIn clocks = true) := by
  have hside : ∀ {loc value : Expr}, e ∈ [if loc.isRootedIn clocks then loc else loc.redirect σ, value.redirect σ] →
      (∃ e' ∈ [loc, value], e = e'.redirect σ) ∨ (some loc = some e ∧ e.isRootedIn clocks = true) := by
    intro loc value he
    rcases List.mem_pair.1 he with he | rfl
    · rcases eq_of_side he with rfl | ⟨rfl, hroot⟩
      · exact .inl ⟨loc, by simp, rfl⟩
      · exact .inr ⟨rfl, hroot⟩
    · exact .inl ⟨value, by simp, rfl⟩
  cases s with
  | connect loc value => exact hside h
  | partialConnect loc value => exact hside h
  | when pred conseq alt =>
    rw [redirect_when] at h
    exact .inl ⟨pred, by simp [exprs], List.mem_singleton.1 h⟩
  | block body => rw [redirect_block] at h; cases h
  | reg name type c r i =>
    have h : e ∈ [c, r, i].map (Expr.redirect σ) := h
    obtain ⟨e', he', rfl⟩ := List.mem_map.1 h
    exact .inl ⟨e', he', rfl⟩
  | node name value => exact .inl ⟨value, by simp [exprs], List.mem_singleton.1 h⟩
  | invalid target => exact .inl ⟨target, by simp [exprs], List.mem_singleton.1 h⟩
  | wire | inst | skip => cases h

/-- Redirected statements stay in scope if what stands for a known name is known in its place. -/
theorem Scoped.redirect (h : Scoped known ss)
    (hrefs : ∀ s ∈ ss, ∀ n ∈ (s.redirect σ clocks).refs, ∃ name ∈ s.refs, n ∈ ((σ name).getD (.ref name)).refs)
    (hnew : ∀ s ∈ ss, ∀ name, s.declared? = some name → σ name = none)
    (hknown : ∀ name ∈ known, ∀ n ∈ ((σ name).getD (.ref name)).refs, n ∈ known') :
    Scoped known' (ss.map (redirect σ clocks)) := by
  induction ss generalizing known known' with
  | nil => exact trivial
  | cons s ss ih =>
    refine ⟨fun n hn => ?_, ?_⟩
    · obtain ⟨name, hname, hn⟩ := hrefs s (List.mem_cons_self ..) n hn
      exact hknown name (h.1 name hname) n hn
    · rw [declared?_redirect]
      refine ih h.2 (fun s' hs' => hrefs s' (List.mem_cons_of_mem _ hs'))
        (fun s' hs' => hnew s' (List.mem_cons_of_mem _ hs')) fun name hname n hn => ?_
      rcases List.mem_append.1 hname with hname | hname
      · exact List.mem_append_left _ (hknown name hname n hn)
      · -- a declared name stands for itself
        rw [hnew s (List.mem_cons_self ..) name (Option.mem_toList.1 hname)] at hn
        rw [List.mem_singleton.1 hn]
        exact List.mem_append_right _ hname

/-- All expressions in the statement, at any depth, satisfy `P`. -/
def AllExprs (P : Expr → Prop) (s : Stmt) : Prop := ∀ s' ∈ s.preorder, ∀ e ∈ s'.exprs, P e

theorem allExprs_connect {loc value : Expr} (hloc : P loc) (hvalue : P value) :
    (Stmt.connect loc value).AllExprs P := by
  intro s hs e he
  obtain rfl := List.mem_singleton.1 hs
  rcases List.mem_pair.1 he with rfl | rfl
  exacts [hloc, hvalue]

theorem allExprs_skip : Stmt.skip.AllExprs P := by
  intro s hs e he
  obtain rfl := List.mem_singleton.1 hs
  cases he

theorem allExprs_when {pred : Expr} {conseq alt : Stmt} (hpred : P pred) (hconseq : conseq.AllExprs P)
    (halt : alt.AllExprs P) : (Stmt.when pred conseq alt).AllExprs P := by
  intro s hs e he
  rw [preorder, List.mem_cons, List.mem_append] at hs
  rcases hs with rfl | hs | hs
  · rwa [List.mem_singleton.1 he]
  · exact hconseq s hs e he
  · exact halt s hs e he

end Stmt

/-! ### What the protocol refers to -/

/-- An expression that names nothing but the host's signals and parts of the protocol. -/
def Plan.Internal (p : Plan) (host : HostSignals) (e : Expr) : Prop :=
  ∀ n ∈ e.refs, n ∈ host.clock.refs ∨ n ∈ host.reset.refs ∨ ∃ x ∈ p.parts, p.nameOf x = n

namespace Plan.Internal

variable {p : Plan} {host : HostSignals} {e e' : Expr} {es : List Expr}

theorem part {x : Part} (hx : x ∈ p.parts) : p.Internal host (.ref (p.nameOf x)) := by
  intro n hn
  rw [List.mem_singleton.1 hn]
  exact .inr (.inr ⟨x, hx, rfl⟩)

theorem follow (h : p.Internal host e) (path : List String) : p.Internal host (e.follow path) := by
  intro n hn
  rw [Expr.refs_follow] at hn
  exact h n hn

theorem bit {b : Bool} : p.Internal host (.bit b) := fun _ hn => absurd hn List.not_mem_nil

theorem conj (h : ∀ e ∈ es, p.Internal host e) : p.Internal host (.conj es) := by
  intro n hn
  obtain ⟨e, he, hn⟩ := Expr.mem_refs_of_conj hn
  exact h e he n hn

theorem prim {op : PrimOp} {consts : List Nat} (h : ∀ e ∈ es, p.Internal host e) :
    p.Internal host (.prim op es consts) := by
  intro n hn
  rw [Expr.refs, Expr.refsList_eq_flatMap, List.mem_flatMap] at hn
  obtain ⟨e, he, hn⟩ := hn
  exact h e he n hn

theorem not (h : p.Internal host e) : p.Internal host e.not :=
  prim fun x hx => by rwa [List.mem_singleton.1 hx]

theorem and (h : p.Internal host e) (h' : p.Internal host e') : p.Internal host (e.and e') :=
  prim fun x hx => by rcases List.mem_pair.1 hx with rfl | rfl; exacts [h, h']

theorem or (h : p.Internal host e) (h' : p.Internal host e') : p.Internal host (e.or e') :=
  prim fun x hx => by rcases List.mem_pair.1 hx with rfl | rfl; exacts [h, h']

theorem mux {c : Expr} (hc : p.Internal host c) (h : p.Internal host e) (h' : p.Internal host e') :
    p.Internal host (.mux c e e') := by
  intro n hn
  rw [Expr.refs, List.mem_append, List.mem_append] at hn
  rcases hn with (hn | hn) | hn
  exacts [hc n hn, h n hn, h' n hn]

theorem hostClock : p.Internal host host.clock := fun _ hn => .inl hn

theorem hostReset : p.Internal host host.reset := fun _ hn => .inr (.inl hn)

end Plan.Internal

namespace Module.Planned

variable {m : Module} {a : Analysis} {config : Config} {p : Plan} {host : HostSignals}

open Plan Plan.Internal

theorem time_source (h : m.Planned a config p) {t : SimTime} (ht : p.domains.simTime = some t) :
    ∃ g, p.interface.clock.group? = some g ∧ t.source = Handshake.time (sinkName g.name) := by
  have htime := h.domains.time
  rw [ht] at htime
  cases hclock : p.interface.clock with
  | virtual clock => rw [hclock] at htime; cases htime
  | channel g =>
    rw [hclock] at htime
    have htime : some t.source = if g.timestamped then some (Handshake.time (sinkName g.name)) else none := htime
    split at htime
    · exact ⟨g, rfl, Option.some.inj htime⟩
    · cases htime

theorem internal_enable (h : m.Planned a config p) {d : DataChannel} (hd : d ∈ p.interface.data) :
    p.Internal host d.enable := by
  obtain ⟨c, hc, direction, henable⟩ := h.enable_data hd
  have hflag : p.Internal host c.clockFlag := part (x := .flag c) (flag_mem_parts.2 hc)
  rw [henable]
  cases direction with
  | input =>
    rw [ClockDomain.channelEnable, ClockDomain.highPhase]
    split
    exacts [bit, hflag]
  | output =>
    rw [ClockDomain.channelEnable, ClockDomain.lowPhase]
    split
    exacts [bit, hflag.not]

theorem internal_valid {d : DataChannel} (hd : d ∈ p.interface.data) : p.Internal host d.valid :=
  (part (x := .hostPort d) (hostPort_mem_parts.2 hd)).follow ["valid"]

theorem internal_ready {d : DataChannel} (hd : d ∈ p.interface.data) : p.Internal host d.ready :=
  (part (x := .hostPort d) (hostPort_mem_parts.2 hd)).follow ["ready"]

theorem internal_isFired {d : DataChannel} (hd : d ∈ p.interface.data) : p.Internal host d.isFired :=
  part (x := .fired d) (fired_mem_parts.2 hd)

theorem internal_firedOrFiring {d : DataChannel} (hd : d ∈ p.interface.data) : p.Internal host d.firedOrFiring :=
  (internal_isFired hd).or ((internal_valid hd).and (internal_ready hd))

theorem internal_dataDone : p.Internal host p.dataDone := by
  refine conj fun e he => ?_
  rcases List.mem_append.1 he with he | he
  · obtain ⟨d, hd, rfl⟩ := List.mem_map.1 he
    exact internal_firedOrFiring (List.mem_append_right _ hd)
  · obtain ⟨d, hd, rfl⟩ := List.mem_map.1 he
    exact internal_valid (List.mem_append_left _ hd)

theorem internal_clockValidity : p.Internal host p.interface.clock.validity := by
  cases hclock : p.interface.clock with
  | virtual clock => exact bit
  | channel g =>
    have hg : .clockPort g ∈ p.parts := by rw [clockPort_mem_parts, hclock]; rfl
    exact (part hg).follow ["valid"]

/-- A rule refers to nothing but the host's signals and parts of the protocol. -/
theorem internal_statement (h : m.Planned a config p) {g : Connectivity} {x : Rule} (hx : x ∈ p.rules) :
    (p.statement host g x).AllExprs (p.Internal host) := by
  have hpart := part_mem_of_rules hx
  have hfin : p.Internal host p.finishing := part (x := .finishing) finishing_mem_parts
  have hdone : p.Internal host p.domains.doneInit := part (x := .doneInit) doneInit_mem_parts
  cases x with
  | doneInit => exact Stmt.allExprs_when hfin (Stmt.allExprs_connect hdone bit) Stmt.allExprs_skip
  | gateSource c => exact Stmt.allExprs_connect ((part hpart).follow [ClockGate.source]) hostClock
  | gateEnable c =>
    have henable : p.Internal host c.enable := part (x := .enable c) (enable_mem_parts.2 (gate_mem_parts.1 hpart))
    refine Stmt.allExprs_connect ((part hpart).follow [ClockGate.enable]) (conj fun e he => ?_)
    simp only [List.mem_cons, List.not_mem_nil, or_false] at he
    rcases he with rfl | rfl | rfl | rfl
    exacts [henable, hfin, hostReset.not, hdone]
  | enable c =>
    have hflag : p.Internal host c.clockFlag := part (x := .flag c) (flag_mem_parts.2 (enable_mem_parts.1 hpart))
    exact Stmt.allExprs_connect (part hpart) (hfin.mux hflag (part hpart))
  | fired d =>
    have hd := fired_mem_parts.1 hpart
    exact Stmt.allExprs_when hfin (Stmt.allExprs_connect (internal_isFired hd) (h.internal_enable hd).not)
      (Stmt.allExprs_connect (internal_isFired hd) (internal_firedOrFiring hd))
  | accept d =>
    have hd := hostPort_mem_parts.1 hpart
    exact Stmt.allExprs_connect (internal_ready hd) (hfin.and (internal_isFired hd).not)
  | offer d =>
    have hd := hostPort_mem_parts.1 hpart
    refine Stmt.allExprs_connect (internal_valid hd) (conj fun e he => ?_)
    rcases List.mem_append.1 he with he | he
    · obtain ⟨i, hi, rfl⟩ := List.mem_map.1 he
      exact internal_valid (List.mem_append_left _ (Interface.mem_inputs_of_sources hi))
    · rw [List.mem_singleton.1 he]
      exact (internal_isFired hd).not
  | clockReady group => exact Stmt.allExprs_connect ((part hpart).follow ["ready"]) internal_dataDone
  | finishing => exact Stmt.allExprs_connect hfin (internal_dataDone.and internal_clockValidity)
  | stamp d =>
    refine Stmt.allExprs_connect ((part hpart).follow ["bits", "time"]) ?_
    rw [ClockDomains.time?]
    cases htime : p.domains.simTime with
    | none => exact bit
    | some t => exact part (x := .simTime t) (simTime_mem_parts.2 htime)
  | simTime t =>
    obtain ⟨group, hgroup, hsource⟩ := h.time_source (simTime_mem_parts.1 hpart)
    have htime : p.Internal host t.source := by
      rw [hsource]
      exact (part (x := .clockPort group) (clockPort_mem_parts.2 hgroup)).follow _
    exact Stmt.allExprs_when hfin (Stmt.allExprs_connect (part hpart) htime) Stmt.allExprs_skip

/-- What the protocol declares refers to ports only. -/
theorem refs_declarations (h : m.Planned a config p) {retained : List Port} {s : Stmt}
    (hs : s ∈ p.declarations retained host config) {n : String} (hn : n ∈ s.refs) :
    n ∈ host.clock.refs ∨ n ∈ host.reset.refs ∨ ∃ g, p.interface.clock.group? = some g ∧ n = sinkName g.name := by
  have hreg : ∀ {name type init}, n ∈ (Stmt.reg name type host.clock host.reset init).refs → init.refs = [] →
      n ∈ host.clock.refs ∨ n ∈ host.reset.refs := by
    intro name type init hn hinit
    simpa [Stmt.refs, Stmt.exprs, hinit] using hn
  rcases mem_declarations.1 hs with ⟨y, hy, hdeclared⟩ | ⟨port, -, rfl⟩
  · cases y with
    | clockPort | hostPort => cases hdeclared
    | finishing | gate => cases hdeclared; cases hn
    | doneInit | enable | simTime | fired =>
      cases hdeclared
      exact (hreg hn rfl).imp_right .inl
    | flag c =>
      cases hdeclared
      have hn : n ∈ c.flagValue.refs := by simpa [Stmt.refs, Stmt.exprs] using hn
      have hvalue := (h.domain_spec (flag_mem_parts.1 hy)).2
      cases hclock : p.interface.clock with
      | virtual clock =>
        rw [hclock] at hvalue
        rw [← Except.ok.inj hvalue] at hn
        cases hn
      | channel g =>
        rw [hclock] at hvalue
        have hvalue : (Channel.clock (.channel g)).payload c.clock = .ok c.flagValue := hvalue
        obtain ⟨hostPort, group, rest, hcarried, -, heq, -⟩ := Channel.payload_ok hvalue
        cases hcarried
        rw [heq, Expr.refs_follow] at hn
        exact .inr (.inr ⟨g, rfl, List.mem_singleton.1 hn⟩)
  · cases hn

/-- What stands for a port is a gated clock or lies below the bits of a host port, beside their time if they have one.
-/
theorem standIn_ok (h : m.Planned a config p) {port : String} {value : Expr} (hvalue : p.standIn port = some value) :
    (∃ c ∈ p.domains.all, value = c.gatedClock) ∨ ∃ d ∈ p.interface.data, ∃ rest,
      value = (Expr.ref d.hostPort).follow ("bits" :: rest) ∧ (d.timestamped = true → rest.head? = some "data") := by
  obtain ⟨placement, hget, rfl⟩ := Option.map_eq_some_iff.1 hvalue
  obtain ⟨c, hc, hlists, hplacement⟩ := h.exists_channel_of_placed hget
  obtain ⟨placement', hplacement', hstands⟩ := h.exists_placement hc hlists
  rw [hplacement] at hplacement'
  cases hplacement'
  simp only [Interface.channels, List.mem_cons, List.mem_append, List.mem_map] at hc
  rcases hc with rfl | ⟨d, hd, rfl⟩ | ⟨d, hd, rfl⟩
  · obtain ⟨c, hc, hgate⟩ := hstands
    exact .inl ⟨c, OrderedMap.mem_values_iff.2 ⟨port, hc⟩, hgate⟩
  · obtain ⟨hostPort, group, rest, hcarried, -, heq, htime⟩ := Channel.payload_ok hstands
    cases hcarried
    exact .inr ⟨d, List.mem_append_left _ hd, rest, heq, htime⟩
  · obtain ⟨hostPort, group, rest, hcarried, -, heq, htime⟩ := Channel.payload_ok hstands
    cases hcarried
    exact .inr ⟨d, List.mem_append_right _ hd, rest, heq, htime⟩

theorem refs_standIn (h : m.Planned a config p) {port n : String} {value : Expr} (hvalue : p.standIn port = some value)
    (hn : n ∈ value.refs) : ∃ x ∈ p.parts, p.nameOf x = n := by
  rcases h.standIn_ok hvalue with ⟨c, hc, rfl⟩ | ⟨d, hd, rest, rfl, -⟩
  · exact ⟨.gate c, gate_mem_parts.2 hc, (List.mem_singleton.1 hn).symm⟩
  · rw [Expr.refs_follow] at hn
    exact ⟨.hostPort d, hostPort_mem_parts.2 hd, (List.mem_singleton.1 hn).symm⟩

end Module.Planned

/-! ### The body as a whole -/

namespace Module

/-- Every reference in the body names a port or what an earlier statement declares. -/
def Scoped (m : Module) : Prop := Stmt.Scoped (m.ports.map (·.name)) m.body.preorder

instance (m : Module) : Decidable m.Scoped := inferInstanceAs (Decidable (Stmt.Scoped _ _))

/-- A connection that drives a clock drives it as a whole, and no channel lists that clock. -/
def DrivesWholeClocks (m : Module) (channels : Channels) : Prop :=
  ∀ s ∈ m.body.preorder, ∀ loc ∈ s.leftSide?, ∀ name ∈ loc.root?, m.IsClockSignal name →
    loc = .ref name ∧ ∀ c ∈ channels, ¬ c.Lists name

end Module

namespace Module.Modelled

variable {m : Module} {a : Analysis} {host : HostSignals} {config : Config} {t : TokenModel}

/-- The parts of the protocol are ports or declared before the logic. -/
theorem part_known (h : m.Modelled a host config t) {x : Part} (hx : x ∈ t.plan.parts) :
    t.plan.nameOf x ∈ t.ports.map (·.name) ++ t.declarations.flatMap Stmt.declaredNames := by
  have hname := List.mem_map_of_mem (f := t.plan.nameOf) hx
  rw [Plan.map_nameOf_parts] at hname
  rw [h.map_name_ports, h.declarations, Plan.declaredNames_declarations]
  simp only [ClockDomains.names, List.mem_append, List.mem_cons] at hname ⊢
  tauto

theorem scoped_declarations (h : m.Modelled a (.ofConfig config) config t) :
    Stmt.Scoped (t.ports.map (·.name)) (t.declarations.flatMap Stmt.preorder) := by
  refine Stmt.scoped_of_refs fun s hs n hn => ?_
  obtain ⟨s', hs', hs⟩ := List.mem_flatMap.1 hs
  rw [h.declarations] at hs'
  -- a declaration has nothing nested in it
  have hleaf : s'.preorder = [s'] := by
    rcases Plan.mem_declarations.1 hs' with ⟨y, -, hdeclared⟩ | ⟨port, -, rfl⟩
    · cases y <;> cases hdeclared <;> rfl
    · rfl
  rw [hleaf, List.mem_singleton] at hs
  subst hs
  rw [h.map_name_ports]
  rcases h.planned.refs_declarations hs' hn with hn | hn | ⟨g, hg, rfl⟩
  · rw [List.mem_singleton.1 hn]
    simp
  · rw [List.mem_singleton.1 hn]
    simp
  · simp [hg]

theorem scoped_rules (h : m.Modelled a (.ofConfig config) config t) :
    Stmt.Scoped (t.ports.map (·.name) ++ t.declarations.flatMap Stmt.declaredNames)
      (t.rules.flatMap Stmt.preorder) := by
  refine Stmt.scoped_of_refs fun s hs n hn => ?_
  obtain ⟨s', hs', hs⟩ := List.mem_flatMap.1 hs
  rw [h.rules, Plan.firingRules_eq h.planned.dependencies] at hs'
  obtain ⟨x, hx, rfl⟩ := List.mem_map.1 hs'
  obtain ⟨e, he, hn⟩ := List.mem_flatMap.1 hn
  rcases h.planned.internal_statement hx s hs e he n hn with hn | hn | ⟨y, hy, rfl⟩
  · rw [List.mem_singleton.1 hn, h.map_name_ports]
    simp
  · rw [List.mem_singleton.1 hn, h.map_name_ports]
    simp
  · exact h.part_known hy

/-- A reference of the logic names what stands for a name of the old body. -/
theorem refs_logic (h : m.Modelled a host config t) (hclocks : m.DrivesWholeClocks t.channels) {s : Stmt}
    (hs : s ∈ m.body.preorder) {n : String} (hn : n ∈ (s.redirect t.plan.standIn m.clockSignals).refs) :
    ∃ name ∈ s.refs, n ∈ ((t.plan.standIn name).getD (.ref name)).refs := by
  obtain ⟨e, he, hn⟩ := List.mem_flatMap.1 hn
  rcases Stmt.mem_exprs_redirect he with ⟨e', he', rfl⟩ | ⟨hside, hroot⟩
  · obtain ⟨name, hname, hn⟩ := Expr.mem_refs_redirect.1 hn
    exact ⟨name, List.mem_flatMap.2 ⟨e', he', hname⟩, hn⟩
  · -- a left side that stayed is a clock on which no channel has a claim
    obtain ⟨name, hname, hclock⟩ : ∃ name, e.root? = some name ∧ name ∈ m.clockSignals := by
      unfold Expr.isRootedIn at hroot
      cases hfound : e.root? with
      | none => rw [hfound] at hroot; cases hroot
      | some name => exact ⟨name, rfl, by simpa [hfound] using hroot⟩
    obtain ⟨rfl, hfree⟩ := hclocks s hs e hside name hname (mem_clockSignals.1 hclock)
    have hself : t.plan.standIn name = none := by rw [Plan.standIn, h.planned.not_placed hfree]; rfl
    refine ⟨name, List.mem_flatMap.2 ⟨.ref name, ?_, List.mem_singleton_self name⟩, by rwa [hself]⟩
    cases s with
    | connect | partialConnect => cases hside; exact List.mem_cons_self ..
    | _ => cases hside

theorem scoped_logic (h : m.Modelled a host config t) (hm : m.WellNamed config) (hscoped : m.Scoped)
    (hclocks : m.DrivesWholeClocks t.channels) :
    Stmt.Scoped (t.ports.map (·.name) ++ t.declarations.flatMap Stmt.declaredNames)
      (t.logic.flatMap Stmt.preorder) := by
  rw [h.logic, redirectedBody, Stmt.scoped_members, Stmt.preorder_redirect]
  refine hscoped.redirect (fun s hs n hn => h.refs_logic hclocks hs hn) ?_ ?_
  · -- a declared name is no port, so nothing stands for it
    intro s hs name hname
    have hdeclared : name ∈ m.body.declaredNames := List.mem_filterMap.2 ⟨s, hs, hname⟩
    have hfree : t.plan.placements.get? name = none := h.planned.not_placed fun c hc hlists => by
      obtain ⟨q, hq, rfl⟩ := List.mem_map.1 hlists
      have hport : q.name ∈ m.ports.map (·.name) := List.mem_map_of_mem (h.planned.mem_ports hc hq)
      exact (List.nodup_append.1 hm.distinct).2.2 _ hport _ hdeclared rfl
    rw [Plan.standIn, hfree]
    rfl
  · intro name hname n hn
    cases hstands : t.plan.standIn name with
    | some value =>
      rw [hstands] at hn
      obtain ⟨x, hx, rfl⟩ := h.planned.refs_standIn hstands hn
      exact h.part_known hx
    | none =>
      -- a port without a place has become a wire
      rw [hstands] at hn
      obtain rfl : n = name := List.mem_singleton.1 hn
      obtain ⟨q, hq, rfl⟩ := List.mem_map.1 hname
      have hfree : q.name ∉ t.plan.placements := fun hplaced => by
        obtain ⟨placement, hget⟩ := OrderedMap.mem_iff_get?.1 hplaced
        simp [Plan.standIn, hget] at hstands
      have hkept : q.name ∈ (t.plan.retained m).map (·.name) :=
        List.mem_map_of_mem (List.mem_filter.2 ⟨hq, by simpa using hfree⟩)
      rw [h.declarations, Plan.declaredNames_declarations]
      simp only [List.mem_append, List.mem_cons]
      tauto

/-- A port that a channel lists is no name of the token-driven module. -/
theorem listed_not_mem (h : m.Modelled a host config t) (hm : m.WellNamed config) {c : Channel} (hc : c ∈ t.channels)
    {port : String} (hport : c.Lists port) : port ∉ t.module.ownNames := by
  intro hown
  have hown := h.ownNames_perm.mem_iff.1 hown
  obtain ⟨q, hq, rfl⟩ := List.mem_map.1 hport
  have hold : q.name ∈ m.ports.map (·.name) := List.mem_map_of_mem (h.planned.mem_ports hc hq)
  have hnames : q.name ∈ m.ownNames := List.mem_append_left _ hold
  simp only [List.mem_append, List.mem_cons, List.not_mem_nil, or_false] at hown
  rcases hown with ((hhost | hpart) | hkept) | hdeclared
  · rcases hhost with heq | heq
    · exact hm.clock (heq ▸ hnames)
    · exact hm.reset (heq ▸ hnames)
  · obtain ⟨x, hx, heq⟩ := List.mem_map.1 hpart
    exact h.planned.part_not_mem hx (mem_initialNames.2 (.inr (.inr (heq ▸ hnames))))
  · obtain ⟨q', hq', heq⟩ := List.mem_map.1 hkept
    have hfree : q'.name ∉ t.plan.placements := by simpa using (List.mem_filter.1 hq').2
    exact hfree (heq ▸ h.planned.placed_of_lists hc hport)
  · exact (List.nodup_append.1 hm.distinct).2.2 _ hold _ hdeclared rfl

end Module.Modelled

/-- In the body of a token-driven module every reference names a port or what an earlier statement declares, if that is
so in the module it was made from. The ports that channels list are not referred to any more. -/
theorem Module.tokenModel_declared_before_use {m : Module} {a : Analysis} {config : Config} {t : TokenModel}
    (hm : m.WellNamed config) (hscoped : m.Scoped) (h : (m.tokenModel a (.ofConfig config) config).outcome = .ok t)
    (hclocks : m.DrivesWholeClocks t.channels) :
    t.module.Scoped ∧
      ∀ c ∈ t.channels, ∀ port, c.Lists port → ∀ s ∈ t.module.body.preorder, port ∉ s.refs := by
  have hmodel := tokenModel_ok h
  have hbody : t.module.Scoped := by
    have hlogic := hmodel.scoped_logic hm hscoped hclocks
    refine Stmt.scoped_members.1 ?_
    rw [TokenModel.module, Stmt.members, List.flatMap_append, List.flatMap_append, Stmt.scoped_append,
      Stmt.scoped_append, List.filterMap_append, Stmt.filterMap_preorder, Stmt.filterMap_preorder, ← List.append_assoc]
    exact ⟨⟨hmodel.scoped_declarations, hlogic⟩, hmodel.scoped_rules.mono fun n hn => List.mem_append_left _ hn⟩
  refine ⟨hbody, fun c hc port hport s hs href => hmodel.listed_not_mem hm hc hport ?_⟩
  exact hbody.mem_of_refs hs href

namespace Demo.Sampler

/-- The sampler with its fast clock passed on, by way of an inner clock. -/
def forwarder : Module where
  name := sampler.name
  ports := sampler.ports ++ [.output "clock_out" .clock]
  body := .block (sampler.body.members ++ [
    .wire "tap" .clock,
    .connect (.ref "tap") (.ref "clock_fast"),
    .connect (.ref "clock_out") (.ref "tap")])

theorem wellNamed_forwarder : forwarder.WellNamed {} where
  distinct := by decide +kernel
  hosts := by decide
  clock := by decide +kernel
  reset := by decide +kernel

/-- With an inner clock and a clock that is passed on, the forwarder meets all conditions. -/
theorem forwarder_declared_before_use : ∃ t, (forwarder.tokenModel analysis (.ofConfig {}) {}).outcome = .ok t ∧
    forwarder.WellNamed {} ∧ forwarder.Scoped ∧ forwarder.DrivesWholeClocks t.channels ∧ t.module.Scoped ∧
      ∀ s ∈ t.module.body.preorder, "in_step" ∉ s.refs := by
  have h : ((forwarder.tokenModel analysis (.ofConfig {}) {}).outcome.toOption.map fun t =>
      t.channels.map fun c => c.ports.map (·.name)) =
      some [["clock_fast", "clock_slow"], ["in_reset", "in_step"], ["count"], ["sample"]] := by
    decide +kernel
  obtain ⟨t, ht, hports⟩ := exists_ok_of_map h
  have hscoped : forwarder.Scoped := by decide +kernel
  have hclocks : forwarder.DrivesWholeClocks t.channels := by
    have hsides :
        ∀ s ∈ forwarder.body.preorder, ∀ loc ∈ s.leftSide?, ∀ name ∈ loc.root?, name ∈ forwarder.clockSignals →
        loc = .ref name ∧ ∀ names ∈ [["clock_fast", "clock_slow"], ["in_reset", "in_step"], ["count"], ["sample"]],
          name ∉ names := by
      decide +kernel
    intro s hs loc hloc name hname hclock
    obtain ⟨heq, hfree⟩ := hsides s hs loc hloc name hname (Module.mem_clockSignals.2 hclock)
    refine ⟨heq, fun c hc => hfree _ ?_⟩
    rw [← hports]
    exact List.mem_map_of_mem hc
  obtain ⟨hbody, hgone⟩ := Module.tokenModel_declared_before_use wellNamed_forwarder hscoped ht hclocks
  refine ⟨t, ht, wellNamed_forwarder, hscoped, hclocks, hbody, fun s hs => ?_⟩
  have hlisted : ["in_reset", "in_step"] ∈ t.channels.map fun c => c.ports.map (·.name) := by
    rw [hports]
    decide
  obtain ⟨c, hc, hnames⟩ := List.mem_map.1 hlisted
  have hlists : c.Lists "in_step" := by
    rw [Channel.Lists, hnames]
    decide
  exact hgone c hc "in_step" hlists s hs

end Demo.Sampler

end TokenCircuit
