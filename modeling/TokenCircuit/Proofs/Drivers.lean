import TokenCircuit.Proofs.Scoping
import Mathlib.Data.List.Induction

/-!
# One driver for each signal of the protocol

A later connection overrides an earlier one, also when it drives only a part of the same signal or all that is around
it. So the signals of the protocol must be kept apart from each other and from whatever the logic of the module drives.
Both are chains of fields that start at a part of the protocol: the rules have places of their own, and what stands for
a port lies below the bits of a host port or at the output of a gate, where no rule drives anything.
-/

namespace TokenCircuit

namespace Expr

/-- The expression is `whole` or a part of it, at any depth. -/
inductive Encloses (whole : Expr) : Expr → Prop
  | refl : Encloses whole whole
  | field {e : Expr} {name : String} : Encloses whole e → Encloses whole (.field e name)
  | index {e : Expr} {position : Nat} : Encloses whole e → Encloses whole (.index e position)
  | access {e position : Expr} : Encloses whole e → Encloses whole (.access e position)

/-- One of the two is the other or a part of it. -/
def Overlaps (e e' : Expr) : Prop := e.Encloses e' ∨ e'.Encloses e

namespace Encloses

variable {a b c : Expr}

theorem trans (h : a.Encloses b) (h' : b.Encloses c) : a.Encloses c := by
  induction h' with
  | refl => exact h
  | field _ ih => exact ih.field
  | index _ ih => exact ih.index
  | access _ ih => exact ih.access

theorem root? (h : a.Encloses b) : b.root? = a.root? := by
  induction h with
  | refl => rfl
  | field _ ih => exact ih
  | index _ ih => exact ih
  | access _ ih => exact ih

/-- All that encloses an expression is nested. -/
theorem overlaps (h : a.Encloses c) (h' : b.Encloses c) : a.Overlaps b := by
  induction h with
  | refl => exact .inr h'
  | field hae ih =>
    cases h' with
    | refl => exact .inl hae.field
    | field hbe => exact ih hbe
  | index hae ih =>
    cases h' with
    | refl => exact .inl hae.index
    | index hbe => exact ih hbe
  | access hae ih =>
    cases h' with
    | refl => exact .inl hae.access
    | access hbe => exact ih hbe

end Encloses

theorem Overlaps.of_encloses {a b c : Expr} (hab : a.Encloses b) (h : b.Overlaps c) : a.Overlaps c := by
  rcases h with hbc | hcb
  · exact .inl (hab.trans hbc)
  · exact hab.overlaps hcb

theorem Overlaps.root?_eq {a b : Expr} (h : a.Overlaps b) : a.root? = b.root? := by
  rcases h with h | h
  · exact h.root?.symm
  · exact h.root?

theorem follow_concat {e : Expr} {path : List String} {name : String} :
    e.follow (path ++ [name]) = .field (e.follow path) name := by
  rw [follow, List.foldl_append]
  rfl

theorem isPrefix_of_encloses {n n' : String} {path path' : List String}
    (h : ((Expr.ref n).follow path).Encloses ((Expr.ref n').follow path')) : path <+: path' := by
  induction path' using List.reverseRecOn with
  | nil =>
    have hnil : (Expr.ref n).follow path = (Expr.ref n').follow [] := by
      generalize (Expr.ref n).follow path = e at h
      cases h
      rfl
    exact (follow_ref_inj hnil).2 ▸ List.prefix_rfl
  | append_singleton path' name ih =>
    rw [follow_concat] at h
    generalize he : (Expr.ref n).follow path = e at h
    cases h with
    | refl =>
      rw [← follow_concat] at he
      exact (follow_ref_inj he).2 ▸ List.prefix_rfl
    | field h => exact (ih (he ▸ h)).trans (List.prefix_append _ _)

/-- Chains of fields that overlap start at the same component, and one path begins the other. -/
theorem isPrefix_of_overlaps {n n' : String} {path path' : List String}
    (h : ((Expr.ref n).follow path).Overlaps ((Expr.ref n').follow path')) :
    n = n' ∧ (path <+: path' ∨ path' <+: path) := by
  have hroot := h.root?_eq
  rw [root?_follow, root?_follow] at hroot
  exact ⟨Option.some.inj hroot, h.imp isPrefix_of_encloses isPrefix_of_encloses⟩

theorem mem_refs_of_root? {e : Expr} {name : String} (h : e.root? = some name) : name ∈ e.refs := by
  induction e with
  | ref n => cases h; exact List.mem_singleton_self _
  | field base _ ih => exact ih h
  | index base _ ih => exact ih h
  | access base position ih _ => exact List.mem_append_left _ (ih h)
  | mux | validIf | literal | prim => cases h

/-- A redirected chain goes on from what stands for its root. -/
theorem encloses_redirect {σ : String → Option Expr} {e : Expr} {name : String} (h : e.root? = some name) :
    ((σ name).getD (.ref name)).Encloses (e.redirect σ) := by
  rw [redirect_eq_subst]
  induction e with
  | ref n => cases h; exact .refl
  | field base _ ih => exact (ih h).field
  | index base _ ih => exact (ih h).index
  | access base position ih _ => exact (ih h).access
  | mux | validIf | literal | prim => cases h

theorem root?_redirect_none {σ : String → Option Expr} {e : Expr} (h : e.root? = none) :
    (e.redirect σ).root? = none := by
  rw [redirect_eq_subst]
  induction e with
  | ref n => cases h
  | field base _ ih => exact ih h
  | index base _ ih => exact ih h
  | access base position ih _ => exact ih h
  | mux | validIf | literal | prim => rfl

end Expr

namespace Stmt

variable {s : Stmt} {place : Expr} {σ : String → Option Expr} {clocks : List String}

/-- What the statement itself drives. -/
def target? : Stmt → Option Expr
  | .connect loc _ | .partialConnect loc _ => some loc
  | .invalid target => some target
  | _ => none

/-- The statement, or one nested in it, drives the place, a part of it or all that is around it. -/
def Touches (s : Stmt) (place : Expr) : Prop := ∃ s' ∈ s.preorder, ∃ target ∈ s'.target?, target.Overlaps place

/-- The statement drives the place and nothing else. -/
def Drives (s : Stmt) (place : Expr) : Prop :=
  (∃ s' ∈ s.preorder, s'.target? = some place) ∧ ∀ s' ∈ s.preorder, ∀ target ∈ s'.target?, target = place

theorem drives_connect (place value : Expr) : (Stmt.connect place value).Drives place := by
  refine ⟨⟨_, List.mem_singleton_self _, rfl⟩, fun s' hs' target htarget => ?_⟩
  obtain rfl := List.mem_singleton.1 hs'
  exact (Option.some.inj htarget).symm

theorem drives_when {pred value : Expr} {alt : Stmt}
    (halt : ∀ s' ∈ alt.preorder, ∀ target ∈ s'.target?, target = place) :
    (Stmt.when pred (.connect place value) alt).Drives place := by
  have hpre : (Stmt.when pred (.connect place value) alt).preorder =
      .when pred (.connect place value) alt :: .connect place value :: alt.preorder := by
    rw [preorder]
    rfl
  rw [Drives, hpre]
  refine ⟨⟨.connect place value, by simp, rfl⟩, fun s' hs' target htarget => ?_⟩
  rcases List.mem_cons.1 hs' with rfl | hs'
  · cases htarget
  · rcases List.mem_cons.1 hs' with rfl | hs'
    · exact (Option.some.inj htarget).symm
    · exact halt s' hs' target htarget

theorem Drives.overlaps {place' : Expr} (h : s.Drives place) (htouches : s.Touches place') : place.Overlaps place' := by
  obtain ⟨s', hs', target, htarget, hoverlaps⟩ := htouches
  rwa [h.2 s' hs' target htarget] at hoverlaps

theorem mem_preorder_of_members {whole s' : Stmt} (hs : s ∈ whole.members) (hs' : s' ∈ s.preorder) :
    s' ∈ whole.preorder := by
  cases whole with
  | block body =>
    rw [preorder, preorderList_eq_flatMap]
    exact List.mem_cons_of_mem _ (List.mem_flatMap.2 ⟨s, hs, hs'⟩)
  | _ => rwa [List.mem_singleton.1 hs] at hs'

theorem mem_exprs_of_target? {target : Expr} (h : s.target? = some target) : target ∈ s.exprs := by
  cases s with
  | connect | partialConnect | invalid => cases h; exact List.mem_cons_self ..
  | _ => cases h

theorem target?_redirect {target : Expr} (h : (s.redirect σ clocks).target? = some target) :
    ∃ e, s.target? = some e ∧ (target = e.redirect σ ∨ (target = e ∧ e.isRootedIn clocks = true)) := by
  cases s with
  | connect loc value => exact ⟨loc, rfl, eq_of_side (Option.some.inj h).symm⟩
  | partialConnect loc value => exact ⟨loc, rfl, eq_of_side (Option.some.inj h).symm⟩
  | invalid e => exact ⟨e, rfl, .inl (Option.some.inj h).symm⟩
  | when pred conseq alt => rw [redirect_when] at h; cases h
  | block body => rw [redirect_block] at h; cases h
  | _ => cases h

end Stmt

/-! ### The places of the rules -/

namespace Plan

variable {p : Plan} {host : HostSignals} {g : Connectivity}

/-- The signals that the protocol works by. -/
def signals (p : Plan) : List Expr :=
  [p.finishing, p.domains.doneInit] ++
    p.domains.all.flatMap (fun c => [c.enable, .field (.ref c.buffer) "I", .field (.ref c.buffer) "CE"]) ++
    p.interface.data.map (·.isFired) ++ p.interface.inputs.map (·.ready) ++ p.interface.outputs.map (·.valid) ++
    p.interface.clock.group?.toList.map (fun group => Handshake.ready (sinkName group.name)) ++
    (p.interface.outputs.filter (·.timestamped)).map (fun d => Handshake.time d.hostPort) ++
    p.domains.simTime.toList.map fun t => .ref t.reg

theorem drives_statement (x : Rule) : (p.statement host g x).Drives (p.place x) := by
  have hskip : ∀ s' ∈ Stmt.skip.preorder, ∀ target ∈ s'.target?, target = p.place x := by
    intro s' hs' target htarget
    obtain rfl := List.mem_singleton.1 hs'
    cases htarget
  cases x with
  | doneInit => exact Stmt.drives_when hskip
  | simTime t => exact Stmt.drives_when hskip
  | fired d => exact Stmt.drives_when (Stmt.drives_connect _ _).2
  | _ => exact Stmt.drives_connect _ _

end Plan

namespace Module.Planned

variable {m : Module} {a : Analysis} {config : Config} {p : Plan}

open Plan

theorem nodup_parts (h : m.Planned a config p) : p.parts.Nodup := by
  obtain ⟨t, hgrows⟩ := h.names
  exact hgrows.nodup.of_map _

theorem nodup_domains (h : m.Planned a config p) : p.domains.all.Nodup := by
  have hsub : (p.domains.all.flatMap fun c => [Part.enable c, .gate c, .flag c]).Sublist p.parts := by
    simp only [parts, List.append_assoc, List.cons_append]
    exact ((((List.sublist_append_left _ _).cons _).trans (List.sublist_append_right _ _)).trans
      (List.sublist_append_right _ _))
  refine (List.nodup_flatMap.1 (h.nodup_parts.sublist hsub)).2.imp ?_
  rintro c _ hdisjoint rfl
  exact hdisjoint (List.mem_cons_self ..) (List.mem_cons_self ..)

theorem nodup_data (h : m.Planned a config p) : p.interface.data.Nodup :=
  (h.nodup_parts.sublist (List.sublist_append_right _ (p.interface.data.map Part.fired))).of_map _

theorem nodup_rules (h : m.Planned a config p) : p.rules.Nodup := by
  have hgates : (p.domains.all.flatMap fun c => [Rule.gateSource c, .gateEnable c, .enable c]).Nodup := by
    refine List.nodup_flatMap.2 ⟨fun c _ => by simp, h.nodup_domains.imp fun hne => ?_⟩
    simpa [Function.onFun, List.Disjoint] using hne
  have hfired : (p.interface.data.map Rule.fired).Nodup := h.nodup_data.map fun _ _ heq => by injection heq
  have haccept : (p.interface.inputs.map Rule.accept).Nodup :=
    h.nodup_data.of_append_left.map fun _ _ heq => by injection heq
  have hoffer : (p.interface.outputs.map Rule.offer).Nodup :=
    h.nodup_data.of_append_right.map fun _ _ heq => by injection heq
  have hclock : (p.interface.clock.group?.toList.map Rule.clockReady).Nodup := by
    cases p.interface.clock.group? <;> simp
  have hstamp : (if p.domains.simTime.isSome then (p.interface.outputs.filter (·.timestamped)).map Rule.stamp
      else []).Nodup := by
    split
    · exact (h.nodup_data.of_append_right.filter _).map fun _ _ heq => by injection heq
    · exact List.nodup_nil
  have htime : (p.domains.simTime.toList.map Rule.simTime).Nodup := by
    cases p.domains.simTime <;> simp
  -- what is left is that two lists hold rules of different kinds
  simp only [rules, List.cons_append, List.nodup_cons, List.nodup_append, hgates, hfired, haccept, hoffer, hclock,
    hstamp, htime, List.not_mem_nil, not_false_iff, List.nodup_nil, true_and]
  and_intros
  all_goals
    simp only [List.mem_append, List.mem_flatMap, List.mem_map, List.mem_cons, List.not_mem_nil, List.mem_ite_nil_right]
    grind

/-- No two rules drive places that overlap. -/
theorem eq_of_overlaps (h : m.Planned a config p) {x y : Rule} (hx : x ∈ p.rules) (hy : y ∈ p.rules)
    (hoverlaps : (p.place x).Overlaps (p.place y)) : x = y := by
  obtain ⟨hname, hpath⟩ := Expr.isPrefix_of_overlaps hoverlaps
  have hpart : x.part = y.part := h.part_eq (part_mem_of_rules hx) (part_mem_of_rules hy) hname
  have hfound : ∀ {x y : Rule}, x.part = y.part → x.path <+: y.path → x = y := by
    rintro x y hpart ⟨rest, hrest⟩
    have hx := x.at?_path rest
    rw [hpart, hrest, ← List.append_nil y.path, y.at?_path] at hx
    exact (Option.some.inj hx).symm
  rcases hpath with hpath | hpath
  · exact hfound hpart hpath
  · exact (hfound hpart.symm hpath).symm

/-- Every signal of the protocol is the place of a rule. -/
theorem exists_rule (h : m.Planned a config p) {place : Expr} (hplace : place ∈ p.signals) :
    ∃ x ∈ p.rules, p.place x = place := by
  have hstamps : ∀ d ∈ p.interface.outputs, d.timestamped = true → p.domains.simTime.isSome = true := by
    intro d hd htime
    obtain ⟨spec, -, hmakes⟩ := exists_mem_left h.outputs hd
    exact hmakes.timeBase htime
  simp only [signals, List.mem_append, List.mem_cons, List.mem_flatMap, List.mem_map, List.mem_filter, List.not_mem_nil,
    or_false] at hplace
  simp only [rules, List.cons_append, List.mem_cons, List.mem_append, List.mem_flatMap, List.mem_map,
    List.mem_ite_nil_right, List.mem_filter, List.not_mem_nil, or_false]
  rcases hplace with (((((((rfl | rfl) | ⟨c, hc, rfl | rfl | rfl⟩) | ⟨d, hd, rfl⟩) | ⟨d, hd, rfl⟩) | ⟨d, hd, rfl⟩) |
    ⟨g, hg, rfl⟩) | ⟨d, ⟨hd, htime⟩, rfl⟩) | ⟨t, ht, rfl⟩
  · exact ⟨.finishing, by simp, rfl⟩
  · exact ⟨.doneInit, by simp, rfl⟩
  · exact ⟨.enable c, by simp [hc], rfl⟩
  · exact ⟨.gateSource c, by simp [hc], rfl⟩
  · exact ⟨.gateEnable c, by simp [hc], rfl⟩
  · exact ⟨.fired d, by simp [hd], rfl⟩
  · exact ⟨.accept d, by simp [hd], rfl⟩
  · exact ⟨.offer d, by simp [hd], rfl⟩
  · exact ⟨.clockReady g, by simpa using hg, rfl⟩
  · exact ⟨.stamp d, by simp [hd, htime, hstamps d hd htime], rfl⟩
  · exact ⟨.simTime t, by simpa using ht, rfl⟩

theorem timestamped_of_stamp {d : DataChannel} (hx : .stamp d ∈ p.rules) : d.timestamped = true := by
  have hx : p.domains.simTime.isSome = true ∧ d ∈ p.interface.outputs ∧ d.timestamped = true := by
    simpa [rules] using hx
  exact hx.2.2

/-- What stands for a port is apart from what the rules drive. -/
theorem not_overlaps_standIn (h : m.Planned a config p) {port : String} {value : Expr}
    (hvalue : p.standIn port = some value) {x : Rule} (hx : x ∈ p.rules) : ¬ value.Overlaps (p.place x) := by
  intro hoverlaps
  rcases h.standIn_ok hvalue with ⟨c, hc, rfl⟩ | ⟨d, hd, rest, rfl, htime⟩
  · have hoverlaps : ((Expr.ref (p.nameOf (.gate c))).follow [ClockGate.gated]).Overlaps (p.place x) := hoverlaps
    obtain ⟨hname, hpath⟩ := Expr.isPrefix_of_overlaps hoverlaps
    have hpart := h.part_eq (gate_mem_parts.2 hc) (part_mem_of_rules hx) hname
    cases x with
    | gateSource | gateEnable => simp [Rule.path, ClockGate.source, ClockGate.enable, ClockGate.gated] at hpath
    | _ => cases hpart
  · have hoverlaps : ((Expr.ref (p.nameOf (.hostPort d))).follow ("bits" :: rest)).Overlaps (p.place x) := hoverlaps
    obtain ⟨hname, hpath⟩ := Expr.isPrefix_of_overlaps hoverlaps
    have hpart := h.part_eq (hostPort_mem_parts.2 hd) (part_mem_of_rules hx) hname
    cases x with
    | accept | offer => simp [Rule.path, List.cons_prefix_cons] at hpath
    | stamp d' =>
      -- the time stands beside the data, and the port lies in the data
      cases hpart
      have hdata := htime (timestamped_of_stamp hx)
      cases rest with
      | nil => cases hdata
      | cons name rest =>
        cases hdata
        simp [Rule.path, List.cons_prefix_cons] at hpath
    | _ => cases hpart

end Module.Planned

/-! ### The body as a whole -/

namespace Module.Modelled

variable {m : Module} {a : Analysis} {host : HostSignals} {config : Config} {t : TokenModel}

theorem not_touches_declarations (h : m.Modelled a host config t) {s : Stmt} (hs : s ∈ t.declarations) (place : Expr) :
    ¬ s.Touches place := by
  rintro ⟨s', hs', target, htarget, -⟩
  rw [h.declarations] at hs
  rcases Plan.mem_declarations.1 hs with ⟨y, -, hdeclared⟩ | ⟨port, -, rfl⟩
  · cases y <;> cases hdeclared <;> cases List.mem_singleton.1 hs' <;> cases htarget
  · cases List.mem_singleton.1 hs'
    cases htarget

/-- The logic leaves the places of the rules alone. -/
theorem not_touches_logic (h : m.Modelled a host config t)
    (hrefs : ∀ s ∈ m.body.preorder, ∀ name ∈ s.refs, name ∈ m.ownNames) {s : Stmt} (hs : s ∈ t.logic) {x : Rule}
    (hx : x ∈ t.plan.rules) : ¬ s.Touches (t.plan.place x) := by
  rintro ⟨s', hs', target, htarget, hoverlaps⟩
  obtain ⟨old, hold, rfl⟩ : ∃ old ∈ m.body.preorder, old.redirect t.plan.standIn m.clockSignals = s' := by
    rw [h.logic] at hs
    have hs' := Stmt.mem_preorder_of_members hs hs'
    rwa [Stmt.preorder_redirect, List.mem_map] at hs'
  obtain ⟨e, he, htarget⟩ := Stmt.target?_redirect htarget
  have hplace : (t.plan.place x).root? = some (t.plan.nameOf x.part) := Expr.root?_follow
  -- the place starts at a part of the protocol, whose name is not one of the module
  have hforeign : ∀ {n : String}, e.root? = some n → n ≠ t.plan.nameOf x.part := by
    rintro n hroot rfl
    have hown := hrefs old hold _ (List.mem_flatMap.2 ⟨e, Stmt.mem_exprs_of_target? he, Expr.mem_refs_of_root? hroot⟩)
    exact h.planned.part_not_mem (Plan.part_mem_of_rules hx) (mem_initialNames.2 (.inr (.inr hown)))
  rcases htarget with rfl | ⟨rfl, -⟩
  · cases hroot : e.root? with
    | none =>
      have hsame := hoverlaps.root?_eq
      rw [Expr.root?_redirect_none hroot, hplace] at hsame
      cases hsame
    | some n =>
      have hvalue := hoverlaps.of_encloses (Expr.encloses_redirect hroot)
      cases hstands : t.plan.standIn n with
      | some value =>
        rw [hstands] at hvalue
        exact h.planned.not_overlaps_standIn hstands hx hvalue
      | none =>
        rw [hstands] at hvalue
        have hsame := hvalue.root?_eq
        rw [hplace] at hsame
        exact hforeign hroot (Option.some.inj hsame)
  · exact hforeign (hoverlaps.root?_eq.trans hplace) rfl

end Module.Modelled

/-- Each signal of the protocol is driven by one statement of the body and by no other, also not in part or as part of
something larger. In particular the logic of the module leaves them alone. -/
theorem Module.tokenModel_signal_driven_once {m : Module} {a : Analysis} {host : HostSignals} {config : Config}
    {t : TokenModel} (hrefs : ∀ s ∈ m.body.preorder, ∀ name ∈ s.refs, name ∈ m.ownNames)
    (h : (m.tokenModel a host config).outcome = .ok t) :
    ∀ place ∈ t.plan.signals,
      (∃ before s after, t.module.body = .block (before ++ s :: after) ∧ s.Drives place ∧
        ∀ s' ∈ before ++ after, ¬ s'.Touches place) ∧
      ∀ s ∈ m.redirectedBody t.plan.standIn, s ∈ t.module.body.members ∧ ¬ s.Touches place := by
  have hmodel := tokenModel_ok h
  intro place hplace
  obtain ⟨x, hx, rfl⟩ := hmodel.planned.exists_rule hplace
  have hlogic : ∀ s ∈ t.logic, ¬ s.Touches (t.plan.place x) := fun s hs => hmodel.not_touches_logic hrefs hs hx
  refine ⟨?_, fun s hs => ?_⟩
  · obtain ⟨pre, post, hsplit⟩ := List.append_of_mem hx
    let written := t.plan.statement host (a.connectivity m.name)
    refine ⟨t.declarations ++ t.logic ++ pre.map written, written x, post.map written, ?_, Plan.drives_statement x, ?_⟩
    · rw [TokenModel.module, hmodel.rules, Plan.firingRules_eq hmodel.planned.dependencies, hsplit, List.map_append,
        List.map_cons, ← List.append_assoc]
    · intro s' hs'
      have hcases : (s' ∈ t.declarations ∨ s' ∈ t.logic) ∨ ∃ y, (y ∈ pre ∨ y ∈ post) ∧ written y = s' := by
        simp only [List.mem_append, List.mem_map] at hs'
        grind
      rcases hcases with (hs' | hs') | ⟨y, hy, rfl⟩
      · exact hmodel.not_touches_declarations hs' _
      · exact hlogic s' hs'
      · intro htouches
        have hrule : y ∈ t.plan.rules := by
          rw [hsplit]
          rcases hy with hy | hy <;> simp [hy]
        have hsame := hmodel.planned.eq_of_overlaps hrule hx ((Plan.drives_statement y).overlaps htouches)
        -- a rule is written once
        have hnodup := hmodel.planned.nodup_rules
        rw [hsplit, List.nodup_middle, List.nodup_cons, List.mem_append] at hnodup
        exact hnodup.1 (hsame ▸ hy)
  · rw [← hmodel.logic] at hs
    exact ⟨List.mem_append_left _ (List.mem_append_right _ hs), hlogic s hs⟩

namespace Demo.Sampler

/-- The time of a sample has one driver, though the logic drives the sample beside it. -/
theorem sample_time_driven_once : (∀ s ∈ sampler.body.preorder, ∀ name ∈ s.refs, name ∈ sampler.ownNames) ∧
    ∃ t, (sampler.tokenModel analysis (.ofConfig {}) {}).outcome = .ok t ∧
      .connect ((Expr.ref "sample_source").follow ["bits", "data"]) (.ref "sampled") ∈ t.logic ∧
      ∃ before s after, t.module.body = .block (before ++ s :: after) ∧ s.Drives (Handshake.time "sample_source") ∧
        ∀ s' ∈ before ++ after, ¬ s'.Touches (Handshake.time "sample_source") := by
  have hrefs : ∀ s ∈ sampler.body.preorder, ∀ name ∈ s.refs, name ∈ sampler.ownNames := by decide +kernel
  have h : ((sampler.tokenModel analysis (.ofConfig {}) {}).outcome.toOption.map fun t =>
      decide (Handshake.time "sample_source" ∈ t.plan.signals ∧
        .connect ((Expr.ref "sample_source").follow ["bits", "data"]) (.ref "sampled") ∈ t.logic)) = some true := by
    decide +kernel
  obtain ⟨t, ht, hfound⟩ := exists_ok_of_map h
  obtain ⟨hsignal, hlogic⟩ := of_decide_eq_true hfound
  exact ⟨hrefs, t, ht, hlogic, (Module.tokenModel_signal_driven_once hrefs ht _ hsignal).1⟩

end Demo.Sampler

end TokenCircuit
