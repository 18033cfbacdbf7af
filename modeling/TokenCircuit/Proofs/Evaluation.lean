import TokenCircuit.Model.Logic

/-!
# What expressions mean

An interpretation says what each way of forming an expression makes of the values of the parts; with a value for every
component it gives every expression a value (`Expr.eval`). Redirecting references is a simultaneous substitution
(`Expr.redirect_eq_subst`), and a substituted expression means what the old one does when every component means what
stands for it (`Expr.eval_subst`). The value depends on no component but those that the expression names.
-/

namespace TokenCircuit

universe u

/-- A meaning for every way of forming an expression. What a component means is left to the environment. -/
structure Interpretation (V : Type u) where
  field : V → String → V
  index : V → Nat → V
  access : V → V → V
  mux : V → V → V → V
  validIf : V → V → V
  literal : Nat → Nat → V
  prim : PrimOp → List V → List Nat → V

namespace Expr

variable {V : Type u}

mutual

/-- The value of an expression, given the values of the components. -/
def eval (I : Interpretation V) (r : String → V) : Expr → V
  | .ref name => r name
  | .field base name => I.field (base.eval I r) name
  | .index base position => I.index (base.eval I r) position
  | .access base position => I.access (base.eval I r) (position.eval I r)
  | .mux cond high low => I.mux (cond.eval I r) (high.eval I r) (low.eval I r)
  | .validIf cond value => I.validIf (cond.eval I r) (value.eval I r)
  | .literal value width => I.literal value width
  | .prim op args consts => I.prim op (evalList I r args) consts

def evalList (I : Interpretation V) (r : String → V) : List Expr → List V
  | [] => []
  | e :: es => e.eval I r :: evalList I r es

end

@[simp] theorem evalList_eq_map (I : Interpretation V) (r : String → V) (es : List Expr) :
    evalList I r es = es.map (eval I r) := by
  induction es with
  | nil => rfl
  | cons e es ih => simp [evalList, ih]

mutual

/-- Puts `σ name` in the place of every component, all at once: what is put in is not looked at again. -/
def subst (σ : String → Expr) : Expr → Expr
  | .ref name => σ name
  | .field base name => .field (base.subst σ) name
  | .index base position => .index (base.subst σ) position
  | .access base position => .access (base.subst σ) (position.subst σ)
  | .mux cond high low => .mux (cond.subst σ) (high.subst σ) (low.subst σ)
  | .validIf cond value => .validIf (cond.subst σ) (value.subst σ)
  | .literal value width => .literal value width
  | .prim op args consts => .prim op (substList σ args) consts

def substList (σ : String → Expr) : List Expr → List Expr
  | [] => []
  | e :: es => e.subst σ :: substList σ es

end

@[simp] theorem substList_eq_map (σ : String → Expr) (es : List Expr) : substList σ es = es.map (subst σ) := by
  induction es with
  | nil => rfl
  | cons e es ih => simp [substList, ih]

theorem redirect_eq_subst (σ : String → Option Expr) (e : Expr) :
    e.redirect σ = e.subst fun name => (σ name).getD (.ref name) := by
  unfold redirect
  induction e with
  | ref name => rfl
  | literal value width => rfl
  | field base name ih => simp [mapUp, replaceRef, subst, ih]
  | index base position ih => simp [mapUp, replaceRef, subst, ih]
  | access base position ihb ihp => simp [mapUp, replaceRef, subst, ihb, ihp]
  | mux cond high low ihc ihh ihl => simp [mapUp, replaceRef, subst, ihc, ihh, ihl]
  | validIf cond value ihc ihv => simp [mapUp, replaceRef, subst, ihc, ihv]
  | prim op args consts ih =>
    simp only [mapUp, replaceRef, subst, mapUpList_eq_map, substList_eq_map]
    rw [List.map_congr_left ih]

theorem eval_subst (I : Interpretation V) (r : String → V) (σ : String → Expr) (e : Expr) :
    (e.subst σ).eval I r = e.eval I fun name => (σ name).eval I r := by
  induction e with
  | ref name => rfl
  | literal value width => rfl
  | field base name ih => simp [subst, eval, ih]
  | index base position ih => simp [subst, eval, ih]
  | access base position ihb ihp => simp [subst, eval, ihb, ihp]
  | mux cond high low ihc ihh ihl => simp [subst, eval, ihc, ihh, ihl]
  | validIf cond value ihc ihv => simp [subst, eval, ihc, ihv]
  | prim op args consts ih =>
    simp only [subst, eval, substList_eq_map, evalList_eq_map, List.map_map]
    exact congrArg (I.prim op · consts) (List.map_congr_left ih)

mutual

/-- The components that an expression names, at any depth. -/
def refs : Expr → List String
  | .ref name => [name]
  | .field base _ => base.refs
  | .index base _ => base.refs
  | .access base position => base.refs ++ position.refs
  | .mux cond high low => cond.refs ++ high.refs ++ low.refs
  | .validIf cond value => cond.refs ++ value.refs
  | .literal _ _ => []
  | .prim _ args _ => refsList args

def refsList : List Expr → List String
  | [] => []
  | e :: es => e.refs ++ refsList es

end

@[simp] theorem refsList_eq_flatMap (es : List Expr) : refsList es = es.flatMap refs := by
  induction es with
  | nil => rfl
  | cons e es ih => simp [refsList, ih]

theorem eval_congr {I : Interpretation V} {r r' : String → V} {e : Expr} (h : ∀ name ∈ e.refs, r name = r' name) :
    e.eval I r = e.eval I r' := by
  induction e with
  | ref name => exact h name (List.mem_singleton_self name)
  | literal value width => rfl
  | field base name ih => simp only [eval, ih h]
  | index base position ih => simp only [eval, ih h]
  | access base position ihb ihp =>
    have hb := ihb fun name hname => h name (List.mem_append_left _ hname)
    have hp := ihp fun name hname => h name (List.mem_append_right _ hname)
    simp only [eval, hb, hp]
  | mux cond high low ihc ihh ihl =>
    have hc := ihc fun name hname => h name (List.mem_append_left _ (List.mem_append_left _ hname))
    have hh := ihh fun name hname => h name (List.mem_append_left _ (List.mem_append_right _ hname))
    have hl := ihl fun name hname => h name (List.mem_append_right _ hname)
    simp only [eval, hc, hh, hl]
  | validIf cond value ihc ihv =>
    have hc := ihc fun name hname => h name (List.mem_append_left _ hname)
    have hv := ihv fun name hname => h name (List.mem_append_right _ hname)
    simp only [eval, hc, hv]
  | prim op args consts ih =>
    have hargs : args.map (eval I r) = args.map (eval I r') := by
      refine List.map_congr_left fun arg harg => ih arg harg fun name hname => h name ?_
      rw [refs, refsList_eq_flatMap]
      exact List.mem_flatMap.2 ⟨arg, harg, hname⟩
    simp only [eval, evalList_eq_map, hargs]

end Expr

end TokenCircuit
