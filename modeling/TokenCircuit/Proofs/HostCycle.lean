import TokenCircuit.Proofs.Evaluation

/-!
# Host cycles

In a host cycle every component holds a value, and the values fit the statements: a register shows its state, a node
its value, and any other place what is last connected to it (`Settled`). At the end of the cycle the registers of the
host clock take what is connected to them, or their initial value under reset, or else stay (`nextState`). A run is a
list of settled cycles, each in the state that the one before leaves behind.

Nothing here mentions an order of evaluation: a cycle is any solution of its equations.
-/

namespace TokenCircuit

/-- The value of a signal: the number that it holds at the end of each path of fields. -/
abbrev Signal := List String → Nat

abbrev Valuation := String → Signal

/-- What the operators of the firing rules make of bits. A bit is high when it is not 0. -/
def PrimOp.onBits : PrimOp → List Nat → Nat
  | .not, [x] => (x == 0).toNat
  | .and, [x, y] => (x != 0 && y != 0).toNat
  | .or, [x, y] => (x != 0 || y != 0).toNat
  | _, _ => 0

/-- The meaning of expressions in hardware. Of the operators only those on bits have a meaning here. -/
def Interpretation.bits : Interpretation Signal where
  field x name := fun path => x (name :: path)
  index x position := fun path => x (toString position :: path)
  access x position := fun path => x (toString (position []) :: path)
  mux cond high low := if cond [] = 0 then low else high
  validIf _ value := value
  literal value width := fun _ => (BitVec.ofNat width value).toNat
  prim op args _ := fun _ => op.onBits (args.map (· []))

namespace Expr

def value (e : Expr) (r : Valuation) : Signal := e.eval .bits r

def isHigh (e : Expr) (r : Valuation) : Bool := e.value r [] != 0

variable {r : Valuation}

@[simp] theorem value_ref {name : String} : (Expr.ref name).value r = r name := by simp [value, eval]

theorem value_field {e : Expr} {name : String} :
    (Expr.field e name).value r = fun path => e.value r (name :: path) := by
  simp [value, eval, Interpretation.bits]

theorem value_follow {e : Expr} {path : List String} :
    (e.follow path).value r = fun rest => e.value r (path ++ rest) := by
  unfold follow
  induction path generalizing e with
  | nil => rfl
  | cons name path ih => simp only [List.foldl_cons, ih, value_field, List.cons_append]

theorem value_mux {c h l : Expr} : (Expr.mux c h l).value r = if c.isHigh r then h.value r else l.value r := by
  simp only [value, eval, Interpretation.bits, isHigh, bne_iff_ne, ne_eq, ite_not]

theorem value_literal {value width : Nat} :
    (Expr.literal value width).value r = fun _ => (BitVec.ofNat width value).toNat := by
  simp [Expr.value, eval, Interpretation.bits]

theorem value_prim {op : PrimOp} {args : List Expr} {consts : List Nat} :
    (Expr.prim op args consts).value r = fun _ => op.onBits (args.map fun e => e.value r []) := by
  simp [value, eval, Interpretation.bits, Function.comp_def]

theorem value_congr {e : Expr} {r' : Valuation} (h : ∀ name ∈ e.refs, r name = r' name) : e.value r = e.value r' :=
  eval_congr h

theorem value_prim_congr {op : PrimOp} {args : List Expr} {consts : List Nat} {r' : Valuation}
    (h : ∀ e ∈ args, e.value r = e.value r') :
    (Expr.prim op args consts).value r = (Expr.prim op args consts).value r' := by
  have hargs : (args.map fun e => e.value r []) = args.map fun e => e.value r' [] :=
    List.map_congr_left fun e he => congrFun (h e he) []
  rw [value_prim, value_prim, hargs]

theorem value_conj_congr {es : List Expr} {r' : Valuation} (h : ∀ e ∈ es, e.value r = e.value r') :
    (conj es).value r = (conj es).value r' := by
  cases es with
  | nil => rw [conj, bit, value_literal, value_literal]
  | cons e es =>
    rw [conj]
    induction es generalizing e with
    | nil => exact h e (List.mem_cons_self ..)
    | cons e' es ih =>
      rw [List.foldl_cons]
      refine ih (e.and e') fun x hx => ?_
      rcases List.mem_cons.1 hx with rfl | hx
      · exact value_prim_congr fun y hy => h y (by simp at hy; rcases hy with rfl | rfl <;> simp)
      · exact h x (by simp [hx])

theorem isHigh_congr {e e' : Expr} {r' : Valuation} (h : e.value r = e'.value r') : e.isHigh r = e'.isHigh r' := by
  rw [isHigh, isHigh, h]

theorem isHigh_ref {name : String} {e : Expr} {r' : Valuation} (h : r' name = e.value r) :
    (Expr.ref name).isHigh r' = e.isHigh r :=
  isHigh_congr (value_ref.trans h)

theorem toNat_bne_zero (b : Bool) : (b.toNat != 0) = b := by cases b <;> rfl

@[simp] theorem isHigh_bit {b : Bool} : (bit b).isHigh r = b := by
  cases b <;> simp [isHigh, bit, value_literal]

@[simp] theorem isHigh_not {e : Expr} : e.not.isHigh r = !e.isHigh r := by
  rw [isHigh, Expr.not, value_prim]
  exact (toNat_bne_zero _).trans (Bool.not_not _).symm

@[simp] theorem isHigh_and {a b : Expr} : (a.and b).isHigh r = (a.isHigh r && b.isHigh r) := by
  rw [isHigh, Expr.and, value_prim]
  exact toNat_bne_zero _

@[simp] theorem isHigh_or {a b : Expr} : (a.or b).isHigh r = (a.isHigh r || b.isHigh r) := by
  rw [isHigh, Expr.or, value_prim]
  exact toNat_bne_zero _

@[simp] theorem isHigh_conj {es : List Expr} : (conj es).isHigh r = es.all (·.isHigh r) := by
  cases es with
  | nil => exact isHigh_bit
  | cons e es =>
    rw [conj, List.all_cons]
    induction es generalizing e with
    | nil => simp
    | cons e' es ih => rw [List.foldl_cons, ih, isHigh_and, List.all_cons, Bool.and_assoc]

end Expr

/-! ### Statements in a cycle -/

namespace Stmt

mutual

/-- The statements that take effect when exactly the predicates that `holds` hold. -/
def executed (holds : Expr → Bool) : Stmt → List Stmt
  | .when pred conseq alt => if holds pred then conseq.executed holds else alt.executed holds
  | .block body => executedList holds body
  | s => [s]

def executedList (holds : Expr → Bool) : List Stmt → List Stmt
  | [] => []
  | s :: ss => s.executed holds ++ executedList holds ss

end

/-- A connection as a pair of a place and what is connected to it. Partial connections depend on types; the rules of
the protocol have none, and they are left out. -/
def connection? : Stmt → Option (Expr × Expr)
  | .connect loc value => some (loc, value)
  | _ => none

/-- The connections that take effect in a cycle, in order. -/
def connections (ss : List Stmt) (r : Valuation) : List (Expr × Expr) :=
  (ss.flatMap (executed (·.isHigh r))).filterMap connection?

/-- What is connected to a place: the last connection counts. -/
def driver? (ss : List Stmt) (r : Valuation) (loc : Expr) : Option Expr :=
  ((connections ss r).filter (·.1 = loc)).getLast?.map Prod.snd

/-- The reset and the initial value of a register that runs on the given clock. -/
def register? (ss : List Stmt) (clock : Expr) (name : String) : Option (Expr × Expr) :=
  ss.findSome? fun
    | .reg name' _ clock' reset init => if name' = name ∧ clock' = clock then some (reset, init) else none
    | _ => none

variable {ss : List Stmt} {r : Valuation} {loc value : Expr}

theorem driver?_eq_some (hmem : (loc, value) ∈ connections ss r)
    (hone : ∀ value', (loc, value') ∈ connections ss r → value' = value) : driver? ss r loc = some value := by
  have hpos : (loc, value) ∈ (connections ss r).filter (·.1 = loc) := by simpa using hmem
  obtain ⟨last, hlast⟩ := Option.isSome_iff_exists.1 (List.getLast?_isSome.2 (List.ne_nil_of_mem hpos))
  obtain ⟨hin, heq⟩ := List.mem_filter.1 (List.mem_of_getLast? hlast)
  obtain ⟨loc', value'⟩ := last
  obtain rfl : loc' = loc := by simpa using heq
  rw [driver?, hlast, Option.map_some, hone value' hin]

theorem driver?_eq_none (h : ∀ value, (loc, value) ∉ connections ss r) : driver? ss r loc = none := by
  have hnil : (connections ss r).filter (·.1 = loc) = [] := by
    refine List.filter_eq_nil_iff.2 fun x hx => ?_
    obtain ⟨loc', value⟩ := x
    simp only [decide_eq_true_eq]
    rintro rfl
    exact h value hx
  rw [driver?, hnil]
  rfl

theorem mem_of_driver? (h : driver? ss r loc = some value) : (loc, value) ∈ connections ss r := by
  obtain ⟨x, hx, rfl⟩ := Option.map_eq_some_iff.1 h
  obtain ⟨hmem, hloc⟩ := List.mem_filter.1 (List.mem_of_getLast? hx)
  obtain rfl : x.1 = loc := by simpa using hloc
  exact hmem

end Stmt

/-- The values of a cycle fit the statements, with the registers in the state `st`. -/
structure Settled (ss : List Stmt) (st r : Valuation) : Prop where
  reg : ∀ {name type clock reset init}, .reg name type clock reset init ∈ ss → r name = st name
  node : ∀ {name value}, .node name value ∈ ss → r name = value.value r
  driven : ∀ {loc value}, Stmt.driver? ss r loc = some value →
    (∀ name type clock reset init, .reg name type clock reset init ∈ ss → loc ≠ .ref name) → loc.value r = value.value r

/-- The registers after a cycle, which ends with an edge of `clock`. -/
def nextState (ss : List Stmt) (clock : Expr) (r : Valuation) : Valuation := fun name =>
  match Stmt.register? ss clock name with
  | none => r name
  | some (reset, init) =>
    if reset.isHigh r then init.value r
    else
      match Stmt.driver? ss r (.ref name) with
      | some value => value.value r
      | none => r name

def stateAfter (ss : List Stmt) (clock : Expr) : (st : Valuation) → List Valuation → Valuation
  | st, [] => st
  | _, r :: rs => stateAfter ss clock (nextState ss clock r) rs

/-- Every cycle of a run is settled in the state that the cycles before it leave behind. -/
def IsRun (ss : List Stmt) (clock : Expr) : (st : Valuation) → List Valuation → Prop
  | _, [] => True
  | st, r :: rs => Settled ss st r ∧ IsRun ss clock (nextState ss clock r) rs

/-- A state that a cycle under reset leaves behind. -/
def AfterReset (ss : List Stmt) (clock reset : Expr) (st : Valuation) : Prop :=
  ∃ st₀ r, Settled ss st₀ r ∧ reset.isHigh r = true ∧ st = nextState ss clock r

section Runs

variable {ss : List Stmt} {clock : Expr} {st r : Valuation} {rs rs' : List Valuation}

theorem stateAfter_append :
    stateAfter ss clock st (rs ++ rs') = stateAfter ss clock (stateAfter ss clock st rs) rs' := by
  induction rs generalizing st with
  | nil => rfl
  | cons r rs ih => exact ih

theorem isRun_append :
    IsRun ss clock st (rs ++ rs') ↔ IsRun ss clock st rs ∧ IsRun ss clock (stateAfter ss clock st rs) rs' := by
  induction rs generalizing st with
  | nil => simp [IsRun, stateAfter]
  | cons r rs ih => simp [IsRun, stateAfter, ih, and_assoc]

theorem IsRun.settled (hrun : IsRun ss clock st rs) (hr : r ∈ rs) : ∃ st', Settled ss st' r := by
  obtain ⟨before, after, rfl⟩ := List.append_of_mem hr
  exact ⟨_, (isRun_append.1 hrun).2.1⟩

theorem IsRun.invariant {I : Valuation → Prop} (hrun : IsRun ss clock st rs) (hst : I st)
    (hstep : ∀ st, ∀ r ∈ rs, Settled ss st r → I st → I (nextState ss clock r)) : I (stateAfter ss clock st rs) := by
  induction rs generalizing st with
  | nil => exact hst
  | cons r rs ih =>
    exact ih hrun.2 (hstep st r (List.mem_cons_self ..) hrun.1 hst)
      fun st' r' hr' => hstep st' r' (List.mem_cons_of_mem _ hr')

end Runs

end TokenCircuit
