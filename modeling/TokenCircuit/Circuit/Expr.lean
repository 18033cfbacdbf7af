import TokenCircuit.Circuit.Operator

/-!
Circuit expressions.

An expression denotes a signal: a named component, a part of one, or a value computed from others. `mapUp` is the one
traversal that changes expressions: it works from the leaves to the root, so the function it applies meets a node
only after the node's parts are done. `visited` lists what the function meets, in that order.
-/

namespace TokenCircuit

inductive Expr where
  /-- A component, by name. -/
  | ref (name : String)
  /-- A field of a bundle. -/
  | field (base : Expr) (name : String)
  /-- An element of a vector at a fixed position. -/
  | index (base : Expr) (position : Nat)
  /-- An element of a vector at a computed position. -/
  | access (base position : Expr)
  | mux (cond high low : Expr)
  | validIf (cond value : Expr)
  /-- An unsigned constant. -/
  | literal (value width : Nat)
  | prim (op : PrimOp) (args : List Expr) (consts : List Nat)
  deriving Repr, Inhabited

namespace Expr

/-- Structural induction in which the operands of an operator come with a hypothesis each. -/
@[elab_as_elim, induction_eliminator]
theorem induct {motive : Expr → Prop}
    (ref : ∀ name, motive (.ref name))
    (field : ∀ base name, motive base → motive (.field base name))
    (index : ∀ base position, motive base → motive (.index base position))
    (access : ∀ base position, motive base → motive position → motive (.access base position))
    (mux : ∀ cond high low, motive cond → motive high → motive low → motive (.mux cond high low))
    (validIf : ∀ cond value, motive cond → motive value → motive (.validIf cond value))
    (literal : ∀ value width, motive (.literal value width))
    (prim : ∀ op args consts, (∀ a ∈ args, motive a) → motive (.prim op args consts)) (e : Expr) : motive e :=
  @Expr.rec motive (fun args => ∀ a ∈ args, motive a) ref field index access mux validIf literal prim
    (by simp) (fun _ _ head tail => by simpa using ⟨head, tail⟩) e

/-! ### Equality -/

mutual

def beq : Expr → Expr → Bool
  | .ref a, .ref b => a == b
  | .field e a, .field f b => beq e f && a == b
  | .index e a, .index f b => beq e f && a == b
  | .access e a, .access f b => beq e f && beq a b
  | .mux c h l, .mux c' h' l' => beq c c' && beq h h' && beq l l'
  | .validIf c v, .validIf c' v' => beq c c' && beq v v'
  | .literal v w, .literal v' w' => v == v' && w == w'
  | .prim o as cs, .prim o' as' cs' => o == o' && beqList as as' && cs == cs'
  | _, _ => false

def beqList : List Expr → List Expr → Bool
  | [], [] => true
  | a :: as, b :: bs => beq a b && beqList as bs
  | _, _ => false

end

mutual

theorem eq_of_beq : ∀ {a b : Expr}, beq a b = true → a = b
  | .ref _, b, h => by cases b <;> simp_all [beq]
  | .field .., b, h => by
    cases b <;> simp [beq] at h
    rw [eq_of_beq h.1, h.2]
  | .index .., b, h => by
    cases b <;> simp [beq] at h
    rw [eq_of_beq h.1, h.2]
  | .access .., b, h => by
    cases b <;> simp [beq] at h
    rw [eq_of_beq h.1, eq_of_beq h.2]
  | .mux .., b, h => by
    cases b <;> simp [beq, and_assoc] at h
    rw [eq_of_beq h.1, eq_of_beq h.2.1, eq_of_beq h.2.2]
  | .validIf .., b, h => by
    cases b <;> simp [beq] at h
    rw [eq_of_beq h.1, eq_of_beq h.2]
  | .literal .., b, h => by cases b <;> simp_all [beq]
  | .prim .., b, h => by
    cases b <;> simp [beq, and_assoc] at h
    rw [h.1, eq_of_beqList h.2.1, h.2.2]

theorem eq_of_beqList : ∀ {as bs : List Expr}, beqList as bs = true → as = bs
  | [], bs, h => by cases bs <;> simp_all [beqList]
  | _ :: _, bs, h => by
    cases bs <;> simp [beqList] at h
    rw [eq_of_beq h.1, eq_of_beqList h.2]

end

mutual

theorem beq_self : ∀ a : Expr, beq a a = true
  | .ref _ | .literal .. => by simp [beq]
  | .field e _ | .index e _ => by simp [beq, beq_self e]
  | .access a b | .validIf a b => by simp [beq, beq_self a, beq_self b]
  | .mux a b c => by simp [beq, beq_self a, beq_self b, beq_self c]
  | .prim _ as _ => by simp [beq, beqList_self as]

theorem beqList_self : ∀ as : List Expr, beqList as as = true
  | [] => rfl
  | a :: as => by simp [beqList, beq_self a, beqList_self as]

end

instance : DecidableEq Expr := fun a b =>
  decidable_of_iff (beq a b = true) ⟨eq_of_beq, fun h => h ▸ beq_self a⟩

/-! ### Single-bit logic -/

/-- A single-bit constant. -/
def bit (b : Bool) : Expr := .literal b.toNat 1

protected def not (e : Expr) : Expr := .prim .not [e] []

protected def and (a b : Expr) : Expr := .prim .and [a, b] []

protected def or (a b : Expr) : Expr := .prim .or [a, b] []

/-- The application of a bitwise operator, for the operators that are. -/
def bitwise? (op : PrimOp) (a b : Expr) : Option Expr :=
  if op.isBitwise then some (.prim op [a, b] []) else none

/-- The conjunction of single-bit expressions, nested to the left. Nothing to satisfy is true. -/
def conj : List Expr → Expr
  | [] => bit true
  | e :: es => es.foldl Expr.and e

/-! ### Parts -/

/-- The component that a chain of fields, positions and accesses starts from. -/
def root? : Expr → Option String
  | .ref name => some name
  | .field base _ | .index base _ | .access base _ => base.root?
  | _ => none

/-- Whether the expression is one of the components or a part of one. -/
def isRootedIn (e : Expr) (components : List String) : Bool := e.root?.any (· ∈ components)

/-- The part of `e` at the end of a path of fields. -/
def follow (e : Expr) (path : List String) : Expr := path.foldl .field e

/-! ### Traversal -/

mutual

/-- Applies `f` to every node, parts first. -/
def mapUp (f : Expr → Expr) : Expr → Expr
  | .ref name => f (.ref name)
  | .field base name => f (.field (base.mapUp f) name)
  | .index base position => f (.index (base.mapUp f) position)
  | .access base position => f (.access (base.mapUp f) (position.mapUp f))
  | .mux cond high low => f (.mux (cond.mapUp f) (high.mapUp f) (low.mapUp f))
  | .validIf cond value => f (.validIf (cond.mapUp f) (value.mapUp f))
  | .literal value width => f (.literal value width)
  | .prim op args consts => f (.prim op (mapUpList f args) consts)

def mapUpList (f : Expr → Expr) : List Expr → List Expr
  | [] => []
  | e :: es => e.mapUp f :: mapUpList f es

end

mutual

/-- The nodes that `mapUp f` applies `f` to, in order. -/
def visited (f : Expr → Expr) : Expr → List Expr
  | .ref name => [.ref name]
  | .field base name => base.visited f ++ [.field (base.mapUp f) name]
  | .index base position => base.visited f ++ [.index (base.mapUp f) position]
  | .access base position =>
    base.visited f ++ position.visited f ++ [.access (base.mapUp f) (position.mapUp f)]
  | .mux cond high low =>
    cond.visited f ++ high.visited f ++ low.visited f ++ [.mux (cond.mapUp f) (high.mapUp f) (low.mapUp f)]
  | .validIf cond value => cond.visited f ++ value.visited f ++ [.validIf (cond.mapUp f) (value.mapUp f)]
  | .literal value width => [.literal value width]
  | .prim op args consts => visitedList f args ++ [.prim op (mapUpList f args) consts]

def visitedList (f : Expr → Expr) : List Expr → List Expr
  | [] => []
  | e :: es => e.visited f ++ visitedList f es

end

@[simp] theorem mapUpList_eq_map (f : Expr → Expr) (es : List Expr) : mapUpList f es = es.map (mapUp f) := by
  induction es with
  | nil => rfl
  | cons e es ih => simp [mapUpList, ih]

@[simp] theorem visitedList_eq_flatMap (f : Expr → Expr) (es : List Expr) :
    visitedList f es = es.flatMap (visited f) := by
  induction es with
  | nil => rfl
  | cons e es ih => simp [visitedList, ih]

/-- A component that `σ` has a value for becomes that value; every other node is left alone. -/
def replaceRef (σ : String → Option Expr) : Expr → Expr
  | .ref name => (σ name).getD (.ref name)
  | e => e

end Expr

end TokenCircuit
