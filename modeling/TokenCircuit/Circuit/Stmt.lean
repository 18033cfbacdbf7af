import TokenCircuit.Circuit.Expr
import TokenCircuit.Circuit.SignalType

/-!
Circuit statements.

Statements declare components and connect them; `when` and `block` nest. `preorder` lists a statement and all that
it contains, and the declared names are read off that list. `mapUp` changes statements from the inside out.
-/

namespace TokenCircuit

inductive Stmt where
  | wire (name : String) (type : SignalType)
  | reg (name : String) (type : SignalType) (clock reset init : Expr)
  | inst (name module : String)
  /-- A named value. -/
  | node (name : String) (value : Expr)
  | when (pred : Expr) (conseq alt : Stmt)
  | block (body : List Stmt)
  /-- A connection of the fields that both sides have. -/
  | partialConnect (loc value : Expr)
  | connect (loc value : Expr)
  | invalid (target : Expr)
  | skip
  deriving Repr, Inhabited

namespace Stmt

/-- Structural induction in which the members of a block come with a hypothesis each. -/
@[elab_as_elim, induction_eliminator]
theorem induct {motive : Stmt → Prop}
    (wire : ∀ name type, motive (.wire name type))
    (reg : ∀ name type clock reset init, motive (.reg name type clock reset init))
    (inst : ∀ name module, motive (.inst name module))
    (node : ∀ name value, motive (.node name value))
    (when : ∀ pred conseq alt, motive conseq → motive alt → motive (.when pred conseq alt))
    (block : ∀ body, (∀ s ∈ body, motive s) → motive (.block body))
    (partialConnect : ∀ loc value, motive (.partialConnect loc value))
    (connect : ∀ loc value, motive (.connect loc value))
    (invalid : ∀ target, motive (.invalid target))
    (skip : motive .skip) (s : Stmt) : motive s :=
  @Stmt.rec motive (fun body => ∀ s ∈ body, motive s) wire reg inst node when block partialConnect connect invalid
    skip (by simp) (fun _ _ head tail => by simpa using ⟨head, tail⟩) s

/-! ### Equality -/

mutual

def beq : Stmt → Stmt → Bool
  | .wire n t, .wire n' t' => n == n' && t == t'
  | .reg n t c r i, .reg n' t' c' r' i' => n == n' && t == t' && c == c' && r == r' && i == i'
  | .inst n m, .inst n' m' => n == n' && m == m'
  | .node n v, .node n' v' => n == n' && v == v'
  | .when p c a, .when p' c' a' => p == p' && beq c c' && beq a a'
  | .block ss, .block ss' => beqList ss ss'
  | .partialConnect l v, .partialConnect l' v' => l == l' && v == v'
  | .connect l v, .connect l' v' => l == l' && v == v'
  | .invalid e, .invalid e' => e == e'
  | .skip, .skip => true
  | _, _ => false

def beqList : List Stmt → List Stmt → Bool
  | [], [] => true
  | a :: as, b :: bs => beq a b && beqList as bs
  | _, _ => false

end

mutual

theorem eq_of_beq : ∀ {a b : Stmt}, beq a b = true → a = b
  | .wire .., b, h | .inst .., b, h | .node .., b, h | .partialConnect .., b, h | .connect .., b, h
  | .invalid _, b, h | .skip, b, h => by cases b <;> simp_all [beq]
  | .reg .., b, h => by
    cases b <;> simp [beq, and_assoc] at h
    rw [h.1, h.2.1, h.2.2.1, h.2.2.2.1, h.2.2.2.2]
  | .when .., b, h => by
    cases b <;> simp [beq, and_assoc] at h
    rw [h.1, eq_of_beq h.2.1, eq_of_beq h.2.2]
  | .block _, b, h => by
    cases b <;> simp [beq] at h
    rw [eq_of_beqList h]

theorem eq_of_beqList : ∀ {as bs : List Stmt}, beqList as bs = true → as = bs
  | [], bs, h => by cases bs <;> simp_all [beqList]
  | _ :: _, bs, h => by
    cases bs <;> simp [beqList] at h
    rw [eq_of_beq h.1, eq_of_beqList h.2]

end

mutual

theorem beq_self : ∀ a : Stmt, beq a a = true
  | .wire .. | .reg .. | .inst .. | .node .. | .partialConnect .. | .connect .. | .invalid _ | .skip => by
    simp [beq]
  | .when _ c a => by simp [beq, beq_self c, beq_self a]
  | .block ss => by simp [beq, beqList_self ss]

theorem beqList_self : ∀ as : List Stmt, beqList as as = true
  | [] => rfl
  | a :: as => by simp [beqList, beq_self a, beqList_self as]

end

instance : DecidableEq Stmt := fun a b =>
  decidable_of_iff (beq a b = true) ⟨eq_of_beq, fun h => h ▸ beq_self a⟩

/-! ### Contents -/

/-- The statement as a list of members: a block's own, or the statement alone. -/
def members : Stmt → List Stmt
  | .block body => body
  | s => [s]

/-- A statement with the given members: nothing, the only one, or a block. -/
def ofMembers : List Stmt → Stmt
  | [] => .skip
  | [s] => s
  | ss => .block ss

/-- The expressions that the statement itself holds, in order. -/
def exprs : Stmt → List Expr
  | .reg _ _ clock reset init => [clock, reset, init]
  | .node _ value => [value]
  | .when pred _ _ => [pred]
  | .partialConnect loc value | .connect loc value => [loc, value]
  | .invalid target => [target]
  | .wire .. | .inst .. | .block _ | .skip => []

mutual

/-- The statement and every statement nested in it, outer ones first. -/
def preorder : Stmt → List Stmt
  | .when pred conseq alt => .when pred conseq alt :: (conseq.preorder ++ alt.preorder)
  | .block body => .block body :: preorderList body
  | s => [s]

def preorderList : List Stmt → List Stmt
  | [] => []
  | s :: ss => s.preorder ++ preorderList ss

end

@[simp] theorem preorderList_eq_flatMap (ss : List Stmt) : preorderList ss = ss.flatMap preorder := by
  induction ss with
  | nil => rfl
  | cons s ss ih => simp [preorderList, ih]

theorem filterMap_when {f : Stmt → Option β} {pred : Expr} {conseq alt : Stmt} (h : f (.when pred conseq alt) = none) :
    (Stmt.when pred conseq alt).preorder.filterMap f = conseq.preorder.filterMap f ++ alt.preorder.filterMap f := by
  rw [preorder, List.filterMap_cons, h, List.filterMap_append]

theorem filterMap_block {f : Stmt → Option β} {body : List Stmt} (h : f (.block body) = none) :
    (Stmt.block body).preorder.filterMap f = body.flatMap fun s => s.preorder.filterMap f := by
  rw [preorder, preorderList_eq_flatMap, List.filterMap_cons, h, List.filterMap_flatMap]

/-- The name that the statement itself declares. -/
def declared? : Stmt → Option String
  | .wire name _ | .reg name .. | .inst name _ | .node name _ => some name
  | _ => none

/-- The names declared by the statement and everything nested in it. -/
def declaredNames (s : Stmt) : List String := s.preorder.filterMap declared?

/-! ### Traversal -/

/-- Applies `f` to the expressions that the statement itself holds. -/
def mapExprs (f : Expr → Expr) : Stmt → Stmt
  | .reg name type clock reset init => .reg name type (f clock) (f reset) (f init)
  | .node name value => .node name (f value)
  | .when pred conseq alt => .when (f pred) conseq alt
  | .partialConnect loc value => .partialConnect (f loc) (f value)
  | .connect loc value => .connect (f loc) (f value)
  | .invalid target => .invalid (f target)
  | s => s

/-- Applies `f` to the statements directly inside. -/
def mapChildren (f : Stmt → Stmt) : Stmt → Stmt
  | .when pred conseq alt => .when pred (f conseq) (f alt)
  | .block body => .block (body.map f)
  | s => s

mutual

/-- Applies `f` to every statement, nested ones first. -/
def mapUp (f : Stmt → Stmt) : Stmt → Stmt
  | .when pred conseq alt => f (.when pred (conseq.mapUp f) (alt.mapUp f))
  | .block body => f (.block (mapUpList f body))
  | s => f s

def mapUpList (f : Stmt → Stmt) : List Stmt → List Stmt
  | [] => []
  | s :: ss => s.mapUp f :: mapUpList f ss

end

@[simp] theorem mapUpList_eq_map (f : Stmt → Stmt) (ss : List Stmt) : mapUpList f ss = ss.map (mapUp f) := by
  induction ss with
  | nil => rfl
  | cons s ss ih => simp [mapUpList, ih]

/-- Working from the inside out is the same as finishing the children and then the statement. -/
theorem mapUp_eq (f : Stmt → Stmt) (s : Stmt) : s.mapUp f = f (s.mapChildren (mapUp f)) := by
  cases s <;> simp [mapUp, mapChildren]

end Stmt

end TokenCircuit
