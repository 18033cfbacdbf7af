import TokenCircuit.Proofs.Names
import Mathlib.Data.Nat.Init
import Mathlib.Order.Bounds.Defs

/-!
# Fresh names are free, and the first of their kind

A supply starts from the names of a module, or from none, and answers requests one after the other. A name is in use
then if the module has a port of that name, declares it at some depth, or if a request reserved it or was answered with
it (`NameSupply.InUse`), and the supply knows these names and no others (`NameSupply.mem_after_initial`).

Looking for a free variant is a loop without a bound of its own (`NameSupply.Search`). It ends, since the variants of a
name are distinct from it and from each other: each turn but the last meets another name in use.
-/

namespace TokenCircuit

/-! ### Declarations at any depth -/

namespace Stmt

/-- The statement declares the name, itself or somewhere inside. -/
inductive Declares (name : String) : Stmt → Prop
  | wire (type : SignalType) : Declares name (.wire name type)
  | reg (type : SignalType) (clock reset init : Expr) : Declares name (.reg name type clock reset init)
  | inst (module : String) : Declares name (.inst name module)
  | node (value : Expr) : Declares name (.node name value)
  | conseq {pred : Expr} {conseq alt : Stmt} : Declares name conseq → Declares name (.when pred conseq alt)
  | alt {pred : Expr} {conseq alt : Stmt} : Declares name alt → Declares name (.when pred conseq alt)
  | member {body : List Stmt} {s : Stmt} : s ∈ body → Declares name s → Declares name (.block body)

theorem mem_declaredNames {name : String} {s : Stmt} : name ∈ s.declaredNames ↔ s.Declares name := by
  unfold declaredNames
  constructor
  · intro h
    induction s with
    | wire n type | reg n type clock reset init | inst n module | node n value =>
      obtain rfl : name = n := List.mem_singleton.1 h
      constructor
    | when pred conseq alt ihc iha =>
      rw [filterMap_when (f := declared?) rfl, List.mem_append] at h
      exact h.elim (fun h => .conseq (ihc h)) (fun h => .alt (iha h))
    | block body ih =>
      rw [filterMap_block (f := declared?) rfl, List.mem_flatMap] at h
      obtain ⟨s, hs, h⟩ := h
      exact .member hs (ih s hs h)
    | partialConnect loc value | connect loc value | invalid target | skip => cases h
  · intro h
    induction h with
    | wire | reg | inst | node => exact List.mem_singleton_self _
    | conseq _ ih =>
      rw [filterMap_when (f := declared?) rfl]
      exact List.mem_append_left _ ih
    | alt _ ih =>
      rw [filterMap_when (f := declared?) rfl]
      exact List.mem_append_right _ ih
    | member hs _ ih =>
      rw [filterMap_block (f := declared?) rfl]
      exact List.mem_flatMap_of_mem hs ih

end Stmt

theorem numbered_ne {base : String} {k : Nat} : numbered base k ≠ base := by
  intro h
  have hlen := congrArg (fun name => name.toList.length) h
  simp [numbered] at hlen

namespace NameSupply

variable {s : NameSupply} {base name : String} {k last : Nat}

/-! ### The search for a variant -/

/-- Trying variants from number `k` on, as many as it takes, ends at number `last`. -/
inductive Search (s : NameSupply) (base : String) : Nat → Nat → Prop
  | found {k : Nat} : numbered base k ∉ s → Search s base k k
  | next {k last : Nat} : numbered base k ∈ s → Search s base (k + 1) last → Search s base k last

theorem search_iff : s.Search base k last ↔
    k ≤ last ∧ numbered base last ∉ s ∧ ∀ j, k ≤ j → j < last → numbered base j ∈ s := by
  constructor
  · intro h
    induction h with
    | found hfree => exact ⟨Nat.le_refl _, hfree, fun j hkj hj => absurd hkj (by omega)⟩
    | @next k last hused _ ih =>
      obtain ⟨hle, hfree, hall⟩ := ih
      refine ⟨by omega, hfree, fun j hkj hj => ?_⟩
      obtain rfl | hlt := Nat.eq_or_lt_of_le hkj
      · exact hused
      · exact hall j hlt hj
  · rintro ⟨hle, hfree, hall⟩
    -- from the last turn back to the first
    induction hle using Nat.decreasingInduction with
    | self => exact .found hfree
    | of_succ k hk ih => exact .next (hall k (Nat.le_refl _) hk) (ih fun j hkj hj => hall j (by omega) hj)

theorem search_zero_iff : s.Search base 0 k ↔ IsLeast {i | numbered base i ∉ s} k := by
  rw [search_iff]
  constructor
  · rintro ⟨-, hfree, hall⟩
    exact ⟨hfree, fun i hi => Nat.le_of_not_lt fun hik => hi (hall i (Nat.zero_le i) hik)⟩
  · rintro ⟨hfree, hleast⟩
    refine ⟨Nat.zero_le k, hfree, fun j _ hj => ?_⟩
    by_contra hnot
    exact absurd (hleast hnot) (by omega)

/-- The base and the variants passed over are distinct names in use. -/
theorem Search.lt_size (h : s.Search base 0 k) (hbase : base ∈ s) : k < s.used.size := by
  obtain ⟨-, -, hall⟩ := search_iff.1 h
  have hvariants : ∀ i < k, numbered base (0 + i) ∈ s.used.toList.erase base := by
    intro i hi
    rw [Nat.zero_add, List.mem_erase_of_ne numbered_ne]
    exact hall i (Nat.zero_le i) hi
  have hle : k ≤ (s.used.toList.erase base).length := le_length_of_numbered_mem hvariants
  rw [List.length_erase_of_mem hbase] at hle
  have hpos : 0 < s.used.toList.length := List.length_pos_of_mem hbase
  unfold OrderedSet.size
  omega

theorem freshName_of_not_mem (h : base ∉ s) : s.freshName base = base := if_neg h

theorem freshName_of_mem (h : base ∈ s) : ∃ k, s.Search base 0 k ∧ s.freshName base = numbered base k := by
  obtain ⟨k, -, heq, hused, -⟩ := @freeVariant_spec s base s.used.size 0
  rw [Nat.zero_add] at heq
  have hname : s.freshName base = numbered base k := by rw [freshName, if_pos h, heq]
  have hfree : numbered base k ∉ s := hname ▸ freshName_not_mem
  refine ⟨k, search_iff.2 ⟨Nat.zero_le k, hfree, fun j _ hj => ?_⟩, hname⟩
  simpa using hused j hj

/-! ### Requests -/

inductive Request where
  | reserve (name : String)
  | fresh (base : String)

inductive Answer where
  /-- Whether the name was free. -/
  | free (isFree : Bool)
  | name (name : String)
  deriving DecidableEq

def serve (s : NameSupply) : Request → Answer × NameSupply
  | .reserve name => (.free (s.reserve name).1, (s.reserve name).2)
  | .fresh base => (.name (s.fresh base).1, (s.fresh base).2)

/-- The answers to the requests, one after the other. -/
def answers (s : NameSupply) : List Request → List Answer
  | [] => []
  | r :: rs => (s.serve r).1 :: (s.serve r).2.answers rs

/-- The supply once the requests are answered. -/
def after (s : NameSupply) : List Request → NameSupply
  | [] => s
  | r :: rs => (s.serve r).2.after rs

/-- The supply for new components of a module, or for those of none. -/
def initial : Option Module → NameSupply
  | some m => ofModule m
  | none => {}

/-- A name in use after the requests `earlier`. -/
inductive InUse (start : Option Module) (earlier : List Request) (name : String) : Prop
  | port {m : Module} {p : Port} : start = some m → p ∈ m.ports → p.name = name → InUse start earlier name
  | declared {m : Module} : start = some m → m.body.Declares name → InUse start earlier name
  | reserved : .reserve name ∈ earlier → InUse start earlier name
  | handedOut : .name name ∈ (initial start).answers earlier → InUse start earlier name

variable {start : Option Module} {earlier : List Request}

theorem mem_initial : name ∈ initial start ↔ ∃ m, start = some m ∧ name ∈ m.ownNames := by
  cases start with
  | none => simp [initial, not_mem_empty]
  | some m => simp [initial, mem_ofModule]

theorem mem_serve {r : Request} :
    name ∈ (s.serve r).2 ↔ name ∈ s ∨ .reserve name = r ∨ .name name = (s.serve r).1 := by
  cases r with
  | reserve n => simp [serve, reserve, or_comm]
  | fresh base => simp [serve, fresh, or_comm]

theorem mem_after {requests : List Request} :
    name ∈ s.after requests ↔ name ∈ s ∨ .reserve name ∈ requests ∨ .name name ∈ s.answers requests := by
  induction requests generalizing s with
  | nil => simp [after, answers]
  | cons r rs ih =>
    rw [after, ih, mem_serve, answers, List.mem_cons, List.mem_cons]
    tauto

/-- The supply knows the names in use and no others. -/
theorem mem_after_initial : name ∈ (initial start).after earlier ↔ InUse start earlier name := by
  rw [mem_after, mem_initial]
  constructor
  · rintro (⟨m, hm, hname⟩ | hreserved | hanswer)
    · rcases List.mem_append.1 hname with hport | hdeclared
      · obtain ⟨p, hp, rfl⟩ := List.mem_map.1 hport
        exact .port hm hp rfl
      · exact .declared hm (Stmt.mem_declaredNames.1 hdeclared)
    · exact .reserved hreserved
    · exact .handedOut hanswer
  · rintro (⟨hm, hp, rfl⟩ | ⟨hm, hdeclared⟩ | hreserved | hanswer)
    · exact .inl ⟨_, hm, List.mem_append_left _ (List.mem_map_of_mem hp)⟩
    · exact .inl ⟨_, hm, List.mem_append_right _ (Stmt.mem_declaredNames.2 hdeclared)⟩
    · exact .inr (.inl hreserved)
    · exact .inr (.inr hanswer)

/-- Whatever the module and the requests so far, the next fresh name is not in use. It is the base if that is free. If
not, the search through the variants of the base ends after no more turns than there are names in use, and the name is
the variant of the least number that is free. Reserving a name tells whether it is free. -/
theorem fresh_free_and_least (start : Option Module) (earlier : List Request) :
    let s := (initial start).after earlier
    (∀ base, ¬ InUse start earlier (s.fresh base).1 ∧
      (¬ InUse start earlier base → (s.fresh base).1 = base) ∧
      (InUse start earlier base → ∃ k, s.Search base 0 k ∧ k < s.used.size ∧ (s.fresh base).1 = numbered base k ∧
        IsLeast {i | ¬ InUse start earlier (numbered base i)} k)) ∧
    ∀ name, (s.reserve name).1 = true ↔ ¬ InUse start earlier name := by
  intro s
  have hmem : ∀ {name}, name ∈ s ↔ InUse start earlier name := mem_after_initial
  refine ⟨fun base => ⟨?_, fun hfree => ?_, fun hused => ?_⟩, fun name => ?_⟩
  · rw [← hmem]
    exact fresh_not_mem
  · rw [← hmem] at hfree
    exact freshName_of_not_mem hfree
  · rw [← hmem] at hused
    obtain ⟨k, hsearch, hname⟩ := freshName_of_mem hused
    have hleast := search_zero_iff.1 hsearch
    simp only [hmem] at hleast
    exact ⟨k, hsearch, hsearch.lt_size hused, hname, hleast⟩
  · rw [← hmem]
    exact decide_eq_true_iff

-- a name handed out as a variant is in the way of requests for it as a base
example : (initial none).answers [.fresh "a", .fresh "a", .fresh "a_0", .fresh "a", .reserve "a_0_0", .fresh "a_0"] =
    [.name "a", .name "a_0", .name "a_0_0", .name "a_1", .free false, .name "a_0_1"] := by decide +kernel

end NameSupply

end TokenCircuit
