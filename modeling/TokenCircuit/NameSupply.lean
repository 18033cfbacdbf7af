import TokenCircuit.Collection.OrderedSet
import TokenCircuit.Circuit.Module

/-!
Fresh names.

A supply knows the names in use. A fresh name is the wanted one if it is free, and otherwise the first free one among
its numbered variants `base_0`, `base_1`, …; it counts as used from then on. Variants of one base are distinct
(`numbered_injective`), so with `n` names in use one of the first `n + 1` variants is free and the search, which looks
at no more than those, always ends at a free one (`fresh_not_mem`).
-/

namespace TokenCircuit

structure NameSupply where
  used : OrderedSet String := ∅

/-- The variant number `k` of a name. -/
def numbered (base : String) (k : Nat) : String := base ++ "_" ++ k.repr

theorem numbered_injective {base : String} {i j : Nat} (h : numbered base i = numbered base j) : i = j := by
  have digits := List.append_cancel_left (by simpa [numbered] using congrArg String.toList h :
    base.toList ++ '_' :: Nat.toDigits 10 i = base.toList ++ '_' :: Nat.toDigits 10 j)
  simpa using congrArg (fun l => Nat.ofDigitChars 10 l 0) (List.cons.inj digits).2

namespace NameSupply

variable {s : NameSupply} {base name : String}

instance : Inhabited NameSupply := ⟨{}⟩

instance : Membership String NameSupply := ⟨fun s name => name ∈ s.used⟩

instance : Decidable (name ∈ s) := inferInstanceAs (Decidable (name ∈ s.used))

def add (s : NameSupply) (name : String) : NameSupply := ⟨s.used.insert name⟩

def addAll (s : NameSupply) (names : List String) : NameSupply := names.foldl add s

/-- Marks a name as used and tells whether it was free. -/
def reserve (s : NameSupply) (name : String) : Bool × NameSupply := (name ∉ s, s.add name)

/-- The supply for new components of a module. -/
def ofModule (m : Module) : NameSupply := addAll {} m.ownNames

/-- The first free variant from number `k` on, among `tries + 1` of them. -/
def freeVariant (s : NameSupply) (base : String) : (tries k : Nat) → String
  | 0, k => numbered base k
  | tries + 1, k => if numbered base k ∈ s then freeVariant s base tries (k + 1) else numbered base k

/-- The name that `fresh` hands out. -/
def freshName (s : NameSupply) (base : String) : String :=
  if base ∈ s then s.freeVariant base s.used.size 0 else base

/-- A name that was free, and the supply in which it is used. -/
def fresh (s : NameSupply) (base : String) : String × NameSupply :=
  (s.freshName base, s.add (s.freshName base))

@[simp] theorem mem_add {n : String} : n ∈ s.add name ↔ n = name ∨ n ∈ s := OrderedSet.mem_insert

/-- If the first `tries` variants are all in use, there are at least that many names in use. -/
theorem le_length_of_numbered_mem {tries : Nat} : ∀ {names : List String} {k : Nat},
    (∀ i < tries, numbered base (k + i) ∈ names) → tries ≤ names.length := by
  induction tries with
  | zero => exact fun _ => Nat.zero_le _
  | succ tries ih =>
    intro names k h
    have head : numbered base k ∈ names := h 0 (Nat.succ_pos _)
    have tail : ∀ i < tries, numbered base (k + 1 + i) ∈ names.erase (numbered base k) := fun i hi => by
      have hne : numbered base (k + 1 + i) ≠ numbered base k := fun e => by
        have := numbered_injective e
        omega
      rw [List.mem_erase_of_ne hne, Nat.add_assoc, Nat.add_comm 1 i]
      exact h (i + 1) (Nat.succ_lt_succ hi)
    have hlen := ih tail
    rw [List.length_erase_of_mem head] at hlen
    have := List.length_pos_of_mem head
    omega

/-- The search stops at the first free variant, unless all that it looked at before the last one are in use. -/
theorem freeVariant_spec {tries : Nat} : ∀ {k : Nat},
    ∃ i ≤ tries, s.freeVariant base tries k = numbered base (k + i) ∧ (∀ j < i, numbered base (k + j) ∈ s) ∧
      (numbered base (k + i) ∈ s → i = tries) := by
  induction tries with
  | zero => exact fun {k} => ⟨0, Nat.le_refl _, rfl, fun _ h => absurd h (Nat.not_lt_zero _), fun _ => rfl⟩
  | succ tries ih =>
    intro k
    by_cases h : numbered base k ∈ s
    · obtain ⟨i, hi, heq, hused, hlast⟩ := ih (k := k + 1)
      refine ⟨i + 1, Nat.succ_le_succ hi, ?_, ?_, ?_⟩
      · rw [freeVariant, if_pos h, heq]
        congr 1
        omega
      · intro j hj
        cases j with
        | zero => exact h
        | succ j =>
          have := hused j (by omega)
          rwa [Nat.add_assoc, Nat.add_comm 1 j] at this
      · intro hm
        rw [hlast (by rwa [Nat.add_assoc, Nat.add_comm 1 i])]
    · exact ⟨0, Nat.zero_le _, by rw [freeVariant, if_neg h, Nat.add_zero], fun _ hj => absurd hj (Nat.not_lt_zero _),
        fun hm => absurd hm h⟩

theorem freshName_not_mem : s.freshName base ∉ s := by
  rw [freshName]
  split
  · obtain ⟨i, hi, heq, hused, hlast⟩ := @freeVariant_spec s base s.used.size 0
    intro hm
    rw [heq] at hm
    have hfull := hlast hm
    have all : ∀ j < s.used.size + 1, numbered base (0 + j) ∈ s.used.toList := fun j hj => by
      rcases Nat.lt_or_ge j i with hji | hij
      · exact hused j hji
      · obtain rfl : j = i := by omega
        exact hm
    have : s.used.size + 1 ≤ s.used.toList.length := le_length_of_numbered_mem all
    exact absurd this (Nat.not_succ_le_self _)
  · assumption

/-- A name handed out was not in use. -/
theorem fresh_not_mem : (s.fresh base).1 ∉ s := freshName_not_mem

/-- A name handed out is in use afterwards. -/
theorem fresh_mem : (s.fresh base).1 ∈ (s.fresh base).2 := mem_add.2 (.inl rfl)

end NameSupply

end TokenCircuit
