/-!
Ordered sets: lists without repetition that keep the order of first insertion.

Inserting appends a new element and leaves a set that already has it alone, so repetition never arises and the
proof of that travels with the list.
-/

namespace TokenCircuit

structure OrderedSet (α : Type) where
  toList : List α
  nodup : toList.Nodup

namespace OrderedSet

variable {α : Type} {s : OrderedSet α} {a b : α}

def empty : OrderedSet α := ⟨[], List.nodup_nil⟩

instance : EmptyCollection (OrderedSet α) := ⟨empty⟩

instance : Inhabited (OrderedSet α) := ⟨empty⟩

instance : Membership α (OrderedSet α) := ⟨fun s a => a ∈ s.toList⟩

def size (s : OrderedSet α) : Nat := s.toList.length

theorem mem_toList : a ∈ s.toList ↔ a ∈ s := Iff.rfl

@[simp] theorem not_mem_empty : a ∉ (∅ : OrderedSet α) := List.not_mem_nil

variable [DecidableEq α]

instance : Decidable (a ∈ s) := inferInstanceAs (Decidable (a ∈ s.toList))

def insert (s : OrderedSet α) (a : α) : OrderedSet α :=
  if h : a ∈ s.toList then s else
    ⟨s.toList ++ [a], by simpa [List.nodup_append, s.nodup] using fun b hb (e : b = a) => h (e ▸ hb)⟩

def ofList (l : List α) : OrderedSet α := l.foldl insert ∅

theorem toList_insert : (s.insert a).toList = if a ∈ s then s.toList else s.toList ++ [a] := by
  unfold insert
  by_cases h : a ∈ s.toList <;> simp [h, ← mem_toList]

@[simp] theorem mem_insert : b ∈ s.insert a ↔ b = a ∨ b ∈ s := by
  simp only [← mem_toList, toList_insert]
  split
  · next h => exact ⟨.inr, fun hb => hb.elim (fun e => e ▸ h) id⟩
  · simp [or_comm]

@[simp] theorem mem_ofList {l : List α} : a ∈ ofList l ↔ a ∈ l := by
  have key : ∀ (l : List α) (s : OrderedSet α), a ∈ l.foldl insert s ↔ a ∈ s ∨ a ∈ l := by
    intro l
    induction l with
    | nil => simp
    | cons b l ih =>
      intro s
      simp only [List.foldl_cons, ih, mem_insert, List.mem_cons]
      exact ⟨fun h => by rcases h with (h | h) | h <;> simp [h], fun h => by rcases h with h | h | h <;> simp [h]⟩
  simpa [ofList] using key l ∅

end OrderedSet

end TokenCircuit
