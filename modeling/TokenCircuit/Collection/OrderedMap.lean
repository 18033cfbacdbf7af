/-!
Ordered maps: entries in order of insertion, one for each key.

`insert` takes an entry that is already there out of its place and puts the new one last; `insertIfNew` leaves it
where it is. Both keep the keys distinct, and the proof of that travels with the entries.
-/

namespace TokenCircuit

structure OrderedMap (κ α : Type) where
  entries : List (κ × α)
  nodup : (entries.map Prod.fst).Nodup

namespace OrderedMap

variable {κ α β : Type} {m : OrderedMap κ α} {k k' : κ} {v : α}

def empty : OrderedMap κ α := ⟨[], List.nodup_nil⟩

instance : EmptyCollection (OrderedMap κ α) := ⟨empty⟩

instance : Inhabited (OrderedMap κ α) := ⟨empty⟩

def keys (m : OrderedMap κ α) : List κ := m.entries.map Prod.fst

def values (m : OrderedMap κ α) : List α := m.entries.map Prod.snd

def size (m : OrderedMap κ α) : Nat := m.entries.length

instance : Membership κ (OrderedMap κ α) := ⟨fun m k => k ∈ m.keys⟩

def map (f : α → β) (m : OrderedMap κ α) : OrderedMap κ β where
  entries := m.entries.map fun p => (p.1, f p.2)
  nodup := by simpa [List.map_map, Function.comp_def] using m.nodup

theorem mem_iff : k ∈ m ↔ ∃ v, (k, v) ∈ m.entries := by
  show k ∈ m.entries.map Prod.fst ↔ _
  simp [List.mem_map]

variable [DecidableEq κ]

instance : Decidable (k ∈ m) := inferInstanceAs (Decidable (k ∈ m.keys))

def get? (m : OrderedMap κ α) (k : κ) : Option α := m.entries.lookup k

def insert (m : OrderedMap κ α) (k : κ) (v : α) : OrderedMap κ α where
  entries := m.entries.filter (·.1 ≠ k) ++ [(k, v)]
  nodup := by
    rw [List.map_append, List.nodup_append]
    refine ⟨m.nodup.sublist (List.filter_sublist.map _), by simp, ?_⟩
    simp only [List.mem_map, List.mem_filter]
    rintro _ ⟨p, ⟨-, hp⟩, rfl⟩ b hb rfl
    simp_all

/-- Keeps an entry that is already there, value and place. -/
def insertIfNew (m : OrderedMap κ α) (k : κ) (v : α) : OrderedMap κ α :=
  if k ∈ m then m else m.insert k v

def ofList (l : List (κ × α)) : OrderedMap κ α := l.foldl (fun m p => m.insert p.1 p.2) ∅

theorem keys_insert : (m.insert k v).keys = m.keys.filter (· ≠ k) ++ [k] := by
  simp [keys, insert, List.filter_map, Function.comp_def]

@[simp] theorem mem_insert : k' ∈ m.insert k v ↔ k' = k ∨ k' ∈ m := by
  show k' ∈ (m.insert k v).keys ↔ _ ∨ k' ∈ m.keys
  rw [keys_insert]
  by_cases h : k' = k <;> simp [h]

theorem lookup_eq_some_iff {l : List (κ × α)} (h : (l.map Prod.fst).Nodup) :
    l.lookup k = some v ↔ (k, v) ∈ l := by
  induction l with
  | nil => simp
  | cons p l ih =>
    obtain ⟨a, b⟩ := p
    simp only [List.map_cons, List.nodup_cons] at h
    by_cases e : k = a
    · subst e
      have hk : (k, v) ∉ l := fun hm => h.1 (List.mem_map.2 ⟨_, hm, rfl⟩)
      simp [hk, eq_comm]
    · have hb : (k == a) = false := by simpa using e
      simp [List.lookup_cons, hb, e, ih h.2]

theorem get?_eq_some_iff : m.get? k = some v ↔ (k, v) ∈ m.entries := lookup_eq_some_iff m.nodup

theorem get?_insert : (m.insert k v).get? k' = if k' = k then some v else m.get? k' := by
  by_cases e : k' = k
  · subst e
    simpa using get?_eq_some_iff.2 (show (k', v) ∈ (m.insert k' v).entries by simp [insert])
  · rw [if_neg e]
    ext w
    rw [get?_eq_some_iff, get?_eq_some_iff]
    simp [insert, e]

theorem get?_map {f : α → β} : (m.map f).get? k = (m.get? k).map f := by
  simp only [get?, map]
  induction m.entries with
  | nil => rfl
  | cons p l ih =>
    obtain ⟨a, b⟩ := p
    by_cases e : k == a <;> simp [List.lookup_cons, e, ih]

end OrderedMap

end TokenCircuit
