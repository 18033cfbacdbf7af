import TokenCircuit.Analysis.Connectivity
import Mathlib.Logic.Relation

/-!
# The search for influences is complete

`Connectivity.reachable` walks as many levels as there are edges. Every level that is not empty meets the source of an
edge for the first time, so the edges with a source not met yet become fewer, and when they run out nothing is left to
meet. What has been met is then closed under drivers.
-/

namespace TokenCircuit

theorem nodup_eraseDups {α : Type} [BEq α] [LawfulBEq α] (l : List α) : l.eraseDups.Nodup := by
  induction hn : l.length using Nat.strongRecOn generalizing l with
  | ind n ih =>
    cases l with
    | nil => exact List.nodup_nil
    | cons x l =>
      have hlt : (l.filter fun y => !y == x).length < n := by
        have hle := List.length_filter_le (fun y => !y == x) l
        simp only [List.length_cons] at hn
        omega
      rw [List.eraseDups_cons]
      exact List.nodup_cons.2 ⟨by simp, ih _ hlt _ rfl⟩

theorem eraseDups_concat {α : Type} [DecidableEq α] (l : List α) (a : α) :
    (l ++ [a]).eraseDups = if a ∈ l then l.eraseDups else l.eraseDups ++ [a] := by
  rw [List.eraseDups_append]
  by_cases ha : a ∈ l <;> simp [List.removeAll, List.eraseDups_cons, ha]

namespace Connectivity

variable {g : Connectivity} {signal x y z : String} {seen level : List String} {depth : Nat}

/-- A signal influences another directly. -/
def Drives (g : Connectivity) (sink source : String) : Prop := (sink, source) ∈ g.edges

theorem mem_drivers : z ∈ g.drivers y ↔ g.Drives y z := by
  simp [drivers, Drives, OrderedSet.mem_toList]

theorem mem_nextLevel : z ∈ g.nextLevel seen level ↔ (∃ y ∈ level, g.Drives y z) ∧ z ∉ seen := by
  simp [nextLevel, mem_drivers]

/-- The edges whose sources have not been met. -/
def unmet (g : Connectivity) (seen : List String) : List (String × String) := g.edges.toList.filter (·.2 ∉ seen)

theorem unmet_append_lt (h : z ∈ g.nextLevel seen level) :
    (g.unmet (seen ++ g.nextLevel seen level)).length < (g.unmet seen).length := by
  obtain ⟨⟨y, -, hyz⟩, hz⟩ := mem_nextLevel.1 h
  have hsub : g.unmet (seen ++ g.nextLevel seen level) = (g.unmet seen).filter (·.2 ∉ g.nextLevel seen level) := by
    simp [unmet, List.filter_filter, Bool.and_comm]
  rw [hsub]
  refine List.length_filter_lt_length_iff_exists.2 ⟨(y, z), ?_, ?_⟩
  · simp only [unmet, List.mem_filter, decide_eq_true_eq]
    exact ⟨hyz, hz⟩
  · simpa using h

theorem levels_nil : g.levels depth seen [] = [] := by
  induction depth generalizing seen with
  | zero => rfl
  | succ depth ih => simp [levels, nextLevel, ih]

/-- With enough levels, what is met is closed: the drivers of the level and of all that has been met are met. -/
theorem levels_closed (hseen : ∀ y ∈ seen, y ∈ level ∨ ∀ z, g.Drives y z → z ∈ seen)
    (hdepth : (g.unmet seen).length ≤ depth) (hy : y ∈ level ∨ y ∈ seen ∨ y ∈ g.levels depth seen level)
    (hyz : g.Drives y z) : z ∈ seen ∨ z ∈ g.levels depth seen level := by
  induction depth generalizing seen level with
  | zero =>
    -- no edge is left whose source has not been met
    have hnone : g.unmet seen = [] := List.length_eq_zero_iff.1 (Nat.le_zero.1 hdepth)
    have hmet := List.filter_eq_nil_iff.1 hnone (y, z) hyz
    exact .inl (by simpa using hmet)
  | succ depth ih =>
    -- a driver of the level has been met or is met next
    have hstep : ∀ y ∈ level, ∀ z, g.Drives y z → z ∈ seen ++ g.nextLevel seen level := by
      intro y hy z hyz
      by_cases hz : z ∈ seen
      · exact List.mem_append_left _ hz
      · exact List.mem_append_right _ (mem_nextLevel.2 ⟨⟨y, hy, hyz⟩, hz⟩)
    have hseen' : ∀ y ∈ seen, ∀ z, g.Drives y z → z ∈ seen ++ g.nextLevel seen level := by
      intro y hy z hyz
      rcases hseen y hy with hlevel | hmet
      · exact hstep y hlevel z hyz
      · exact List.mem_append_left _ (hmet z hyz)
    have hnow : z ∈ seen ++ g.nextLevel seen level →
        z ∈ seen ∨ z ∈ g.nextLevel seen level ++
          g.levels depth (seen ++ g.nextLevel seen level) (g.nextLevel seen level) :=
      fun hz => (List.mem_append.1 hz).imp_right (List.mem_append_left _)
    rw [levels] at hy ⊢
    rcases hy with hy | hy | hy
    · exact hnow (hstep y hy z hyz)
    · exact hnow (hseen' y hy z hyz)
    · by_cases hnext : g.nextLevel seen level = []
      · rw [hnext, levels_nil] at hy
        cases hy
      · obtain ⟨x, hx⟩ := List.exists_mem_of_ne_nil _ hnext
        have hlt := unmet_append_lt hx
        have hmet : ∀ y ∈ seen ++ g.nextLevel seen level, y ∈ g.nextLevel seen level ∨
            ∀ z, g.Drives y z → z ∈ seen ++ g.nextLevel seen level :=
          fun y hy => (List.mem_append.1 hy).symm.imp_right (hseen' y)
        rcases ih hmet (by omega) ((List.mem_append.1 hy).imp_right .inr) with hz | hz
        · exact hnow hz
        · exact .inr (List.mem_append_right _ hz)

theorem transGen_of_mem_levels (hlevel : ∀ y ∈ level, Relation.ReflTransGen g.Drives signal y)
    (hx : x ∈ g.levels depth seen level) : Relation.TransGen g.Drives signal x := by
  induction depth generalizing seen level with
  | zero => cases hx
  | succ depth ih =>
    have hnext : ∀ z ∈ g.nextLevel seen level, Relation.TransGen g.Drives signal z := by
      intro z hz
      obtain ⟨⟨y, hy, hyz⟩, -⟩ := mem_nextLevel.1 hz
      exact Relation.TransGen.tail' (hlevel y hy) hyz
    rcases List.mem_append.1 hx with hx | hx
    · exact hnext x hx
    · exact ih (fun z hz => (hnext z hz).to_reflTransGen) hx

/-- The search finds exactly the signals that a chain of edges leads to. -/
theorem mem_reachable : x ∈ g.reachable signal ↔ Relation.TransGen g.Drives signal x := by
  constructor
  · intro hx
    refine transGen_of_mem_levels (fun y hy => ?_) hx
    rw [List.mem_singleton.1 hy]
  · intro hx
    have hdepth : (g.unmet []).length ≤ g.edges.size := List.length_filter_le ..
    have hclosed : ∀ {y z}, y = signal ∨ y ∈ g.reachable signal → g.Drives y z → z ∈ g.reachable signal := by
      intro y z hy hyz
      refine (levels_closed (by simp) hdepth ?_ hyz).resolve_left List.not_mem_nil
      exact hy.imp List.mem_singleton.2 .inr
    induction hx with
    | single h => exact hclosed (.inl rfl) h
    | tail _ h ih => exact hclosed (.inr ih) h

end Connectivity

end TokenCircuit
