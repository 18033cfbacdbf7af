import TokenCircuit.Proofs.Reachability
import Mathlib.Data.List.Basic
import Mathlib.Data.List.Induction
import Mathlib.Logic.Function.Iterate
import Mathlib.Order.Bounds.Basic

/-!
# The search for influences is breadth first

`Connectivity.Frontier` is the invariant of the search: after `n` levels, what has been met are the signals that `n`
edges or fewer lead to, and the level holds those that no fewer lead to. So each level is one edge further away than the
one before, which gives the order of the result and, as no signal has two distances, that none is met twice.

Level by level is the same as with a queue (`Connectivity.step`), in which a signal may wait many times. Every round of
the queue takes one off the edges that were not walked and the signals that wait (`Connectivity.work_step`), however the
edges run in circles, so the queue runs empty.
-/

namespace TokenCircuit

/-- `n` steps of the relation lead from one element to another. -/
def StepsTo {α : Type} (R : α → α → Prop) : Nat → α → α → Prop
  | 0, x, z => x = z
  | n + 1, x, z => ∃ y, StepsTo R n x y ∧ R y z

/-- The lengths of the ways from one element to another, of one step at least. -/
def wayLengths {α : Type} (R : α → α → Prop) (x z : α) : Set Nat := {n | 0 < n ∧ StepsTo R n x z}

namespace Connectivity

variable {g : Connectivity} {signal sink source x y z : String} {seen level waiting : List String} {n depth : Nat}

/-! ### Recorded edges -/

/-- The graph of edges that are recorded one after the other, each a pair of a sink and a source. -/
def ofEdges (edges : List (String × String)) : Connectivity := edges.foldl (fun g edge => g.addEdge edge.1 edge.2) {}

/-- A new source comes last. -/
theorem drivers_addEdge : (g.addEdge sink source).drivers signal =
    if sink = signal ∧ source ∉ g.drivers signal then g.drivers signal ++ [source] else g.drivers signal := by
  have hold : source ∈ g.drivers sink ↔ (sink, source) ∈ g.edges := mem_drivers
  rw [drivers, addEdge, OrderedSet.toList_insert]
  by_cases hedge : (sink, source) ∈ g.edges
  · rw [if_pos hedge, ← drivers, if_neg]
    rintro ⟨rfl, hsource⟩
    exact hsource (hold.2 hedge)
  · rw [if_neg hedge, List.filter_append, List.map_append, ← drivers]
    by_cases hsink : sink = signal
    · subst hsink
      rw [if_pos ⟨rfl, mt hold.1 hedge⟩]
      simp
    · rw [if_neg fun h => hsink h.1]
      simp [hsink]

/-- The sources of a signal are listed as they were recorded, each where it came first. -/
theorem drivers_ofEdges (edges : List (String × String)) :
    (ofEdges edges).drivers signal = ((edges.filter (·.1 = signal)).map Prod.snd).eraseDups := by
  induction edges using List.reverseRecOn with
  | nil => rfl
  | append_singleton edges edge ih =>
    rw [ofEdges, List.foldl_append, ← ofEdges, List.foldl_cons, List.foldl_nil, drivers_addEdge, ih, List.filter_append,
      List.map_append]
    by_cases hsink : edge.1 = signal
    · rw [List.filter_cons_of_pos (by simpa using hsink), List.filter_nil, List.map_singleton, eraseDups_concat]
      by_cases hsource : edge.2 ∈ (edges.filter (·.1 = signal)).map Prod.snd
      · rw [if_pos hsource, if_neg fun h => h.2 (List.mem_eraseDups.2 hsource)]
      · rw [if_neg hsource, if_pos ⟨hsink, mt List.mem_eraseDups.1 hsource⟩]
    · rw [List.filter_cons_of_neg (by simpa using hsink), if_neg fun h => hsink h.1, List.filter_nil, List.map_nil,
        List.append_nil]

theorem drives_ofEdges (edges : List (String × String)) :
    (ofEdges edges).Drives = fun sink source => (sink, source) ∈ edges := by
  funext sink source
  rw [← mem_drivers, drivers_ofEdges]
  simp

/-! ### The order of the search -/

/-- How far the search is after `n` levels. -/
structure Frontier (g : Connectivity) (signal : String) (n : Nat) (seen level : List String) : Prop where
  seen : ∀ x, x ∈ seen ↔ ∃ k ≤ n, k ∈ wayLengths g.Drives signal x
  level : ∀ y, y ∈ level ↔ StepsTo g.Drives n signal y ∧ ∀ k < n, k ∉ wayLengths g.Drives signal y

namespace Frontier

theorem start (g : Connectivity) (signal : String) : g.Frontier signal 0 [] [signal] where
  seen x := by
    refine iff_of_false List.not_mem_nil ?_
    rintro ⟨k, hk, hpos, -⟩
    omega
  level y := by
    rw [List.mem_singleton]
    exact ⟨fun heq => ⟨heq.symm, fun k hk => absurd hk (Nat.not_lt_zero k)⟩, fun h => h.1.symm⟩

/-- The next level is one edge further away. -/
theorem mem_nextLevel (h : g.Frontier signal n seen level) :
    z ∈ g.nextLevel seen level ↔ IsLeast (wayLengths g.Drives signal z) (n + 1) := by
  rw [Connectivity.mem_nextLevel]
  constructor
  · rintro ⟨⟨y, hy, hyz⟩, hz⟩
    refine ⟨⟨Nat.succ_pos n, y, ((h.level y).1 hy).1, hyz⟩, fun k hk => ?_⟩
    -- a shorter way would have been found before
    by_contra hlt
    exact hz ((h.seen z).2 ⟨k, by omega, hk⟩)
  · rintro ⟨⟨-, y, hy, hyz⟩, hleast⟩
    refine ⟨⟨y, (h.level y).2 ⟨hy, fun k hk hway => ?_⟩, hyz⟩, fun hz => ?_⟩
    · -- a shorter way to `y` goes on to `z`
      have hlong := hleast ⟨Nat.succ_pos k, y, hway.2, hyz⟩
      omega
    · obtain ⟨k, hk, hway⟩ := (h.seen z).1 hz
      have hlong := hleast hway
      omega

theorem next (h : g.Frontier signal n seen level) :
    g.Frontier signal (n + 1) (seen ++ g.nextLevel seen level) (g.nextLevel seen level) where
  seen x := by
    rw [List.mem_append, h.mem_nextLevel, h.seen]
    constructor
    · rintro (⟨k, hk, hway⟩ | hleast)
      · exact ⟨k, by omega, hway⟩
      · exact ⟨n + 1, Nat.le_refl _, hleast.1⟩
    · rintro ⟨k, hk, hway⟩
      by_cases hshort : ∃ j ≤ n, j ∈ wayLengths g.Drives signal x
      · exact .inl hshort
      · have hleast : ∀ j ∈ wayLengths g.Drives signal x, n + 1 ≤ j := fun j hj => by
          by_contra hlt
          exact hshort ⟨j, by omega, hj⟩
        obtain rfl : k = n + 1 := Nat.le_antisymm hk (hleast k hway)
        exact .inr ⟨hway, hleast⟩
  level y := by
    rw [h.mem_nextLevel]
    constructor
    · rintro ⟨hway, hleast⟩
      refine ⟨hway.2, fun k hk hshort => ?_⟩
      have hlong := hleast hshort
      omega
    · rintro ⟨hway, hleast⟩
      refine ⟨⟨Nat.succ_pos n, hway⟩, fun k hk => ?_⟩
      by_contra hlt
      exact hleast k (by omega) hk

/-- What is still to be met is further away than the level. -/
theorem exists_isLeast (h : g.Frontier signal n seen level) (hx : x ∈ g.levels depth seen level) :
    ∃ k > n, IsLeast (wayLengths g.Drives signal x) k := by
  induction depth generalizing n seen level with
  | zero => cases hx
  | succ depth ih =>
    rcases List.mem_append.1 hx with hx | hx
    · exact ⟨n + 1, Nat.lt_succ_self n, h.mem_nextLevel.1 hx⟩
    · obtain ⟨k, hk, hleast⟩ := ih h.next hx
      exact ⟨k, by omega, hleast⟩

theorem nodup_levels (h : g.Frontier signal n seen level) : (g.levels depth seen level).Nodup := by
  induction depth generalizing n seen level with
  | zero => exact List.nodup_nil
  | succ depth ih =>
    refine List.nodup_append.2 ⟨nodup_eraseDups _, ih h.next, ?_⟩
    rintro x hx _ hlater rfl
    obtain ⟨k, hk, hleast⟩ := h.next.exists_isLeast hlater
    have hsame := hleast.unique (h.mem_nextLevel.1 hx)
    omega

theorem pairwise_levels (h : g.Frontier signal n seen level) {distance : String → Nat}
    (hdistance : ∀ x ∈ g.levels depth seen level, IsLeast (wayLengths g.Drives signal x) (distance x)) :
    (g.levels depth seen level).Pairwise fun x y => distance x ≤ distance y := by
  induction depth generalizing n seen level with
  | zero => exact .nil
  | succ depth ih =>
    have hfirst : ∀ x ∈ g.nextLevel seen level, distance x = n + 1 := fun x hx =>
      (hdistance x (List.mem_append_left _ hx)).unique (h.mem_nextLevel.1 hx)
    refine List.pairwise_append.2 ⟨?_, ih h.next fun x hx => hdistance x (List.mem_append_right _ hx),
      fun x hx y hy => ?_⟩
    · exact List.pairwise_of_forall_mem_list fun x hx y hy => by rw [hfirst x hx, hfirst y hy]
    · obtain ⟨k, hk, hleast⟩ := h.next.exists_isLeast hy
      have hlater := (hdistance y (List.mem_append_right _ hy)).unique hleast
      have hnow := hfirst x hx
      omega

end Frontier

/-! ### The search with a queue -/

/-- A search with a queue: what has been met, in order, and what waits to be met. -/
structure Walk where
  met : List String
  waiting : List String

/-- A round of the search. The first signal that waits is met, unless it has been met before, and what drives it waits
at the end of the queue. -/
def step (g : Connectivity) (w : Walk) : Walk :=
  match w.waiting with
  | [] => w
  | x :: waiting => if x ∈ w.met then ⟨w.met, waiting⟩ else ⟨w.met ++ [x], waiting ++ g.drivers x⟩

theorem step_done : g.step ⟨seen, []⟩ = ⟨seen, []⟩ := rfl

theorem step_of_mem (h : x ∈ seen) : g.step ⟨seen, x :: waiting⟩ = ⟨seen, waiting⟩ := if_pos h

theorem step_of_not_mem (h : x ∉ seen) : g.step ⟨seen, x :: waiting⟩ = ⟨seen ++ [x], waiting ++ g.drivers x⟩ := if_neg h

theorem iterate_step_done (n : Nat) : g.step^[n] ⟨seen, []⟩ = ⟨seen, []⟩ := Function.iterate_fixed step_done n

/-- The rounds that are left: the edges whose sinks have not been met, and all that waits. -/
def work (g : Connectivity) (w : Walk) : Nat := (g.edges.toList.filter (·.1 ∉ w.met)).length + w.waiting.length

/-- Meeting a signal moves the edges to its drivers into the queue. -/
theorem length_drivers (h : x ∉ seen) : (g.edges.toList.filter (·.1 ∉ seen)).length =
    (g.drivers x).length + (g.edges.toList.filter (·.1 ∉ seen ++ [x])).length := by
  have hsplit := List.length_eq_length_filter_add (l := g.edges.toList.filter (·.1 ∉ seen)) (·.1 = x)
  rw [hsplit, List.filter_filter, List.filter_filter, drivers, List.length_map]
  congr 2
  · refine List.filter_congr fun edge _ => ?_
    by_cases hsink : edge.1 = x <;> simp [hsink, h]
  · refine List.filter_congr fun edge _ => ?_
    simp [Bool.and_comm]

theorem work_step : g.work (g.step ⟨seen, x :: waiting⟩) + 1 = g.work ⟨seen, x :: waiting⟩ := by
  by_cases hx : x ∈ seen
  · rw [step_of_mem hx]
    rfl
  · have hedges := length_drivers (g := g) hx
    rw [step_of_not_mem hx]
    simp only [work, List.length_append, List.length_cons]
    omega

/-- After all rounds that are left nothing waits. -/
theorem waiting_iterate_step (w : Walk) : (g.step^[g.work w] w).waiting = [] := by
  obtain ⟨seen, waiting⟩ := w
  induction hwork : g.work ⟨seen, waiting⟩ generalizing seen waiting with
  | zero =>
    exact List.length_eq_zero_iff.1 (Nat.add_eq_zero_iff.1 hwork).2
  | succ n ih =>
    cases waiting with
    | nil => rw [iterate_step_done]
    | cons x waiting =>
      have hrest : g.work (g.step ⟨seen, x :: waiting⟩) = n := by
        rw [← work_step] at hwork
        omega
      rw [Function.iterate_succ_apply]
      exact ih _ _ hrest

/-- The signals that wait first are worked off, and those met on the way leave their drivers in the queue. -/
theorem iterate_step_append (first rest : List String) : g.step^[first.length] ⟨seen, first ++ rest⟩ =
    ⟨seen ++ (first.filter (· ∉ seen)).eraseDups, rest ++ ((first.filter (· ∉ seen)).eraseDups).flatMap g.drivers⟩ := by
  induction first generalizing seen rest with
  | nil => simp
  | cons x first ih =>
    rw [List.length_cons, Function.iterate_succ_apply, List.cons_append]
    by_cases hx : x ∈ seen
    · rw [step_of_mem hx, ih, List.filter_cons_of_neg (by simpa using hx)]
    · have hrest : (first.filter (· ∉ seen)).filter (fun y => !y == x) = first.filter (· ∉ seen ++ [x]) := by
        rw [List.filter_filter]
        refine List.filter_congr fun y _ => ?_
        by_cases hy : y ∈ seen <;> simp [hy, beq_eq_decide]
      rw [step_of_not_mem hx, List.append_assoc, ih, List.filter_cons_of_pos (by simpa using hx), List.eraseDups_cons,
        hrest, List.flatMap_cons, List.append_assoc, List.append_assoc]
      rfl

/-- Working off the drivers of a level leaves the drivers of the next. -/
theorem iterate_step_level : g.step^[(level.flatMap g.drivers).length] ⟨seen, level.flatMap g.drivers⟩ =
    ⟨seen ++ g.nextLevel seen level, (g.nextLevel seen level).flatMap g.drivers⟩ := by
  have hlevel : g.step^[_] ⟨seen, level.flatMap g.drivers ++ []⟩ = _ := iterate_step_append (level.flatMap g.drivers) []
  rwa [List.append_nil, List.nil_append] at hlevel

/-- The queue goes through the levels one after the other. -/
theorem exists_iterate_step (hdepth : (g.unmet seen).length ≤ depth) :
    ∃ n, g.step^[n] ⟨seen, level.flatMap g.drivers⟩ = ⟨seen ++ g.levels depth seen level, []⟩ := by
  induction depth generalizing seen level with
  | zero =>
    -- no edge is left whose source has not been met
    have hnone : g.unmet seen = [] := List.length_eq_zero_iff.1 (Nat.le_zero.1 hdepth)
    have hnext : g.nextLevel seen level = [] := by
      refine List.eq_nil_iff_forall_not_mem.2 fun z hz => ?_
      obtain ⟨⟨y, -, hyz⟩, hz⟩ := mem_nextLevel.1 hz
      exact hz (by simpa using List.filter_eq_nil_iff.1 hnone (y, z) hyz)
    exact ⟨_, iterate_step_level.trans (by rw [hnext, levels, List.flatMap_nil])⟩
  | succ depth ih =>
    by_cases hnext : g.nextLevel seen level = []
    · refine ⟨_, iterate_step_level.trans ?_⟩
      simp only [levels, hnext, levels_nil, List.append_nil, List.flatMap_nil]
    · obtain ⟨x, hx⟩ := List.exists_mem_of_ne_nil _ hnext
      have hlt := unmet_append_lt hx
      have hrest : (g.unmet (seen ++ g.nextLevel seen level)).length ≤ depth := by omega
      obtain ⟨n, hn⟩ : ∃ n, g.step^[n] ⟨_, (g.nextLevel seen level).flatMap g.drivers⟩ = _ := ih hrest
      refine ⟨n + (level.flatMap g.drivers).length, ?_⟩
      rw [Function.iterate_add_apply, iterate_step_level, hn, levels, List.append_assoc]

/-- With a queue the search ends, after as many rounds as there are edges and drivers of the signal, with what it finds
level by level. -/
theorem iterate_step_reachable : g.step^[g.edges.size + (g.drivers signal).length] ⟨[], g.drivers signal⟩ =
    ⟨g.reachable signal, []⟩ := by
  have hdepth : (g.unmet []).length ≤ g.edges.size := List.length_filter_le ..
  obtain ⟨n, hn⟩ : ∃ n, g.step^[n] ⟨[], [signal].flatMap g.drivers⟩ = _ := exists_iterate_step hdepth
  rw [List.flatMap_singleton, List.nil_append] at hn
  have hwork : g.work ⟨[], g.drivers signal⟩ = g.edges.size + (g.drivers signal).length := by
    rw [work, OrderedSet.size, List.filter_eq_self.2 (by simp)]
  have hend := waiting_iterate_step (g := g) ⟨[], g.drivers signal⟩
  rw [hwork] at hend
  -- both searches have ended, so running on changes neither
  generalize hrounds : g.edges.size + (g.drivers signal).length = rounds at hend ⊢
  generalize hlast : g.step^[rounds] ⟨[], g.drivers signal⟩ = last at hend ⊢
  obtain ⟨met, waiting⟩ := last
  obtain rfl : waiting = [] := hend
  calc (⟨met, []⟩ : Walk) = g.step^[n] (g.step^[rounds] ⟨[], g.drivers signal⟩) := by rw [hlast, iterate_step_done]
    _ = g.step^[rounds] (g.step^[n] ⟨[], g.drivers signal⟩) := by rw [← Function.iterate_add_apply, Nat.add_comm,
          Function.iterate_add_apply]
    _ = ⟨g.reachable signal, []⟩ := by rw [hn, iterate_step_done, reachable]

/-- On whatever graph, the search ends and finds each signal that a way of one edge or more leads to, once, in the order
of the lengths of the shortest such ways. The drivers of a signal are its sources, as they were first recorded. -/
theorem search_exact (edges : List (String × String)) (signal : String) :
    (ofEdges edges).step^[(ofEdges edges).edges.size + ((ofEdges edges).drivers signal).length]
        ⟨[], (ofEdges edges).drivers signal⟩ = ⟨(ofEdges edges).reachable signal, []⟩ ∧
      ((ofEdges edges).reachable signal).Nodup ∧
      (∀ x, x ∈ (ofEdges edges).reachable signal ↔
        Relation.TransGen (fun sink source => (sink, source) ∈ edges) signal x) ∧
      (∃ distance : String → Nat,
        (∀ x ∈ (ofEdges edges).reachable signal,
          IsLeast (wayLengths (fun sink source => (sink, source) ∈ edges) signal x) (distance x)) ∧
        (((ofEdges edges).reachable signal).map distance).Pairwise (· ≤ ·)) ∧
      (ofEdges edges).drivers signal = ((edges.filter (·.1 = signal)).map Prod.snd).eraseDups := by
  have hstart := Frontier.start (ofEdges edges) signal
  rw [← drives_ofEdges]
  refine ⟨iterate_step_reachable, hstart.nodup_levels, fun x => mem_reachable, ?_, drivers_ofEdges edges⟩
  choose! distance hdistance using fun x (hx : x ∈ (ofEdges edges).reachable signal) => hstart.exists_isLeast hx
  refine ⟨distance, fun x hx => (hdistance x hx).2, List.pairwise_map.2 ?_⟩
  exact hstart.pairwise_levels fun x hx => (hdistance x hx).2

/-- A cycle brings the signal itself, after what is nearer. -/
example : (ofEdges [("out", "mid"), ("mid", "in"), ("mid", "out"), ("out", "mid")]).reachable "out" =
    ["mid", "in", "out"] := by
  decide +kernel

end Connectivity

end TokenCircuit
