import TokenCircuit.Top.Basic
import TokenCircuit.Proofs.HostCycle
import TokenCircuit.Proofs.Names

/-!
# Statements by the branches they stand in

A statement is seen here as the list of the statements in it that hold no others, each with the branches on the way to
it. Blocks and empty statements do not show in that list. Rewiring flattens the former and leaves out the latter, so in
this view it is a walk along the list (`Rewiring.leaves_rewire`): every leaf is rewired on its own, in its branches, and
only what has been joined so far is handed from one leaf to the next.
-/

namespace TokenCircuit

/-- A statement that holds no others, with the predicates on the way to it and the branches taken there. -/
structure Leaf where
  guards : List (Expr × Bool)
  stmt : Stmt

namespace Leaf

def under (pred : Expr) (taken : Bool) (l : Leaf) : Leaf := ⟨(pred, taken) :: l.guards, l.stmt⟩

/-- The branches of the leaf are those that are taken. -/
def runs (holds : Expr → Bool) (l : Leaf) : Bool := l.guards.all fun guard => holds guard.1 == guard.2

/-- What `f` finds in the leaves whose branches are taken. -/
def collect (holds : Expr → Bool) (f : Stmt → Option β) (ls : List Leaf) : List β :=
  ((ls.filter (·.runs holds)).map (·.stmt)).filterMap f

variable {holds : Expr → Bool} {f : Stmt → Option β} {ls ls' : List Leaf}

theorem collect_append : collect holds f (ls ++ ls') = collect holds f ls ++ collect holds f ls' := by
  simp [collect]

theorem collect_flatMap {ss : List Stmt} {g : Stmt → List Leaf} :
    collect holds f (ss.flatMap g) = ss.flatMap fun s => collect holds f (g s) := by
  unfold collect
  rw [List.filter_flatMap, List.map_flatMap, List.filterMap_flatMap]

theorem collect_under {pred : Expr} {taken : Bool} :
    collect holds f (ls.map (under pred taken)) = if holds pred == taken then collect holds f ls else [] := by
  have hruns : ∀ l : Leaf, (l.under pred taken).runs holds = ((holds pred == taken) && l.runs holds) := fun _ => rfl
  unfold collect
  rw [List.filter_map, List.map_map]
  simp only [Function.comp_def, hruns]
  split
  · next h => simp only [h, Bool.true_and, under]
  · next h => simp [h]

theorem collect_cons {l : Leaf} :
    collect holds f (l :: ls) = (if l.runs holds then (f l.stmt).toList else []) ++ collect holds f ls := by
  unfold collect
  rw [List.filter_cons]
  split
  · rw [List.map_cons, List.filterMap_cons]
    cases f l.stmt <;> rfl
  · rfl

theorem collect_branch {l : Leaf} {ss : List Stmt} :
    collect holds f (ss.map (Leaf.mk l.guards)) = if l.runs holds then ss.filterMap f else [] := by
  have hruns : (fun s => (Leaf.mk l.guards s).runs holds) = fun _ => l.runs holds := rfl
  unfold collect
  rw [List.filter_map, Function.comp_def, hruns]
  cases l.runs holds <;> simp

end Leaf

namespace Stmt

mutual

def leaves : Stmt → List Leaf
  | .when pred conseq alt => conseq.leaves.map (Leaf.under pred true) ++ alt.leaves.map (Leaf.under pred false)
  | .block body => leavesList body
  | .skip => []
  | s => [⟨[], s⟩]

def leavesList : List Stmt → List Leaf
  | [] => []
  | s :: ss => s.leaves ++ leavesList ss

end

theorem leavesList_eq_flatMap (ss : List Stmt) : leavesList ss = ss.flatMap leaves := by
  induction ss with
  | nil => rfl
  | cons s ss ih => simp [leavesList, ih]

theorem leaves_block (body : List Stmt) : (Stmt.block body).leaves = body.flatMap leaves := by
  rw [leaves, leavesList_eq_flatMap]

theorem leaves_ofMembers (ss : List Stmt) : (ofMembers ss).leaves = ss.flatMap leaves := by
  rcases ss with _ | ⟨s, _ | ⟨s', ss⟩⟩
  · rfl
  · simp [ofMembers]
  · exact leaves_block _

theorem executedList_eq_flatMap (holds : Expr → Bool) (ss : List Stmt) :
    executedList holds ss = ss.flatMap (executed holds) := by
  induction ss with
  | nil => rfl
  | cons s ss ih => simp [executedList, ih]

/-- What is found in the statements executed is found in the leaves whose branches are taken. -/
theorem filterMap_executed (holds : Expr → Bool) {f : Stmt → Option β} (hskip : f .skip = none) (s : Stmt) :
    (s.executed holds).filterMap f = Leaf.collect holds f s.leaves := by
  induction s with
  | when pred conseq alt ihc iha =>
    rw [executed, leaves, Leaf.collect_append, Leaf.collect_under, Leaf.collect_under, ← ihc, ← iha]
    cases holds pred <;> simp
  | block body ih =>
    rw [executed, executedList_eq_flatMap, leaves_block, List.filterMap_flatMap, Leaf.collect_flatMap]
    exact List.flatMap_congr ih
  | skip =>
    show [skip].filterMap f = []
    simp [hskip]
  | wire | reg | inst | node | partialConnect | connect | invalid => rfl

/-- The statement holds no others and does something. -/
def isLeaf : Stmt → Bool
  | .when .. | .block _ | .skip => false
  | _ => true

theorem leaves_of_isLeaf {s : Stmt} (h : s.isLeaf = true) : s.leaves = [⟨[], s⟩] := by
  cases s with
  | when | block | skip => cases h
  | _ => rfl

theorem mem_leaves {s s' : Stmt} : (∃ l ∈ s.leaves, l.stmt = s') ↔ s' ∈ s.preorder ∧ s'.isLeaf = true := by
  induction s with
  | when pred conseq alt ihc iha =>
    have hunder : ∀ (taken : Bool) (ls : List Leaf),
        (∃ l ∈ ls.map (Leaf.under pred taken), l.stmt = s') ↔ ∃ l ∈ ls, l.stmt = s' := by
      intro taken ls
      simp [Leaf.under]
    rw [leaves, preorder]
    simp only [List.mem_append, List.mem_cons, or_and_right, exists_or, hunder, ihc, iha]
    refine ⟨.inr, fun h => h.resolve_left ?_⟩
    rintro ⟨rfl, hleaf⟩
    cases hleaf
  | block body ih =>
    rw [leaves_block, preorder, preorderList_eq_flatMap]
    simp only [List.mem_flatMap, List.mem_cons]
    constructor
    · rintro ⟨l, ⟨s, hs, hl⟩, hstmt⟩
      obtain ⟨hmem, hleaf⟩ := (ih s hs).1 ⟨l, hl, hstmt⟩
      exact ⟨.inr ⟨s, hs, hmem⟩, hleaf⟩
    · rintro ⟨rfl | ⟨s, hs, hmem⟩, hleaf⟩
      · cases hleaf
      · obtain ⟨l, hl, hstmt⟩ := (ih s hs).2 ⟨hmem, hleaf⟩
        exact ⟨l, ⟨s, hs, hl⟩, hstmt⟩
  | skip =>
    show (∃ l ∈ ([] : List Leaf), l.stmt = s') ↔ s' ∈ [skip] ∧ _
    simp only [List.not_mem_nil, false_and, exists_false, false_iff, List.mem_singleton]
    rintro ⟨rfl, hleaf⟩
    cases hleaf
  | wire | reg | inst | node | partialConnect | connect | invalid =>
    show (∃ l ∈ [Leaf.mk [] _], l.stmt = s') ↔ s' ∈ [_] ∧ _
    simp only [List.mem_singleton, exists_eq_left]
    constructor
    · rintro rfl
      exact ⟨rfl, rfl⟩
    · exact fun h => h.1.symm

/-- What is found in leaves only is found in the same order. -/
theorem filterMap_preorder_of_leaves {f : Stmt → Option β} (hf : ∀ s, s.isLeaf = false → f s = none) (s : Stmt) :
    s.preorder.filterMap f = (s.leaves.map (·.stmt)).filterMap f := by
  have hunder : ∀ (pred : Expr) (taken : Bool) (ls : List Leaf),
      (ls.map (Leaf.under pred taken)).map (·.stmt) = ls.map (·.stmt) := by
    intro pred taken ls
    rw [List.map_map]
    rfl
  induction s with
  | when pred conseq alt ihc iha =>
    rw [filterMap_when (hf _ rfl), leaves, List.map_append, List.filterMap_append, hunder, hunder, ihc, iha]
  | block body ih =>
    rw [filterMap_block (hf _ rfl), leaves_block, List.map_flatMap, List.filterMap_flatMap]
    exact List.flatMap_congr ih
  | skip =>
    show [skip].filterMap f = []
    simp [hf skip rfl]
  | wire | reg | inst | node | partialConnect | connect | invalid => rfl

theorem isLeaf_of_mem_leaves {s : Stmt} {l : Leaf} (h : l ∈ s.leaves) : l.stmt.isLeaf = true :=
  (mem_leaves.1 ⟨l, h, rfl⟩).2

end Stmt

/-! ### Rewiring, leaf by leaf -/

namespace Rewiring

variable (r : Rewiring)

def rewireLeaves : List Leaf → Wiring → List Leaf × Wiring
  | [], w => ([], w)
  | l :: ls, w =>
    let (first, w) := r.rewire l.stmt w
    let (rest, w) := rewireLeaves ls w
    (first.map (Leaf.mk l.guards) ++ rest, w)

theorem rewireLeaves_append (ls ls' : List Leaf) (w : Wiring) : r.rewireLeaves (ls ++ ls') w =
    ((r.rewireLeaves ls w).1 ++ (r.rewireLeaves ls' (r.rewireLeaves ls w).2).1,
      (r.rewireLeaves ls' (r.rewireLeaves ls w).2).2) := by
  induction ls generalizing w with
  | nil => rfl
  | cons l ls ih =>
    simp only [List.cons_append, rewireLeaves, ih]
    rw [List.append_assoc]

theorem rewireLeaves_under (pred : Expr) (taken : Bool) (ls : List Leaf) (w : Wiring) :
    r.rewireLeaves (ls.map (Leaf.under pred taken)) w =
      ((r.rewireLeaves ls w).1.map (Leaf.under pred taken), (r.rewireLeaves ls w).2) := by
  induction ls generalizing w with
  | nil => rfl
  | cons l ls ih =>
    simp only [List.map_cons, rewireLeaves, ih, List.map_append, List.map_map]
    rfl

theorem mem_rewireLeaves {ls : List Leaf} {w : Wiring} {l' : Leaf} (h : l' ∈ (r.rewireLeaves ls w).1) :
    ∃ l ∈ ls, ∃ w', l'.stmt ∈ (r.rewire l.stmt w').1 := by
  induction ls generalizing w with
  | nil => cases h
  | cons l ls ih =>
    rcases List.mem_append.1 h with h | h
    · obtain ⟨s, hs, rfl⟩ := List.mem_map.1 h
      exact ⟨l, List.mem_cons_self .., w, hs⟩
    · obtain ⟨l, hl, hstmt⟩ := ih h
      exact ⟨l, List.mem_cons_of_mem _ hl, hstmt⟩

theorem exists_rewire_of_mem {ls : List Leaf} {l : Leaf} (h : l ∈ ls) (w : Wiring) :
    ∃ w', ∀ s ∈ (r.rewire l.stmt w').1, ⟨l.guards, s⟩ ∈ (r.rewireLeaves ls w).1 := by
  induction ls generalizing w with
  | nil => cases h
  | cons first ls ih =>
    rcases List.mem_cons.1 h with rfl | h
    · exact ⟨w, fun s hs => List.mem_append_left _ (List.mem_map_of_mem hs)⟩
    · obtain ⟨w', hw'⟩ := ih h (r.rewire first.stmt w).2
      exact ⟨w', fun s hs => List.mem_append_right _ (hw' s hs)⟩

/-- What becomes of a connection is that connection or one of two host ports. -/
theorem mem_rewireConnection {s s' : Stmt} {loc value : Expr} {w : Wiring}
    (h : s' ∈ (r.rewireConnection s loc value w).1) : s' = s ∨ ∃ sink source, s' = .partialConnect sink source := by
  unfold rewireConnection at h
  split at h
  · next sink source _ =>
    unfold Wiring.join at h
    dsimp only at h
    split at h
    · cases h
    · exact .inr ⟨sink, source, List.mem_singleton.1 h⟩
  · cases h
  · cases h
  · exact .inl (List.mem_singleton.1 h)

theorem isLeaf_of_rewire {s s' : Stmt} {w : Wiring} (h : s.isLeaf = true) (hs' : s' ∈ (r.rewire s w).1) :
    s'.isLeaf = true := by
  cases s with
  | when | block | skip => cases h
  | connect loc value | partialConnect loc value =>
    rw [rewire] at hs'
    rcases r.mem_rewireConnection hs' with rfl | ⟨sink, source, rfl⟩ <;> rfl
  | inst name module =>
    rw [rewire, rewireInstance] at hs'
    split at hs'
    · simp only [List.mem_cons, List.not_mem_nil, or_false] at hs'
      rcases hs' with rfl | rfl | rfl <;> rfl
    · rw [List.mem_singleton.1 hs']
      rfl
  | invalid target =>
    rw [rewire] at hs'
    dsimp only at hs'
    split at hs'
    · rw [List.mem_singleton.1 hs']
      rfl
    · cases hs'
  | wire | reg | node =>
    rw [rewire] at hs'
    rwa [List.mem_singleton.1 hs']

theorem leaves_rewire_leaf {s : Stmt} (h : s.isLeaf = true) (w : Wiring) :
    (r.rewire s w).1.flatMap Stmt.leaves = (r.rewire s w).1.map (Leaf.mk []) := by
  rw [← List.flatMap_pure_eq_map]
  exact List.flatMap_congr fun s' hs' => Stmt.leaves_of_isLeaf (r.isLeaf_of_rewire h hs')

/-- The members of a block are rewired one after the other, each from what the ones before it leave behind, also if only
a part of every statement is looked at. -/
theorem rewireList_flatMap {view : Stmt → List Leaf} {body : List Stmt}
    (h : ∀ s ∈ body, ∀ w, ((r.rewire s w).1.flatMap view, (r.rewire s w).2) = r.rewireLeaves (view s) w) (w : Wiring) :
    ((r.rewireList body w).1.flatMap view, (r.rewireList body w).2) = r.rewireLeaves (body.flatMap view) w := by
  induction body generalizing w with
  | nil => rfl
  | cons s ss ih =>
    have hs := h s (List.mem_cons_self ..) w
    have hss := ih (fun s hs => h s (List.mem_cons_of_mem _ hs)) (r.rewire s w).2
    rw [List.flatMap_cons, rewireLeaves_append, ← hs]
    dsimp only
    rw [← hss, rewireList]
    simp only [List.flatMap_append]

/-- Rewiring a statement is rewiring its leaves, one after the other. -/
theorem leaves_rewire (s : Stmt) (w : Wiring) :
    ((r.rewire s w).1.flatMap Stmt.leaves, (r.rewire s w).2) = r.rewireLeaves s.leaves w := by
  induction s generalizing w with
  | when pred conseq alt ihc iha =>
    have hc := ihc w
    have ha := iha (r.rewire conseq w).2
    rw [Stmt.leaves, rewireLeaves_append, rewireLeaves_under, rewireLeaves_under, ← hc]
    dsimp only
    rw [← ha, rewire]
    simp only [List.flatMap_cons, List.flatMap_nil, List.append_nil, Stmt.leaves, Stmt.leaves_ofMembers]
  | block body ih =>
    rw [rewire, Stmt.leaves_block]
    exact r.rewireList_flatMap ih w
  | skip => rfl
  | wire | reg | inst | node | partialConnect | connect | invalid =>
    rw [Stmt.leaves_of_isLeaf rfl, leaves_rewire_leaf r rfl]
    simp only [rewireLeaves, List.append_nil]

/-! ### Declarations stay -/

section Declarations

variable {r} {f : Stmt → Option β}

/-- What is found in declarations only is found again where the declaration was. -/
theorem filterMap_rewire (hf : ∀ s, s.declared? = none → f s = none) {s : Stmt} (h : s.isLeaf = true) (w : Wiring) :
    (r.rewire s w).1.filterMap f = (f s).toList := by
  cases s with
  | when | block | skip => cases h
  | connect loc value | partialConnect loc value =>
    rw [hf _ rfl, rewire]
    refine List.filterMap_eq_nil_iff.2 fun s' hs' => hf s' ?_
    rcases r.mem_rewireConnection hs' with rfl | ⟨sink, source, rfl⟩ <;> rfl
  | invalid target =>
    rw [hf _ rfl, rewire]
    refine List.filterMap_eq_nil_iff.2 fun s' hs' => hf s' ?_
    dsimp only at hs'
    split at hs'
    · rw [List.mem_singleton.1 hs']
      rfl
    · cases hs'
  | inst name module =>
    rw [rewire, rewireInstance]
    dsimp only
    split
    · rw [List.filterMap_cons, List.filterMap_cons, List.filterMap_cons, hf (.connect _ _) rfl, hf (.connect _ _) rfl]
      cases f (.inst name module) <;> rfl
    · rw [List.filterMap_cons]
      cases f (.inst name module) <;> rfl
  | wire name | reg name | node name =>
    rw [rewire, List.filterMap_cons]
    cases f _ <;> rfl

theorem filterMap_rewireLeaves (hf : ∀ s, s.declared? = none → f s = none) {ls : List Leaf}
    (hleaf : ∀ l ∈ ls, l.stmt.isLeaf = true) (w : Wiring) :
    ((r.rewireLeaves ls w).1.map (·.stmt)).filterMap f = (ls.map (·.stmt)).filterMap f := by
  induction ls generalizing w with
  | nil => rfl
  | cons l ls ih =>
    simp only [rewireLeaves, List.map_append, List.map_map, Function.comp_def, List.map_id', List.filterMap_append,
      filterMap_rewire hf (hleaf l (List.mem_cons_self ..)), ih fun l' hl' => hleaf l' (List.mem_cons_of_mem _ hl')]
    rw [List.map_cons, List.filterMap_cons]
    cases f l.stmt <;> rfl

end Declarations

end Rewiring

/-! ### The body of a rewired module -/

namespace Module

/-- What the rewiring of a module goes by. -/
def rewiring (m : Module) (a : Analysis) (layouts : OrderedMap String Layout) (host : HostSignals) (config : Config) :
    Rewiring :=
  ⟨m.tokenInstances layouts, topMembers a.topChannels, m.staleNames a config, host, config⟩

theorem body_rewired {m rewired : Module} {a : Analysis} {layouts : OrderedMap String Layout} {host : HostSignals}
    {config : Config} (h : (m.rewired a layouts host config).outcome = .ok rewired) :
    rewired.body = .block ((m.rewiring a layouts host config).rewire m.body {}).1 := by
  simp only [Module.rewired, Logged.outcome_bind, Logged.outcome_liftM, Logged.outcome_emit, Logged.outcome_emitAll]
    at h
  obtain ⟨-, -, h⟩ := bind_eq_ok.1 h
  obtain ⟨channelPorts, -, h⟩ := bind_eq_ok.1 h
  obtain ⟨-, -, h⟩ := bind_eq_ok.1 h
  cases h
  rfl

theorem leaves_rewired {m rewired : Module} {a : Analysis} {layouts : OrderedMap String Layout} {host : HostSignals}
    {config : Config} (h : (m.rewired a layouts host config).outcome = .ok rewired) :
    rewired.body.leaves = ((m.rewiring a layouts host config).rewireLeaves m.body.leaves {}).1 := by
  rw [body_rewired h, Stmt.leaves_block, ← Rewiring.leaves_rewire]

/-- A rewired module declares what it declared before, in the same order. -/
theorem filterMap_rewired {m rewired : Module} {a : Analysis} {layouts : OrderedMap String Layout} {host : HostSignals}
    {config : Config} (h : (m.rewired a layouts host config).outcome = .ok rewired) {f : Stmt → Option β}
    (hf : ∀ s, s.declared? = none → f s = none) : rewired.body.preorder.filterMap f = m.body.preorder.filterMap f := by
  have hnone : ∀ s : Stmt, s.isLeaf = false → f s = none := by
    intro s hs
    refine hf s ?_
    cases s with
    | when | block | skip => rfl
    | _ => cases hs
  rw [Stmt.filterMap_preorder_of_leaves hnone, Stmt.filterMap_preorder_of_leaves hnone, leaves_rewired h,
    Rewiring.filterMap_rewireLeaves hf fun l => Stmt.isLeaf_of_mem_leaves]

end Module

end TokenCircuit
