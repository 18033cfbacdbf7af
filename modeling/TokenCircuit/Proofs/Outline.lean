import TokenCircuit.Proofs.JoinedFields

/-!
# What rewiring leaves alone

The leaves of a statement do not show a branch that holds none, nor which of two branches with the same predicate a leaf
is in. The outline does: it lists the leaves with their branches and, in front of the leaves of every `when`, a header
for its predicate. Rewiring is a walk along that list as well (`Rewiring.outline_rewire`). So what it keeps is said of
one entry and holds of the list: headers and declarations are kept all (`Rewiring.filter_rewireLeaves`), an instance has
its host connections right behind it (`Rewiring.hosted_rewireLeaves`), and what rewiring has nothing to do with stays in
its branches and in its order (`Rewiring.sublist_rewireLeaves`).
-/

namespace TokenCircuit

namespace Stmt

/-- A `when` without what is in its branches. -/
def header (pred : Expr) : Stmt := .when pred .skip .skip

mutual

def outline : Stmt → List Leaf
  | .when pred conseq alt =>
    ⟨[], header pred⟩ :: (conseq.outline.map (Leaf.under pred true) ++ alt.outline.map (Leaf.under pred false))
  | .block body => outlineList body
  | .skip => []
  | s => [⟨[], s⟩]

def outlineList : List Stmt → List Leaf
  | [] => []
  | s :: ss => s.outline ++ outlineList ss

end

theorem outlineList_eq_flatMap (ss : List Stmt) : outlineList ss = ss.flatMap outline := by
  induction ss with
  | nil => rfl
  | cons s ss ih => simp [outlineList, ih]

theorem outline_block (body : List Stmt) : (Stmt.block body).outline = body.flatMap outline := by
  rw [outline, outlineList_eq_flatMap]

theorem outline_ofMembers (ss : List Stmt) : (ofMembers ss).outline = ss.flatMap outline := by
  rcases ss with _ | ⟨s, _ | ⟨s', ss⟩⟩
  · rfl
  · simp [ofMembers]
  · exact outline_block _

theorem outline_of_isLeaf {s : Stmt} (h : s.isLeaf = true) : s.outline = [⟨[], s⟩] := by
  cases s with
  | when | block | skip => cases h
  | _ => rfl

/-- What can stand in an outline: a leaf or a header. -/
def IsEntry (s : Stmt) : Prop := s.isLeaf = true ∨ ∃ pred, s = header pred

theorem mem_outline {s : Stmt} {l : Leaf} (h : l ∈ s.outline) :
    (l.stmt.isLeaf = true ∧ l.stmt ∈ s.preorder) ∨ ∃ pred, l.stmt = header pred := by
  induction s generalizing l with
  | when pred conseq alt ihc iha =>
    rw [outline, List.mem_cons, List.mem_append, List.mem_map, List.mem_map] at h
    rw [preorder, List.mem_cons, List.mem_append]
    rcases h with rfl | ⟨l', hl', rfl⟩ | ⟨l', hl', rfl⟩
    · exact .inr ⟨pred, rfl⟩
    · exact (ihc hl').imp_left fun hin => ⟨hin.1, .inr (.inl hin.2)⟩
    · exact (iha hl').imp_left fun hin => ⟨hin.1, .inr (.inr hin.2)⟩
  | block body ih =>
    rw [outline_block] at h
    obtain ⟨s, hs, hl⟩ := List.mem_flatMap.1 h
    rw [preorder, preorderList_eq_flatMap, List.mem_cons]
    exact (ih s hs hl).imp_left fun hin => ⟨hin.1, .inr (List.mem_flatMap.2 ⟨s, hs, hin.2⟩)⟩
  | skip => cases h
  | wire | reg | inst | node | partialConnect | connect | invalid =>
    rw [outline_of_isLeaf rfl] at h
    cases List.mem_singleton.1 h
    exact .inl ⟨rfl, List.mem_singleton_self _⟩

theorem isEntry_of_mem_outline {s : Stmt} {l : Leaf} (h : l ∈ s.outline) : l.stmt.IsEntry :=
  (mem_outline h).imp_left And.left

/-- The statement declares something or opens branches. -/
def isFrame : Stmt → Bool
  | .wire .. | .reg .. | .inst .. | .node .. | .when .. => true
  | _ => false

theorem isFrame_of_isLeaf {s : Stmt} (h : s.isLeaf = true) : s.isFrame = s.declared?.isSome := by
  cases s with
  | when | block | skip => cases h
  | _ => rfl

end Stmt

/-! ### Rewiring, entry by entry -/

namespace Rewiring

variable {r : Rewiring} {s : Stmt} {w : Wiring} {ls ls' : List Leaf}

theorem rewire_header (pred : Expr) : r.rewire (.header pred) w = ([.header pred], w) := by
  simp only [Stmt.header, rewire, Stmt.ofMembers]

variable (r) in
/-- Rewiring a statement is rewiring the entries of its outline, one after the other. -/
theorem outline_rewire (s : Stmt) (w : Wiring) :
    ((r.rewire s w).1.flatMap Stmt.outline, (r.rewire s w).2) = r.rewireLeaves s.outline w := by
  induction s generalizing w with
  | when pred conseq alt ihc iha =>
    have hc := ihc w
    have ha := iha (r.rewire conseq w).2
    -- the header comes through as it is, and the entries of the two branches follow it
    rw [Stmt.outline, rewireLeaves, rewire_header]
    dsimp only
    rw [rewireLeaves_append, rewireLeaves_under, rewireLeaves_under, ← hc]
    dsimp only
    rw [← ha, rewire]
    simp only [List.flatMap_cons, List.flatMap_nil, List.append_nil, Stmt.outline, Stmt.outline_ofMembers,
      List.map_cons, List.map_nil, List.cons_append, List.nil_append]
  | block body ih =>
    rw [rewire, Stmt.outline_block]
    exact r.rewireList_flatMap ih w
  | skip => rfl
  | wire | reg | inst | node | partialConnect | connect | invalid =>
    rw [Stmt.outline_of_isLeaf rfl]
    simp only [rewireLeaves, List.append_nil, Prod.mk.injEq, and_true]
    rw [← List.flatMap_pure_eq_map]
    exact List.flatMap_congr fun s' hs' => Stmt.outline_of_isLeaf (r.isLeaf_of_rewire rfl hs')

/-! ### Headers and declarations -/

theorem filter_rewire (hs : s.IsEntry) : (r.rewire s w).1.filter Stmt.isFrame = [s].filter Stmt.isFrame := by
  rcases hs with hleaf | ⟨pred, rfl⟩
  · -- of the leaves only declarations belong to the frame, and these stay
    have hdeclared := filterMap_rewire (r := r) (f := Option.guard fun s => s.declared?.isSome)
      (fun s hs => by simp [Option.guard, hs]) hleaf w
    rw [List.filterMap_eq_filter] at hdeclared
    rw [List.filter_congr fun s' hs' => Stmt.isFrame_of_isLeaf (r.isLeaf_of_rewire hleaf hs'), hdeclared,
      List.filter_singleton, Stmt.isFrame_of_isLeaf hleaf, Option.guard]
    cases s.declared?.isSome <;> rfl
  · rw [rewire_header]

theorem filter_rewireLeaves (hls : ∀ l ∈ ls, l.stmt.IsEntry) (w : Wiring) :
    (r.rewireLeaves ls w).1.filter (·.stmt.isFrame) = ls.filter (·.stmt.isFrame) := by
  induction ls generalizing w with
  | nil => rfl
  | cons l ls ih =>
    have hentry := filter_rewire (r := r) (w := w) (hls l (List.mem_cons_self ..))
    have hrest := ih (fun l' hl' => hls l' (List.mem_cons_of_mem _ hl')) (r.rewire l.stmt w).2
    rw [rewireLeaves, List.filter_append, hrest, List.filter_map]
    show ((r.rewire l.stmt w).1.filter Stmt.isFrame).map _ ++ _ = _
    rw [hentry, List.filter_singleton, List.filter_cons]
    cases l.stmt.isFrame <;> rfl

/-! ### Host connections -/

theorem hostConnects_of_mem {name module : String} (h : name ∈ r.instances) : r.hostConnects (.inst name module) =
    [.connect (.field (.ref name) r.config.hostClock) r.host.clock,
      .connect (.field (.ref name) r.config.hostReset) r.host.reset] := if_pos h

/-- Every instance is followed at once by the connections that it gets, in the same branches. -/
def Hosted (r : Rewiring) (ls : List Leaf) : Prop :=
  ∀ l after, l :: after <:+ ls → (r.hostConnects l.stmt).map (Leaf.mk l.guards) <+: after

theorem hosted_cons {l : Leaf} :
    r.Hosted (l :: ls) ↔ (r.hostConnects l.stmt).map (Leaf.mk l.guards) <+: ls ∧ r.Hosted ls := by
  simp only [Hosted, List.suffix_cons_iff, List.cons.injEq]
  constructor
  · exact fun h => ⟨h l ls (.inl ⟨rfl, rfl⟩), fun l' after hafter => h l' after (.inr hafter)⟩
  · rintro ⟨hfirst, hrest⟩ l' after (⟨rfl, rfl⟩ | hafter)
    · exact hfirst
    · exact hrest l' after hafter

theorem Hosted.append (h : r.Hosted ls) (h' : r.Hosted ls') : r.Hosted (ls ++ ls') := by
  induction ls with
  | nil => exact h'
  | cons l ls ih =>
    obtain ⟨hfirst, hrest⟩ := hosted_cons.1 h
    exact hosted_cons.2 ⟨hfirst.trans (List.prefix_append ls ls'), ih hrest⟩

theorem hosted_of_none (h : ∀ l ∈ ls, r.hostConnects l.stmt = []) : r.Hosted ls := by
  intro l after hafter
  rw [h l (hafter.subset (List.mem_cons_self ..))]
  exact List.nil_prefix

theorem hosted_rewire (hs : s.IsEntry) (guards : List (Expr × Bool)) :
    r.Hosted ((r.rewire s w).1.map (Leaf.mk guards)) := by
  rcases hs with hleaf | ⟨pred, rfl⟩
  · cases s with
    | when | block | skip => cases hleaf
    | inst name module =>
      rw [(rewire_of_no_pair hleaf rfl).1]
      refine hosted_cons.2 ⟨List.prefix_rfl, hosted_of_none fun l hl => ?_⟩
      obtain ⟨s, hs, rfl⟩ := List.mem_map.1 hl
      dsimp only [hostConnects] at hs
      split at hs
      · rcases List.mem_pair.1 hs with rfl | rfl <;> rfl
      · cases hs
    | wire | reg | node | partialConnect | connect | invalid =>
      refine hosted_of_none fun l hl => ?_
      obtain ⟨s, hs, rfl⟩ := List.mem_map.1 hl
      rcases mem_rewire hleaf hs with ⟨rfl, -⟩ | hs | ⟨pair, -, rfl⟩
      · rfl
      · cases hs
      · rfl
  · rw [rewire_header]
    exact hosted_of_none (by simp [hostConnects, Stmt.header])

theorem hosted_rewireLeaves (hls : ∀ l ∈ ls, l.stmt.IsEntry) (w : Wiring) : r.Hosted (r.rewireLeaves ls w).1 := by
  induction ls generalizing w with
  | nil => exact hosted_of_none (by simp [rewireLeaves])
  | cons l ls ih =>
    exact (hosted_rewire (hls l (List.mem_cons_self ..)) l.guards).append
      (ih (fun l' hl' => hls l' (List.mem_cons_of_mem _ hl')) _)

/-! ### The rest -/

theorem sublist_rewireLeaves {p : Stmt → Bool} (hstays : ∀ s, p s = true → ∀ e ∈ s.sides, r.regards e = false)
    (hls : ∀ l ∈ ls, l.stmt.IsEntry) (w : Wiring) :
    (ls.filter (p ·.stmt)).Sublist (r.rewireLeaves ls w).1 := by
  induction ls generalizing w with
  | nil => exact List.Sublist.slnil
  | cons l ls ih =>
    have hrest := ih (fun l' hl' => hls l' (List.mem_cons_of_mem _ hl')) (r.rewire l.stmt w).2
    rw [List.filter_cons]
    split
    · next hl =>
      have hmem : l.stmt ∈ (r.rewire l.stmt w).1 := by
        rcases hls l (List.mem_cons_self ..) with hleaf | ⟨pred, hheader⟩
        · exact mem_rewire_of_stays hleaf (hstays _ hl)
        · rw [hheader, rewire_header]
          exact List.mem_singleton_self _
      have hfirst : [l].Sublist ((r.rewire l.stmt w).1.map (Leaf.mk l.guards)) :=
        List.singleton_sublist.2 (List.mem_map_of_mem hmem)
      exact hfirst.append hrest
    · exact hrest.trans (List.sublist_append_right _ _)

end Rewiring

/-! ### What is touched -/

/-- The expression is a port of the instance that the statement makes, and has a place in the layout of its module. -/
def Stmt.placesPort (layouts : OrderedMap String Layout) (e : Expr) : Stmt → Bool
  | .inst name module => (layouts.get? module).any fun layout => layout.keys.any fun port => e = .field (.ref name) port
  | _ => false

namespace Module

variable {m rewired : Module} {a : Analysis} {layouts : OrderedMap String Layout} {host : HostSignals} {config : Config}

/-- The name of a port that is gone: one listed as such, a clock that is not the host's, or one in a channel. -/
def isStale (m : Module) (a : Analysis) (config : Config) (name : String) : Bool :=
  name ∈ a.staleTopPorts || m.ports.any (fun p => p.name = name && p.isClock && p.name ≠ config.hostClock) ||
    a.topChannels.values.any (name ∈ ·.ports)

/-- The expression is a port with a place, of an instance in the module, or a port that is gone or a part of one. -/
def touches (m : Module) (a : Analysis) (layouts : OrderedMap String Layout) (config : Config) (e : Expr) : Bool :=
  m.body.preorder.any (Stmt.placesPort layouts e) || e.root?.any (m.isStale a config)

theorem isStale_of_topMembers {name hostPort : String} (h : (topMembers a.topChannels).get? name = some hostPort) :
    m.isStale a config name = true := by
  obtain ⟨channel, tc, hentry, hport, -⟩ := mem_topMembers h
  have hchannel : a.topChannels.values.any (name ∈ ·.ports) = true :=
    List.any_eq_true.2 ⟨tc, List.mem_map.2 ⟨_, hentry, rfl⟩, decide_eq_true hport⟩
  rw [isStale, hchannel, Bool.or_true]

theorem isStale_of_mem {name : String} (h : name ∈ m.staleNames a config) : m.isStale a config name = true := by
  rw [staleNames, List.mem_append, List.mem_append] at h
  rcases h with (hlisted | hclock) | hmember
  · simp [isStale, hlisted]
  · obtain ⟨p, hp, rfl⟩ := List.mem_map.1 hclock
    obtain ⟨hp, hclock⟩ := List.mem_filter.1 hp
    have hany : m.ports.any (fun q => q.name = p.name && q.isClock && q.name ≠ config.hostClock) = true :=
      List.any_eq_true.2 ⟨p, hp, by simpa using hclock⟩
    rw [isStale, hany, Bool.or_true, Bool.true_or]
  · obtain ⟨hostPort, hmember⟩ := OrderedMap.mem_iff_get?.1 (show name ∈ topMembers a.topChannels from hmember)
    exact isStale_of_topMembers hmember

theorem mem_of_get?_tokenInstances {name : String} {layout : Layout}
    (h : (m.tokenInstances layouts).get? name = some layout) :
    ∃ module, .inst name module ∈ m.body.preorder ∧ layouts.get? module = some layout := by
  have hlisted := (OrderedMap.mem_of_get?_foldl_insert h).resolve_right (by rintro ⟨⟩)
  obtain ⟨s, hs, hsome⟩ := List.mem_filterMap.1 hlisted
  cases s with
  | inst name' module =>
    obtain ⟨layout', hlayout, heq⟩ := Option.map_eq_some_iff.1 hsome
    cases heq
    exact ⟨module, hs, hlayout⟩
  | _ => cases hsome

theorem mem_tokenInstances {name module : String} (h : .inst name module ∈ m.body.preorder)
    (hmodule : module ∈ layouts) : name ∈ m.tokenInstances layouts := by
  obtain ⟨layout, hlayout⟩ := OrderedMap.mem_iff_get?.1 hmodule
  refine OrderedMap.mem_foldl_insert.2 (.inl (List.mem_map.2 ⟨(name, layout), List.mem_filterMap.2 ⟨_, h, ?_⟩, rfl⟩))
  show (layouts.get? module).map (name, ·) = _
  rw [hlayout, Option.map_some]

/-- Rewiring has to do only with what the module, the analysis and the layouts say is touched. -/
theorem touches_of_regards {e : Expr} (h : (m.rewiring a layouts host config).regards e = true) :
    m.touches a layouts config e = true := by
  have hroot : ∀ {name : String}, e.root? = some name → m.isStale a config name = true →
      m.touches a layouts config e = true := by
    intro name hname hstale
    rw [touches, hname, Option.any_some, hstale, Bool.or_true]
  rcases (m.rewiring a layouts host config).shape e with
    ⟨inst, port, layout, rfl, hinst⟩ | ⟨name, hostPort, rfl, hmember⟩ | ⟨-, -, -, hrooted⟩
  · obtain ⟨module, hmem, hlayout⟩ := mem_of_get?_tokenInstances hinst
    simp only [Rewiring.regards, hinst, decide_eq_true_eq] at h
    have hplaces : m.body.preorder.any (Stmt.placesPort layouts (.field (.ref inst) port)) = true := by
      refine List.any_eq_true.2 ⟨_, hmem, ?_⟩
      rw [Stmt.placesPort, hlayout, Option.any_some]
      exact List.any_eq_true.2 ⟨port, h, decide_eq_true rfl⟩
    rw [touches, hplaces, Bool.true_or]
  · exact hroot rfl (isStale_of_topMembers hmember)
  · rw [hrooted] at h
    obtain ⟨name, hname, hstale⟩ := (Option.any_eq_true ..).1 h
    exact hroot hname (isStale_of_mem (of_decide_eq_true hstale))

theorem outline_rewired (h : (m.rewired a layouts host config).outcome = .ok rewired) :
    rewired.body.outline = ((m.rewiring a layouts host config).rewireLeaves m.body.outline {}).1 := by
  rw [body_rewired h, Stmt.outline_block, ← Rewiring.outline_rewire]

/-- A rewired module declares the same names in the same order. Its declarations and the predicates of its branches are
those that it had, in their order and nested as they were. An instance of a module with a layout is followed at once by
the connections of its host clock and host reset. And all else of which no side is touched is there as it was, in the
same order and in the same branches. -/
theorem rewired_keeps_rest (h : (m.rewired a layouts host config).outcome = .ok rewired) :
    rewired.body.declaredNames = m.body.declaredNames ∧
    rewired.body.outline.filter (·.stmt.isFrame) = m.body.outline.filter (·.stmt.isFrame) ∧
    (∀ guards name module after, ⟨guards, .inst name module⟩ :: after <:+ rewired.body.outline → module ∈ layouts →
      [⟨guards, .connect (.field (.ref name) config.hostClock) host.clock⟩,
        ⟨guards, .connect (.field (.ref name) config.hostReset) host.reset⟩] <+: after) ∧
    (m.body.outline.filter fun l => l.stmt.sides.all (!m.touches a layouts config ·)).Sublist rewired.body.outline := by
  have hentries : ∀ l ∈ m.body.outline, l.stmt.IsEntry := fun l => Stmt.isEntry_of_mem_outline
  have hframe : rewired.body.outline.filter (·.stmt.isFrame) = m.body.outline.filter (·.stmt.isFrame) := by
    rw [outline_rewired h]
    exact Rewiring.filter_rewireLeaves hentries {}
  refine ⟨filterMap_rewired h fun _ => id, hframe, fun guards name module after hafter hmodule => ?_, ?_⟩
  · -- the instance is one of the module's own, so its name is that of a token-driven one
    have hin : (⟨guards, .inst name module⟩ : Leaf) ∈ rewired.body.outline.filter (·.stmt.isFrame) :=
      List.mem_filter.2 ⟨hafter.subset (List.mem_cons_self ..), rfl⟩
    rw [hframe] at hin
    obtain ⟨-, hinst⟩ := (Stmt.mem_outline (List.mem_of_mem_filter hin)).resolve_right (by rintro ⟨_, ⟨⟩⟩)
    rw [outline_rewired h] at hafter
    have hhosted := Rewiring.hosted_rewireLeaves hentries {} _ after hafter
    rwa [Rewiring.hostConnects_of_mem (mem_tokenInstances hinst hmodule)] at hhosted
  · rw [outline_rewired h]
    refine Rewiring.sublist_rewireLeaves (p := fun s => s.sides.all (!m.touches a layouts config ·)) ?_ hentries {}
    intro s hs e he
    have huntouched : m.touches a layouts config e = false := by simpa using List.all_eq_true.1 hs e he
    exact Bool.eq_false_iff.2 fun hregards => Bool.eq_false_iff.1 huntouched (touches_of_regards hregards)

end Module

namespace Demo.Stages

/-- An adder in a branch, beside a wire that the other branch reads. -/
def watched : Module where
  name := "Top"
  ports := [.input "clock" .clock, .input "sel" (.uint 1), .input "io_lhs" (.uint 16), .input "io_rhs" (.uint 16),
    .output "seen" (.uint 1)]
  body := .block [
    .wire "tap" (.uint 1),
    .when (.ref "sel")
      (.block [
        .inst "adder" "Stage",
        .connect (inner "adder" "io_lhs") (.ref "io_lhs"),
        .skip,
        .connect (.ref "tap") (.ref "sel")])
      (.block [.connect (.ref "seen") (.ref "tap"), .connect (inner "adder" "io_rhs") (.ref "io_rhs")])]

/-- The operands are rewired around the tap, which stays where it was. -/
theorem tap_kept :
    ∃ rewired, (watched.rewired operands adderLayouts (.ofConfig {}) {}).outcome = .ok rewired ∧
      rewired.body.declaredNames = ["tap", "adder"] ∧
      [⟨[(.ref "sel", true)], .inst "adder" "Stage"⟩,
        ⟨[(.ref "sel", true)], .connect (inner "adder" "hostClock") (.ref "hostClock")⟩,
        ⟨[(.ref "sel", true)], .connect (inner "adder" "hostReset") (.ref "hostReset")⟩] <:+: rewired.body.outline ∧
      [⟨[], .wire "tap" (.uint 1)⟩, ⟨[], .header (.ref "sel")⟩, ⟨[(.ref "sel", true)], .inst "adder" "Stage"⟩,
        ⟨[(.ref "sel", true)], .connect (.ref "tap") (.ref "sel")⟩,
        ⟨[(.ref "sel", false)], .connect (.ref "seen") (.ref "tap")⟩].Sublist rewired.body.outline := by
  obtain ⟨rewired, hrewired⟩ :
      ∃ rewired, (watched.rewired operands adderLayouts (.ofConfig {}) {}).outcome = .ok rewired :=
    ⟨_, rfl⟩
  obtain ⟨hnames, -, hhosted, hrest⟩ := Module.rewired_keeps_rest hrewired
  refine ⟨rewired, hrewired, hnames, ?_, hrest⟩
  have hadder : (⟨[(.ref "sel", true)], .inst "adder" "Stage"⟩ : Leaf) ∈ rewired.body.outline :=
    hrest.subset (List.mem_of_getElem? (i := 2) rfl)
  obtain ⟨before, after, heq⟩ := List.append_of_mem hadder
  obtain ⟨rest, rfl⟩ := hhosted _ _ _ after ⟨before, heq.symm⟩ (by decide)
  exact ⟨before, rest, by rw [List.append_assoc]; exact heq.symm⟩

end Demo.Stages

end TokenCircuit
