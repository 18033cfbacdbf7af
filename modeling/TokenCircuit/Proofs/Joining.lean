import TokenCircuit.Demo.Stages
import TokenCircuit.Proofs.Leaves

/-!
# Which host ports are joined

A connection between two channels of the main module becomes a connection of their host ports, and several of them
become one. What counts as having been made is kept for the module as a whole, across all its branches, and is compared
by text. So of all the connections of two channels the earliest in the text is the one that makes them joined
(`Rewiring.joins_rewireLeaves`), in the branches that it stands in and in no others.
-/

namespace TokenCircuit

def PortLocation.hostPort? : PortLocation → Option String
  | .channel hostPort _ => some hostPort
  | .gatedClock _ => none

def Expr.isRef : Expr → Bool
  | .ref _ => true
  | _ => false

/-- The expressions that a connection or an invalidation is about. -/
def Stmt.sides : Stmt → List Expr
  | .connect loc value | .partialConnect loc value => [loc, value]
  | .invalid target => [target]
  | _ => []

/-! ### Sides of a connection -/

namespace Rewiring

variable (r : Rewiring)

/-- The host port of the channel that an expression denotes: a port of a token-driven instance that has its place in a
channel, or a top-level port in a channel. -/
def channelPort? : Expr → Option Expr
  | .field (.ref inst) port =>
    (((r.instances.get? inst).bind (·.get? port)).bind PortLocation.hostPort?).map (.field (.ref inst))
  | .ref port => (r.members.get? port).map .ref
  | _ => none

/-- The host ports of the two channels that a statement connects, one of them an instance's. -/
def channelPair? : Stmt → Option (Expr × Expr)
  | .connect loc value | .partialConnect loc value =>
    match r.channelPort? loc, r.channelPort? value with
    | some sink, some source => if loc.isRef && value.isRef then none else some (sink, source)
    | _, _ => none
  | _ => none

/-- Whether an expression is the host port of a channel, of an instance or of the main module. -/
def isHostPort : Expr → Bool
  | .field (.ref inst) port =>
    (r.instances.get? inst).any fun layout => layout.values.any fun location => location.hostPort? = some port
  | .ref name => name ∈ r.members.values
  | _ => false

/-- The host ports that a statement joins as a whole. -/
def wholePair? : Stmt → Option (Expr × Expr)
  | .partialConnect sink source => if r.isHostPort sink && r.isHostPort source then some (sink, source) else none
  | _ => none

/-- Whether rewiring has to do with an expression: a port of a token-driven instance that has a place, a top-level port
in a channel, or a port that is gone or a part of one. -/
def regards : Expr → Bool
  | .field (.ref inst) port =>
    match r.instances.get? inst with
    | some layout => port ∈ layout
    | none => inst ∈ r.stale
  | .ref name => name ∈ r.members || name ∈ r.stale
  | e => e.isRootedIn r.stale

/-- The host ports that a statement which stays as it is joins already. -/
def keptPair? (s : Stmt) : Option (Expr × Expr) := if s.sides.all (!r.regards ·) then r.wholePair? s else none

end Rewiring

def Endpoint.hostPort? : Endpoint → Option Expr
  | .instanceChannel port | .topChannel port => some port
  | .instanceClock | .stale | .other => none

def Endpoint.isTop : Endpoint → Bool
  | .topChannel _ => true
  | _ => false

theorem Endpoint.verdict_eq_join {a b : Endpoint} {sink source : Expr} : a.verdict b = .join sink source ↔
    a.hostPort? = some sink ∧ b.hostPort? = some source ∧ (a.isTop && b.isTop) = false := by
  cases a <;> cases b <;> simp [verdict, hostPort?, isTop]

theorem Endpoint.verdict_eq_keep {a b : Endpoint} : a.verdict b = .keep ↔ a = .other ∧ b = .other := by
  cases a <;> cases b <;> simp [verdict]

namespace Rewiring

variable {r : Rewiring} {e loc value sink source : Expr} {s : Stmt} {w : Wiring}

/-- An expression takes a port of a token-driven instance, is a top-level port in a channel, or is neither. -/
theorem shape (r : Rewiring) (e : Expr) :
    (∃ inst port layout, e = .field (.ref inst) port ∧ r.instances.get? inst = some layout) ∨
    (∃ name hostPort, e = .ref name ∧ r.members.get? name = some hostPort) ∨
    (r.instancePort? e = none ∧ r.memberPort? e = none ∧ r.channelPort? e = none ∧
      r.regards e = e.isRootedIn r.stale) := by
  cases e with
  | ref name =>
    cases hmember : r.members.get? name with
    | some hostPort => exact .inr (.inl ⟨name, hostPort, rfl, hmember⟩)
    | none =>
      have hnone : name ∉ r.members := OrderedMap.get?_eq_none_iff.1 hmember
      refine .inr (.inr ⟨rfl, hmember, ?_, ?_⟩)
      · rw [channelPort?, hmember, Option.map_none]
      · simp [regards, hnone, Expr.isRootedIn, Expr.root?]
  | field base port =>
    cases base with
    | ref inst =>
      cases hinst : r.instances.get? inst with
      | some layout => exact .inl ⟨inst, port, layout, rfl, hinst⟩
      | none =>
        refine .inr (.inr ⟨?_, rfl, ?_, ?_⟩)
        · rw [instancePort?, hinst, Option.map_none]
        · simp [channelPort?, hinst]
        · simp [regards, hinst, Expr.isRootedIn, Expr.root?]
    | _ => exact .inr (.inr ⟨rfl, rfl, rfl, rfl⟩)
  | _ => exact .inr (.inr ⟨rfl, rfl, rfl, rfl⟩)

theorem hostPort?_endpoint : (r.endpoint e).hostPort? = r.channelPort? e := by
  rcases r.shape e with ⟨inst, port, layout, rfl, hinst⟩ | ⟨name, hostPort, rfl, hmember⟩ | ⟨hinst, hmember, hport, -⟩
  · simp only [endpoint, instancePort?, channelPort?, hinst, Option.map_some, Option.bind_some]
    rcases layout.get? port with _ | ⟨hostPort, path⟩ | clock <;> rfl
  · simp only [endpoint, instancePort?, memberPort?, channelPort?, hmember]
    rfl
  · simp only [endpoint, hinst, hmember, hport]
    split <;> rfl

theorem endpoint_eq_other : r.endpoint e = .other ↔ r.regards e = false := by
  rcases r.shape e with
    ⟨inst, port, layout, rfl, hinst⟩ | ⟨name, hostPort, rfl, hmember⟩ | ⟨hinst, hmember, -, hregards⟩
  · have hmem : port ∈ layout ↔ layout.get? port ≠ none := by rw [Ne, OrderedMap.get?_eq_none_iff, not_not]
    simp only [endpoint, instancePort?, regards, hinst, Option.map_some, hmem]
    rcases layout.get? port with _ | ⟨hostPort, path⟩ | clock <;> simp
  · have hmem : name ∈ r.members := OrderedMap.mem_iff_get?.2 ⟨hostPort, hmember⟩
    simp [endpoint, instancePort?, memberPort?, regards, hmember, hmem]
  · simp only [endpoint, hinst, hmember, hregards]
    cases e.isRootedIn r.stale <;> simp

theorem isTop_endpoint {hostPort : Expr} (h : r.channelPort? e = some hostPort) : (r.endpoint e).isTop = e.isRef := by
  rcases r.shape e with ⟨inst, port, layout, rfl, hinst⟩ | ⟨name, hostPort, rfl, hmember⟩ | ⟨-, -, hport, -⟩
  · simp only [endpoint, instancePort?, hinst, Option.map_some]
    rcases layout.get? port with _ | ⟨hostPort, path⟩ | clock <;> rfl
  · simp only [endpoint, instancePort?, memberPort?, hmember]
    rfl
  · rw [hport] at h
    cases h

theorem verdict_eq_join : (r.endpoint loc).verdict (r.endpoint value) = .join sink source ↔
    r.channelPort? loc = some sink ∧ r.channelPort? value = some source ∧ (loc.isRef && value.isRef) = false := by
  rw [Endpoint.verdict_eq_join, hostPort?_endpoint, hostPort?_endpoint]
  refine and_congr_right fun hsink => and_congr_right fun hsource => ?_
  rw [isTop_endpoint hsink, isTop_endpoint hsource]

theorem verdict_eq_keep : (r.endpoint loc).verdict (r.endpoint value) = .keep ↔
    r.regards loc = false ∧ r.regards value = false := by
  rw [Endpoint.verdict_eq_keep, endpoint_eq_other, endpoint_eq_other]

theorem regards_of_channelPort? {hostPort : Expr} (h : r.channelPort? e = some hostPort) : r.regards e = true := by
  by_contra hregards
  rw [Bool.not_eq_true, ← endpoint_eq_other] at hregards
  rw [← hostPort?_endpoint, hregards] at h
  cases h

/-! ### One leaf -/

theorem channelPair?_eq_some {pair : Expr × Expr} : r.channelPair? s = some pair ↔ ∃ loc value,
    (s = .connect loc value ∨ s = .partialConnect loc value) ∧ r.channelPort? loc = some pair.1 ∧
      r.channelPort? value = some pair.2 ∧ (loc.isRef && value.isRef) = false := by
  have hsides : ∀ loc value : Expr, (match r.channelPort? loc, r.channelPort? value with
      | some sink, some source => if loc.isRef && value.isRef then none else some (sink, source)
      | _, _ => none) = some pair ↔ r.channelPort? loc = some pair.1 ∧ r.channelPort? value = some pair.2 ∧
        (loc.isRef && value.isRef) = false := by
    intro loc value
    cases r.channelPort? loc with
    | none => simp
    | some sink =>
      cases r.channelPort? value with
      | none => simp
      | some source => cases loc.isRef && value.isRef <;> simp [Prod.ext_iff]
  cases s with
  | connect loc value => simpa [channelPair?] using hsides loc value
  | partialConnect loc value => simpa [channelPair?] using hsides loc value
  | _ => simp [channelPair?]

theorem exists_regarded {pair : Expr × Expr} (h : r.channelPair? s = some pair) :
    ∃ e ∈ s.sides, r.regards e = true := by
  obtain ⟨loc, value, hs, hsink, -, -⟩ := channelPair?_eq_some.1 h
  refine ⟨loc, ?_, regards_of_channelPort? hsink⟩
  rcases hs with rfl | rfl <;> simp [Stmt.sides]

theorem rewireConnection_of_channelPair {pair : Expr × Expr} (hsink : r.channelPort? loc = some pair.1)
    (hsource : r.channelPort? value = some pair.2) (hinst : (loc.isRef && value.isRef) = false) :
    r.rewireConnection s loc value w = w.join pair.1 pair.2 := by
  rw [rewireConnection, verdict_eq_join.2 ⟨hsink, hsource, hinst⟩]

theorem rewire_of_channelPair {pair : Expr × Expr} (h : r.channelPair? s = some pair) :
    r.rewire s w = w.join pair.1 pair.2 := by
  obtain ⟨loc, value, rfl | rfl, hsink, hsource, hinst⟩ := channelPair?_eq_some.1 h
  · rw [rewire]
    exact rewireConnection_of_channelPair hsink hsource hinst
  · rw [rewire]
    exact rewireConnection_of_channelPair hsink hsource hinst

/-- The connections that a token-driven instance gets where it is made. -/
def hostConnects (r : Rewiring) : Stmt → List Stmt
  | .inst name _ =>
    if name ∈ r.instances then
      [.connect (.field (.ref name) r.config.hostClock) r.host.clock,
        .connect (.field (.ref name) r.config.hostReset) r.host.reset]
    else
      []
  | _ => []

/-- A leaf that does not connect two channels stays as it is if rewiring has nothing to do with its sides, and goes
otherwise. -/
theorem rewire_of_no_pair (hleaf : s.isLeaf = true) (h : r.channelPair? s = none) :
    (r.rewire s w).1 = (if s.sides.all (!r.regards ·) then [s] else []) ++ r.hostConnects s ∧
      (r.rewire s w).2.joined = w.joined := by
  have hconnection : ∀ {s : Stmt} {loc value : Expr}, s.sides = [loc, value] → r.hostConnects s = [] →
      (∀ sink source, (r.endpoint loc).verdict (r.endpoint value) ≠ .join sink source) →
      (r.rewireConnection s loc value w).1 = (if s.sides.all (!r.regards ·) then [s] else []) ++ r.hostConnects s ∧
        (r.rewireConnection s loc value w).2.joined = w.joined := by
    intro s loc value hsides hhost hjoin
    have hstays : s.sides.all (!r.regards ·) = true ↔ (r.endpoint loc).verdict (r.endpoint value) = .keep := by
      rw [verdict_eq_keep, hsides]
      simp
    rw [hhost, List.append_nil, rewireConnection]
    cases hverdict : (r.endpoint loc).verdict (r.endpoint value) with
    | join sink source => exact absurd hverdict (hjoin sink source)
    | keep => rw [if_pos (hstays.2 hverdict)]; exact ⟨rfl, rfl⟩
    | drop | reject =>
      rw [if_neg (mt hstays.1 (by rw [hverdict]; simp))]
      exact ⟨rfl, rfl⟩
  -- two channels would be joined
  have hjoin : ∀ {loc value : Expr}, (s = .connect loc value ∨ s = .partialConnect loc value) →
      ∀ sink source, (r.endpoint loc).verdict (r.endpoint value) ≠ .join sink source := by
    intro loc value hs sink source hverdict
    have hpair : r.channelPair? s = some (sink, source) :=
      channelPair?_eq_some.2 ⟨loc, value, hs, verdict_eq_join.1 hverdict⟩
    rw [h] at hpair
    cases hpair
  cases s with
  | when | block | skip => cases hleaf
  | connect loc value =>
    rw [rewire]
    exact hconnection rfl rfl (hjoin (.inl rfl))
  | partialConnect loc value =>
    rw [rewire]
    exact hconnection rfl rfl (hjoin (.inr rfl))
  | invalid target =>
    rw [rewire]
    refine ⟨?_, rfl⟩
    show (if r.endpoint target = .other then [Stmt.invalid target] else []) = _
    cases hregards : r.regards target with
    | false => rw [if_pos (endpoint_eq_other.2 hregards)]; simp [Stmt.sides, hregards, hostConnects]
    | true =>
      rw [if_neg (by rw [endpoint_eq_other, hregards]; simp)]
      simp [Stmt.sides, hregards, hostConnects]
  | inst name module =>
    rw [rewire]
    refine ⟨?_, rfl⟩
    by_cases hname : name ∈ r.instances <;> simp [rewireInstance, hostConnects, hname, Stmt.sides]
  | wire | reg | node =>
    rw [rewire]
    exact ⟨rfl, rfl⟩

/-- What a leaf that stays, one that connects two channels and an instance become. -/
theorem mem_rewire {s' : Stmt} (hleaf : s.isLeaf = true) (h : s' ∈ (r.rewire s w).1) :
    (s' = s ∧ ∀ e ∈ s.sides, r.regards e = false) ∨ s' ∈ r.hostConnects s ∨
      ∃ pair, r.channelPair? s = some pair ∧ s' = .partialConnect pair.1 pair.2 := by
  cases hpair : r.channelPair? s with
  | none =>
    rw [(rewire_of_no_pair hleaf hpair).1] at h
    rcases List.mem_append.1 h with h | h
    · split at h
      · next hall => exact .inl ⟨List.mem_singleton.1 h, fun e he => by simpa using List.all_eq_true.1 hall e he⟩
      · cases h
    · exact .inr (.inl h)
  | some pair =>
    rw [rewire_of_channelPair hpair] at h
    unfold Wiring.join at h
    dsimp only at h
    split at h
    · cases h
    · exact .inr (.inr ⟨pair, rfl, List.mem_singleton.1 h⟩)

theorem mem_rewire_of_stays (hleaf : s.isLeaf = true) (h : ∀ e ∈ s.sides, r.regards e = false) :
    s ∈ (r.rewire s w).1 := by
  have hpair : r.channelPair? s = none := by
    by_contra hpair
    obtain ⟨pair, hpair⟩ := Option.ne_none_iff_exists'.1 hpair
    obtain ⟨e, he, hregards⟩ := exists_regarded hpair
    rw [h e he] at hregards
    cases hregards
  rw [(rewire_of_no_pair hleaf hpair).1, if_pos (by simpa using h)]
  exact List.mem_append_left _ (List.mem_singleton_self s)

theorem filterMap_of_no_pair (hleaf : s.isLeaf = true) (h : r.channelPair? s = none) :
    (r.rewire s w).1.filterMap r.wholePair? = (r.keptPair? s).toList := by
  have hhost : (r.hostConnects s).filterMap r.wholePair? = [] := by
    cases s with
    | inst name module =>
      show (if name ∈ r.instances then _ else []).filterMap r.wholePair? = []
      split <;> rfl
    | _ => rfl
  rw [(rewire_of_no_pair hleaf h).1, List.filterMap_append, hhost, List.append_nil, keptPair?]
  split
  · cases hpair : r.wholePair? s <;> simp [hpair]
  · rfl

theorem isHostPort_of_channelPort? {hostPort : Expr} (h : r.channelPort? e = some hostPort) :
    r.isHostPort hostPort = true := by
  rcases r.shape e with ⟨inst, port, layout, rfl, hinst⟩ | ⟨name, member, rfl, hmember⟩ | ⟨-, -, hport, -⟩
  · simp only [channelPort?, hinst, Option.bind_some, Option.map_eq_some_iff, Option.bind_eq_some_iff] at h
    obtain ⟨name, ⟨location, hplace, hname⟩, rfl⟩ := h
    have hvalue : location ∈ layout.values := OrderedMap.mem_values_iff.2 ⟨port, hplace⟩
    simp only [isHostPort, hinst, Option.any_some, List.any_eq_true, decide_eq_true_eq]
    exact ⟨location, hvalue, hname⟩
  · rw [channelPort?, hmember] at h
    cases h
    exact decide_eq_true (OrderedMap.mem_values_iff.2 ⟨name, hmember⟩)
  · rw [hport] at h
    cases h

theorem wholePair?_of_channelPair {pair : Expr × Expr} (h : r.channelPair? s = some pair) :
    r.wholePair? (.partialConnect pair.1 pair.2) = some pair := by
  obtain ⟨loc, value, -, hsink, hsource, -⟩ := channelPair?_eq_some.1 h
  simp [wholePair?, isHostPort_of_channelPort? hsink, isHostPort_of_channelPort? hsource]

theorem keptPair?_of_channelPair {pair : Expr × Expr} (h : r.channelPair? s = some pair) : r.keptPair? s = none := by
  obtain ⟨e, he, hregards⟩ := exists_regarded h
  refine if_neg fun hall => ?_
  have hstays := List.all_eq_true.1 hall e he
  rw [hregards] at hstays
  cases hstays

/-! ### All leaves -/

/-- The text by which a connection of two host ports is known. -/
def joinText (pair : Expr × Expr) : String := (Stmt.partialConnect pair.1 pair.2).text

theorem join_of_mem {pair : Expr × Expr} (h : joinText pair ∈ w.joined) : w.join pair.1 pair.2 = ([], w) := if_pos h

theorem join_of_not_mem {pair : Expr × Expr} (h : joinText pair ∉ w.joined) : w.join pair.1 pair.2 =
    ([.partialConnect pair.1 pair.2],
      ⟨w.joined ++ [joinText pair], w.events ++ [.joined (.partialConnect pair.1 pair.2)]⟩) := if_neg h

/-- Of the leaves whose channels have this text, the first connects these two and stands on the path. -/
def FirstOn (r : Rewiring) (holds : Expr → Bool) (ls : List Leaf) (pair : Expr × Expr) : Prop :=
  ∃ before leaf after, ls = before ++ leaf :: after ∧ leaf.runs holds = true ∧ r.channelPair? leaf.stmt = some pair ∧
    ∀ l ∈ before, ∀ pair', r.channelPair? l.stmt = some pair' → joinText pair' ≠ joinText pair

theorem firstOn_cons {holds : Expr → Bool} {l : Leaf} {ls : List Leaf} {pair : Expr × Expr} :
    r.FirstOn holds (l :: ls) pair ↔ (l.runs holds = true ∧ r.channelPair? l.stmt = some pair) ∨
      ((∀ pair', r.channelPair? l.stmt = some pair' → joinText pair' ≠ joinText pair) ∧ r.FirstOn holds ls pair) := by
  constructor
  · rintro ⟨_ | ⟨l', before⟩, leaf, after, heq, hruns, hpair, hnew⟩
    · cases heq
      exact .inl ⟨hruns, hpair⟩
    · cases heq
      exact .inr ⟨hnew l (List.mem_cons_self ..), before, leaf, after, rfl, hruns, hpair,
        fun l' hl' => hnew l' (List.mem_cons_of_mem _ hl')⟩
  · rintro (⟨hruns, hpair⟩ | ⟨hhead, before, leaf, after, rfl, hruns, hpair, hnew⟩)
    · exact ⟨[], l, ls, rfl, hruns, hpair, by simp⟩
    · exact ⟨l :: before, leaf, after, rfl, hruns, hpair, List.forall_mem_cons.2 ⟨hhead, hnew⟩⟩

section NewTexts

variable {holds : Expr → Bool} {l : Leaf} {ls : List Leaf} {pair pair' : Expr × Expr} {seen : List String}

theorem new_firstOn_cons_of_mem (hpair : r.channelPair? l.stmt = some pair) (hseen : joinText pair ∈ seen) :
    joinText pair' ∉ seen ∧ r.FirstOn holds (l :: ls) pair' ↔ joinText pair' ∉ seen ∧ r.FirstOn holds ls pair' := by
  rw [firstOn_cons, hpair]
  refine and_congr_right fun hnew => ⟨?_, fun hfirst => .inr ⟨?_, hfirst⟩⟩
  · rintro (⟨-, heq⟩ | ⟨-, hfirst⟩)
    · cases heq
      exact absurd hseen hnew
    · exact hfirst
  · rintro _ ⟨⟩ heq
    exact hnew (heq ▸ hseen)

theorem new_firstOn_cons_of_not_mem (hpair : r.channelPair? l.stmt = some pair) (hseen : joinText pair ∉ seen) :
    joinText pair' ∉ seen ∧ r.FirstOn holds (l :: ls) pair' ↔
      (l.runs holds = true ∧ pair' = pair) ∨ (joinText pair' ∉ seen ++ [joinText pair] ∧ r.FirstOn holds ls pair') := by
  rw [firstOn_cons, hpair, List.mem_append, List.mem_singleton, not_or]
  constructor
  · rintro ⟨hnew, ⟨hruns, heq⟩ | ⟨hne, hfirst⟩⟩
    · cases heq
      exact .inl ⟨hruns, rfl⟩
    · exact .inr ⟨⟨hnew, fun heq => hne pair rfl heq.symm⟩, hfirst⟩
  · rintro (⟨hruns, rfl⟩ | ⟨⟨hnew, hne⟩, hfirst⟩)
    · exact ⟨hseen, .inl ⟨hruns, rfl⟩⟩
    · refine ⟨hnew, .inr ⟨?_, hfirst⟩⟩
      rintro _ ⟨⟩ heq
      exact hne heq.symm

end NewTexts

/-- On a path, the joins that rewiring leaves behind are those that stay and, each once, the pairs that come first. -/
theorem joins_rewireLeaves (holds : Expr → Bool) (ls : List Leaf) (hleaf : ∀ l ∈ ls, l.stmt.isLeaf = true)
    (w : Wiring) :
    ∃ made, (Leaf.collect holds r.wholePair? (r.rewireLeaves ls w).1).Perm (Leaf.collect holds r.keptPair? ls ++ made) ∧
      made.Nodup ∧ ∀ pair, pair ∈ made ↔ joinText pair ∉ w.joined ∧ r.FirstOn holds ls pair := by
  induction ls generalizing w with
  | nil => exact ⟨[], .refl _, .nil, fun pair => by simp [FirstOn]⟩
  | cons l ls ih =>
    obtain ⟨made, hperm, hnodup, hmade⟩ :=
      ih (fun l' hl' => hleaf l' (List.mem_cons_of_mem _ hl')) (r.rewire l.stmt w).2
    simp only [rewireLeaves, Leaf.collect_append, Leaf.collect_cons, Leaf.collect_branch]
    cases hpair : r.channelPair? l.stmt with
    | none =>
      -- the leaf stays or goes, and changes nothing for the others
      obtain ⟨-, hjoined⟩ := rewire_of_no_pair (w := w) (hleaf l (List.mem_cons_self ..)) hpair
      rw [filterMap_of_no_pair (hleaf l (List.mem_cons_self ..)) hpair]
      refine ⟨made, ?_, hnodup, fun pair => ?_⟩
      · rw [List.append_assoc]
        exact hperm.append_left _
      · rw [hmade, hjoined, firstOn_cons, hpair]
        simp
    | some pair =>
      rw [keptPair?_of_channelPair hpair, Option.toList_none, ite_self, List.nil_append]
      rw [rewire_of_channelPair hpair] at hperm hmade ⊢
      by_cases hseen : joinText pair ∈ w.joined
      · rw [join_of_mem hseen] at hperm hmade ⊢
        refine ⟨made, by simpa using hperm, hnodup, fun pair' => ?_⟩
        rw [hmade, new_firstOn_cons_of_mem hpair hseen]
      · rw [join_of_not_mem hseen] at hperm hmade ⊢
        simp only [List.filterMap_cons, wholePair?_of_channelPair hpair, List.filterMap_nil]
        cases hruns : l.runs holds with
        | true =>
          refine ⟨pair :: made, ?_, List.nodup_cons.2 ⟨?_, hnodup⟩, fun pair' => ?_⟩
          · exact (hperm.cons pair).trans List.perm_middle.symm
          · rw [hmade]
            exact fun h => h.1 (List.mem_append_right _ (List.mem_singleton_self _))
          · rw [List.mem_cons, hmade, new_firstOn_cons_of_not_mem hpair hseen, hruns]
            simp
        | false =>
          refine ⟨made, hperm, hnodup, fun pair' => ?_⟩
          rw [hmade, new_firstOn_cons_of_not_mem hpair hseen, hruns]
          simp

theorem joined_rewire {text : String} (hleaf : s.isLeaf = true) (h : text ∈ (r.rewire s w).2.joined) :
    text ∈ w.joined ∨ ∃ s' ∈ (r.rewire s w).1, s'.text = text := by
  cases hpair : r.channelPair? s with
  | none => exact .inl ((rewire_of_no_pair hleaf hpair).2 ▸ h)
  | some pair =>
    rw [rewire_of_channelPair hpair] at h ⊢
    by_cases hseen : joinText pair ∈ w.joined
    · rw [join_of_mem hseen] at h
      exact .inl h
    · rw [join_of_not_mem hseen] at h ⊢
      rcases List.mem_append.1 h with h | h
      · exact .inl h
      · exact .inr ⟨_, List.mem_singleton_self _, (List.mem_singleton.1 h).symm⟩

theorem exists_join {ls : List Leaf} (hleaf : ∀ l ∈ ls, l.stmt.isLeaf = true) {l : Leaf} (hl : l ∈ ls)
    {pair : Expr × Expr} (hpair : r.channelPair? l.stmt = some pair) (w : Wiring) :
    joinText pair ∈ w.joined ∨ ∃ l' ∈ (r.rewireLeaves ls w).1, l'.stmt.text = joinText pair := by
  induction ls generalizing w with
  | nil => cases hl
  | cons first ls ih =>
    simp only [rewireLeaves, List.mem_append, or_and_right, exists_or, List.mem_map]
    rcases List.mem_cons.1 hl with rfl | hl
    · rw [rewire_of_channelPair hpair]
      by_cases hseen : joinText pair ∈ w.joined
      · exact .inl hseen
      · rw [join_of_not_mem hseen]
        exact .inr (.inl ⟨_, ⟨_, List.mem_singleton_self _, rfl⟩, rfl⟩)
    · rcases ih (fun l' hl' => hleaf l' (List.mem_cons_of_mem _ hl')) hl (r.rewire first.stmt w).2 with hseen | hrest
      · rcases joined_rewire (hleaf first (List.mem_cons_self ..)) hseen with hseen | ⟨s', hs', htext⟩
        · exact .inl hseen
        · exact .inr (.inl ⟨_, ⟨s', hs', rfl⟩, htext⟩)
      · exact .inr (.inr hrest)

end Rewiring

/-! ### The main module -/

section MainModule

variable {m rewired : Module} {a : Analysis} {layouts : OrderedMap String Layout} {host : HostSignals} {config : Config}

theorem Module.mem_rewired (h : (m.rewired a layouts host config).outcome = .ok rewired) {s' : Stmt}
    (hs' : s' ∈ rewired.body.preorder) (hleaf : s'.isLeaf = true) :
    let r := m.rewiring a layouts host config
    ∃ s ∈ m.body.preorder, (s' = s ∧ ∀ e ∈ s.sides, r.regards e = false) ∨ s' ∈ r.hostConnects s ∨
      ∃ pair, r.channelPair? s = some pair ∧ s' = .partialConnect pair.1 pair.2 := by
  obtain ⟨l', hl', rfl⟩ := Stmt.mem_leaves.2 ⟨hs', hleaf⟩
  rw [leaves_rewired h] at hl'
  obtain ⟨l, hl, w, hmem⟩ := Rewiring.mem_rewireLeaves _ hl'
  obtain ⟨hs, hleaf⟩ := Stmt.mem_leaves.1 ⟨l, hl, rfl⟩
  exact ⟨l.stmt, hs, Rewiring.mem_rewire hleaf hmem⟩

theorem Module.mem_rewired_of_stays (h : (m.rewired a layouts host config).outcome = .ok rewired) {s : Stmt}
    (hs : s ∈ m.body.preorder) (hleaf : s.isLeaf = true)
    (hstays : ∀ e ∈ s.sides, (m.rewiring a layouts host config).regards e = false) : s ∈ rewired.body.preorder := by
  obtain ⟨l, hl, rfl⟩ := Stmt.mem_leaves.2 ⟨hs, hleaf⟩
  obtain ⟨w, hw⟩ := Rewiring.exists_rewire_of_mem _ hl {}
  have hmem := hw _ (Rewiring.mem_rewire_of_stays hleaf hstays)
  rw [← leaves_rewired h] at hmem
  exact (Stmt.mem_leaves.1 ⟨_, hmem, rfl⟩).1

/-- Whatever connects two channels, a connection of their host ports is there afterwards. -/
theorem Module.exists_join_of_rewired (h : (m.rewired a layouts host config).outcome = .ok rewired) {s : Stmt}
    (hs : s ∈ m.body.preorder) {pair : Expr × Expr}
    (hpair : (m.rewiring a layouts host config).channelPair? s = some pair) :
    ∃ s' ∈ rewired.body.preorder, s'.text = (Stmt.partialConnect pair.1 pair.2).text := by
  have hleaf : s.isLeaf = true := by
    obtain ⟨loc, value, rfl | rfl, -⟩ := Rewiring.channelPair?_eq_some.1 hpair <;> rfl
  obtain ⟨l, hl, rfl⟩ := Stmt.mem_leaves.2 ⟨hs, hleaf⟩
  obtain hjoined | ⟨l', hl', htext⟩ := Rewiring.exists_join (fun l => Stmt.isLeaf_of_mem_leaves) hl hpair {}
  · cases hjoined
  · rw [← leaves_rewired h] at hl'
    exact ⟨l'.stmt, (Stmt.mem_leaves.1 ⟨l', hl', rfl⟩).1, htext⟩

/-- On every path through a rewired module the joins are those that stay and, each once, the pairs of channels whose
first connection in the whole module stands on that path. So they are the pairs that the path connects, each once,
exactly if every one of them has its first connection there and no join that stays interferes. -/
theorem Module.joins_of_rewired (h : (m.rewired a layouts host config).outcome = .ok rewired) (holds : Expr → Bool) :
    let r := m.rewiring a layouts host config
    let joins := (rewired.body.executed holds).filterMap r.wholePair?
    let connected := (m.body.executed holds).filterMap r.channelPair?
    let kept := (m.body.executed holds).filterMap r.keptPair?
    (∃ made, joins.Perm (kept ++ made) ∧ made.Nodup ∧ ∀ pair, pair ∈ made ↔ r.FirstOn holds m.body.leaves pair) ∧
    ((joins.Nodup ∧ ∀ pair, pair ∈ joins ↔ pair ∈ connected) ↔
      kept.Nodup ∧ (∀ pair ∈ kept, pair ∈ connected) ∧
        ∀ pair ∈ connected, pair ∈ kept ↔ ¬ r.FirstOn holds m.body.leaves pair) := by
  intro r joins connected kept
  have hleaf : ∀ l ∈ m.body.leaves, l.stmt.isLeaf = true := fun l => Stmt.isLeaf_of_mem_leaves
  have hwhole := Stmt.filterMap_executed holds (f := r.wholePair?) rfl
  have hkept := Stmt.filterMap_executed holds (f := r.keptPair?) (by simp [Rewiring.keptPair?, Rewiring.wholePair?])
  have hpairs := Stmt.filterMap_executed holds (f := r.channelPair?) rfl
  obtain ⟨made, hperm, hnodup, hmade⟩ : ∃ made, joins.Perm (kept ++ made) ∧ made.Nodup ∧
      ∀ pair, pair ∈ made ↔ r.FirstOn holds m.body.leaves pair := by
    simpa [joins, kept, hwhole, hkept, leaves_rewired h] using Rewiring.joins_rewireLeaves holds _ hleaf {}
  have hconnected : ∀ pair ∈ made, pair ∈ connected := by
    intro pair hpair
    obtain ⟨before, leaf, after, heq, hruns, hleaf, -⟩ := (hmade pair).1 hpair
    simp only [connected, hpairs, Leaf.collect, List.mem_filterMap, List.mem_map, List.mem_filter]
    exact ⟨leaf.stmt, ⟨leaf, ⟨by simp [heq], hruns⟩, rfl⟩, hleaf⟩
  refine ⟨⟨made, hperm, hnodup, hmade⟩, ?_⟩
  rw [hperm.nodup_iff, List.nodup_append']
  simp only [hperm.mem_iff, List.mem_append, ← hmade]
  constructor
  · rintro ⟨⟨hdistinct, -, hdisjoint⟩, hmem⟩
    refine ⟨hdistinct, fun pair hpair => (hmem pair).1 (.inl hpair), fun pair hpair => ⟨fun hk => hdisjoint hk, ?_⟩⟩
    exact ((hmem pair).2 hpair).resolve_right
  · rintro ⟨hdistinct, hsub, hrest⟩
    refine ⟨⟨hdistinct, hnodup, fun pair hk => (hrest pair (hsub pair hk)).1 hk⟩, fun pair => ⟨?_, fun hpair => ?_⟩⟩
    · rintro (hk | hm)
      · exact hsub pair hk
      · exact hconnected pair hm
    · by_cases hm : pair ∈ made
      · exact .inr hm
      · exact .inl ((hrest pair hpair).2 hm)

end MainModule

namespace Demo.Stages

/-- An adder whose operands come in two branches. -/
def branching : Module where
  name := "Top"
  ports := [.input "clock" .clock, .input "sel" (.uint 1), .input "io_lhs" (.uint 16), .input "io_rhs" (.uint 16)]
  body := .block [
    .inst "adder" "Stage",
    .when (.ref "sel")
      (.connect (inner "adder" "io_lhs") (.ref "io_lhs"))
      (.connect (inner "adder" "io_rhs") (.ref "io_rhs"))]

def operands : Analysis := .ofFacts [.topChannel "io" .input ["io_lhs", "io_rhs"]]

def adderLayouts : OrderedMap String Layout := .ofList [("Stage", .ofList [
  ("io_lhs", .channel "io_sink" ["bits", "lhs"]),
  ("io_rhs", .channel "io_sink" ["bits", "rhs"])])]

/-- In the branch that comes first the operands are joined. -/
theorem joined_in_first_branch :
    let r := branching.rewiring operands adderLayouts (.ofConfig {}) {}
    ∃ rewired, (branching.rewired operands adderLayouts (.ofConfig {}) {}).outcome = .ok rewired ∧
      (inner "adder" "io_sink", .ref "io_sink") ∈ (rewired.body.executed fun _ => true).filterMap r.wholePair? := by
  intro r
  obtain ⟨rewired, hrewired⟩ :
      ∃ rewired, (branching.rewired operands adderLayouts (.ofConfig {}) {}).outcome = .ok rewired :=
    ⟨_, rfl⟩
  obtain ⟨⟨made, hperm, -, hmade⟩, -⟩ := Module.joins_of_rewired hrewired fun _ => true
  refine ⟨rewired, hrewired, hperm.mem_iff.2 (List.mem_append_right _ ((hmade _).2 ?_))⟩
  exact ⟨[⟨[], .inst "adder" "Stage"⟩], ⟨[(.ref "sel", true)], .connect (inner "adder" "io_lhs") (.ref "io_lhs")⟩,
    [⟨[(.ref "sel", false)], .connect (inner "adder" "io_rhs") (.ref "io_rhs")⟩], rfl, rfl, by decide +kernel,
    by simp [Rewiring.channelPair?]⟩

/-- In the other branch they are not, though the adder's operands are connected there as well. -/
theorem not_joined_in_other_branch :
    let r := branching.rewiring operands adderLayouts (.ofConfig {}) {}
    ∃ rewired, (branching.rewired operands adderLayouts (.ofConfig {}) {}).outcome = .ok rewired ∧
      (branching.body.executed fun _ => false).filterMap r.channelPair? = [(inner "adder" "io_sink", .ref "io_sink")] ∧
      (rewired.body.executed fun _ => false).filterMap r.wholePair? = [] :=
  ⟨_, rfl, by decide +kernel, by decide +kernel⟩

end Demo.Stages

end TokenCircuit
