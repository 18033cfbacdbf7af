import TokenCircuit.Proofs.Joining
import TokenCircuit.Proofs.Spelling

/-!
# What a text leaves open

Nothing, as long as names are identifiers: expressions with the same text are equal, and so are types. Rewiring relies
on it. It knows the connections of host ports that it has made by their texts, and leaves one out if its text is known.
So what is left out is a connection that was made before, and not one that only looks like it
(`Rewiring.mem_rewireLeaves_of_channelPair`).
-/

namespace TokenCircuit

namespace Rewiring

variable {r : Rewiring} {s : Stmt} {w : Wiring} {ls : List Leaf} {pair pair' : Expr × Expr}

/-- All names in the two host ports are identifiers. -/
def LegalPair (pair : Expr × Expr) : Prop := pair.1.Legal ∧ pair.2.Legal

/-- The sink ends at the first blank outside brackets. -/
theorem eq_of_joinText (h : LegalPair pair) (h' : LegalPair pair') (heq : joinText pair = joinText pair') :
    pair = pair' := by
  have hsealed : ∀ {e : Expr}, e.Legal → Sealed ' ' e.text.toList := fun he => (Expr.isBase_text he (.inr rfl)).isSealed
  have hlist : pair.1.text.toList ++ ' ' :: '<' :: '-' :: ' ' :: pair.2.text.toList =
      pair'.1.text.toList ++ ' ' :: '<' :: '-' :: ' ' :: pair'.2.text.toList := by
    simpa [joinText, Stmt.text] using congrArg String.toList heq
  obtain ⟨hsink, hsource⟩ := cut_at_stop (hsealed h.1) (hsealed h'.1) hlist
  have hsink := Expr.eq_of_text h.1 h'.1 (String.toList_inj.1 hsink)
  have hsource := Expr.eq_of_text h.2 h'.2 (String.toList_inj.1 (by simpa using hsource))
  exact Prod.ext hsink hsource

theorem mem_joined_rewire {text : String} (hleaf : s.isLeaf = true) : text ∈ (r.rewire s w).2.joined ↔
    text ∈ w.joined ∨ ∃ pair, r.channelPair? s = some pair ∧ joinText pair = text := by
  cases hpair : r.channelPair? s with
  | none =>
    rw [(rewire_of_no_pair hleaf hpair).2]
    simp
  | some pair =>
    rw [rewire_of_channelPair hpair]
    by_cases hseen : joinText pair ∈ w.joined
    · rw [join_of_mem hseen]
      simp only [Option.some.injEq, exists_eq_left']
      exact ⟨.inl, fun h => h.elim id fun heq => heq ▸ hseen⟩
    · rw [join_of_not_mem hseen]
      simp [eq_comm]

/-- The texts known are those of the connections of channels met so far. -/
theorem mem_joined_rewireLeaves {text : String} (hleaf : ∀ l ∈ ls, l.stmt.isLeaf = true) :
    text ∈ (r.rewireLeaves ls w).2.joined ↔
      text ∈ w.joined ∨ ∃ l ∈ ls, ∃ pair, r.channelPair? l.stmt = some pair ∧ joinText pair = text := by
  induction ls generalizing w with
  | nil => simp [rewireLeaves]
  | cons l ls ih =>
    show text ∈ (r.rewireLeaves ls (r.rewire l.stmt w).2).2.joined ↔ _
    rw [ih fun l' hl' => hleaf l' (List.mem_cons_of_mem _ hl'), mem_joined_rewire (hleaf l (List.mem_cons_self ..)),
      or_assoc, List.exists_mem_cons_iff]

/-- The first connection of two channels makes the connection of their host ports. -/
theorem mem_rewireLeaves_of_channelPair (hleaf : ∀ l ∈ ls, l.stmt.isLeaf = true)
    (hlegal : ∀ l ∈ ls, ∀ pair, r.channelPair? l.stmt = some pair → LegalPair pair) {l : Leaf} (hl : l ∈ ls)
    (hpair : r.channelPair? l.stmt = some pair) (hnew : joinText pair ∉ w.joined) :
    .partialConnect pair.1 pair.2 ∈ (r.rewireLeaves ls w).1.map (·.stmt) := by
  induction ls generalizing w with
  | nil => cases hl
  | cons first ls ih =>
    have hfirst := hleaf first (List.mem_cons_self ..)
    simp only [rewireLeaves, List.map_append, List.mem_append, List.map_map, Function.comp_def, List.map_id']
    by_cases hknown : joinText pair ∈ (r.rewire first.stmt w).2.joined
    · -- the text is known by now, so the first leaf has it, and with it the pair
      obtain ⟨pair', hpair', htext⟩ := ((mem_joined_rewire hfirst).1 hknown).resolve_left hnew
      obtain rfl : pair' = pair :=
        eq_of_joinText (hlegal first (List.mem_cons_self ..) _ hpair') (hlegal l hl _ hpair) htext
      rw [rewire_of_channelPair hpair', join_of_not_mem hnew]
      exact .inl (List.mem_singleton_self _)
    · rcases List.mem_cons.1 hl with rfl | hl
      · exact absurd ((mem_joined_rewire hfirst).2 (.inr ⟨pair, hpair, rfl⟩)) hknown
      · exact .inr (ih (fun l' hl' => hleaf l' (List.mem_cons_of_mem _ hl'))
          (fun l' hl' => hlegal l' (List.mem_cons_of_mem _ hl')) hl hknown)

end Rewiring

/-- Where all names are identifiers, expressions with the same text are equal, and so are types with the same text. So
if a connection of two channels makes no connection of their host ports, then another one of the same two was met
before, and the connection of these host ports is among those that were made. -/
theorem texts_unambiguous :
    (∀ e e' : Expr, e.Legal → e'.Legal → e.text = e'.text → e = e') ∧
    (∀ t t' : SignalType, t.Legal → t'.Legal → t.text = t'.text → t = t') ∧
    ∀ (r : Rewiring) (s : Stmt),
      (∀ l ∈ s.leaves, ∀ pair, r.channelPair? l.stmt = some pair → pair.1.Legal ∧ pair.2.Legal) →
      ∀ before leaf after pair, s.leaves = before ++ leaf :: after → r.channelPair? leaf.stmt = some pair →
        let made := r.rewireLeaves before {}
        r.rewire leaf.stmt made.2 = made.2.join pair.1 pair.2 ∧
        ((made.2.join pair.1 pair.2).1 = [] ↔ ∃ l ∈ before, r.channelPair? l.stmt = some pair) ∧
        ((made.2.join pair.1 pair.2).1 = [] → .partialConnect pair.1 pair.2 ∈ made.1.map (·.stmt)) := by
  refine ⟨fun e e' => Expr.eq_of_text, fun t t' => SignalType.eq_of_text, ?_⟩
  intro r s hlegal before leaf after pair hleaves hpair made
  have hbefore : ∀ l ∈ before, l ∈ s.leaves := fun l hl => hleaves ▸ List.mem_append_left _ hl
  have hleaf : ∀ l ∈ before, l.stmt.isLeaf = true := fun l hl => Stmt.isLeaf_of_mem_leaves (hbefore l hl)
  have hpairLegal : Rewiring.LegalPair pair := hlegal leaf (by simp [hleaves]) pair hpair
  have hmet : (made.2.join pair.1 pair.2).1 = [] ↔ ∃ l ∈ before, r.channelPair? l.stmt = some pair := by
    have hempty : (made.2.join pair.1 pair.2).1 = [] ↔ Rewiring.joinText pair ∈ made.2.joined := by
      by_cases hseen : Rewiring.joinText pair ∈ made.2.joined
      · simp [Rewiring.join_of_mem hseen, hseen]
      · simp [Rewiring.join_of_not_mem hseen, hseen]
    rw [hempty, Rewiring.mem_joined_rewireLeaves hleaf]
    constructor
    · rintro (hnone | ⟨l, hl, pair', hpair', htext⟩)
      · cases hnone
      · rw [← Rewiring.eq_of_joinText (hlegal l (hbefore l hl) pair' hpair') hpairLegal htext]
        exact ⟨l, hl, hpair'⟩
    · rintro ⟨l, hl, hsame⟩
      exact .inr ⟨l, hl, pair, hsame, rfl⟩
  refine ⟨Rewiring.rewire_of_channelPair hpair, hmet, fun hempty => ?_⟩
  obtain ⟨l, hl, hsame⟩ := hmet.1 hempty
  exact Rewiring.mem_rewireLeaves_of_channelPair hleaf (fun l hl => hlegal l (hbefore l hl)) hl hsame (by simp)

/-- A name with a dot in it is no identifier and can be taken for a field. -/
example : (Expr.ref "a.b").text = (Expr.field (.ref "a") "b").text := rfl

namespace Demo.Stages

/-- Both operands of the first adder come from the channel of the main module. The second of them makes no connection,
as the first one has made it. -/
theorem operands_joined_once :
    let r := top.rewiring analysis adderLayouts (.ofConfig {}) {}
    let made := r.rewireLeaves (top.body.leaves.take 5) {}
    (r.rewire (.connect (inner "first" "io_rhs") (.ref "io_rhs")) made.2).1 = [] ∧
      .partialConnect (inner "first" "io_sink") (.ref "io_sink") ∈ made.1.map (·.stmt) := by
  intro r made
  have hlegal : ∀ l ∈ top.body.leaves, ∀ pair ∈ r.channelPair? l.stmt, pair.1.Legal ∧ pair.2.Legal := by decide +kernel
  obtain ⟨heq, hmet, hmade⟩ := texts_unambiguous.2.2 r top.body hlegal (top.body.leaves.take 5)
    ⟨[], .connect (inner "first" "io_rhs") (.ref "io_rhs")⟩ (top.body.leaves.drop 6)
    (inner "first" "io_sink", .ref "io_sink") rfl (by decide +kernel)
  have hempty := hmet.2 ⟨⟨[], .connect (inner "first" "io_lhs") (.ref "io_lhs")⟩,
    by simp [top, Stmt.leaves, Stmt.leavesList], by decide +kernel⟩
  exact ⟨heq ▸ hempty, hmade hempty⟩

end Demo.Stages

end TokenCircuit
