import TokenCircuit.Proofs.Spelling

/-!
# Indentation follows nesting

A nested statement is printed on its own and its text is then moved to the right, line by line, once for each level. The
lines of such a text are those that a printer gives that knows the depth and puts every line in its place at once
(`Stmt.printAt`): moving a text moves exactly these lines (`Text.nest_unlines`), because none of them is empty or holds
the end of a line, as long as no name does.
-/

namespace TokenCircuit

namespace Text

/-- The text holds no end of a line. -/
def SingleLine (s : String) : Prop := '\n' ∉ s.toList ∧ '\r' ∉ s.toList

instance (s : String) : Decidable (SingleLine s) := inferInstanceAs (Decidable (_ ∧ _))

theorem singleLine_append {s t : String} : SingleLine (s ++ t) ↔ SingleLine s ∧ SingleLine t := by
  simp only [SingleLine, String.toList_append, List.mem_append, not_or]
  tauto

theorem singleLine_repr (n : Nat) : SingleLine n.repr :=
  ⟨fun h => absurd (isNameChar_of_mem_repr h) (by decide), fun h => absurd (isNameChar_of_mem_repr h) (by decide)⟩

theorem singleLine_commaList {items : List String} (h : ∀ s ∈ items, SingleLine s) : SingleLine (commaList items) := by
  induction items with
  | nil => decide
  | cons s items ih =>
    cases items with
    | nil => exact commaList_singleton s ▸ h s (List.mem_cons_self ..)
    | cons t items =>
      rw [commaList, String.intercalate_cons_cons, singleLine_append, singleLine_append]
      exact ⟨⟨h s (List.mem_cons_self ..), by decide⟩, ih fun s hs => h s (List.mem_cons_of_mem _ hs)⟩

/-! ### Lines -/

/-- A line of a text that can be told from its neighbours. -/
def IsLine (s : String) : Prop := s ≠ "" ∧ SingleLine s

theorem splitLines_cons {c : Char} {cs : List Char} (hfeed : c ≠ '\n') (hreturn : c ≠ '\r') :
    splitLines (c :: cs) = (c :: (splitLines cs).headD []) :: (splitLines cs).tail := by
  rw [splitLines]
  · cases splitLines cs <;> rfl
  · exact hfeed
  · exact fun _ h => absurd h hreturn

theorem splitLines_append {l rest : List Char} (hfeed : '\n' ∉ l) (hreturn : '\r' ∉ l) :
    splitLines (l ++ '\n' :: rest) = l :: splitLines rest := by
  induction l with
  | nil => rw [List.nil_append, splitLines]
  | cons c l ih =>
    rw [List.mem_cons, not_or] at hfeed hreturn
    rw [List.cons_append, splitLines_cons (Ne.symm hfeed.1) (Ne.symm hreturn.1), ih hfeed.2 hreturn.2]
    rfl

theorem splitLines_single {l : List Char} (hne : l ≠ []) (hfeed : '\n' ∉ l) (hreturn : '\r' ∉ l) :
    splitLines l = [l] := by
  induction l with
  | nil => exact absurd rfl hne
  | cons c l ih =>
    rw [List.mem_cons, not_or] at hfeed hreturn
    rw [splitLines_cons (Ne.symm hfeed.1) (Ne.symm hreturn.1)]
    cases l with
    | nil => rfl
    | cons c' l =>
      rw [ih (by simp) hfeed.2 hreturn.2]
      rfl

theorem unlines_cons {s : String} {ls : List String} (h : ls ≠ []) : unlines (s :: ls) = s ++ "\n" ++ unlines ls :=
  String.intercalate_cons_of_ne_nil h

theorem unlines_append {ls ls' : List String} (h : ls ≠ []) (h' : ls' ≠ []) :
    unlines (ls ++ ls') = unlines ls ++ "\n" ++ unlines ls' :=
  String.intercalate_append_of_ne_nil h h'

theorem unlines_singleton (s : String) : unlines [s] = s := String.intercalate_singleton

/-- Lines that are joined are found again. -/
theorem lines_unlines {ls : List String} (h : ∀ s ∈ ls, IsLine s) : lines (unlines ls) = ls := by
  induction ls with
  | nil => rfl
  | cons s ls ih =>
    obtain ⟨hne, hfeed, hreturn⟩ := h s (List.mem_cons_self ..)
    have hrest := ih fun t ht => h t (List.mem_cons_of_mem _ ht)
    cases ls with
    | nil =>
      rw [unlines_singleton, lines, splitLines_single (mt String.toList_eq_nil_iff.1 hne) hfeed hreturn]
      simp
    | cons t ls =>
      have hlist : (unlines (s :: t :: ls)).toList = s.toList ++ '\n' :: (unlines (t :: ls)).toList := by
        rw [unlines_cons (by simp)]
        simp
      rw [lines, hlist, splitLines_append hfeed hreturn, List.map_cons, ← lines, hrest]
      simp

/-- A text is moved by moving its lines. -/
theorem nest_unlines {ls : List String} (h : ∀ s ∈ ls, IsLine s) :
    nest (unlines ls) = unlines (ls.map (blanks indentWidth ++ ·)) := by
  rw [nest, indent, lines_unlines h]

end Text

open Text

/-! ### Texts on one line -/

theorem Expr.singleLine_text {e : Expr} (h : ∀ name ∈ e.names, SingleLine name) : SingleLine e.text := by
  induction e with
  | ref name => exact List.forall_mem_singleton.1 h
  | field base name ih =>
    obtain ⟨hbase, hname⟩ := List.forall_mem_append.1 h
    simp only [text, singleLine_append]
    exact ⟨⟨ih hbase, by decide⟩, List.forall_mem_singleton.1 hname⟩
  | index base position ih =>
    simp only [text, singleLine_append]
    exact ⟨⟨⟨ih h, by decide⟩, singleLine_repr position⟩, by decide⟩
  | access base position ihb ihp =>
    obtain ⟨hbase, hposition⟩ := List.forall_mem_append.1 h
    simp only [text, singleLine_append]
    exact ⟨⟨⟨ihb hbase, by decide⟩, ihp hposition⟩, by decide⟩
  | mux cond high low ihc ihh ihl =>
    obtain ⟨hargs, hlow⟩ := List.forall_mem_append.1 h
    obtain ⟨hcond, hhigh⟩ := List.forall_mem_append.1 hargs
    simp only [text, singleLine_append]
    exact ⟨⟨⟨⟨⟨⟨by decide, ihc hcond⟩, by decide⟩, ihh hhigh⟩, by decide⟩, ihl hlow⟩, by decide⟩
  | validIf cond value ihc ihv =>
    obtain ⟨hcond, hvalue⟩ := List.forall_mem_append.1 h
    simp only [text, singleLine_append]
    exact ⟨⟨⟨⟨by decide, ihc hcond⟩, by decide⟩, ihv hvalue⟩, by decide⟩
  | literal value width =>
    simp only [text, singleLine_append]
    exact ⟨⟨⟨⟨by decide, singleLine_repr width⟩, by decide⟩, singleLine_repr value⟩, by decide⟩
  | prim op args consts ih =>
    rw [names, namesList_eq_flatMap, List.forall_mem_flatMap] at h
    simp only [text, texts_eq_map, singleLine_append]
    refine ⟨⟨⟨by cases op <;> decide, by decide⟩, singleLine_commaList (List.forall_mem_append.2 ⟨?_, ?_⟩)⟩, by decide⟩
    · exact List.forall_mem_map.2 fun a ha => ih a ha (h a ha)
    · exact List.forall_mem_map.2 fun n _ => singleLine_repr n

theorem SignalType.singleLine_text {t : SignalType} (h : ∀ name ∈ t.names, SingleLine name) : SingleLine t.text := by
  induction t with
  | clock => decide
  | uint width | sint width =>
    simp only [text, singleLine_append]
    exact ⟨⟨by decide, singleLine_repr width⟩, by decide⟩
  | vector element size ih =>
    simp only [text, singleLine_append]
    exact ⟨⟨⟨ih h, by decide⟩, singleLine_repr size⟩, by decide⟩
  | bundle fields ih =>
    rw [names, namesList_eq_flatMap, List.forall_mem_flatMap] at h
    simp only [text, fieldTexts_eq_map, singleLine_append]
    refine ⟨⟨by decide, singleLine_commaList (List.forall_mem_map.2 fun f hf => ?_)⟩, by decide⟩
    obtain ⟨hname, htype⟩ := List.forall_mem_cons.1 (h f hf)
    simp only [fieldText, singleLine_append]
    exact ⟨⟨⟨by split <;> decide, hname⟩, by decide⟩, ih f hf htype⟩

/-! ### A printer that knows the depth -/

namespace Stmt

mutual

/-- The names that the statement spells out: of what it declares, of modules, components and fields. -/
def names : Stmt → List String
  | .wire name type => name :: type.names
  | .reg name type clock reset init => name :: (type.names ++ (clock.names ++ (reset.names ++ init.names)))
  | .inst name module => [name, module]
  | .node name value => name :: value.names
  | .when pred conseq alt => pred.names ++ (conseq.names ++ alt.names)
  | .block body => namesList body
  | .partialConnect loc value | .connect loc value => loc.names ++ value.names
  | .invalid target => target.names
  | .skip => []

def namesList : List Stmt → List String
  | [] => []
  | s :: ss => s.names ++ namesList ss

end

theorem namesList_eq_flatMap (ss : List Stmt) : namesList ss = ss.flatMap names := by
  induction ss with
  | nil => rfl
  | cons s ss ih => simp [namesList, ih]

def lineAt (depth : Nat) (s : String) : String := blanks (2 * depth) ++ s

mutual

/-- The lines of a statement that stands inside as many branches. -/
def printAt (depth : Nat) : Stmt → List String
  | .wire name type => [lineAt depth ("wire " ++ name ++ " : " ++ type.text)]
  | .reg name type clock reset init => [
    lineAt depth ("reg " ++ name ++ " : " ++ type.text ++ ", " ++ clock.text ++ " with :"),
    lineAt (depth + 1) ("reset => (" ++ reset.text ++ ", " ++ init.text ++ ")")]
  | .inst name module => [lineAt depth ("inst " ++ name ++ " of " ++ module)]
  | .node name value => [lineAt depth ("node " ++ name ++ " = " ++ value.text)]
  | .when pred conseq alt =>
    lineAt depth ("when " ++ pred.text ++ " :") :: conseq.printAt (depth + 1) ++
      (if alt = .skip then [] else lineAt depth "else :" :: alt.printAt (depth + 1))
  | .block body => if body = [] then [lineAt depth "skip"] else printAllAt depth body
  | .partialConnect loc value => [lineAt depth (loc.text ++ " <- " ++ value.text)]
  | .connect loc value => [lineAt depth (loc.text ++ " <= " ++ value.text)]
  | .invalid target => [lineAt depth (target.text ++ " is invalid")]
  | .skip => [lineAt depth "skip"]

def printAllAt (depth : Nat) : List Stmt → List String
  | [] => []
  | s :: ss => s.printAt depth ++ printAllAt depth ss

end

variable {s : Stmt} {depth : Nat}

theorem printAllAt_eq_flatMap (depth : Nat) (ss : List Stmt) : printAllAt depth ss = ss.flatMap (printAt depth) := by
  induction ss with
  | nil => rfl
  | cons s ss ih => simp [printAllAt, ih]

theorem printAt_ne_nil : s.printAt depth ≠ [] := by
  induction s with
  | block body ih =>
    rw [printAt, printAllAt_eq_flatMap]
    split
    · simp
    · next hne =>
      obtain ⟨s, hs⟩ := List.exists_mem_of_ne_nil body hne
      exact fun hnil => ih s hs (List.flatMap_eq_nil_iff.1 hnil s hs)
  | _ => simp [printAt]

theorem lineAt_succ (depth : Nat) (s : String) : lineAt (depth + 1) s = blanks indentWidth ++ lineAt depth s := by
  have hblanks : blanks (2 * (depth + 1)) = blanks indentWidth ++ blanks (2 * depth) := by
    rw [blanks, blanks, blanks, ← String.ofList_append, List.replicate_append_replicate, Nat.mul_succ, Nat.add_comm,
      indentWidth]
  rw [lineAt, lineAt, hblanks, String.append_assoc]

/-- One level deeper every line moves to the right. -/
theorem printAt_succ (depth : Nat) (s : Stmt) :
    s.printAt (depth + 1) = (s.printAt depth).map (blanks indentWidth ++ ·) := by
  induction s generalizing depth with
  | when pred conseq alt ihc iha =>
    simp only [printAt, List.map_append, List.map_cons, lineAt_succ, ← ihc]
    congr 1
    split
    · rfl
    · rw [List.map_cons, ← lineAt_succ, ← iha]
  | block body ih =>
    simp only [printAt, printAllAt_eq_flatMap]
    split
    · simp [lineAt_succ]
    · rw [List.map_flatMap]
      exact List.flatMap_congr fun s hs => ih s hs depth
  | _ => simp [printAt, lineAt_succ]

/-! ### What is printed are lines -/

theorem isLine_lineAt {s : String} (hne : s ≠ "") (h : SingleLine s) : IsLine (lineAt depth s) := by
  have hblank : ∀ c ∈ (blanks (2 * depth)).toList, c = ' ' := by
    intro c hc
    rw [blanks, String.toList_ofList] at hc
    exact List.eq_of_mem_replicate hc
  refine ⟨fun hempty => hne (String.append_eq_empty_iff.1 hempty).2,
    singleLine_append.2 ⟨⟨fun hmem => ?_, fun hmem => ?_⟩, h⟩⟩
  · exact absurd (hblank _ hmem) (by decide)
  · exact absurd (hblank _ hmem) (by decide)

theorem isLine_reset {reset init : Expr} (hreset : ∀ name ∈ reset.names, SingleLine name)
    (hinit : ∀ name ∈ init.names, SingleLine name) :
    IsLine ("reset => (" ++ reset.text ++ ", " ++ init.text ++ ")") := by
  refine ⟨by simp, ?_⟩
  simp only [singleLine_append]
  exact ⟨⟨⟨⟨by decide, Expr.singleLine_text hreset⟩, by decide⟩, Expr.singleLine_text hinit⟩, by decide⟩

theorem isLine_of_mem_printAt (h : ∀ name ∈ s.names, SingleLine name) : ∀ l ∈ s.printAt depth, IsLine l := by
  induction s generalizing depth with
  | wire name type =>
    obtain ⟨hname, htype⟩ := List.forall_mem_cons.1 h
    refine List.forall_mem_singleton.2 (isLine_lineAt (by simp) ?_)
    simp only [singleLine_append]
    exact ⟨⟨⟨by decide, hname⟩, by decide⟩, SignalType.singleLine_text htype⟩
  | reg name type clock reset init =>
    simp only [names, List.forall_mem_cons, List.forall_mem_append] at h
    obtain ⟨hname, htype, hclock, hreset, hinit⟩ := h
    rw [printAt, List.forall_mem_cons]
    have hline := isLine_reset hreset hinit
    refine ⟨isLine_lineAt (by simp) ?_, List.forall_mem_singleton.2 (isLine_lineAt hline.1 hline.2)⟩
    simp only [singleLine_append]
    exact ⟨⟨⟨⟨⟨⟨by decide, hname⟩, by decide⟩, SignalType.singleLine_text htype⟩, by decide⟩,
      Expr.singleLine_text hclock⟩, by decide⟩
  | inst name module =>
    obtain ⟨hname, hmodule⟩ := List.forall_mem_cons.1 h
    refine List.forall_mem_singleton.2 (isLine_lineAt (by simp) ?_)
    simp only [singleLine_append]
    exact ⟨⟨⟨by decide, hname⟩, by decide⟩, List.forall_mem_singleton.1 hmodule⟩
  | node name value =>
    obtain ⟨hname, hvalue⟩ := List.forall_mem_cons.1 h
    refine List.forall_mem_singleton.2 (isLine_lineAt (by simp) ?_)
    simp only [singleLine_append]
    exact ⟨⟨⟨by decide, hname⟩, by decide⟩, Expr.singleLine_text hvalue⟩
  | when pred conseq alt ihc iha =>
    simp only [names, List.forall_mem_append] at h
    obtain ⟨hpred, hconseq, halt⟩ := h
    rw [printAt, List.cons_append, List.forall_mem_cons, List.forall_mem_append]
    refine ⟨isLine_lineAt (by simp) ?_, ihc hconseq, ?_⟩
    · simp only [singleLine_append]
      exact ⟨⟨by decide, Expr.singleLine_text hpred⟩, by decide⟩
    · split
      · simp
      · exact List.forall_mem_cons.2 ⟨isLine_lineAt (by decide) (by decide), iha halt⟩
  | block body ih =>
    rw [names, namesList_eq_flatMap, List.forall_mem_flatMap] at h
    rw [printAt, printAllAt_eq_flatMap]
    split
    · exact List.forall_mem_singleton.2 (isLine_lineAt (by decide) (by decide))
    · exact List.forall_mem_flatMap.2 fun s hs => ih s hs (h s hs)
  | partialConnect loc value | connect loc value =>
    obtain ⟨hloc, hvalue⟩ := List.forall_mem_append.1 h
    refine List.forall_mem_singleton.2 (isLine_lineAt (by simp) ?_)
    simp only [singleLine_append]
    exact ⟨⟨Expr.singleLine_text hloc, by decide⟩, Expr.singleLine_text hvalue⟩
  | invalid target =>
    refine List.forall_mem_singleton.2 (isLine_lineAt (by simp) ?_)
    exact singleLine_append.2 ⟨Expr.singleLine_text h, by decide⟩
  | skip => exact List.forall_mem_singleton.2 (isLine_lineAt (by decide) (by decide))

theorem lineAt_zero (s : String) : lineAt 0 s = s := String.empty_append

/-- Inside a branch a statement has its lines one level deeper. -/
theorem nest_unlines_printAt (h : ∀ name ∈ s.names, SingleLine name) :
    nest (unlines (s.printAt 0)) = unlines (s.printAt 1) := by
  rw [nest_unlines (isLine_of_mem_printAt h), printAt_succ]

theorem unlines_ne_empty {ls : List String} (hne : ls ≠ []) (h : ∀ l ∈ ls, IsLine l) : unlines ls ≠ "" := by
  intro hempty
  have hlines := lines_unlines h
  rw [hempty] at hlines
  exact hne hlines.symm

/-- The lines of the members of a block, joined member by member. -/
theorem unlines_map_unlines {lss : List (List String)} (h : ∀ ls ∈ lss, ls ≠ []) :
    unlines (lss.map unlines) = unlines lss.flatten := by
  induction lss with
  | nil => rfl
  | cons ls lss ih =>
    obtain ⟨hls, hlss⟩ := List.forall_mem_cons.1 h
    cases lss with
    | nil => simp [unlines_singleton]
    | cons ls' lss =>
      have hrest : (ls' :: lss).flatten ≠ [] := by simp [hlss ls' (List.mem_cons_self ..)]
      rw [List.map_cons, unlines_cons (by simp), ih hlss]
      exact (unlines_append hls hrest).symm

theorem isSkip_iff : s.isSkip = true ↔ s = .skip := by cases s <;> simp [isSkip]

theorem text_eq_unlines (h : ∀ name ∈ s.names, SingleLine name) : s.text = unlines (s.printAt 0) := by
  induction s with
  | reg name type clock reset init =>
    simp only [names, List.forall_mem_cons, List.forall_mem_append] at h
    obtain ⟨-, -, -, hreset, hinit⟩ := h
    have hnest := nest_unlines (List.forall_mem_singleton.2 (isLine_reset hreset hinit))
    have hend : " with :\n" = " with :" ++ "\n" := rfl
    rw [unlines_singleton, List.map_singleton, unlines_singleton] at hnest
    rw [printAt, unlines_cons (by simp), unlines_singleton, lineAt_succ, lineAt_zero, lineAt_zero, text, hnest, hend]
    simp only [String.append_assoc]
  | when pred conseq alt ihc iha =>
    simp only [names, List.forall_mem_append] at h
    obtain ⟨-, hconseq, halt⟩ := h
    have hend : " :\n" = " :" ++ "\n" := rfl
    have helse : "\nelse :\n" = "\n" ++ "else :" ++ "\n" := rfl
    rw [printAt, text, ihc hconseq, nest_unlines_printAt hconseq, lineAt_zero, hend]
    by_cases hskip : alt = .skip
    · rw [if_pos (isSkip_iff.2 hskip), if_pos hskip, List.append_nil, unlines_cons printAt_ne_nil]
      simp only [String.append_assoc, String.append_empty]
    · rw [if_neg (mt isSkip_iff.1 hskip), if_neg hskip, iha halt, nest_unlines_printAt halt, lineAt_zero,
        unlines_append (by simp) (by simp), unlines_cons printAt_ne_nil, unlines_cons printAt_ne_nil, helse]
      simp only [String.append_assoc]
  | block body ih =>
    have hnames := h
    rw [names, namesList_eq_flatMap, List.forall_mem_flatMap] at h
    have htexts : body.map text = (body.map (printAt 0)).map unlines := by
      rw [List.map_map]
      exact List.map_congr_left fun s hs => ih s hs (h s hs)
    -- every member has a line, so none is left out as empty
    have hfilter : (body.map text).filter (· ≠ "") = body.map text := by
      refine List.filter_eq_self.2 (List.forall_mem_map.2 fun s hs => decide_eq_true ?_)
      rw [ih s hs (h s hs)]
      exact unlines_ne_empty printAt_ne_nil (isLine_of_mem_printAt (h s hs))
    rw [text, texts_eq_map, hfilter, htexts, unlines_map_unlines (List.forall_mem_map.2 fun s _ => printAt_ne_nil),
      printAt, printAllAt_eq_flatMap, ← List.flatMap_def]
    by_cases hbody : body = []
    · subst hbody
      rfl
    · have hprinted : (Stmt.block body).printAt 0 = body.flatMap (printAt 0) := by
        rw [printAt, if_neg hbody, printAllAt_eq_flatMap]
      rw [if_neg hbody]
      exact if_neg (hprinted ▸ unlines_ne_empty printAt_ne_nil (isLine_of_mem_printAt hnames))
  | _ => rw [printAt, unlines_singleton, lineAt_zero, text]

/-- As long as no name holds the end of a line, the text of a statement consists of the lines that are printed at their
depths in one go, and of no others. -/
theorem text_follows_nesting (h : ∀ name ∈ s.names, SingleLine name) :
    s.text = unlines (s.printAt 0) ∧ lines s.text = s.printAt 0 := by
  have htext := text_eq_unlines h
  refine ⟨htext, ?_⟩
  rw [htext, lines_unlines (isLine_of_mem_printAt h)]

end Stmt

namespace Demo

/-- A sum that is kept while it is taken. -/
def kept : Stmt :=
  .when (.ref "take")
    (.block [
      .reg "sum" (.uint 16) (.ref "clock") (.ref "reset") (.literal 0 16),
      .when (.ref "late") (.connect (.ref "sum") (.ref "lhs")) .skip])
    (.block [])

/-- A line two branches deep is moved twice, and an empty block is an alternative. -/
theorem kept_text : (∀ name ∈ kept.names, SingleLine name) ∧ kept.text = unlines [
    "when take :",
    "  reg sum : UInt<16>, clock with :",
    "    reset => (reset, UInt<16>(0))",
    "  when late :",
    "    sum <= lhs",
    "else :",
    "  skip"] := by
  have hnames : ∀ name ∈ kept.names, SingleLine name := by decide
  refine ⟨hnames, (Stmt.text_follows_nesting hnames).1.trans (congrArg unlines ?_)⟩
  decide +kernel

end Demo

end TokenCircuit
