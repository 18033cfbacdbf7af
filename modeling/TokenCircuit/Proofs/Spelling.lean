import TokenCircuit.Circuit.Printer
import TokenCircuit.NameSupply
import Mathlib.Data.List.Basic

/-!
# Texts that can be read back

A text is cut into its parts from the outside in. What is enclosed in brackets closes every bracket that it opens, so
from the right its opening bracket is found in one way (`Balanced`); an item of a list has no comma outside brackets, so
from the left its end is found in one way (`Sealed`). The outermost parts of a text are its `Form`, and a text has one
form only (`Form.eq_of_text`). The parts are texts again, so expressions and types are read by induction
(`Expr.eq_of_text`, `SignalType.eq_of_text`).
-/

namespace TokenCircuit

/-! ### Names -/

/-- A letter, a digit or an underscore. Beyond ASCII every character counts as a letter. -/
def isNameChar (c : Char) : Bool := c.isAlphanum || c = '_' || 128 ≤ c.toNat

def startsWithDigit (s : String) : Bool := s.toList.head?.any Char.isDigit

/-- Letters, digits and underscores, one of them at least, and no digit first. -/
def IsIdentifier (name : String) : Prop :=
  name ≠ "" ∧ startsWithDigit name = false ∧ name.toList.all isNameChar = true

instance (name : String) : Decidable (IsIdentifier name) := inferInstanceAs (Decidable (_ ∧ _ ∧ _))

namespace Expr

mutual

/-- The names of the components and fields in an expression. -/
def names : Expr → List String
  | .ref name => [name]
  | .field base name => base.names ++ [name]
  | .index base _ => base.names
  | .access base position => base.names ++ position.names
  | .mux cond high low => cond.names ++ high.names ++ low.names
  | .validIf cond value => cond.names ++ value.names
  | .literal .. => []
  | .prim _ args _ => namesList args

def namesList : List Expr → List String
  | [] => []
  | e :: es => e.names ++ namesList es

end

@[simp] theorem namesList_eq_flatMap (es : List Expr) : namesList es = es.flatMap names := by
  induction es with
  | nil => rfl
  | cons e es ih => simp [namesList, ih]

end Expr

namespace SignalType

mutual

/-- The names of the fields in a type. -/
def names : SignalType → List String
  | .clock | .uint _ | .sint _ => []
  | .vector element _ => element.names
  | .bundle fields => namesList fields

def namesList : List (Field SignalType) → List String
  | [] => []
  | ⟨name, _, type⟩ :: fields => name :: type.names ++ namesList fields

end

@[simp] theorem namesList_eq_flatMap (fields : List (Field SignalType)) :
    namesList fields = fields.flatMap fun f => f.name :: f.type.names := by
  induction fields with
  | nil => rfl
  | cons f fields ih => simp [namesList, ih]

end SignalType

/-! ### Brackets -/

/-- What a character adds to the number of open brackets. -/
def bracket : Char → Int
  | '(' | '[' | '\x7b' => 1
  | ')' | ']' | '\x7d' => -1
  | _ => 0

/-- The number of brackets that are open at the end of a text. -/
def depth : List Char → Int
  | [] => 0
  | c :: cs => bracket c + depth cs

@[simp] theorem depth_nil : depth [] = 0 := rfl

@[simp] theorem depth_cons (c : Char) (cs : List Char) : depth (c :: cs) = bracket c + depth cs := rfl

@[simp] theorem depth_append (as bs : List Char) : depth (as ++ bs) = depth as + depth bs := by
  induction as with
  | nil => simp
  | cons c as ih => rw [List.cons_append, depth_cons, ih, depth_cons, Int.add_assoc]

/-- No bracket is closed before it is opened and all are closed in the end. -/
structure Balanced (cs : List Char) : Prop where
  total : depth cs = 0
  nonneg : ∀ before after, cs = before ++ after → 0 ≤ depth before

/-- A balanced text in which `stop` stands inside brackets only. -/
structure Sealed (stop : Char) (cs : List Char) : Prop extends Balanced cs where
  inside : ∀ before after, cs = before ++ stop :: after → 0 < depth before

variable {stop c o : Char} {cs as bs x x' p p' : List Char}

theorem depth_eq_zero (h : ∀ c ∈ cs, bracket c = 0) : depth cs = 0 := by
  induction cs with
  | nil => rfl
  | cons c cs ih =>
    obtain ⟨hc, hcs⟩ := List.forall_mem_cons.1 h
    rw [depth_cons, hc, ih hcs, Int.add_zero]

namespace Balanced

theorem of_plain (h : ∀ c ∈ cs, bracket c = 0) : Balanced cs where
  total := depth_eq_zero h
  nonneg before after heq := by
    subst heq
    exact Int.le_of_eq (depth_eq_zero fun c hc => h c (List.mem_append_left _ hc)).symm

theorem append (ha : Balanced as) (hb : Balanced bs) : Balanced (as ++ bs) where
  total := by rw [depth_append, ha.total, hb.total, Int.add_zero]
  nonneg before after heq := by
    rcases List.append_eq_append_iff.1 heq with ⟨mid, rfl, hmid⟩ | ⟨mid, hmid, -⟩
    · rw [depth_append, ha.total, Int.zero_add]
      exact hb.nonneg _ _ hmid
    · exact ha.nonneg _ _ hmid

/-- A bracket around a balanced text does not close within it. -/
theorem enclosed_before (ho : bracket o = 1) (h : Balanced cs) {before after : List Char}
    (heq : o :: cs ++ [c] = before ++ after) : before = [] ∨ 0 < depth before ∨ after = [] := by
  rcases before with _ | ⟨first, before⟩
  · exact .inl rfl
  · obtain ⟨rfl, htail⟩ := List.cons.inj heq
    rcases List.eq_nil_or_concat after with rfl | ⟨after, last, rfl⟩
    · exact .inr (.inr rfl)
    · have hcs : cs = before ++ after := by
        have hconcat : cs ++ [c] = (before ++ after) ++ [last] := by simpa using htail
        exact List.append_inj_left' hconcat rfl
      have hbefore := h.nonneg _ _ hcs
      refine .inr (.inl ?_)
      rw [depth_cons, ho]
      omega

theorem enclosed (ho : bracket o = 1) (hc : bracket c = -1) (h : Balanced cs) : Balanced (o :: cs ++ [c]) := by
  have htotal : depth (o :: cs ++ [c]) = 0 := by
    simp [ho, hc, h.total]
  refine ⟨htotal, fun before after heq => ?_⟩
  rcases h.enclosed_before ho heq with rfl | hpos | rfl
  · exact Int.le_refl 0
  · exact Int.le_of_lt hpos
  · rw [List.append_nil] at heq
    exact Int.le_of_eq (heq ▸ htotal).symm

end Balanced

namespace Sealed

theorem of_plain (h : ∀ c ∈ cs, bracket c = 0 ∧ c ≠ stop) : Sealed stop cs where
  toBalanced := .of_plain fun c hc => (h c hc).1
  inside before after heq := absurd rfl (h stop (by simp [heq])).2

theorem append (ha : Sealed stop as) (hb : Sealed stop bs) : Sealed stop (as ++ bs) where
  toBalanced := ha.toBalanced.append hb.toBalanced
  inside before after heq := by
    rcases List.append_eq_append_iff.1 heq with ⟨mid, rfl, hmid⟩ | ⟨mid, hmid, htail⟩
    · rw [depth_append, ha.total, Int.zero_add]
      exact hb.inside _ _ hmid
    · rcases mid with _ | ⟨first, mid⟩
      · -- the stop would be the first character of the second text, with nothing open
        have hpos := hb.inside [] after (by simpa using htail.symm)
        exact absurd hpos (Int.lt_irrefl _)
      · obtain ⟨rfl, -⟩ := List.cons.inj htail
        exact ha.inside _ _ hmid

/-- Inside brackets anything may stand. -/
theorem enclosed (ho : bracket o = 1) (hc : bracket c = -1) (hstop : bracket stop = 0) (h : Balanced cs) :
    Sealed stop (o :: cs ++ [c]) where
  toBalanced := h.enclosed ho hc
  inside before after heq := by
    rcases h.enclosed_before ho heq with rfl | hpos | hnil
    · obtain ⟨rfl, -⟩ := List.cons.inj heq
      rw [hstop] at ho
      cases ho
    · exact hpos
    · cases hnil

end Sealed

/-! ### Where a text can be cut -/

/-- Two cuts of a text at the same character are the same cut, or one is further right. -/
theorem cut_cases (h : x ++ c :: p = x' ++ c :: p') : (x = x' ∧ p = p') ∨
    (∃ mid, x' = x ++ c :: mid ∧ p = mid ++ c :: p') ∨ ∃ mid, x = x' ++ c :: mid ∧ p' = mid ++ c :: p := by
  rcases List.append_eq_append_iff.1 h with ⟨_ | ⟨first, mid⟩, rfl, heq⟩ | ⟨_ | ⟨first, mid⟩, rfl, heq⟩
  · simpa using (List.cons.inj heq).2
  · obtain ⟨rfl, htail⟩ := List.cons.inj heq
    exact .inr (.inl ⟨mid, rfl, htail⟩)
  · simpa using (List.cons.inj heq).2.symm
  · obtain ⟨rfl, htail⟩ := List.cons.inj heq
    exact .inr (.inr ⟨mid, rfl, htail⟩)

/-- A balanced text does not contain the bracket before another one. -/
theorem Balanced.ne_append_open (ho : bracket o = 1) (hp : Balanced p) (hp' : Balanced p') (before : List Char) :
    p ≠ before ++ o :: p' := by
  intro heq
  have hbefore := hp.nonneg _ _ heq
  have htotal := hp.total
  rw [heq, depth_append, depth_cons, ho, hp'.total] at htotal
  omega

/-- From the right, a balanced text ends at its opening bracket. -/
theorem cut_at_open (ho : bracket o = 1) (hp : Balanced p) (hp' : Balanced p') (h : x ++ o :: p = x' ++ o :: p') :
    x = x' ∧ p = p' := by
  rcases cut_cases h with heq | ⟨mid, -, heq⟩ | ⟨mid, -, heq⟩
  · exact heq
  · exact absurd heq (hp.ne_append_open ho hp' mid)
  · exact absurd heq (hp'.ne_append_open ho hp mid)

/-- From the right, a text without the character ends at it. -/
theorem cut_at_last (hp : c ∉ p) (hp' : c ∉ p') (h : x ++ c :: p = x' ++ c :: p') : x = x' ∧ p = p' := by
  rcases cut_cases h with heq | ⟨mid, -, heq⟩ | ⟨mid, -, heq⟩
  · exact heq
  · exact absurd (by simp [heq]) hp
  · exact absurd (by simp [heq]) hp'

theorem Sealed.ne_append_stop (hx : Sealed stop x) (hx' : Sealed stop x') (after : List Char) :
    x' ≠ x ++ stop :: after := by
  intro heq
  have hpos := hx'.inside _ _ heq
  rw [hx.total] at hpos
  exact absurd hpos (Int.lt_irrefl _)

/-- From the left, a sealed text ends at the stop. -/
theorem cut_at_stop (hx : Sealed stop x) (hx' : Sealed stop x') (h : x ++ stop :: p = x' ++ stop :: p') :
    x = x' ∧ p = p' := by
  rcases cut_cases h with heq | ⟨mid, heq, -⟩ | ⟨mid, heq, -⟩
  · exact heq
  · exact absurd heq (hx.ne_append_stop hx' mid)
  · exact absurd heq (hx'.ne_append_stop hx mid)

/-! ### Lists of texts -/

/-- A text that can be an item of a list. -/
def IsItem (s : String) : Prop := s ≠ "" ∧ Sealed ',' s.toList

theorem toList_commaList_cons (s t : String) (items : List String) :
    (commaList (s :: t :: items)).toList = s.toList ++ ',' :: ' ' :: (commaList (t :: items)).toList := by
  rw [commaList, String.intercalate_cons_cons]
  simp [commaList]

theorem commaList_singleton (s : String) : commaList [s] = s := String.intercalate_singleton

theorem balanced_commaList {items : List String} (h : ∀ s ∈ items, Balanced s.toList) :
    Balanced (commaList items).toList := by
  induction items with
  | nil => exact .of_plain (by simp [commaList])
  | cons s items ih =>
    cases items with
    | nil => exact commaList_singleton s ▸ h s (List.mem_cons_self ..)
    | cons t items =>
      have hseparator : Balanced [',', ' '] := .of_plain (by simp [bracket])
      rw [toList_commaList_cons]
      exact (h s (List.mem_cons_self ..)).append (hseparator.append (ih fun s hs => h s (List.mem_cons_of_mem _ hs)))

/-- The first item ends at the first comma outside brackets. -/
theorem eq_of_commaList {items items' : List String} (h : ∀ s ∈ items, IsItem s) (h' : ∀ s ∈ items', IsItem s)
    (heq : commaList items = commaList items') : items = items' := by
  have hne : ∀ {s : String} {items : List String}, IsItem s → commaList (s :: items) ≠ "" := by
    intro s items hs hempty
    cases items with
    | nil => exact hs.1 (commaList_singleton s ▸ hempty)
    | cons t items =>
      have hlist := congrArg String.toList hempty
      rw [toList_commaList_cons] at hlist
      simp at hlist
  induction items generalizing items' with
  | nil =>
    cases items' with
    | nil => rfl
    | cons s' items' => exact absurd heq.symm (hne (h' s' (List.mem_cons_self ..)))
  | cons s items ih =>
    have hs := h s (List.mem_cons_self ..)
    rcases items' with _ | ⟨s', items'⟩
    · exact absurd heq (hne hs)
    have hs' := h' s' (List.mem_cons_self ..)
    have hlist := congrArg String.toList heq
    rcases items with _ | ⟨t, items⟩ <;> rcases items' with _ | ⟨t', items'⟩
    · rw [commaList_singleton, commaList_singleton] at heq
      rw [heq]
    -- one list ends where the other goes on, so the last item would have a comma outside brackets
    · rw [commaList_singleton, toList_commaList_cons] at hlist
      exact absurd hlist (hs'.2.ne_append_stop hs.2 _)
    · rw [commaList_singleton, toList_commaList_cons] at hlist
      exact absurd hlist.symm (hs.2.ne_append_stop hs'.2 _)
    · rw [toList_commaList_cons, toList_commaList_cons] at hlist
      obtain ⟨hfirst, hrest⟩ := cut_at_stop hs.2 hs'.2 hlist
      rw [String.toList_inj.1 hfirst, ih (fun s hs => h s (List.mem_cons_of_mem _ hs))
        (fun s hs => h' s (List.mem_cons_of_mem _ hs)) (String.toList_inj.1 (List.cons.inj hrest).2)]

theorem eq_of_map_eq {α β : Type} {f : α → β} {l l' : List α} (hf : ∀ a ∈ l, ∀ b ∈ l', f a = f b → a = b)
    (h : l.map f = l'.map f) : l = l' := by
  induction l generalizing l' with
  | nil => exact (List.map_eq_nil_iff.1 h.symm).symm
  | cons a l ih =>
    obtain ⟨b, l', rfl, hab, hrest⟩ := List.map_eq_cons_iff.1 h.symm
    rw [hf a (List.mem_cons_self ..) b (List.mem_cons_self ..) hab.symm,
      ih (fun a ha b hb => hf a (List.mem_cons_of_mem _ ha) b (List.mem_cons_of_mem _ hb)) hrest.symm]

/-! ### Forms -/

/-- How a text is put together on the outside. -/
inductive Form where
  | word (text : String)
  | member (base name : String)
  | element (base position : String)
  | call (head : String) (args : List String)
  | bundle (fields : List String)

/-- No bracket, dot or separator. -/
def isPlain (c : Char) : Bool := bracket c = 0 && c ≠ '.' && c ≠ ',' && c ≠ ' '

theorem isPlain_iff : isPlain c = true ↔ bracket c = 0 ∧ c ≠ '.' ∧ c ≠ ',' ∧ c ≠ ' ' := by
  simp [isPlain, and_assoc]

/-- A text of plain characters that does not start with a digit. -/
def IsWord (s : String) : Prop := s ≠ "" ∧ startsWithDigit s = false ∧ s.toList.all isPlain = true

instance (s : String) : Decidable (IsWord s) := inferInstanceAs (Decidable (_ ∧ _ ∧ _))

theorem IsWord.plain {s : String} (h : IsWord s) (hc : c ∈ s.toList) : bracket c = 0 ∧ c ≠ '.' ∧ c ≠ ',' ∧ c ≠ ' ' :=
  isPlain_iff.1 (List.all_eq_true.1 h.2.2 c hc)

/-- A text that can be the base of another one. -/
structure IsBase (stop : Char) (s : String) : Prop where
  ne_empty : s ≠ ""
  head : startsWithDigit s = false
  isSealed : Sealed stop s.toList

def IsSeparator (c : Char) : Prop := c = ',' ∨ c = ' '

theorem IsWord.isBase {s : String} (h : IsWord s) (hstop : IsSeparator stop) : IsBase stop s where
  ne_empty := h.1
  head := h.2.1
  isSealed := .of_plain fun c hc => by
    obtain ⟨hplain, -, hcomma, hblank⟩ := h.plain hc
    rcases hstop with rfl | rfl
    · exact ⟨hplain, hcomma⟩
    · exact ⟨hplain, hblank⟩

theorem startsWithDigit_append {s t : String} (h : s ≠ "") : startsWithDigit (s ++ t) = startsWithDigit s := by
  have hne : s.toList ≠ [] := mt String.toList_eq_nil_iff.1 h
  rw [startsWithDigit, startsWithDigit, String.toList_append, List.head?_append_of_ne_nil _ hne]

theorem IsBase.append {s t : String} (hs : IsBase stop s) (ht : Sealed stop t.toList) : IsBase stop (s ++ t) where
  ne_empty hempty := hs.ne_empty (String.append_eq_empty_iff.1 hempty).1
  head := (startsWithDigit_append hs.ne_empty).trans hs.head
  isSealed := String.toList_append ▸ hs.isSealed.append ht

namespace Form

def text : Form → String
  | .word s => s
  | .member base name => base ++ "." ++ name
  | .element base position => base ++ "[" ++ position ++ "]"
  | .call head args => head ++ "(" ++ commaList args ++ ")"
  | .bundle fields => "\x7b" ++ commaList fields ++ "\x7d"

/-- The parts of the form are what they should be. -/
def Fine (stop : Char) : Form → Prop
  | .word s => IsWord s
  | .member base name => IsBase stop base ∧ IsWord name
  | .element base position => IsBase stop base ∧ Balanced position.toList
  | .call head args => IsWord head ∧ ∀ s ∈ args, IsItem s
  | .bundle fields => ∀ s ∈ fields, IsItem s

def closing : Form → Option Char
  | .word _ | .member .. => none
  | .element .. => some ']'
  | .call .. => some ')'
  | .bundle _ => some '\x7d'

variable {f g : Form}

/-- A text in brackets is sealed, whatever its items. -/
theorem sealed_items (ho : bracket o = 1) (hc : bracket c = -1) (hstop : IsSeparator stop) {items : List String}
    (h : ∀ s ∈ items, IsItem s) : Sealed stop (o :: (commaList items).toList ++ [c]) := by
  refine .enclosed ho hc ?_ (balanced_commaList fun s hs => (h s hs).2.toBalanced)
  rcases hstop with rfl | rfl <;> rfl

theorem isBase_text (hstop : IsSeparator stop) (h : f.Fine stop) : IsBase stop f.text := by
  have hplain : bracket stop = 0 := by rcases hstop with rfl | rfl <;> rfl
  cases f with
  | word s => exact IsWord.isBase h hstop
  | member base name =>
    refine (h.1.append (.of_plain ?_)).append (h.2.isBase hstop).isSealed
    rcases hstop with rfl | rfl <;> simp [bracket]
  | element base position =>
    have hposition := Sealed.enclosed (o := '[') (c := ']') rfl rfl hplain h.2
    have htext : (Form.element base position).text = base ++ ("[" ++ position ++ "]") := by
      simp [text, String.append_assoc]
    rw [htext]
    exact h.1.append (by simpa using hposition)
  | call head args =>
    have hargs := sealed_items (o := '(') (c := ')') rfl rfl hstop h.2
    have htext : (Form.call head args).text = head ++ ("(" ++ commaList args ++ ")") := by
      simp [text, String.append_assoc]
    rw [htext]
    exact (h.1.isBase hstop).append (by simpa using hargs)
  | bundle fields =>
    have hfields := sealed_items (o := '\x7b') (c := '\x7d') rfl rfl hstop h
    refine ⟨?_, ?_, by simpa [text] using hfields⟩
    · intro hempty
      have hlist := congrArg String.toList hempty
      simp [text] at hlist
    · simp [startsWithDigit, text]

theorem isItem_text (h : f.Fine ',') : IsItem f.text :=
  have hbase := isBase_text (.inl rfl) h
  ⟨hbase.ne_empty, hbase.isSealed⟩

theorem filter_getLast?_text (h : f.Fine stop) : f.text.toList.getLast?.filter (bracket · ≠ 0) = f.closing := by
  have hword : ∀ {s : String}, IsWord s → ∃ c, s.toList.getLast? = some c ∧ bracket c = 0 := by
    intro s hs
    have hne : s.toList ≠ [] := mt String.toList_eq_nil_iff.1 hs.1
    exact ⟨_, List.getLast?_eq_some_getLast hne, (hs.plain (List.getLast_mem hne)).1⟩
  cases f with
  | word s =>
    obtain ⟨c, hlast, hc⟩ := hword h
    simp [text, closing, hlast, hc]
  | member base name =>
    obtain ⟨c, hlast, hc⟩ := hword h.2
    simp [text, closing, List.getLast?_append, List.getLast?_cons, hlast, hc]
  | element | call | bundle => simp [text, closing, List.getLast?_append, List.getLast?_cons, bracket]

/-- A text has one form. -/
theorem eq_of_text (hf : f.Fine ',') (hg : g.Fine ',') (h : f.text = g.text) : f = g := by
  -- the last character tells the bracketed forms from each other and from the rest, and a dot a member from a word
  have hclosing : f.closing = g.closing := by rw [← filter_getLast?_text hf, ← filter_getLast?_text hg, h]
  have hlist := congrArg String.toList h
  have hdot : ∀ {s : String}, IsWord s → '.' ∉ s.toList := fun hs hmem => (hs.plain hmem).2.1 rfl
  cases f with
  | word s =>
    cases g with
    | word s' => exact congrArg word h
    | member base name =>
      refine absurd ?_ (hdot hf)
      simp only [text] at h
      simp [h]
    | element | call | bundle => cases hclosing
  | member base name =>
    cases g with
    | word s' =>
      refine absurd ?_ (hdot hg)
      simp only [text] at h
      simp [← h]
    | member base' name' =>
      obtain ⟨hbase, hname⟩ := cut_at_last (hdot hf.2) (hdot hg.2)
        (by simpa [text] using hlist : base.toList ++ '.' :: name.toList = base'.toList ++ '.' :: name'.toList)
      rw [String.toList_inj.1 hbase, String.toList_inj.1 hname]
    | element | call | bundle => cases hclosing
  | element base position =>
    cases g with
    | element base' position' =>
      have hinner : base.toList ++ '[' :: position.toList = base'.toList ++ '[' :: position'.toList :=
        List.append_cancel_right (by simpa [text] using hlist : _ ++ [']'] = _ ++ [']'])
      obtain ⟨hbase, hposition⟩ := cut_at_open rfl hf.2 hg.2 hinner
      rw [String.toList_inj.1 hbase, String.toList_inj.1 hposition]
    | word | member | call | bundle => cases hclosing
  | call head args =>
    cases g with
    | call head' args' =>
      have hinner : head.toList ++ '(' :: (commaList args).toList = head'.toList ++ '(' :: (commaList args').toList :=
        List.append_cancel_right (by simpa [text] using hlist : _ ++ [')'] = _ ++ [')'])
      obtain ⟨hhead, hargs⟩ := cut_at_open rfl (balanced_commaList fun s hs => (hf.2 s hs).2.toBalanced)
        (balanced_commaList fun s hs => (hg.2 s hs).2.toBalanced) hinner
      rw [String.toList_inj.1 hhead, eq_of_commaList hf.2 hg.2 (String.toList_inj.1 hargs)]
    | word | member | element | bundle => cases hclosing
  | bundle fields =>
    cases g with
    | bundle fields' =>
      have hinner : (commaList fields).toList = (commaList fields').toList := by simpa [text] using hlist
      rw [eq_of_commaList hf hg (String.toList_inj.1 hinner)]
    | word | member | element | call => cases hclosing

end Form

/-! ### Words and numbers -/

theorem isPlain_of_isNameChar (h : isNameChar c = true) : isPlain c = true := by
  refine isPlain_iff.2 ⟨?_, ?_, ?_, ?_⟩
  · unfold bracket
    split <;> first | rfl | exact absurd h (by decide)
  all_goals
    rintro rfl
    exact absurd h (by decide)

theorem IsIdentifier.isWord {name : String} (h : IsIdentifier name) : IsWord name :=
  ⟨h.1, h.2.1, List.all_eq_true.2 fun c hc => isPlain_of_isNameChar (List.all_eq_true.1 h.2.2 c hc)⟩

theorem isNameChar_of_mem_repr {n : Nat} (h : c ∈ n.repr.toList) : isNameChar c = true := by
  rw [Nat.toList_repr] at h
  have hdigit := Nat.isDigit_of_mem_toDigits (by decide) (by decide) h
  simp [isNameChar, Char.isAlphanum, hdigit]

theorem repr_ne_empty (n : Nat) : n.repr ≠ "" := by
  rw [Ne, ← String.toList_eq_nil_iff, Nat.toList_repr]
  exact Nat.toDigits_ne_nil

theorem repr_injective {m n : Nat} (h : m.repr = n.repr) : m = n :=
  @numbered_injective "" m n (by rw [numbered, numbered, h])

theorem isItem_repr (n : Nat) : IsItem n.repr := by
  refine ⟨repr_ne_empty n, .of_plain fun c hc => ?_⟩
  obtain ⟨hplain, -, hcomma, -⟩ := isPlain_iff.1 (isPlain_of_isNameChar (isNameChar_of_mem_repr hc))
  exact ⟨hplain, hcomma⟩

theorem startsWithDigit_repr (n : Nat) : startsWithDigit n.repr = true := by
  rw [startsWithDigit, Nat.toList_repr]
  cases hdigits : Nat.toDigits 10 n with
  | nil => exact absurd hdigits Nat.toDigits_ne_nil
  | cons c cs => exact Nat.isDigit_of_mem_toDigits (by decide) (by decide) (hdigits ▸ List.mem_cons_self ..)

theorem PrimOp.isWord_text (op : PrimOp) : IsWord op.text := by cases op <;> decide

/-- The word for an integer type or constant of a width. -/
def sized (kind : String) (width : Nat) : String := kind ++ "<" ++ width.repr ++ ">"

theorem isWord_sized {kind : String} (hkind : IsWord kind) (width : Nat) : IsWord (sized kind width) := by
  refine ⟨?_, ?_, List.all_eq_true.2 fun c hc => ?_⟩
  · intro hempty
    have hlist := congrArg String.toList hempty
    simp [sized] at hlist
  · rw [sized, String.append_assoc, String.append_assoc, startsWithDigit_append hkind.1]
    exact hkind.2.1
  · simp only [sized, String.toList_append, List.mem_append] at hc
    rcases hc with ((hc | hc) | hc) | hc
    · exact List.all_eq_true.1 hkind.2.2 c hc
    · rw [List.mem_singleton.1 hc]
      decide
    · exact isPlain_of_isNameChar (isNameChar_of_mem_repr hc)
    · rw [List.mem_singleton.1 hc]
      decide

theorem sized_ne {kind word : String} {width : Nat} (h : '<' ∉ word.toList) : sized kind width ≠ word := by
  rintro rfl
  exact h (by simp [sized])

theorem sized_inj {kind kind' : String} {width width' : Nat} (h : sized kind width = sized kind' width') :
    kind = kind' ∧ width = width' := by
  have hangle : ∀ width : Nat, '<' ∉ width.repr.toList := fun width hmem =>
    absurd (isNameChar_of_mem_repr hmem) (by decide)
  have hlist : (kind.toList ++ '<' :: width.repr.toList) ++ ['>'] =
      (kind'.toList ++ '<' :: width'.repr.toList) ++ ['>'] := by
    simpa [sized] using congrArg String.toList h
  obtain ⟨hkind, hwidth⟩ := cut_at_last (hangle width) (hangle width') (List.append_cancel_right hlist)
  exact ⟨String.toList_inj.1 hkind, repr_injective (String.toList_inj.1 hwidth)⟩

namespace PrimOp

variable (op : PrimOp)

theorem text_ne_mux : op.text ≠ "mux" := by cases op <;> decide

theorem text_ne_validif : op.text ≠ "validif" := by cases op <;> decide

theorem text_ne_sized {kind : String} {width : Nat} : op.text ≠ sized kind width :=
  (sized_ne (by cases op <;> decide)).symm

end PrimOp

/-! ### Expressions -/

namespace Expr

/-- All names in the expression are identifiers. -/
def Legal (e : Expr) : Prop := ∀ name ∈ e.names, IsIdentifier name

instance (e : Expr) : Decidable e.Legal := inferInstanceAs (Decidable (∀ name ∈ e.names, IsIdentifier name))

def form : Expr → Form
  | .ref name => .word name
  | .field base name => .member base.text name
  | .index base position => .element base.text position.repr
  | .access base position => .element base.text position.text
  | .mux cond high low => .call "mux" [cond.text, high.text, low.text]
  | .validIf cond value => .call "validif" [cond.text, value.text]
  | .literal value width => .call (sized "UInt" width) [value.repr]
  | .prim op args consts => .call op.text (args.map text ++ consts.map Nat.repr)

theorem text_form (e : Expr) : e.form.text = e.text := by
  cases e with
  | literal value width =>
    have hkind : "UInt<" = "UInt" ++ "<" := rfl
    have hopen : ">(" = ">" ++ "(" := rfl
    simp [form, Form.text, text, sized, commaList_singleton, hkind, hopen, String.append_assoc]
  | mux cond high low =>
    have hopen : "mux(" = "mux" ++ "(" := rfl
    simp [form, Form.text, text, commaList, hopen, String.append_assoc]
  | validIf cond value =>
    have hopen : "validif(" = "validif" ++ "(" := rfl
    simp [form, Form.text, text, commaList, hopen, String.append_assoc]
  | prim op args consts => simp [form, Form.text, text]
  | ref | field | index | access => rfl

theorem isBase_of_fine {e : Expr} (hstop : IsSeparator stop) (h : e.form.Fine stop) : IsBase stop e.text :=
  text_form e ▸ Form.isBase_text hstop h

theorem isItem_of_fine {e : Expr} (h : e.form.Fine ',') : IsItem e.text := text_form e ▸ Form.isItem_text h

theorem fine_form {e : Expr} (he : e.Legal) (hstop : IsSeparator stop) : e.form.Fine stop := by
  induction e generalizing stop with
  | ref name => exact (List.forall_mem_singleton.1 he).isWord
  | field base name ih =>
    obtain ⟨hbase, hname⟩ := List.forall_mem_append.1 he
    exact ⟨isBase_of_fine hstop (ih hbase hstop), (List.forall_mem_singleton.1 hname).isWord⟩
  | index base position ih => exact ⟨isBase_of_fine hstop (ih he hstop), (isItem_repr position).2.toBalanced⟩
  | access base position ihb ihp =>
    obtain ⟨hbase, hposition⟩ := List.forall_mem_append.1 he
    exact ⟨isBase_of_fine hstop (ihb hbase hstop), (isItem_of_fine (ihp hposition (.inl rfl))).2.toBalanced⟩
  | mux cond high low ihc ihh ihl =>
    obtain ⟨hargs, hlow⟩ := List.forall_mem_append.1 he
    obtain ⟨hcond, hhigh⟩ := List.forall_mem_append.1 hargs
    refine ⟨by decide, ?_⟩
    simp only [List.forall_mem_cons, List.not_mem_nil, false_implies, implies_true, and_true]
    exact ⟨isItem_of_fine (ihc hcond (.inl rfl)), isItem_of_fine (ihh hhigh (.inl rfl)),
      isItem_of_fine (ihl hlow (.inl rfl))⟩
  | validIf cond value ihc ihv =>
    obtain ⟨hcond, hvalue⟩ := List.forall_mem_append.1 he
    refine ⟨by decide, ?_⟩
    simp only [List.forall_mem_cons, List.not_mem_nil, false_implies, implies_true, and_true]
    exact ⟨isItem_of_fine (ihc hcond (.inl rfl)), isItem_of_fine (ihv hvalue (.inl rfl))⟩
  | literal value width => exact ⟨isWord_sized (by decide) width, List.forall_mem_singleton.2 (isItem_repr value)⟩
  | prim op args consts ih =>
    refine ⟨op.isWord_text, List.forall_mem_append.2 ⟨List.forall_mem_map.2 fun a ha => ?_, ?_⟩⟩
    · refine isItem_of_fine (ih a ha (fun name hname => he name ?_) (.inl rfl))
      rw [names, namesList_eq_flatMap]
      exact List.mem_flatMap.2 ⟨a, ha, hname⟩
    · exact List.forall_mem_map.2 fun n _ => isItem_repr n

theorem isBase_text {e : Expr} (he : e.Legal) (hstop : IsSeparator stop) : IsBase stop e.text :=
  isBase_of_fine hstop (fine_form he hstop)

theorem repr_ne_text {e : Expr} (he : e.Legal) (n : Nat) : n.repr ≠ e.text := by
  intro h
  have hdigit := startsWithDigit_repr n
  rw [h, (isBase_text he (.inl rfl)).head] at hdigit
  cases hdigit

/-- Operands and constants of an operator are told apart by their first character. -/
theorem eq_of_operands {args args' : List Expr} {consts consts' : List Nat} (ha : ∀ a ∈ args, a.Legal)
    (ha' : ∀ a ∈ args', a.Legal)
    (h : args.map text ++ consts.map Nat.repr = args'.map text ++ consts'.map Nat.repr) :
    args.map text = args'.map text ∧ consts = consts' := by
  have hargs : ∀ {args : List Expr}, (∀ a ∈ args, a.Legal) → (args.map text).filter startsWithDigit = [] := by
    intro args ha
    refine List.filter_eq_nil_iff.2 (List.forall_mem_map.2 fun a hmem => ?_)
    simp [(isBase_text (ha a hmem) (.inl rfl)).head]
  have hconsts : ∀ consts : List Nat, (consts.map Nat.repr).filter startsWithDigit = consts.map Nat.repr := by
    intro consts
    exact List.filter_eq_self.2 (List.forall_mem_map.2 fun n _ => startsWithDigit_repr n)
  have hdigits := congrArg (List.filter startsWithDigit) h
  simp only [List.filter_append, hargs ha, hargs ha', hconsts, List.nil_append] at hdigits
  rw [hdigits] at h
  exact ⟨List.append_cancel_right h, eq_of_map_eq (fun n _ k _ => repr_injective) hdigits⟩

theorem form_eq {e e' : Expr} (he : e.Legal) (he' : e'.Legal) (h : e.text = e'.text) : e.form = e'.form :=
  Form.eq_of_text (fine_form he (.inl rfl)) (fine_form he' (.inl rfl)) (by rw [text_form, text_form, h])

theorem Legal.of_mem_args {op : PrimOp} {args : List Expr} {consts : List Nat} (h : (prim op args consts).Legal) :
    ∀ a ∈ args, a.Legal := by
  intro a ha name hname
  refine h name ?_
  rw [names, namesList_eq_flatMap]
  exact List.mem_flatMap.2 ⟨a, ha, hname⟩

theorem eq_of_form {e e' : Expr} (he : e.Legal) (he' : e'.Legal) (h : e.form = e'.form) : e = e' := by
  induction e generalizing e' with
  | ref name =>
    cases e' with
    | ref name' => rw [Form.word.inj h]
    | _ => cases h
  | field base name ih =>
    cases e' with
    | field base' name' =>
      obtain ⟨hbase, -⟩ := List.forall_mem_append.1 he
      obtain ⟨hbase', -⟩ := List.forall_mem_append.1 he'
      obtain ⟨htext, hname⟩ := Form.member.inj h
      rw [ih hbase hbase' (form_eq hbase hbase' htext), hname]
    | _ => cases h
  | index base position ih =>
    cases e' with
    | index base' position' =>
      have hbase : base.Legal := he
      have hbase' : base'.Legal := he'
      obtain ⟨htext, hposition⟩ := Form.element.inj h
      rw [ih hbase hbase' (form_eq hbase hbase' htext), repr_injective hposition]
    | access base' position' =>
      exact absurd (Form.element.inj h).2 (repr_ne_text (List.forall_mem_append.1 he').2 position)
    | _ => cases h
  | access base position ihb ihp =>
    obtain ⟨hbase, hposition⟩ := List.forall_mem_append.1 he
    cases e' with
    | index base' position' => exact absurd (Form.element.inj h).2.symm (repr_ne_text hposition position')
    | access base' position' =>
      obtain ⟨hbase', hposition'⟩ := List.forall_mem_append.1 he'
      obtain ⟨htext, hindex⟩ := Form.element.inj h
      rw [ihb hbase hbase' (form_eq hbase hbase' htext), ihp hposition hposition' (form_eq hposition hposition' hindex)]
    | _ => cases h
  | mux cond high low ihc ihh ihl =>
    cases e' with
    | mux cond' high' low' =>
      obtain ⟨hargs, hlow⟩ := List.forall_mem_append.1 he
      obtain ⟨hcond, hhigh⟩ := List.forall_mem_append.1 hargs
      obtain ⟨hargs', hlow'⟩ := List.forall_mem_append.1 he'
      obtain ⟨hcond', hhigh'⟩ := List.forall_mem_append.1 hargs'
      simp only [form, Form.call.injEq, List.cons.injEq, true_and, and_true] at h
      rw [ihc hcond hcond' (form_eq hcond hcond' h.1), ihh hhigh hhigh' (form_eq hhigh hhigh' h.2.1),
        ihl hlow hlow' (form_eq hlow hlow' h.2.2)]
    | validIf cond' value' => exact absurd (Form.call.inj h).1 (by decide)
    | literal value' width' => exact absurd (Form.call.inj h).1.symm (sized_ne (by decide))
    | prim op args consts => exact absurd (Form.call.inj h).1.symm op.text_ne_mux
    | _ => cases h
  | validIf cond value ihc ihv =>
    cases e' with
    | validIf cond' value' =>
      obtain ⟨hcond, hvalue⟩ := List.forall_mem_append.1 he
      obtain ⟨hcond', hvalue'⟩ := List.forall_mem_append.1 he'
      simp only [form, Form.call.injEq, List.cons.injEq, true_and, and_true] at h
      rw [ihc hcond hcond' (form_eq hcond hcond' h.1), ihv hvalue hvalue' (form_eq hvalue hvalue' h.2)]
    | mux cond' high' low' => exact absurd (Form.call.inj h).1 (by decide)
    | literal value' width' => exact absurd (Form.call.inj h).1.symm (sized_ne (by decide))
    | prim op args consts => exact absurd (Form.call.inj h).1.symm op.text_ne_validif
    | _ => cases h
  | literal value width =>
    cases e' with
    | literal value' width' =>
      obtain ⟨hhead, hvalue⟩ := Form.call.inj h
      rw [repr_injective (List.cons.inj hvalue).1, (sized_inj hhead).2]
    | mux cond' high' low' => exact absurd (Form.call.inj h).1 (sized_ne (by decide))
    | validIf cond' value' => exact absurd (Form.call.inj h).1 (sized_ne (by decide))
    | prim op args consts => exact absurd (Form.call.inj h).1.symm op.text_ne_sized
    | _ => cases h
  | prim op args consts ih =>
    cases e' with
    | prim op' args' consts' =>
      obtain ⟨hop, hitems⟩ := Form.call.inj h
      obtain ⟨htexts, hconsts⟩ := eq_of_operands he.of_mem_args he'.of_mem_args hitems
      have hargs : args = args' := eq_of_map_eq (fun a ha b hb htext =>
        have hlegal := he.of_mem_args a ha
        have hlegal' := he'.of_mem_args b hb
        ih a ha hlegal hlegal' (form_eq hlegal hlegal' htext)) htexts
      rw [PrimOp.text_injective hop, hargs, hconsts]
    | mux cond' high' low' => exact absurd (Form.call.inj h).1 op.text_ne_mux
    | validIf cond' value' => exact absurd (Form.call.inj h).1 op.text_ne_validif
    | literal value' width' => exact absurd (Form.call.inj h).1 op.text_ne_sized
    | _ => cases h

theorem eq_of_text {e e' : Expr} (he : e.Legal) (he' : e'.Legal) (h : e.text = e'.text) : e = e' :=
  eq_of_form he he' (form_eq he he' h)

end Expr

/-! ### Types -/

namespace SignalType

def Legal (t : SignalType) : Prop := ∀ name ∈ t.names, IsIdentifier name

theorem Legal.of_mem_fields {fields : List (Field SignalType)} (h : (bundle fields).Legal) :
    ∀ f ∈ fields, IsIdentifier f.name ∧ f.type.Legal := by
  intro f hf
  have hnames : ∀ name ∈ f.name :: f.type.names, IsIdentifier name := by
    intro name hname
    refine h name ?_
    rw [names, namesList_eq_flatMap]
    exact List.mem_flatMap.2 ⟨f, hf, hname⟩
  exact List.forall_mem_cons.1 hnames

def form : SignalType → Form
  | .clock => .word "Clock"
  | .uint width => .word (sized "UInt" width)
  | .sint width => .word (sized "SInt" width)
  | .vector element size => .element element.text size.repr
  | .bundle fields => .bundle (fields.map fieldText)

theorem text_form (t : SignalType) : t.form.text = t.text := by
  cases t with
  | bundle fields => simp [form, Form.text, text]
  | clock | uint | sint | vector => rfl

theorem toList_fieldText (f : Field SignalType) : (fieldText f).toList =
    (if f.flipped then ['f', 'l', 'i', 'p', ' '] else []) ++
      (f.name.toList ++ ' ' :: ':' :: ' ' :: f.type.text.toList) := by
  cases hflipped : f.flipped <;> simp [fieldText, hflipped]

theorem isItem_fieldText {f : Field SignalType} (hname : IsIdentifier f.name) (htype : IsItem f.type.text) :
    IsItem (fieldText f) := by
  refine ⟨fun hempty => ?_, ?_⟩
  · have hlist := congrArg String.toList hempty
    rw [toList_fieldText] at hlist
    simp at hlist
  · have hcolon : Sealed ',' [' ', ':', ' '] := .of_plain (by simp [bracket])
    have hflip : Sealed ',' (if f.flipped then ['f', 'l', 'i', 'p', ' '] else []) := by
      split <;> exact .of_plain (by simp [bracket])
    rw [toList_fieldText]
    exact hflip.append ((hname.isWord.isBase (.inl rfl)).isSealed.append (hcolon.append htype.2))

theorem fine_form {t : SignalType} (ht : t.Legal) : t.form.Fine ',' := by
  induction t with
  | clock => exact (by decide : IsWord "Clock")
  | uint width | sint width => exact isWord_sized (by decide) width
  | vector element size ih =>
    exact ⟨text_form element ▸ Form.isBase_text (.inl rfl) (ih ht), (isItem_repr size).2.toBalanced⟩
  | bundle fields ih =>
    refine List.forall_mem_map.2 fun f hf => ?_
    obtain ⟨hname, htype⟩ := ht.of_mem_fields f hf
    exact isItem_fieldText hname (text_form f.type ▸ Form.isItem_text (ih f hf htype))

theorem form_eq {t t' : SignalType} (ht : t.Legal) (ht' : t'.Legal) (h : t.text = t'.text) : t.form = t'.form :=
  Form.eq_of_text (fine_form ht) (fine_form ht') (by rw [text_form, text_form, h])

/-- After the name of a field comes a colon, so a field called `flip` is not taken for a flipped one. -/
theorem fieldText_inj {f g : Field SignalType} (hf : IsIdentifier f.name) (hg : IsIdentifier g.name)
    (h : fieldText f = fieldText g) : f.flipped = g.flipped ∧ f.name = g.name ∧ f.type.text = g.type.text := by
  have hsealed : ∀ {name : String}, IsIdentifier name → Sealed ' ' name.toList := fun hname =>
    (hname.isWord.isBase (.inr rfl)).isSealed
  -- what follows a name decides the rest
  have hnamed :
      ∀ {p p' : List Char}, f.name.toList ++ ' ' :: ':' :: ' ' :: p = g.name.toList ++ ' ' :: ':' :: ' ' :: p' →
      f.name = g.name ∧ p = p' := by
    intro p p' heq
    obtain ⟨hname, hrest⟩ := cut_at_stop (hsealed hf) (hsealed hg) heq
    exact ⟨String.toList_inj.1 hname, by simpa using hrest⟩
  have hflip : ∀ {name name' : String} {p p' : List Char}, IsIdentifier name → IsIdentifier name' →
      ['f', 'l', 'i', 'p', ' '] ++ (name.toList ++ p) ≠ name'.toList ++ ' ' :: ':' :: p' := by
    intro name name' p p' hname hname' heq
    have hword : Sealed ' ' ['f', 'l', 'i', 'p'] := .of_plain (by simp [bracket])
    obtain ⟨-, hrest⟩ := cut_at_stop hword (hsealed hname') (by simpa using heq)
    cases hchars : name.toList with
    | nil => exact hname.1 (String.toList_eq_nil_iff.1 hchars)
    | cons c cs =>
      rw [hchars] at hrest
      have hcolon := List.all_eq_true.1 hname.2.2 c (by simp [hchars])
      rw [(List.cons.inj hrest).1] at hcolon
      cases hcolon
  have hlist := congrArg String.toList h
  rw [toList_fieldText, toList_fieldText] at hlist
  cases hff : f.flipped <;> cases hgf : g.flipped <;> simp only [hff, hgf, if_true, if_false, Bool.false_eq_true]
    at hlist
  · obtain ⟨hname, htype⟩ := hnamed hlist
    exact ⟨rfl, hname, String.toList_inj.1 htype⟩
  · exact absurd hlist.symm (hflip hg hf)
  · exact absurd hlist (hflip hf hg)
  · obtain ⟨hname, htype⟩ := hnamed (List.append_cancel_left hlist)
    exact ⟨rfl, hname, String.toList_inj.1 htype⟩

theorem eq_of_form {t t' : SignalType} (ht : t.Legal) (ht' : t'.Legal) (h : t.form = t'.form) : t = t' := by
  induction t generalizing t' with
  | clock =>
    cases t' with
    | clock => rfl
    | uint width' | sint width' => exact absurd (Form.word.inj h).symm (sized_ne (by decide))
    | _ => cases h
  | uint width =>
    cases t' with
    | clock => exact absurd (Form.word.inj h) (sized_ne (by decide))
    | uint width' => rw [(sized_inj (Form.word.inj h)).2]
    | sint width' => exact absurd (sized_inj (Form.word.inj h)).1 (by decide)
    | _ => cases h
  | sint width =>
    cases t' with
    | clock => exact absurd (Form.word.inj h) (sized_ne (by decide))
    | uint width' => exact absurd (sized_inj (Form.word.inj h)).1 (by decide)
    | sint width' => rw [(sized_inj (Form.word.inj h)).2]
    | _ => cases h
  | vector element size ih =>
    cases t' with
    | vector element' size' =>
      have helement : element.Legal := ht
      have helement' : element'.Legal := ht'
      obtain ⟨htext, hsize⟩ := Form.element.inj h
      rw [ih helement helement' (form_eq helement helement' htext), repr_injective hsize]
    | _ => cases h
  | bundle fields ih =>
    cases t' with
    | bundle fields' =>
      have hfields : fields = fields' := eq_of_map_eq (fun f hf g hg htext => by
        obtain ⟨hname, htype⟩ := ht.of_mem_fields f hf
        obtain ⟨hname', htype'⟩ := ht'.of_mem_fields g hg
        obtain ⟨hflipped, hnames, htexts⟩ := fieldText_inj hname hname' htext
        have htypes := ih f hf htype htype' (form_eq htype htype' htexts)
        calc f = ⟨f.name, f.flipped, f.type⟩ := rfl
          _ = ⟨g.name, g.flipped, g.type⟩ := by rw [hflipped, hnames, htypes]
          _ = g := rfl) (Form.bundle.inj h)
      rw [hfields]
    | _ => cases h

theorem eq_of_text {t t' : SignalType} (ht : t.Legal) (ht' : t'.Legal) (h : t.text = t'.text) : t = t' :=
  eq_of_form ht ht' (form_eq ht ht' h)

end SignalType

end TokenCircuit
