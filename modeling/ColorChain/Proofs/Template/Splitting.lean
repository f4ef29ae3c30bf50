import ColorChain.Proofs.Template.Run
import ColorChain.Template.Scan

/-! A template split at its placeholders.

There is one way to split a text at its runs of digits behind a `$` (`exists_splits`,
`Splits.unique`): no text between them holds another run, and none goes on with a digit. The search
from the front finds just these (`Splits.search_eq`), and so do the pieces of the text
(`Splits.pieces_eq`). The pass that collects and the pass that copies therefore see the same runs,
though neither knows of the other, and to rewrite a template is to put each global slot in the place
of its run and to leave all else (`rewrite_substitutes`). -/
namespace ColorChain.Template

/-! ### Text without runs -/

/-- No `$` of the text has a digit behind it. -/
def Runless (cs : List Char) : Prop :=
  ∀ before c after, cs = before ++ '$' :: c :: after → Text.isDecimalDigit c = false

theorem runless_nil : Runless [] := by
  intro before c after h
  cases before <;> cases h

theorem runless_cons {c : Char} {cs : List Char} :
    Runless (c :: cs) ↔ (c = '$' → Undigited cs) ∧ Runless cs := by
  constructor
  · intro h
    refine ⟨?_, fun before d after heq => h (c :: before) d after (by rw [heq, List.cons_append])⟩
    rintro rfl d hd
    obtain ⟨after, rfl⟩ := List.head?_eq_some_iff.mp hd
    exact h [] d after rfl
  · rintro ⟨hhead, hrest⟩ before d after heq
    cases before with
    | nil =>
      cases heq
      exact hhead rfl d rfl
    | cons b before =>
      cases heq
      exact hrest before d after rfl

theorem undigited_mark (cs : List Char) : Undigited ('$' :: cs) :=
  undigited_cons (by decide +kernel) cs

theorem undigited_append {cs after : List Char} (hcs : Undigited cs) (hafter : Undigited after) :
    Undigited (cs ++ after) := by
  cases cs with
  | nil => exact hafter
  | cons c rest => exact hcs

theorem takeWhile_of_undigited {cs : List Char} (h : Undigited cs) :
    cs.takeWhile Text.isDecimalDigit = [] := by
  cases cs with
  | nil => rfl
  | cons c rest =>
    have hc := h c rfl
    exact List.takeWhile_cons_of_neg (by simp [hc])

theorem dropWhile_undigited (cs : List Char) : Undigited (cs.dropWhile Text.isDecimalDigit) := by
  intro c hc
  have hnot := List.head?_dropWhile_not Text.isDecimalDigit cs
  rw [hc] at hnot
  simpa using hnot

theorem pieces_of_runless {cs : List Char} (h : Runless cs) : pieces cs = cs.map .text := by
  induction cs with
  | nil => rfl
  | cons c rest ih =>
    obtain ⟨hhead, hrest⟩ := runless_cons.mp h
    by_cases hc : c = '$'
    · subst hc
      rw [pieces, if_pos rfl, mark_of_undigited (leadingDigits_pieces (hhead rfl)), ih hrest]
      rfl
    · rw [pieces_cons_of_ne hc, ih hrest]
      rfl

/-! ### Splittings -/

/-- A `$` with its digits, and the text behind them. -/
structure Stretch where
  digits : List Char
  behind : List Char

namespace Stretch

def text (r : Stretch) : List Char := '$' :: r.digits ++ r.behind

/-- The digits are all that there are behind the `$`, and the text behind them has no more runs. -/
structure Whole (r : Stretch) : Prop where
  ne_nil : r.digits ≠ []
  digits : ∀ c ∈ r.digits, Text.isDecimalDigit c = true
  maximal : Undigited r.behind
  runless : Runless r.behind

/-- The text with the global slot in the place of a run that spells a number. -/
def placed (base : Nat) (r : Stretch) : List Char :=
  (if Stray r.digits then '$' :: r.digits else reference (base + ofDecimalDigits r.digits)) ++
    r.behind

end Stretch

/-- The text in front of the first run, and each run with the text behind it. -/
structure Splitting where
  front : List Char
  stretches : List Stretch

namespace Splitting

def text (s : Splitting) : List Char := s.front ++ s.stretches.flatMap Stretch.text

/-- The digits of the runs, in order. -/
def digits (s : Splitting) : List (List Char) := s.stretches.map Stretch.digits

/-- The numbers that the runs spell, in order. -/
def numbers (s : Splitting) : List Nat := s.digits.filterMap slotNumber?

def placed (s : Splitting) (base : Nat) : List Char :=
  s.front ++ s.stretches.flatMap (Stretch.placed base)

/-- The runs are those of the text. -/
structure Splits (s : Splitting) (cs : List Char) : Prop where
  text_eq : s.text = cs
  runless : Runless s.front
  whole : ∀ r ∈ s.stretches, r.Whole

end Splitting

open Splitting

variable {front cs : List Char} {r : Stretch} {rest : List Stretch} {s s' : Splitting}

theorem Splitting.undigited_text (h : Undigited front) (rest : List Stretch) :
    Undigited (Splitting.text ⟨front, rest⟩) := by
  apply undigited_append h
  cases rest with
  | nil => simp [Undigited]
  | cons r rest => exact undigited_mark _

theorem Splitting.text_cons (front : List Char) (r : Stretch) (rest : List Stretch) :
    Splitting.text ⟨front, r :: rest⟩ =
      front ++ '$' :: (r.digits ++ Splitting.text ⟨r.behind, rest⟩) := by
  simp [Splitting.text, Stretch.text]

namespace Splitting.Splits

/-- What is behind the first run is split at the others. -/
theorem tail (h : Splits ⟨front, r :: rest⟩ cs) :
    r.Whole ∧ Splits ⟨r.behind, rest⟩ (Splitting.text ⟨r.behind, rest⟩) := by
  obtain ⟨hr, hrest⟩ := List.forall_mem_cons.mp h.whole
  exact ⟨hr, rfl, hr.runless, hrest⟩

/-- A character in front of a text that is split. -/
theorem cons {c : Char} (h : s.Splits cs) (hc : c = '$' → Undigited s.front) :
    Splits ⟨c :: s.front, s.stretches⟩ (c :: cs) where
  text_eq := congrArg (c :: ·) h.text_eq
  runless := runless_cons.mpr ⟨hc, h.runless⟩
  whole := h.whole

end Splitting.Splits

/-- **Every text can be split at its runs.** -/
theorem exists_splits (cs : List Char) : ∃ s : Splitting, s.Splits cs := by
  induction cs with
  | nil => exact ⟨⟨[], []⟩, rfl, runless_nil, List.forall_mem_nil _⟩
  | cons c rest ih =>
    obtain ⟨s, hs⟩ := ih
    by_cases hc : c = '$' → Undigited s.front
    · exact ⟨_, hs.cons hc⟩
    · obtain ⟨rfl, hdigit⟩ := Classical.not_imp.mp hc
      -- The digits in front of the rest are those of a new run.
      have hsplit := List.takeWhile_append_dropWhile (p := Text.isDecimalDigit) (l := s.front)
      have hbehind : Runless (s.front.dropWhile Text.isDecimalDigit) := by
        intro before d after heq
        rw [heq, ← List.append_assoc] at hsplit
        exact hs.runless _ d after hsplit.symm
      refine ⟨⟨[], ⟨s.front.takeWhile Text.isDecimalDigit,
        s.front.dropWhile Text.isDecimalDigit⟩ :: s.stretches⟩, ?_, runless_nil,
        List.forall_mem_cons.mpr ⟨⟨?_, ?_, dropWhile_undigited _, hbehind⟩, hs.whole⟩⟩
      · rw [text_cons, List.nil_append, Splitting.text, ← List.append_assoc, hsplit]
        exact congrArg ('$' :: ·) hs.text_eq
      · intro hnone
        have hnone : s.front.takeWhile Text.isDecimalDigit = [] := hnone
        rw [hnone, List.nil_append] at hsplit
        exact hdigit (hsplit ▸ dropWhile_undigited s.front)
      · exact fun d hd => List.all_eq_true.mp List.all_takeWhile d hd

/-! ### Searching -/

theorem search_of_runless (h : Runless cs) : search cs = none := by
  induction cs with
  | nil => rfl
  | cons c rest ih =>
    obtain ⟨hhead, hrest⟩ := runless_cons.mp h
    rw [search, ih hrest, if_neg]
    · rfl
    · intro hfound
      obtain ⟨hc, hdigits⟩ := Bool.and_eq_true_iff.mp hfound
      rw [takeWhile_of_undigited (hhead (of_decide_eq_true hc))] at hdigits
      cases hdigits

/-- The search stops at the first run. -/
theorem search_append {before digits after : List Char} (hbefore : Runless before)
    (hne : digits ≠ []) (hdigits : ∀ c ∈ digits, Text.isDecimalDigit c = true)
    (hafter : Undigited after) :
    search (before ++ '$' :: (digits ++ after)) = some ⟨before, digits, after⟩ := by
  induction before with
  | nil =>
    have htake : (digits ++ after).takeWhile Text.isDecimalDigit = digits := by
      rw [List.takeWhile_append_of_pos hdigits, takeWhile_of_undigited hafter, List.append_nil]
    have hdrop : (digits ++ after).dropWhile Text.isDecimalDigit = after := by
      have hsplit := List.takeWhile_append_dropWhile (p := Text.isDecimalDigit)
        (l := digits ++ after)
      rw [htake] at hsplit
      exact List.append_cancel_left hsplit
    rw [List.nil_append, search, htake, hdrop, if_pos (by simpa using hne)]
  | cons c rest ih =>
    obtain ⟨hhead, hrest⟩ := runless_cons.mp hbefore
    rw [List.cons_append, search, ih hrest, if_neg]
    · rfl
    · intro hfound
      obtain ⟨hc, hfound⟩ := Bool.and_eq_true_iff.mp hfound
      have hundigited := undigited_append (hhead (of_decide_eq_true hc))
        (undigited_mark (digits ++ after))
      rw [takeWhile_of_undigited hundigited] at hfound
      cases hfound

namespace Splitting.Splits

theorem search_nil (h : Splits ⟨front, []⟩ cs) : search cs = none := by
  rw [← h.text_eq, Splitting.text, List.flatMap_nil, List.append_nil]
  exact search_of_runless h.runless

theorem search_cons (h : Splits ⟨front, r :: rest⟩ cs) :
    search cs = some ⟨front, r.digits, Splitting.text ⟨r.behind, rest⟩⟩ := by
  obtain ⟨hr, -⟩ := h.tail
  rw [← h.text_eq, text_cons]
  exact search_append h.runless hr.ne_nil hr.digits (undigited_text hr.maximal rest)

/-- **A text is split at its runs in one way only.** -/
theorem unique (h : s.Splits cs) (h' : s'.Splits cs) : s' = s := by
  obtain ⟨front, stretches⟩ := s
  obtain ⟨front', stretches'⟩ := s'
  induction stretches generalizing front front' stretches' cs with
  | nil =>
    cases stretches' with
    | nil =>
      have htext := h'.text_eq.trans h.text_eq.symm
      rw [Splitting.text, Splitting.text, List.flatMap_nil, List.append_nil,
        List.append_nil] at htext
      exact congrArg (Splitting.mk · []) htext
    | cons r' rest' => cases h.search_nil.symm.trans h'.search_cons
  | cons r rest ih =>
    cases stretches' with
    | nil => cases h'.search_nil.symm.trans h.search_cons
    | cons r' rest' =>
      have hsame := h'.search_cons.symm.trans h.search_cons
      simp only [Option.some.injEq, Found.mk.injEq] at hsame
      obtain ⟨hfront, hdigits, hafter⟩ := hsame
      have htail := ih _ h.tail.2 _ _ (hafter ▸ h'.tail.2)
      simp only [Splitting.mk.injEq] at htail
      obtain ⟨hbehind, hrest⟩ := htail
      obtain ⟨digits, behind⟩ := r
      obtain ⟨digits', behind'⟩ := r'
      cases hfront
      cases hdigits
      cases hbehind
      cases hrest
      rfl

end Splitting.Splits

/-! ### The two passes -/

theorem collect_of_none (h : search cs = none) : collect cs = [] := by
  rw [collect]
  split
  · rfl
  · next hsome => cases h.symm.trans hsome

theorem collect_of_some {found : Found} (h : search cs = some found) :
    collect cs = (slotNumber? found.digits).toList ++ collect found.after := by
  rw [collect]
  split
  · next hnone => cases h.symm.trans hnone
  · next hsome =>
    cases h.symm.trans hsome
    rfl

theorem copy_of_none {base : Nat} {written : List Char} (h : search cs = none) :
    copy base written cs = .ok (written ++ cs) := by
  rw [copy]
  split
  · rfl
  · next hsome => cases h.symm.trans hsome

theorem copy_of_some {base : Nat} {written : List Char} {found : Found}
    (h : search cs = some found) :
    copy base written cs = (substitute base found.digits).bind fun put =>
      copy base (written ++ found.before ++ put) found.after := by
  rw [copy]
  split
  · next hnone => cases h.symm.trans hnone
  · next hsome =>
    cases h.symm.trans hsome
    rfl

theorem substitute_of_stray {base : Nat} {digits : List Char} (h : Stray digits) :
    substitute base digits = .ok ('$' :: digits) := by
  rw [substitute, slotNumber?_eq_none.mpr h]

theorem substitute_of_fits {base : Nat} {digits : List Char} (h : ¬ Stray digits)
    (hfits : base + ofDecimalDigits digits < 2 ^ 64) :
    substitute base digits = .ok (reference (base + ofDecimalDigits digits)) := by
  rw [substitute, slotNumber?_eq_some.mpr ⟨h, rfl⟩]
  simp only [globalSlot, if_pos hfits]
  rfl

theorem substitute_of_beyond {base : Nat} {digits : List Char} (h : ¬ Stray digits)
    (hbeyond : 2 ^ 64 ≤ base + ofDecimalDigits digits) :
    substitute base digits = .error ⟨base, ofDecimalDigits digits⟩ := by
  rw [substitute, slotNumber?_eq_some.mpr ⟨h, rfl⟩]
  simp only [globalSlot, if_neg (Nat.not_lt.mpr hbeyond)]
  rfl

theorem Splitting.numbers_cons (front : List Char) (r : Stretch) (rest : List Stretch) :
    numbers ⟨front, r :: rest⟩ =
      (slotNumber? r.digits).toList ++ numbers ⟨r.behind, rest⟩ := by
  cases h : slotNumber? r.digits <;> simp [numbers, Splitting.digits, h]

namespace Splitting.Splits

/-- What is collected is the numbers of the runs. -/
theorem collect_eq (h : s.Splits cs) : collect cs = s.numbers := by
  obtain ⟨front, stretches⟩ := s
  induction stretches generalizing front cs with
  | nil => exact collect_of_none h.search_nil
  | cons r rest ih => rw [collect_of_some h.search_cons, ih _ h.tail.2, numbers_cons]

/-- **The copy has the global slots in the place of their runs**, unless one is no word. -/
theorem copy_eq (h : s.Splits cs) (base : Nat) (written : List Char) :
    copy base written cs = match s.numbers.find? fun n => 2 ^ 64 ≤ base + n with
      | some n => .error ⟨base, n⟩
      | none => .ok (written ++ s.placed base) := by
  obtain ⟨front, stretches⟩ := s
  induction stretches generalizing front cs written with
  | nil =>
    rw [copy_of_none h.search_nil, ← h.text_eq]
    rfl
  | cons r rest ih =>
    rw [copy_of_some h.search_cons, numbers_cons]
    by_cases hstray : Stray r.digits
    · rw [substitute_of_stray hstray, slotNumber?_eq_none.mpr hstray]
      show copy base _ _ = _
      rw [ih _ _ h.tail.2]
      simp [Splitting.placed, Stretch.placed, hstray]
    · rw [slotNumber?_eq_some.mpr ⟨hstray, rfl⟩]
      by_cases hfits : base + ofDecimalDigits r.digits < 2 ^ 64
      · have hbeyond : ¬ 2 ^ 64 ≤ base + ofDecimalDigits r.digits := Nat.not_le.mpr hfits
        rw [substitute_of_fits hstray hfits, Option.toList_some, List.singleton_append,
          List.find?_cons_of_neg (by simpa using hbeyond)]
        show copy base _ _ = _
        rw [ih _ _ h.tail.2]
        simp [Splitting.placed, Stretch.placed, hstray]
      · rw [substitute_of_beyond hstray (Nat.not_lt.mp hfits), Option.toList_some,
          List.singleton_append, List.find?_cons_of_pos (by simpa using Nat.not_lt.mp hfits)]
        rfl

/-! ### Pieces -/

/-- The pieces of a text are the characters between its runs, and these. -/
theorem pieces_eq (h : s.Splits cs) :
    pieces cs = s.front.map .text ++
      s.stretches.flatMap fun r => .placeholder r.digits :: r.behind.map .text := by
  obtain ⟨front, stretches⟩ := s
  induction stretches generalizing front cs with
  | nil =>
    rw [← h.text_eq, Splitting.text, List.flatMap_nil, List.append_nil, List.flatMap_nil,
      List.append_nil]
    exact pieces_of_runless h.runless
  | cons r rest ih =>
    obtain ⟨hr, htail⟩ := h.tail
    rw [← h.text_eq, text_cons, pieces_append _ (undigited_mark _), pieces_of_runless h.runless,
      ← List.cons_append, pieces_placeholder hr.ne_nil hr.digits (undigited_text hr.maximal rest),
      ih _ htail, List.flatMap_cons, List.cons_append]

theorem runs_eq (h : s.Splits cs) : runs cs = s.digits := by
  rw [runs, h.pieces_eq, List.filterMap_append, filterMap_text, List.nil_append, Splitting.digits]
  induction s.stretches with
  | nil => rfl
  | cons r rest ih =>
    rw [List.flatMap_cons, List.cons_append, List.filterMap_cons_some (f := Piece.run?) rfl,
      List.filterMap_append, filterMap_text, List.nil_append, ih, List.map_cons]

theorem flatMap_place (h : s.Splits cs) (base : Nat) :
    (pieces cs).flatMap (Piece.place base) = s.placed base := by
  have hrun (r : Stretch) : Piece.place base (.placeholder r.digits) ++ r.behind =
      r.placed base := by
    rw [Piece.place, Stretch.placed]
    by_cases hstray : Stray r.digits
    · rw [slotNumber?_eq_none.mpr hstray, if_pos hstray]
    · rw [slotNumber?_eq_some.mpr ⟨hstray, rfl⟩, if_neg hstray]
  rw [h.pieces_eq, List.flatMap_append, flatMap_text, List.flatMap_assoc, Splitting.placed]
  simp only [List.flatMap_cons, flatMap_text, hrun]

end Splitting.Splits

/-- The numbers in order are those of the runs that spell one. -/
theorem Splitting.numbers_eq (s : Splitting) :
    s.numbers = (s.digits.filter fun digits => ¬ Stray digits).map ofDecimalDigits := by
  unfold numbers
  induction s.digits with
  | nil => rfl
  | cons digits rest ih =>
    by_cases hstray : Stray digits
    · rw [List.filterMap_cons_none (slotNumber?_eq_none.mpr hstray), ih]
      simp [hstray]
    · rw [List.filterMap_cons_some (slotNumber?_eq_some.mpr ⟨hstray, rfl⟩), ih]
      simp [hstray]

/-- Where no run spells a number there is nothing to put in the place of one. -/
theorem Splitting.placed_of_strays (h : ∀ digits ∈ s.digits, Stray digits) (base : Nat) :
    s.placed base = s.text := by
  have hsame : ∀ r ∈ s.stretches, r.placed base = r.text := fun r hr => by
    rw [Stretch.placed, if_pos (h r.digits (List.mem_map_of_mem hr)), Stretch.text]
  rw [Splitting.placed, Splitting.text, List.flatMap_congr hsame]

/-! ### Rewriting a template -/

/-- The slots collected from the front are those of the pieces. -/
theorem scan_eq (template : String) : scan template = slots template := by
  obtain ⟨s, hs⟩ := exists_splits template.toList
  rw [scan, hs.collect_eq, slots_eq_filterMap, hs.runs_eq, Splitting.numbers]

/-- A template is rewritten as its pieces are placed, or its first slot that is no word is told. -/
theorem rewrite_eq (template : String) (base : Nat) :
    rewrite template base = match (scan template).find? fun n => 2 ^ 64 ≤ base + n with
      | some n => .error ⟨base, n⟩
      | none => .ok (place template base) := by
  obtain ⟨s, hs⟩ := exists_splits template.toList
  rw [rewrite, hs.copy_eq, scan, hs.collect_eq, place, hs.flatMap_place]
  cases s.numbers.find? fun n => decide (2 ^ 64 ≤ base + n) <;> rfl

/-- What a text is that a template is rewritten to, by the splitting of the template. -/
structure Splitting.Rewritten (s : Splitting) (template : String) (base : Nat) (text : String) :
    Prop where
  /-- The slots in order are the numbers of the runs that spell one, in order. -/
  scanned : scan template = (s.digits.filter fun digits => ¬ Stray digits).map ofDecimalDigits
  /-- The text between the runs is kept, and so is a run that spells no number; in the place of any
  other the global slot of its number stands. -/
  text_eq : text.toList = s.placed base
  /-- However the text is split, its runs are those of the template that spell no number. -/
  left : ∀ s' : Splitting, s'.Splits text.toList →
    s'.digits = s.digits.filter fun digits => Stray digits
  none : scan text = []
  /-- Rewriting changes the text no more. -/
  settled : ∀ base', rewrite text base' = .ok text
  /-- The pieces of the template give the same slots and the same text. -/
  pieces : slots template = scan template ∧ place template base = text

/-- **Rewriting a template is a substitution that happens once.** A template is split at its runs of
digits behind a `$` in one way. As long as every global slot is a word, rewriting keeps all text
between the runs and every run that spells no slot number, and puts the global slot in the place of
each run that spells one, and these are in order the slots that were collected. What is left of runs
spells no slot number. So the text refers to no local slot, and rewriting it again, from whatever
base, gives it back. -/
theorem rewrite_substitutes (template : String) (base : Nat)
    (hbase : ∀ n ∈ scan template, base + n < 2 ^ 64) :
    ∃ s : Splitting, (∀ s' : Splitting, s'.Splits template.toList ↔ s' = s) ∧
      ∃ text, rewrite template base = .ok text ∧ s.Rewritten template base text := by
  obtain ⟨s, hs⟩ := exists_splits template.toList
  have hfits : (scan template).find? (fun n => 2 ^ 64 ≤ base + n) = none := by
    rw [List.find?_eq_none]
    intro n hn
    simpa using hbase n hn
  have hrewrite : rewrite template base = .ok (place template base) := by
    rw [rewrite_eq, hfits]
  have hruns : runs (place template base).toList = s.digits.filter fun digits => Stray digits := by
    rw [runs_place, strays, hs.runs_eq]
  have hstray : ∀ digits ∈ runs (place template base).toList, Stray digits := by
    intro digits hdigits
    rw [hruns] at hdigits
    simpa using (List.mem_filter.mp hdigits).2
  obtain ⟨s', hs'⟩ := exists_splits (place template base).toList
  rw [hs'.runs_eq] at hstray
  have hnone : scan (place template base) = [] := by
    rw [scan, hs'.collect_eq, Splitting.numbers]
    exact List.filterMap_eq_nil_iff.mpr fun digits hdigits =>
      slotNumber?_eq_none.mpr (hstray digits hdigits)
  refine ⟨s, fun t => ⟨fun ht => hs.unique ht, fun ht => ht ▸ hs⟩, _, hrewrite, ?_, ?_,
    fun t ht => ht.runs_eq.symm.trans hruns, hnone, fun base' => ?_, (scan_eq template).symm, rfl⟩
  · rw [scan, hs.collect_eq, s.numbers_eq]
  · rw [place, String.toList_ofList, hs.flatMap_place]
  · rw [rewrite_eq, hnone, List.find?_nil]
    refine congrArg Except.ok (String.toList_inj.mp ?_)
    rw [place, String.toList_ofList, hs'.flatMap_place, Splitting.placed_of_strays hstray,
      hs'.text_eq]

/-- Marks side by side, a mark at the end, leading zeros, a number that is no word and digits of
another script. -/
theorem rewrite_substitutes_mixed :
    (∀ n ∈ scan "$$1$007$ $18446744073709551616$٣$2$", 9 + n < 2 ^ 64) ∧
      ∃ text, rewrite "$$1$007$ $18446744073709551616$٣$2$" 9 = .ok text ∧
        text = "$_p[10]_p[16]$ $18446744073709551616$٣_p[11]$" ∧
        scan text = [] ∧ rewrite text 4 = .ok text := by
  have hscan : scan "$$1$007$ $18446744073709551616$٣$2$" = [1, 7, 2] := by
    rw [scan_eq]
    decide +kernel
  have hbase : ∀ n ∈ scan "$$1$007$ $18446744073709551616$٣$2$", 9 + n < 2 ^ 64 := by
    rw [hscan]
    decide
  obtain ⟨s, -, text, hrewrite, h⟩ := rewrite_substitutes _ 9 hbase
  have htext : place "$$1$007$ $18446744073709551616$٣$2$" 9 =
      "$_p[10]_p[16]$ $18446744073709551616$٣_p[11]$" := by decide +kernel
  exact ⟨hbase, text, hrewrite, h.pieces.2.symm.trans htext, h.none, h.settled 4⟩

end ColorChain.Template
