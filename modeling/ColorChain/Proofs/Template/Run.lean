import ColorChain.Proofs.Decimal.Numeral
import ColorChain.Template

/-! The placeholders of a text.

A placeholder is a `$` with a run of digits behind it, and the runs of a text are those of its
parts wherever no part starts with a digit (`runs_append`). A run that spells no slot number stays
where it is when a template is placed and every other one is replaced, so what placing leaves is
just the runs of the template that spell none (`runs_place`). -/
namespace ColorChain.Template

/-- The digits of a placeholder. -/
def Piece.run? : Piece → Option (List Char)
  | .text _ => none
  | .placeholder digits => some digits

/-- The runs of digits behind a `$`, in order. -/
def runs (cs : List Char) : List (List Char) := (pieces cs).filterMap Piece.run?

/-- A run that spells no slot number: a digit of it is none of ASCII, or it is a number of more
than 64 bits. -/
def Stray (digits : List Char) : Prop :=
  digits.all Char.isDigit = false ∨ 2 ^ 64 ≤ ofDecimalDigits digits

instance (digits : List Char) : Decidable (Stray digits) :=
  inferInstanceAs (Decidable (_ ∨ _))

/-- The runs of a template that spell no slot number. -/
def strays (template : String) : List (List Char) :=
  (runs template.toList).filter fun digits => decide (Stray digits)

/-- The text does not start with a digit. -/
def Undigited (cs : List Char) : Prop := ∀ c ∈ cs.head?, Text.isDecimalDigit c = false

theorem undigited_cons {c : Char} (hc : Text.isDecimalDigit c = false) (cs : List Char) :
    Undigited (c :: cs) := by
  intro x hx
  cases hx
  exact hc

/-! ### Slot numbers -/

theorem slotNumber?_eq_some {digits : List Char} {n : Nat} :
    slotNumber? digits = some n ↔ ¬ Stray digits ∧ ofDecimalDigits digits = n := by
  unfold slotNumber? Stray
  cases digits.all Char.isDigit with
  | false => simp
  | true =>
    by_cases hlarge : ofDecimalDigits digits < 2 ^ 64
    · simp
    · simp only [if_true, if_neg hlarge, reduceCtorEq, Bool.true_eq_false, false_or, false_iff,
        not_and]
      exact fun h => absurd (Nat.not_lt.mp hlarge) h

theorem slotNumber?_eq_none {digits : List Char} : slotNumber? digits = none ↔ Stray digits := by
  by_cases hstray : Stray digits
  · simp only [hstray, iff_true]
    cases hnumber : slotNumber? digits with
    | none => rfl
    | some n => exact absurd hstray (slotNumber?_eq_some.mp hnumber).1
  · simp [hstray, slotNumber?_eq_some.mpr ⟨hstray, rfl⟩]

/-- The slots of a template are what its runs spell, in order. -/
theorem slots_eq_filterMap (template : String) :
    slots template = (runs template.toList).filterMap slotNumber? := by
  have hslot : Piece.slot? = fun p => p.run?.bind slotNumber? := by
    funext p
    cases p <;> rfl
  rw [slots, runs, hslot, List.filterMap_filterMap]

theorem mem_slots {template : String} {n : Nat} :
    n ∈ slots template ↔
      ∃ digits ∈ runs template.toList, ¬ Stray digits ∧ ofDecimalDigits digits = n := by
  rw [slots_eq_filterMap, List.mem_filterMap]
  simp only [slotNumber?_eq_some]

/-! ### Pieces that are text -/

theorem filterMap_text (cs : List Char) : (cs.map Piece.text).filterMap Piece.run? = [] := by
  rw [List.filterMap_map]
  exact List.filterMap_eq_nil_iff.mpr fun _ _ => rfl

theorem flatMap_text (base : Nat) (cs : List Char) :
    (cs.map Piece.text).flatMap (Piece.place base) = cs := by
  rw [List.flatMap_map]
  exact List.flatMap_singleton' cs

/-! ### Pieces of texts side by side -/

/-- What is read as leading digits is digits, and no digit is left in front of the rest. -/
theorem leadingDigits_spec (ps : List Piece) :
    ps = (leadingDigits ps).1.map .text ++ (leadingDigits ps).2 ∧
      (∀ c ∈ (leadingDigits ps).1, Text.isDecimalDigit c = true) ∧
      leadingDigits (leadingDigits ps).2 = ([], (leadingDigits ps).2) := by
  fun_induction leadingDigits ps with
  | case1 c rest hdigit digits after heq ih =>
    rw [heq] at ih
    obtain ⟨hrest, hdigits, hafter⟩ := ih
    refine ⟨?_, List.forall_mem_cons.mpr ⟨hdigit, hdigits⟩, hafter⟩
    rw [List.map_cons, List.cons_append]
    exact congrArg _ hrest
  | case2 c rest hdigit => simp [leadingDigits, hdigit]
  | case3 ps hps =>
    refine ⟨rfl, by simp, ?_⟩
    cases ps with
    | nil => rfl
    | cons p rest =>
      cases p with
      | text c => exact absurd rfl (hps c rest)
      | placeholder digits => rfl

theorem leadingDigits_append (ps : List Piece) {qs : List Piece}
    (h : leadingDigits qs = ([], qs)) :
    leadingDigits (ps ++ qs) = ((leadingDigits ps).1, (leadingDigits ps).2 ++ qs) := by
  induction ps with
  | nil => exact h
  | cons p rest ih =>
    cases p with
    | placeholder digits => rfl
    | text c =>
      rw [List.cons_append, leadingDigits, leadingDigits, ih]
      split <;> rfl

theorem mark_of_undigited {ps : List Piece} (h : leadingDigits ps = ([], ps)) :
    mark ps = .text '$' :: ps := by
  rw [mark, h]

theorem mark_of_digits {ps after : List Piece} {digits : List Char} (hne : digits ≠ [])
    (h : leadingDigits ps = (digits, after)) : mark ps = .placeholder digits :: after := by
  rw [mark, h]
  cases digits with
  | nil => exact absurd rfl hne
  | cons c rest => rfl

/-- There are no leading digits, or there are some and what follows starts with none. -/
theorem leadingDigits_cases (ps : List Piece) :
    leadingDigits ps = ([], ps) ∨ ∃ digits after, digits ≠ [] ∧
      leadingDigits ps = (digits, after) ∧ ps = digits.map .text ++ after ∧
      (∀ c ∈ digits, Text.isDecimalDigit c = true) ∧ leadingDigits after = ([], after) := by
  obtain ⟨hsplit, hdigits, hafter⟩ := leadingDigits_spec ps
  by_cases hnone : (leadingDigits ps).1 = []
  · rw [hnone] at hsplit
    exact .inl (Prod.ext hnone hsplit.symm)
  · exact .inr ⟨_, _, hnone, rfl, hsplit, hdigits, hafter⟩

theorem mark_append (ps : List Piece) {qs : List Piece} (h : leadingDigits qs = ([], qs)) :
    mark (ps ++ qs) = mark ps ++ qs := by
  have happend := leadingDigits_append ps h
  rcases leadingDigits_cases ps with hnone | ⟨digits, after, hne, hdigits, -⟩
  · rw [hnone] at happend
    rw [mark_of_undigited happend, mark_of_undigited hnone]
    rfl
  · rw [hdigits] at happend
    rw [mark_of_digits hne happend, mark_of_digits hne hdigits]
    rfl

theorem leadingDigits_pieces {cs : List Char} (h : Undigited cs) :
    leadingDigits (pieces cs) = ([], pieces cs) := by
  cases cs with
  | nil => rfl
  | cons c rest =>
    have hc : Text.isDecimalDigit c = false := h c rfl
    rw [pieces]
    split
    · next hmark =>
      rw [hmark] at hc
      rcases leadingDigits_cases (pieces rest) with hnone | ⟨digits, after, hne, hdigits, -⟩
      · rw [mark_of_undigited hnone, leadingDigits, hc]
        rfl
      · rw [mark_of_digits hne hdigits]
        rfl
    · rw [leadingDigits, hc]
      rfl

/-- A text's pieces end where a text starts that is no digit. -/
theorem pieces_append (cs : List Char) {after : List Char} (h : Undigited after) :
    pieces (cs ++ after) = pieces cs ++ pieces after := by
  induction cs with
  | nil => rfl
  | cons c rest ih =>
    rw [List.cons_append, pieces, pieces, ih]
    split
    · exact mark_append _ (leadingDigits_pieces h)
    · rfl

theorem runs_append (cs : List Char) {after : List Char} (h : Undigited after) :
    runs (cs ++ after) = runs cs ++ runs after := by
  rw [runs, pieces_append cs h, List.filterMap_append]
  rfl

theorem runs_append_of_notMem {cs : List Char} (h : '$' ∉ cs) (after : List Char) :
    runs (cs ++ after) = runs after := by
  rw [runs, pieces_append_of_notMem h, List.filterMap_append, filterMap_text]
  rfl

theorem runs_of_notMem {cs : List Char} (h : '$' ∉ cs) : runs cs = [] := by
  rw [← List.append_nil cs, runs_append_of_notMem h]
  rfl

/-! ### Runs behind a mark -/

theorem runs_mark_cons {cs : List Char} (h : Undigited cs) : runs ('$' :: cs) = runs cs := by
  rw [runs, pieces, if_pos rfl, mark_of_undigited (leadingDigits_pieces h)]
  rfl

theorem notMem_digits {digits : List Char}
    (hdigits : ∀ c ∈ digits, Text.isDecimalDigit c = true) : '$' ∉ digits := by
  intro hmark
  have hdollar : Text.isDecimalDigit '$' = false := by decide +kernel
  rw [hdigits _ hmark] at hdollar
  cases hdollar

theorem pieces_digits {digits : List Char} (hdigits : ∀ c ∈ digits, Text.isDecimalDigit c = true)
    (after : List Char) : pieces (digits ++ after) = digits.map .text ++ pieces after :=
  pieces_append_of_notMem (notMem_digits hdigits) after

/-- A `$` with digits behind it is a placeholder of these. -/
theorem pieces_placeholder {digits after : List Char} (hne : digits ≠ [])
    (hdigits : ∀ c ∈ digits, Text.isDecimalDigit c = true) (h : Undigited after) :
    pieces ('$' :: digits ++ after) = .placeholder digits :: pieces after := by
  have hleading : leadingDigits (pieces (digits ++ after)) = (digits, pieces after) := by
    rw [pieces_digits hdigits]
    clear hne
    induction digits with
    | nil => exact leadingDigits_pieces h
    | cons c rest ih =>
      obtain ⟨hc, hrest⟩ := List.forall_mem_cons.mp hdigits
      rw [List.map_cons, List.cons_append, leadingDigits, if_pos hc, ih hrest]
  rw [List.cons_append, pieces, if_pos rfl, mark_of_digits hne hleading]

theorem runs_placeholder {digits after : List Char} (hne : digits ≠ [])
    (hdigits : ∀ c ∈ digits, Text.isDecimalDigit c = true) (h : Undigited after) :
    runs ('$' :: digits ++ after) = digits :: runs after := by
  rw [runs, pieces_placeholder hne hdigits h]
  rfl

theorem mem_runs {cs digits : List Char} : digits ∈ runs cs ↔ .placeholder digits ∈ pieces cs := by
  rw [runs, List.mem_filterMap]
  constructor
  · rintro ⟨p, hp, hrun⟩
    cases p with
    | text c => cases hrun
    | placeholder digits' =>
      cases hrun
      exact hp
  · exact fun h => ⟨_, h, rfl⟩

/-- Every run is one of digits, at least one. -/
theorem digits_of_mem_runs {cs digits : List Char} (h : digits ∈ runs cs) :
    digits ≠ [] ∧ ∀ c ∈ digits, Text.isDecimalDigit c = true := by
  have hp := mem_runs.mp h
  clear h
  induction cs with
  | nil => cases hp
  | cons c rest ih =>
    rw [pieces] at hp
    split at hp
    · rcases leadingDigits_cases (pieces rest) with
        hnone | ⟨found, after, hne, hfound, hsplit, hall, -⟩
      · rw [mark_of_undigited hnone] at hp
        rcases List.mem_cons.mp hp with hp | hp
        · cases hp
        · exact ih hp
      · rw [mark_of_digits hne hfound] at hp
        rcases List.mem_cons.mp hp with hp | hp
        · cases hp
          exact ⟨hne, hall⟩
        · exact ih (hsplit ▸ List.mem_append_right _ hp)
    · rcases List.mem_cons.mp hp with hp | hp
      · cases hp
      · exact ih hp

/-- A text has a run just if a digit follows some `$`. -/
theorem runs_ne_nil_iff {cs : List Char} :
    runs cs ≠ [] ↔
      ∃ before c after, cs = before ++ '$' :: c :: after ∧ Text.isDecimalDigit c = true := by
  constructor
  · intro h
    obtain ⟨digits, hdigits⟩ := List.exists_mem_of_ne_nil _ h
    obtain ⟨hne, hall⟩ := digits_of_mem_runs hdigits
    obtain ⟨ps, qs, hpieces⟩ := List.append_of_mem (mem_runs.mp hdigits)
    obtain ⟨c, rest, rfl⟩ := List.exists_cons_of_ne_nil hne
    refine ⟨ps.flatMap Piece.spelling, c, rest ++ qs.flatMap Piece.spelling, ?_,
      hall c (List.mem_cons_self ..)⟩
    rw [← spelling_pieces cs, hpieces, List.flatMap_append, List.flatMap_cons]
    rfl
  · rintro ⟨before, c, after, rfl, hc⟩
    have hdollar : Undigited ('$' :: c :: after) := undigited_cons (by decide +kernel) _
    have hmark : c ≠ '$' := by
      rintro rfl
      have hdollar := hdollar '$' rfl
      rw [hc] at hdollar
      cases hdollar
    have hruns : runs ('$' :: c :: after) ≠ [] := by
      rw [runs, pieces, if_pos rfl, pieces_cons_of_ne hmark, mark, leadingDigits, if_pos hc]
      simp [Piece.run?]
    rw [runs_append before hdollar]
    simp [hruns]

/-! ### Placing -/

theorem notMem_reference (n : Nat) : '$' ∉ reference n := by
  intro h
  have hparam : '$' ∉ paramArray.toList := by decide
  simp only [reference, List.mem_append, List.mem_cons, List.not_mem_nil, or_false, hparam,
    false_or, Char.reduceEq] at h
  have hdigit := isDigit_of_mem_decimalDigits _ h
  exact absurd hdigit (by decide)

theorem undigited_place {ps : List Piece} (h : leadingDigits ps = ([], ps)) (base : Nat) :
    Undigited (ps.flatMap (Piece.place base)) := by
  cases ps with
  | nil => simp [Undigited]
  | cons p rest =>
    cases p with
    | text c =>
      intro x hx
      cases hx
      by_contra hc
      rw [Bool.not_eq_false] at hc
      rw [leadingDigits, if_pos hc] at h
      cases h
    | placeholder digits =>
      have hmark : Text.isDecimalDigit '$' = false ∧ Text.isDecimalDigit '_' = false := by
        decide +kernel
      intro x hx
      rw [List.flatMap_cons, Piece.place] at hx
      split at hx
      · cases hx
        exact hmark.2
      · cases hx
        exact hmark.1

/-- A placeholder is left by placing just if it spells no slot number. -/
theorem runs_place_cons {digits : List Char} {base : Nat} {ps : List Piece}
    (hne : digits ≠ []) (hdigits : ∀ c ∈ digits, Text.isDecimalDigit c = true)
    (hplaced : Undigited (ps.flatMap (Piece.place base))) :
    runs ((Piece.placeholder digits :: ps).flatMap (Piece.place base)) =
      [digits].filter (fun digits => decide (Stray digits)) ++
        runs (ps.flatMap (Piece.place base)) := by
  rw [List.flatMap_cons, Piece.place]
  by_cases hstray : Stray digits
  · rw [slotNumber?_eq_none.mpr hstray]
    simp only [runs_placeholder hne hdigits hplaced, hstray, decide_true, List.filter_cons_of_pos,
      List.filter_nil, List.singleton_append]
  · rw [slotNumber?_eq_some.mpr ⟨hstray, rfl⟩]
    simp only [runs_append_of_notMem (notMem_reference _), hstray, decide_false,
      Bool.false_eq_true, not_false_eq_true, List.filter_cons_of_neg, List.filter_nil,
      List.nil_append]

/-- Digits in front of pieces are part of no run, placed or not. -/
theorem runs_place_digits {digits : List Char}
    (hdigits : ∀ c ∈ digits, Text.isDecimalDigit c = true) (base : Nat) (ps : List Piece) :
    runs ((digits.map Piece.text ++ ps).flatMap (Piece.place base)) =
        runs (ps.flatMap (Piece.place base)) ∧
      (digits.map Piece.text ++ ps).filterMap Piece.run? = ps.filterMap Piece.run? := by
  refine ⟨?_, ?_⟩
  · rw [List.flatMap_append, flatMap_text, runs_append_of_notMem (notMem_digits hdigits)]
  · rw [List.filterMap_append, filterMap_text, List.nil_append]

theorem runs_place_pieces (cs : List Char) (base : Nat) :
    runs ((pieces cs).flatMap (Piece.place base)) =
      ((pieces cs).filterMap Piece.run?).filter fun digits => decide (Stray digits) := by
  induction cs with
  | nil => rfl
  | cons c rest ih =>
    by_cases hc : c = '$'
    · subst hc
      have hpieces : pieces ('$' :: rest) = mark (pieces rest) := by rw [pieces, if_pos rfl]
      rcases leadingDigits_cases (pieces rest) with
        hnone | ⟨digits, after, hne, hleading, hsplit, hdigits, hafter⟩
      · rw [hpieces, mark_of_undigited hnone]
        exact (runs_mark_cons (undigited_place hnone base)).trans ih
      · -- The digits are read as text by the induction hypothesis, and as a run here.
        obtain ⟨hplaced, hruns⟩ := runs_place_digits hdigits base after
        rw [hsplit, hplaced, hruns] at ih
        rw [hpieces, mark_of_digits hne hleading,
          runs_place_cons hne hdigits (undigited_place hafter base), ih, ← List.filter_append]
        rfl
    · have hchar : '$' ∉ [c] := by simpa using Ne.symm hc
      rw [pieces_cons_of_ne hc]
      exact (runs_append_of_notMem hchar _).trans ih

/-- **Placing leaves the runs that spell no slot number**, and no others. -/
theorem runs_place (template : String) (base : Nat) :
    runs (place template base).toList = strays template := by
  rw [place, String.toList_ofList]
  exact runs_place_pieces template.toList base

end ColorChain.Template
