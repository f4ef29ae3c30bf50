import ColorChain.Text

/-! Cutting and joining are inverse.

Each cut is determined by what it leaves: the first mark has no mark before it
(`splitFirst_eq_some`), a last mark has nothing after it (`beforeLast?_eq_some`), and the
pieces between the marks are the only pieces without a mark that join to the text
(`splitAll_eq`). The lines of a text are a row of which every line stands in front of a line end,
but for the last, which may end with the text (`lined_lines`). -/
namespace ColorChain.Text

variable {mark : Char} {s before after : List Char} {pieces : List (List Char)}

/-! ### Ends -/

theorem trimEnd_append_of_pos {p : Char → Bool} {c : Char} (h : p c = true) (s : List Char) :
    trimEnd p (s ++ [c]) = trimEnd p s := by
  simp [trimEnd, h]

theorem trimEnd_append_of_neg {p : Char → Bool} {c : Char} (h : p c = false) (s : List Char) :
    trimEnd p (s ++ [c]) = s ++ [c] := by
  simp [trimEnd, h]

theorem mem_of_mem_trimEnd {p : Char → Bool} {c : Char} (h : c ∈ trimEnd p s) : c ∈ s := by
  rw [trimEnd, List.mem_reverse] at h
  exact List.mem_reverse.mp ((List.dropWhile_sublist p).subset h)

/-! ### The first mark -/

theorem splitFirst_append (h : mark ∉ before) (after : List Char) :
    splitFirst mark (before ++ mark :: after) = some (before, after) := by
  induction before with
  | nil => simp [splitFirst]
  | cons c rest ih =>
    rw [List.mem_cons, not_or] at h
    simp [splitFirst, Ne.symm h.1, ih h.2]

theorem splitFirst_eq_none : splitFirst mark s = none ↔ mark ∉ s := by
  induction s with
  | nil => simp [splitFirst]
  | cons c rest ih =>
    by_cases hc : c = mark
    · simp [splitFirst, hc]
    · simp [splitFirst, hc, ih, Ne.symm hc]

theorem splitFirst_eq_some :
    splitFirst mark s = some (before, after) ↔ s = before ++ mark :: after ∧ mark ∉ before := by
  constructor
  · intro h
    induction s generalizing before with
    | nil => cases h
    | cons c rest ih =>
      by_cases hc : c = mark
      · rw [splitFirst, if_pos hc] at h
        cases h
        simp [hc]
      · rw [splitFirst, if_neg hc, Option.map_eq_some_iff] at h
        obtain ⟨⟨front, back⟩, hsplit, heq⟩ := h
        cases heq
        obtain ⟨rfl, hfront⟩ := ih hsplit
        exact ⟨rfl, by simp [Ne.symm hc, hfront]⟩
  · rintro ⟨rfl, h⟩
    exact splitFirst_append h after

/-! ### A last mark -/

theorem beforeLast?_append (before : List Char) :
    beforeLast? mark (before ++ [mark]) = some before := by
  simp [beforeLast?]

theorem beforeLast?_eq_some : beforeLast? mark s = some before ↔ s = before ++ [mark] := by
  constructor
  · intro h
    unfold beforeLast? at h
    split at h
    · rename_i hlast
      obtain ⟨front, rfl⟩ := List.getLast?_eq_some_iff.mp hlast
      cases h
      rw [List.dropLast_concat]
    · cases h
  · rintro rfl
    exact beforeLast?_append before

theorem beforeLast?_eq_none : beforeLast? mark s = none ↔ s.getLast? ≠ some mark := by
  simp [beforeLast?]

/-! ### All marks -/

theorem splitAll_ne_nil : splitAll mark s ≠ [] := by
  cases s with
  | nil => simp [splitAll]
  | cons c rest =>
    unfold splitAll
    split
    · simp
    · split <;> simp

/-- A piece without a mark is cut off whole. -/
theorem splitAll_append (h : mark ∉ before) (after : List Char) :
    splitAll mark (before ++ mark :: after) = before :: splitAll mark after := by
  induction before with
  | nil => simp [splitAll]
  | cons c rest ih =>
    rw [List.mem_cons, not_or] at h
    simp [splitAll, Ne.symm h.1, ih h.2]

theorem splitAll_of_notMem (h : mark ∉ s) : splitAll mark s = [s] := by
  induction s with
  | nil => rfl
  | cons c rest ih =>
    rw [List.mem_cons, not_or] at h
    simp [splitAll, Ne.symm h.1, ih h.2]

theorem notMem_of_mem_splitAll : ∀ piece ∈ splitAll mark s, mark ∉ piece := by
  induction s with
  | nil => simp [splitAll]
  | cons c rest ih =>
    unfold splitAll
    split
    · simpa using ih
    · rename_i hc
      split
      · simpa using Ne.symm hc
      · rename_i piece pieces hsplit
        rw [hsplit, List.forall_mem_cons] at ih
        rw [List.forall_mem_cons]
        exact ⟨by simp [Ne.symm hc, ih.1], ih.2⟩

theorem join_splitAll (mark : Char) (s : List Char) : join mark (splitAll mark s) = s := by
  induction s with
  | nil => rfl
  | cons c rest ih =>
    unfold splitAll
    split
    · rename_i hc
      cases hsplit : splitAll mark rest with
      | nil => exact absurd hsplit splitAll_ne_nil
      | cons piece pieces =>
        rw [hsplit] at ih
        simp [join, ih, hc]
    · split
      · rename_i hsplit
        exact absurd hsplit splitAll_ne_nil
      · rename_i piece pieces hsplit
        rw [hsplit] at ih
        cases pieces with
        | nil => simpa [join] using ih
        | cons => simpa [join] using ih

theorem splitAll_join (hne : pieces ≠ []) (h : ∀ piece ∈ pieces, mark ∉ piece) :
    splitAll mark (join mark pieces) = pieces := by
  induction pieces with
  | nil => exact absurd rfl hne
  | cons piece rest ih =>
    obtain ⟨hpiece, hrest⟩ := List.forall_mem_cons.mp h
    cases rest with
    | nil => exact splitAll_of_notMem hpiece
    | cons next more =>
      rw [join, splitAll_append hpiece, ih (by simp) hrest]
      simp

/-- The pieces are the only ones without a mark that join to the text. -/
theorem splitAll_eq :
    splitAll mark s = pieces ↔
      pieces ≠ [] ∧ s = join mark pieces ∧ ∀ piece ∈ pieces, mark ∉ piece := by
  constructor
  · rintro rfl
    exact ⟨splitAll_ne_nil, (join_splitAll mark s).symm, notMem_of_mem_splitAll⟩
  · rintro ⟨hne, rfl, h⟩
    exact splitAll_join hne h

theorem mem_join {c : Char} (h : c ∈ join mark pieces) :
    c = mark ∨ ∃ piece ∈ pieces, c ∈ piece := by
  induction pieces with
  | nil => cases h
  | cons piece rest ih =>
    cases rest with
    | nil => exact .inr ⟨piece, List.mem_cons_self, h⟩
    | cons next more =>
      have hjoin : join mark (piece :: next :: more) = piece ++ mark :: join mark (next :: more) :=
        rfl
      rw [hjoin, List.mem_append, List.mem_cons] at h
      rcases h with h | h | h
      · exact .inr ⟨piece, List.mem_cons_self, h⟩
      · exact .inl h
      · rcases ih h with h | ⟨other, hother, h⟩
        · exact .inl h
        · exact .inr ⟨other, List.mem_cons_of_mem _ hother, h⟩

/-- Pieces that are not empty join to a text that is not. -/
theorem join_ne_nil (hne : pieces ≠ []) (h : ∀ piece ∈ pieces, piece ≠ []) :
    join mark pieces ≠ [] := by
  cases pieces with
  | nil => exact absurd rfl hne
  | cons piece rest =>
    have hpiece := h piece List.mem_cons_self
    cases rest with
    | nil => exact hpiece
    | cons next more => simp [join]

/-! ### A mark after every piece -/

/-- The pieces, each with a mark after it. -/
def closeAll (mark : Char) (pieces : List (List Char)) : List Char :=
  pieces.flatMap fun piece => piece ++ [mark]

theorem closeAll_cons (piece : List Char) :
    closeAll mark (piece :: pieces) = piece ++ mark :: closeAll mark pieces := by
  simp [closeAll]

theorem closeAll_eq_join (hne : pieces ≠ []) :
    closeAll mark pieces = join mark pieces ++ [mark] := by
  induction pieces with
  | nil => exact absurd rfl hne
  | cons piece rest ih =>
    cases rest with
    | nil => simp [closeAll, join]
    | cons next more =>
      have hjoin : join mark (piece :: next :: more) = piece ++ mark :: join mark (next :: more) :=
        rfl
      rw [closeAll_cons, ih (by simp), hjoin, List.append_assoc]
      rfl

theorem mem_closeAll {c : Char} (h : c ∈ closeAll mark pieces) :
    c = mark ∨ ∃ piece ∈ pieces, c ∈ piece := by
  obtain ⟨piece, hpiece, hc⟩ := List.mem_flatMap.mp h
  rcases List.mem_append.mp hc with hc | hc
  · exact .inr ⟨piece, hpiece, hc⟩
  · exact .inl (List.mem_singleton.mp hc)

/-- A text that ends in a mark is a row of closed pieces. -/
theorem closeAll_splitAll (mark : Char) (s : List Char) :
    closeAll mark (splitAll mark s) = s ++ [mark] := by
  rw [closeAll_eq_join splitAll_ne_nil, join_splitAll]

/-! ### Lines -/

/-- The rows are the lines of the text. A carriage return in front of a line feed is of the line
end. -/
inductive Lined : List Char → List (List Char) → Prop
  | nil : Lined [] []
  | last {line} (hne : line ≠ []) (h : '\n' ∉ line) : Lined line [line]
  | feed {line rest rows} (h : '\n' ∉ line) (hreturn : line.getLast? ≠ some '\r')
      (hrest : Lined rest rows) : Lined (line ++ '\n' :: rest) (line :: rows)
  | returnFeed {line rest rows} (h : '\n' ∉ line) (hrest : Lined rest rows) :
      Lined (line ++ '\r' :: '\n' :: rest) (line :: rows)

theorem lines_of_notMem (hne : s ≠ []) (h : '\n' ∉ s) : lines s = [s] := by
  rw [lines, splitAll_of_notMem h]
  cases s with
  | nil => exact absurd rfl hne
  | cons c rest => rfl

/-- A line that ends is cut off. -/
theorem lines_append (h : '\n' ∉ before) (after : List Char) :
    lines (before ++ '\n' :: after) =
      (beforeLast? '\r' before).getD before :: lines after := by
  have hsplit := splitAll_append h after
  have hne : splitAll '\n' after ≠ [] := splitAll_ne_nil
  rw [lines, lines, hsplit]
  generalize splitAll '\n' after = pieces at hne
  cases hlast : pieces.getLast? with
  | none => exact absurd (List.getLast?_eq_none_iff.mp hlast) hne
  | some last =>
    simp only [List.dropLast_cons_of_ne_nil hne, List.getLast?_cons, hlast, Option.getD_some,
      List.map_cons]
    cases last with
    | nil => rfl
    | cons c rest => rfl

/-- **Every text is the row of its lines**, each with its line end. -/
theorem lined_lines (s : List Char) : Lined s (lines s) := by
  obtain ⟨pieces, hpieces⟩ : ∃ pieces, splitAll '\n' s = pieces := ⟨_, rfl⟩
  obtain ⟨hne, rfl, hfree⟩ := splitAll_eq.mp hpieces
  clear hpieces
  induction pieces with
  | nil => exact absurd rfl hne
  | cons piece rest ih =>
    obtain ⟨hpiece, hrest⟩ := List.forall_mem_cons.mp hfree
    cases rest with
    | nil =>
      show Lined piece (lines piece)
      by_cases hnil : piece = []
      · subst hnil
        exact .nil
      · rw [lines_of_notMem hnil hpiece]
        exact .last hnil hpiece
    | cons next more =>
      have hjoin : join '\n' (piece :: next :: more) = piece ++ '\n' :: join '\n' (next :: more) :=
        rfl
      have hlined := ih (List.cons_ne_nil _ _) hrest
      rw [hjoin, lines_append hpiece]
      cases hreturn : beforeLast? '\r' piece with
      | none => exact .feed hpiece (beforeLast?_eq_none.mp hreturn) hlined
      | some line =>
        obtain rfl := beforeLast?_eq_some.mp hreturn
        rw [List.append_assoc]
        exact .returnFeed (fun hmem => hpiece (List.mem_append_left _ hmem)) hlined

end ColorChain.Text
