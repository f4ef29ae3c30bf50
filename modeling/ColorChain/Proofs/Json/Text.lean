import ColorChain.Json.Reader
import ColorChain.Proofs.Json.Fields
import ColorChain.Proofs.Json.Numeral

/-! JSON text that is read back.

Whatever the strings of a value are, its text is read as the value with its numbers as their texts
are read and the fields of every object sorted (`parse?_render`), if the numbers are read at all and
the value is not nested deeper than the reader goes. -/
namespace ColorChain.Json

/-! ### Strings -/

/-- A string with one more character in front. -/
def withFront (c : Char) (part : List Char × List Char) : List Char × List Char :=
  (c :: part.1, part.2)

theorem string?_letter {c letter : Char} (h : Reader.escaped? letter = some c) (hu : letter ≠ 'u')
    (s : List Char) :
    Reader.string? ('\\' :: letter :: s) = (Reader.string? s).map (withFront c) := by
  rw [Reader.string?]
  · rw [h]
    cases Reader.string? s <;> rfl
  · intro a b c d rest heq
    exact absurd heq hu

theorem hexWord?_control : ∀ n < 32,
    Reader.hexWord? '0' '0' (Nat.digitChar (n / 16)) (Nat.digitChar (n % 16)) = some n := by
  decide

theorem string?_control {c : Char} (h : c.toNat < 32) (s : List Char) :
    Reader.string? ('\\' :: 'u' :: '0' :: '0' :: Nat.digitChar (c.toNat / 16) ::
      Nat.digitChar (c.toNat % 16) :: s) = (Reader.string? s).map (withFront c) := by
  have hlow : Reader.isLowSurrogate c.toNat = false := by
    simp only [Reader.isLowSurrogate, Bool.and_eq_false_imp, decide_eq_true_eq,
      decide_eq_false_iff_not]
    omega
  have hhigh : Reader.isHighSurrogate c.toNat = false := by
    simp only [Reader.isHighSurrogate, Bool.and_eq_false_imp, decide_eq_true_eq,
      decide_eq_false_iff_not]
    omega
  rw [Reader.string?, hexWord?_control _ h]
  simp only [Option.bind_eq_bind, Option.bind_some, hlow, hhigh, Bool.false_eq_true, if_false,
    Char.ofNat_toNat]
  cases Reader.string? s <;> rfl

theorem string?_plain {c : Char} (hquote : c ≠ '"') (hslash : c ≠ '\\') (h : ¬ c.toNat < 32)
    (s : List Char) :
    Reader.string? (c :: s) = (Reader.string? s).map (withFront c) := by
  rw [Reader.string?]
  · simp only [h, hslash, decide_false, Bool.or_false, Bool.false_eq_true, if_false]
    cases Reader.string? s <;> rfl
  · exact hquote
  · intro a b c d rest heq
    exact absurd heq hslash
  · intro d rest heq
    exact absurd heq hslash

/-- A character of a string is read back from its escape. -/
theorem string?_escape (c : Char) (s : List Char) :
    Reader.string? (escape c ++ s) = (Reader.string? s).map (withFront c) := by
  unfold escape
  split
  · next h =>
    subst h
    exact @string?_letter '"' '"' rfl (by decide) s
  split
  · next h =>
    subst h
    exact @string?_letter '\\' '\\' rfl (by decide) s
  split
  · next h =>
    subst h
    exact @string?_letter '\n' 'n' rfl (by decide) s
  split
  · next h =>
    subst h
    exact @string?_letter '\r' 'r' rfl (by decide) s
  split
  · next h =>
    subst h
    exact @string?_letter '\t' 't' rfl (by decide) s
  split
  · next h =>
    subst h
    exact @string?_letter (Char.ofNat 8) 'b' rfl (by decide) s
  split
  · next h =>
    subst h
    exact @string?_letter (Char.ofNat 12) 'f' rfl (by decide) s
  split
  · next h => exact string?_control h s
  · next hquote hslash _ _ _ _ _ h => exact string?_plain hquote hslash h s

/-- A string is read back up to its closing quote. -/
theorem string?_quoted (s rest : List Char) :
    Reader.string? (s.flatMap escape ++ '"' :: rest) = some (s, rest) := by
  induction s with
  | nil => rw [List.flatMap_nil, List.nil_append, Reader.string?]
  | cons c s ih =>
    rw [List.flatMap_cons, List.append_assoc, string?_escape, ih]
    rfl

/-! ### Values -/

mutual

/-- The value as its text is read: every number as its own text is, and the fields of every object
sorted. -/
def reread : Json → Json
  | .number n => .number n.reread
  | .array items => .array (rereadItems items)
  | .object fields => .object (Fields.ofEntries (rereadFields fields))
  | j => j

def rereadItems : List Json → List Json
  | [] => []
  | item :: rest => item.reread :: rereadItems rest

def rereadFields : List (String × Json) → List (String × Json)
  | [] => []
  | (key, value) :: rest => (key, value.reread) :: rereadFields rest

end

mutual

/-- How deep arrays and objects are nested. -/
def depth : Json → Nat
  | .array items => itemsDepth items + 1
  | .object fields => fieldsDepth fields + 1
  | _ => 0

def itemsDepth : List Json → Nat
  | [] => 0
  | item :: rest => max item.depth (itemsDepth rest)

def fieldsDepth : List (String × Json) → Nat
  | [] => 0
  | (_, value) :: rest => max value.depth (fieldsDepth rest)

end

mutual

/-- The texts of the value's numbers are read as numbers. -/
def Legible : Json → Prop
  | .number n => n.read? = some n.reread
  | .array items => LegibleItems items
  | .object fields => LegibleFields fields
  | _ => True

def LegibleItems : List Json → Prop
  | [] => True
  | item :: rest => item.Legible ∧ LegibleItems rest

def LegibleFields : List (String × Json) → Prop
  | [] => True
  | (_, value) :: rest => value.Legible ∧ LegibleFields rest

end

theorem rereadItems_eq_map (items : List Json) : rereadItems items = items.map reread := by
  induction items with
  | nil => rfl
  | cons item rest ih => rw [rereadItems, ih, List.map_cons]

theorem rereadFields_eq_map (fields : Fields) :
    rereadFields fields = fields.map fun field => (field.1, field.2.reread) := by
  induction fields with
  | nil => rfl
  | cons field rest ih => rw [rereadFields, ih, List.map_cons]

theorem itemsDepth_le {items : List Json} {n : Nat} (h : ∀ item ∈ items, item.depth ≤ n) :
    itemsDepth items ≤ n := by
  induction items with
  | nil => exact Nat.zero_le n
  | cons item rest ih =>
    obtain ⟨hitem, hrest⟩ := List.forall_mem_cons.mp h
    exact max_le hitem (ih hrest)

theorem fieldsDepth_le {fields : Fields} {n : Nat} (h : ∀ field ∈ fields, field.2.depth ≤ n) :
    fieldsDepth fields ≤ n := by
  induction fields with
  | nil => exact Nat.zero_le n
  | cons field rest ih =>
    obtain ⟨hfield, hrest⟩ := List.forall_mem_cons.mp h
    exact max_le hfield (ih hrest)

theorem legibleItems_of_forall {items : List Json} (h : ∀ item ∈ items, item.Legible) :
    LegibleItems items := by
  induction items with
  | nil => trivial
  | cons item rest ih =>
    obtain ⟨hitem, hrest⟩ := List.forall_mem_cons.mp h
    exact ⟨hitem, ih hrest⟩

theorem legibleFields_of_forall {fields : Fields} (h : ∀ field ∈ fields, field.2.Legible) :
    LegibleFields fields := by
  induction fields with
  | nil => trivial
  | cons field rest ih =>
    obtain ⟨hfield, hrest⟩ := List.forall_mem_cons.mp h
    exact ⟨hfield, ih hrest⟩

theorem Fields.Sorted.rereadFields {fields : Fields} (h : fields.Sorted) :
    Fields.Sorted (rereadFields fields) := by
  rw [rereadFields_eq_map]
  exact List.pairwise_map.mpr h

/-- A look-up gives what the value is read as. -/
theorem get?_rereadFields (fields : Fields) (key : String) :
    Fields.get? (rereadFields fields) key = (fields.get? key).map reread := by
  induction fields with
  | nil => rfl
  | cons field rest ih =>
    rw [rereadFields, Fields.get?_cons, Fields.get?_cons, ih]
    split <;> rfl

/-! ### Reading values -/

/-- The characters that a value starts with. -/
def Starts (c : Char) : Prop := c = '-' ∨ c.isDigit = true ∨ c ∈ ['n', 't', 'f', '"', '[', '\x7b']

instance (c : Char) : Decidable (Starts c) := inferInstanceAs (Decidable (_ ∨ _ ∨ _))

theorem Starts.ne {c d : Char} (h : Starts c)
    (hd : d ∉ ['-', 'n', 't', 'f', '"', '[', '\x7b'] ∧ d.isDigit = false) : c ≠ d := by
  rintro rfl
  rcases h with h | h | h
  · exact hd.1 (by simp [h])
  · rw [hd.2] at h
    cases h
  · exact hd.1 (List.mem_cons_of_mem _ h)

theorem skipBlanks_of_starts {c : Char} (h : Starts c) (s : List Char) :
    Reader.skipBlanks (c :: s) = c :: s := by
  have hspace : c ≠ ' ' := h.ne (by decide)
  have hline : c ≠ '\n' := h.ne (by decide)
  have htab : c ≠ '\t' := h.ne (by decide)
  have hreturn : c ≠ '\r' := h.ne (by decide)
  simp [Reader.skipBlanks, hspace, hline, htab, hreturn]

theorem text_starts {j : Json} (h : j.Legible) : ∃ c s, j.text = c :: s ∧ Starts c := by
  cases j with
  | null => exact ⟨'n', _, rfl, by decide⟩
  | bool b =>
    cases b
    · exact ⟨'f', _, rfl, by decide⟩
    · exact ⟨'t', _, rfl, by decide⟩
  | number n =>
    obtain ⟨part, hscan, -⟩ :=
      Option.bind_eq_some_iff.mp (show n.read? = some n.reread from h)
    obtain ⟨c, s, htext, hc⟩ := Numeral.head_of_scan? hscan
    exact ⟨c, s, htext, hc.elim .inl fun hc => .inr (.inl hc)⟩
  | string t => exact ⟨'"', _, rfl, by decide⟩
  | array items => exact ⟨'[', _, rfl, by decide⟩
  | object fields => exact ⟨'\x7b', _, rfl, by decide⟩

variable {fuel depth : Nat} {rest : List Char}

theorem value?_number {n m : JsonNumber} (h : n.read? = some m) (hrest : Ends rest) :
    Reader.value? (fuel + 1) depth (numberText n ++ rest) = some (.number m, rest) := by
  obtain ⟨numeral, hscan, hvalue⟩ := JsonNumber.scan_of_read? h hrest
  obtain ⟨c, s, htext, hc⟩ := Numeral.head_of_scan? hscan
  have hne {d : Char} (hd : d ≠ '-' ∧ d.isDigit = false) {t : List Char} : c :: s ≠ d :: t := by
    intro heq
    rw [(List.cons.inj heq).1] at hc
    rcases hc with hc | hc
    · exact hd.1 hc
    · rw [hd.2] at hc
      cases hc
  have hskip : Reader.skipBlanks (c :: s) = c :: s :=
    skipBlanks_of_starts (hc.elim .inl fun hc => .inr (.inl hc)) s
  rw [htext] at hscan
  rw [htext, Reader.value?, hskip]
  split
  · next heq => exact absurd heq (hne (by decide))
  · next heq => exact absurd heq (hne (by decide))
  · next heq => exact absurd heq (hne (by decide))
  · next heq => exact absurd heq (hne (by decide))
  · next heq => exact absurd heq (hne (by decide))
  · next heq => exact absurd heq (hne (by decide))
  · rw [hscan]
    simp only [Option.bind_eq_bind, Option.bind_some, hvalue]
    rfl

theorem quote_append (t : String) (s : List Char) :
    quote t ++ s = '"' :: (t.toList.flatMap escape ++ '"' :: s) := by
  simp [quote]

theorem value?_string (t : String) :
    Reader.value? (fuel + 1) depth (quote t ++ rest) = some (.string t, rest) := by
  rw [quote_append, Reader.value?, skipBlanks_of_starts (by decide)]
  simp only [string?_quoted, Option.bind_eq_bind, Option.bind_some, String.ofList_toList]
  rfl

theorem value?_array {c : Char} {s : List Char} {items : List Json} (hc : Starts c)
    (h : Reader.items? fuel depth (c :: s) = some (items, rest)) :
    Reader.value? (fuel + 1) (depth + 1) ('[' :: c :: s) = some (.array items, rest) := by
  have hend : c ≠ ']' := hc.ne (by decide)
  rw [Reader.value?, skipBlanks_of_starts (by decide)]
  simp only [skipBlanks_of_starts hc]
  split
  · next heq => exact absurd (List.cons.inj heq).1 hend
  · rw [h]
    rfl

theorem value?_object {s : List Char} {entries : List (String × Json)}
    (h : Reader.entries? fuel depth ('"' :: s) = some (entries, rest)) :
    Reader.value? (fuel + 1) (depth + 1) ('\x7b' :: '"' :: s) =
      some (.object (Fields.ofEntries entries), rest) := by
  have hquote : Reader.skipBlanks ('"' :: s) = '"' :: s := skipBlanks_of_starts (by decide) s
  rw [Reader.value?, skipBlanks_of_starts (by decide)]
  simp only [hquote]
  split
  · next heq => cases heq
  · rw [h]
    rfl

theorem items?_last {s : List Char} {item : Json}
    (h : Reader.value? fuel depth s = some (item, ']' :: rest)) :
    Reader.items? (fuel + 1) depth s = some ([item], rest) := by
  rw [Reader.items?, h]
  rfl

theorem items?_more {s tail : List Char} {item : Json} {items : List Json}
    (h : Reader.value? fuel depth s = some (item, ',' :: tail))
    (htail : Reader.items? fuel depth tail = some (items, rest)) :
    Reader.items? (fuel + 1) depth s = some (item :: items, rest) := by
  have hcomma : Reader.skipBlanks (',' :: tail) = ',' :: tail := rfl
  rw [Reader.items?, h]
  simp only [Option.bind_eq_bind, Option.bind_some, hcomma, htail]
  rfl

theorem entries?_last {key : String} {s : List Char} {value : Json}
    (h : Reader.value? fuel depth s = some (value, '\x7d' :: rest)) :
    Reader.entries? (fuel + 1) depth (quote key ++ ':' :: s) = some ([(key, value)], rest) := by
  have hcolon : Reader.skipBlanks (':' :: s) = ':' :: s := rfl
  have hbrace : Reader.skipBlanks ('\x7d' :: rest) = '\x7d' :: rest := rfl
  rw [quote_append, Reader.entries?, skipBlanks_of_starts (by decide)]
  simp only [string?_quoted, Option.bind_eq_bind, Option.bind_some, hcolon, h, hbrace,
    String.ofList_toList]
  rfl

theorem entries?_more {key : String} {s tail : List Char} {value : Json}
    {entries : List (String × Json)}
    (h : Reader.value? fuel depth s = some (value, ',' :: tail))
    (htail : Reader.entries? fuel depth tail = some (entries, rest)) :
    Reader.entries? (fuel + 1) depth (quote key ++ ':' :: s) =
      some ((key, value) :: entries, rest) := by
  have hcolon : Reader.skipBlanks (':' :: s) = ':' :: s := rfl
  have hcomma : Reader.skipBlanks (',' :: tail) = ',' :: tail := rfl
  rw [quote_append, Reader.entries?, skipBlanks_of_starts (by decide)]
  simp only [string?_quoted, Option.bind_eq_bind, Option.bind_some, hcolon, h, hcomma, htail,
    String.ofList_toList]
  rfl

theorem itemsText_more (item next : Json) (items : List Json) :
    itemsText (item :: next :: items) = item.text ++ ',' :: itemsText (next :: items) := by
  rw [itemsText]
  simp

theorem fieldsText_more (key : String) (value : Json) (next : String × Json) (fields : Fields) :
    fieldsText ((key, value) :: next :: fields) =
      quote key ++ ':' :: (value.text ++ ',' :: fieldsText (next :: fields)) := by
  rw [fieldsText]
  · rw [List.append_assoc, List.cons_append]
  · simp

theorem itemsText_starts {item : Json} {items : List Json} (h : item.Legible) :
    ∃ c t, itemsText (item :: items) = c :: t ∧ Starts c := by
  obtain ⟨c, t, htext, hc⟩ := text_starts h
  cases items with
  | nil => exact ⟨c, t, htext, hc⟩
  | cons next items =>
    rw [itemsText_more, htext]
    exact ⟨c, _, rfl, hc⟩

theorem fieldsText_starts (field : String × Json) (fields : Fields) :
    ∃ t, fieldsText (field :: fields) = '"' :: t := by
  obtain ⟨key, value⟩ := field
  cases fields with
  | nil => exact ⟨_, quote_append key _⟩
  | cons next fields =>
    rw [fieldsText_more]
    exact ⟨_, quote_append key _⟩

mutual

/-- A value is read back up to where it ends. Every level of nesting takes two calls, and two
characters for its brackets, so twice the length is fuel enough. -/
theorem value?_text (j : Json) (h : j.Legible) {fuel depth : Nat} {rest : List Char}
    (hdepth : j.depth ≤ depth) (hfuel : 2 * j.text.length ≤ fuel) (hrest : Ends rest) :
    Reader.value? fuel depth (j.text ++ rest) = some (j.reread, rest) := by
  obtain ⟨c, s, htext, -⟩ := text_starts h
  have hpos : 0 < j.text.length := by rw [htext]; exact Nat.succ_pos _
  obtain ⟨fuel, rfl⟩ : ∃ n, fuel = n + 1 := ⟨fuel - 1, by omega⟩
  cases j with
  | null => rfl
  | bool b => cases b <;> rfl
  | number n => exact value?_number h hrest
  | string t => exact value?_string t
  | array items =>
    obtain ⟨depth, rfl⟩ : ∃ n, depth = n + 1 := ⟨depth - 1, by rw [Json.depth] at hdepth; omega⟩
    rw [Json.depth] at hdepth
    rw [text, List.cons_append, List.cons_append, List.append_assoc, List.singleton_append]
    cases items with
    | nil => rfl
    | cons item items =>
      have hlen : 2 * (itemsText (item :: items)).length + 1 ≤ fuel := by
        simp only [text, List.length_append, List.length_cons, List.length_nil] at hfuel
        omega
      have hitems : Reader.items? fuel depth (itemsText (item :: items) ++ ']' :: rest) =
          some (rereadItems (item :: items), rest) :=
        items?_text (item :: items) (by simp) h (by omega) hlen
      obtain ⟨c, t, htext, hc⟩ := @itemsText_starts item items h.1
      rw [htext] at hitems ⊢
      exact value?_array hc hitems
  | object fields =>
    obtain ⟨depth, rfl⟩ : ∃ n, depth = n + 1 := ⟨depth - 1, by rw [Json.depth] at hdepth; omega⟩
    rw [Json.depth] at hdepth
    rw [text, List.cons_append, List.cons_append, List.append_assoc, List.singleton_append]
    cases fields with
    | nil => rfl
    | cons field fields =>
      have hlen : 2 * (fieldsText (field :: fields)).length + 1 ≤ fuel := by
        simp only [text, List.length_append, List.length_cons, List.length_nil] at hfuel
        omega
      have hentries : Reader.entries? fuel depth (fieldsText (field :: fields) ++ '\x7d' :: rest) =
          some (rereadFields (field :: fields), rest) :=
        entries?_text (field :: fields) (by simp) h (by omega) hlen
      obtain ⟨t, htext⟩ := fieldsText_starts field fields
      rw [htext] at hentries ⊢
      exact value?_object hentries

theorem items?_text (items : List Json) (hne : items ≠ []) (h : LegibleItems items)
    {fuel depth : Nat} {rest : List Char} (hdepth : itemsDepth items ≤ depth)
    (hfuel : 2 * (itemsText items).length + 1 ≤ fuel) :
    Reader.items? fuel depth (itemsText items ++ ']' :: rest) = some (rereadItems items, rest) := by
  obtain ⟨fuel, rfl⟩ : ∃ n, fuel = n + 1 := ⟨fuel - 1, by omega⟩
  match items with
  | [] => exact absurd rfl hne
  | [item] =>
    rw [itemsDepth] at hdepth
    rw [itemsText] at hfuel
    exact items?_last (value?_text item h.1 (by omega) (by omega) (by simp [Ends]))
  | item :: next :: items =>
    rw [itemsDepth] at hdepth
    rw [itemsText_more, List.length_append, List.length_cons] at hfuel
    rw [itemsText_more, List.append_assoc, List.cons_append]
    refine items?_more (value?_text item h.1 (by omega) (by omega) (by simp [Ends])) ?_
    exact items?_text (next :: items) (by simp) h.2 (by omega) (by omega)

theorem entries?_text (fields : Fields) (hne : fields ≠ []) (h : LegibleFields fields)
    {fuel depth : Nat} {rest : List Char} (hdepth : fieldsDepth fields ≤ depth)
    (hfuel : 2 * (fieldsText fields).length + 1 ≤ fuel) :
    Reader.entries? fuel depth (fieldsText fields ++ '\x7d' :: rest) =
      some (rereadFields fields, rest) := by
  obtain ⟨fuel, rfl⟩ : ∃ n, fuel = n + 1 := ⟨fuel - 1, by omega⟩
  match fields with
  | [] => exact absurd rfl hne
  | [(key, value)] =>
    rw [fieldsDepth] at hdepth
    rw [fieldsText, List.length_append, List.length_cons] at hfuel
    rw [fieldsText, List.append_assoc, List.cons_append]
    exact entries?_last (value?_text value h.1 (by omega) (by omega) (by simp [Ends]))
  | (key, value) :: next :: fields =>
    rw [fieldsDepth] at hdepth
    rw [fieldsText_more, List.length_append, List.length_cons, List.length_append, List.length_cons]
      at hfuel
    rw [fieldsText_more, List.append_assoc, List.cons_append, List.append_assoc, List.cons_append]
    refine entries?_more (value?_text value h.1 (by omega) (by omega) (by simp [Ends])) ?_
    exact entries?_text (next :: fields) (by simp) h.2 (by omega) (by omega)

end

/-- **The text of a value is read as the value**, with its numbers as they are read and the fields
of its objects sorted. -/
theorem parse?_render {j : Json} (h : j.Legible) (hdepth : j.depth ≤ Reader.maxDepth) :
    parse? j.render = some j.reread := by
  have hvalue : Reader.value? (2 * j.text.length + 2) Reader.maxDepth (j.text ++ []) =
      some (j.reread, []) := value?_text j h hdepth (Nat.le_add_right _ 2) (by simp [Ends])
  rw [List.append_nil] at hvalue
  rw [parse?, render, String.toList_ofList, Reader.ofText?, hvalue]
  rfl

end ColorChain.Json
