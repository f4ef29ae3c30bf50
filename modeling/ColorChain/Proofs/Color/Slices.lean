import ColorChain.Color.Slices
import ColorChain.Proofs.Control.Admits

/-! Colours read from slices.

Text spells a colour when it is three or six hexadecimal digits with at most one mark in front
(`Spells`). Such a text has one byte for each character, so it is cut between characters
(`slice?_eq_some`), and its six digits, doubled where there are three, are those that the colour
read is written with (`read_of_spells`). All other text is refused before it is cut
(`read_of_not_spells`). So the reader accepts its grammar and nothing else, and writing undoes
reading up to the case of the digits (`read_grammar`). -/
namespace ColorChain

/-! ### Cutting text -/

namespace Text

variable {s before after middle : List Char} {n start stop : Nat}

theorem byteLength_eq_length (h : ∀ c ∈ s, c.utf8Size = 1) : byteLength s = s.length := by
  induction s with
  | nil => rfl
  | cons c rest ih =>
    obtain ⟨hc, hrest⟩ := List.forall_mem_cons.mp h
    rw [byteLength, hc, ih hrest, List.length_cons, Nat.add_comm]

theorem cut?_append (before after : List Char) :
    cut? (byteLength before) (before ++ after) = some (before, after) := by
  induction before with
  | nil => simp [byteLength, cut?]
  | cons c rest ih =>
    obtain ⟨n, hn⟩ : ∃ n, c.utf8Size + byteLength rest = n + 1 :=
      Nat.exists_eq_add_one.mpr (Nat.add_pos_left c.utf8Size_pos _)
    have hfits : ¬ n + 1 < c.utf8Size := by omega
    have hrest : n + 1 - c.utf8Size = byteLength rest := by omega
    rw [byteLength, hn, List.cons_append, cut?, if_neg hfits, hrest, ih, Option.map_some]

/-- Text is cut where a character ends. -/
theorem cut?_eq_some : cut? n s = some (before, after) ↔
    s = before ++ after ∧ byteLength before = n := by
  constructor
  · intro h
    induction s generalizing n before with
    | nil =>
      cases n with
      | zero =>
        cases h
        exact ⟨rfl, rfl⟩
      | succ n => cases h
    | cons c rest ih =>
      cases n with
      | zero =>
        cases h
        exact ⟨rfl, rfl⟩
      | succ n =>
        unfold cut? at h
        split at h
        · cases h
        · next hfits =>
          obtain ⟨⟨front, back⟩, hcut, heq⟩ := Option.map_eq_some_iff.mp h
          cases heq
          obtain ⟨rfl, hlength⟩ := ih hcut
          refine ⟨rfl, ?_⟩
          rw [byteLength, hlength]
          omega
  · rintro ⟨rfl, rfl⟩
    exact cut?_append before after

/-- A slice is what stands between two cuts. -/
theorem slice?_eq_some : slice? start stop s = some middle ↔
    ∃ before after, s = before ++ (middle ++ after) ∧ byteLength before = start ∧
      start + byteLength middle = stop := by
  unfold slice?
  constructor
  · intro h
    split at h
    · cases h
    · next hle =>
      obtain ⟨⟨before, rest⟩, hfirst, h⟩ := Option.bind_eq_some_iff.mp h
      obtain ⟨⟨front, after⟩, hsecond, heq⟩ := Option.map_eq_some_iff.mp h
      obtain rfl : front = middle := heq
      obtain ⟨rfl, hstart⟩ := cut?_eq_some.mp hfirst
      obtain ⟨rfl, hstop⟩ := cut?_eq_some.mp hsecond
      exact ⟨before, after, rfl, hstart, by omega⟩
  · rintro ⟨before, after, rfl, rfl, rfl⟩
    have hsecond := cut?_append middle after
    rw [if_neg (Nat.not_lt.mpr (Nat.le_add_right _ _)), cut?_append, Option.bind_some]
    dsimp only
    rw [Nat.add_sub_cancel_left, hsecond, Option.map_some]

end Text

namespace Color

variable {text : String} {digits ds : List Char} {a b d : Char} {m n : Nat} {c : Color}

/-! ### Digits -/

-- What holds of the digits is decided digit by digit, and not over all characters there are.
attribute [local instance (high)] List.decidableBAll

def lowerDigits : List Char :=
  ['0', '1', '2', '3', '4', '5', '6', '7', '8', '9', 'a', 'b', 'c', 'd', 'e', 'f']

def upperDigits : List Char := ['A', 'B', 'C', 'D', 'E', 'F']

/-- A hexadecimal digit of either case. -/
def HexDigit (d : Char) : Prop := d ∈ lowerDigits ++ upperDigits

instance : DecidablePred HexDigit := fun d =>
  inferInstanceAs (Decidable (d ∈ lowerDigits ++ upperDigits))

/-- What the sixteen values are, by the digits that have them. -/
theorem HexDigit.exists_value (h : HexDigit d) : ∃ n < 16, hexValue? d = some n ∧
    hexDigit n = d.toLower := by
  have hall : ∀ d ∈ lowerDigits ++ upperDigits,
      ∃ n < 16, hexValue? d = some n ∧ hexDigit n = d.toLower := by decide +kernel
  exact hall d h

theorem HexDigit.utf8Size (h : HexDigit d) : d.utf8Size = 1 := by
  have hall : ∀ d ∈ lowerDigits ++ upperDigits, d.utf8Size = 1 := by decide +kernel
  exact hall d h

theorem toNat_lt_of_isHexDigit (h : isHexDigit d = true) : d.toNat < 128 := by
  have hnine : ('9' : Char).toNat = 57 := rfl
  have hf : ('f' : Char).toNat = 102 := rfl
  have hF : ('F' : Char).toNat = 70 := rfl
  unfold isHexDigit hexValue? at h
  simp only [Bool.and_eq_true, decide_eq_true_eq, Char.le_def, UInt32.le_iff_toNat_le,
    Char.toNat_val] at h
  split_ifs at h
  · omega
  · omega
  · omega
  · cases h

theorem isHexDigit_iff : isHexDigit d = true ↔ HexDigit d := by
  constructor
  · intro h
    have hall : ∀ n < 128, isHexDigit (Char.ofNat n) = true →
        Char.ofNat n ∈ lowerDigits ++ upperDigits := by decide +kernel
    have hmem := hall d.toNat (toNat_lt_of_isHexDigit h)
    rw [Char.ofNat_toNat] at hmem
    exact hmem h
  · intro h
    obtain ⟨n, -, hn, -⟩ := h.exists_value
    rw [isHexDigit, hn, Option.isSome_some]

/-! ### The grammar -/

/-- Text spells a colour with three or six digits, and with a mark in front or without one. -/
structure Spells (text : String) (digits : List Char) : Prop where
  marked : text.toList = digits ∨ text.toList = '#' :: digits
  hexadecimal : ∀ d ∈ digits, HexDigit d
  length : digits.length = 3 ∨ digits.length = 6

/-- The digits, each of them twice if there are three. -/
def doubled (digits : List Char) : List Char :=
  if digits.length = 3 then digits.flatMap fun d => [d, d] else digits

/-- The six digits, in lower case, that a colour is written with. -/
def written (digits : List Char) : List Char := (doubled digits).map Char.toLower

theorem eq_unmarked (s : List Char) : s = unmarked s ∨ s = '#' :: unmarked s := by
  unfold unmarked
  split
  · exact .inr rfl
  · exact .inl rfl

theorem Spells.unmarked_eq (h : Spells text digits) : unmarked text.toList = digits := by
  rcases h.marked with hplain | hmark
  · rw [hplain]
    unfold unmarked
    split
    · next rest => exact absurd (h.hexadecimal '#' List.mem_cons_self) (by decide)
    · rfl
  · rw [hmark]
    rfl

theorem spells_unmarked (hdigits : ∀ d ∈ unmarked text.toList, HexDigit d)
    (hlength : (unmarked text.toList).length = 3 ∨ (unmarked text.toList).length = 6) :
    Spells text (unmarked text.toList) := ⟨eq_unmarked _, hdigits, hlength⟩

theorem length_doubled (h : digits.length = 3 ∨ digits.length = 6) :
    (doubled digits).length = 6 := by
  unfold doubled
  split
  · next hthree => simp [List.length_flatMap, hthree]
  · next hthree => exact h.resolve_left hthree

theorem hexDigit_of_mem_doubled (h : ∀ d ∈ digits, HexDigit d) :
    ∀ d ∈ doubled digits, HexDigit d := by
  unfold doubled
  split
  · intro d hd
    obtain ⟨e, he, hde⟩ := List.mem_flatMap.mp hd
    obtain rfl : d = e := by simpa using hde
    exact h d he
  · exact h

/-! ### Channels -/

theorem inUnit_rounded (c : Color) : c.rounded.InUnit := by
  intro a ha
  have hbyte : ∃ b : UInt8, a = ofByte b.toNat := by
    simp only [Vec3.toList, rounded, List.mem_cons, List.not_mem_nil, or_false] at ha
    rcases ha with rfl | rfl | rfl <;> exact ⟨_, rfl⟩
  obtain ⟨b, rfl⟩ := hbyte
  rw [ofByte_eq_ofRatio b.toNat_lt]
  exact channel_within b.toNat_lt

theorem byte?_pair (ha : hexValue? a = some m) (hb : hexValue? b = some n) :
    byte? [a, b] = some (16 * m + n) := by
  have hplus : a ≠ '+' := by
    rintro rfl
    cases ha
  have hlt : 16 * m + n < 256 := by
    have hm := hexValue?_lt ha
    have hn := hexValue?_lt hb
    omega
  have hdigits : withoutPlus [a, b] = [a, b] := by
    unfold withoutPlus
    split
    · next heq => exact absurd (List.cons.inj heq).1 hplus
    · rfl
  simp [byte?, hdigits, ha, hb, hlt]

/-- A slice of two digits is read as the channel that is written with them. -/
theorem readChannel_of_slice (text : String) {index : Nat} (ha : HexDigit a) (hb : HexDigit b)
    (hslice : Text.slice? index (index + 2) ds = some [a, b]) :
    ∃ byte : UInt8, readChannel text ds index = .ok (ofByte byte.toNat) ∧
      hexByte byte = [a.toLower, b.toLower] := by
  obtain ⟨m, hm, hma, hmlower⟩ := ha.exists_value
  obtain ⟨n, hn, hnb, hnlower⟩ := hb.exists_value
  have hbyte : (UInt8.ofNat (16 * m + n)).toNat = 16 * m + n :=
    UInt8.toNat_ofNat_of_lt (show 16 * m + n < 256 by omega)
  have hhigh : (16 * m + n) / 16 = m := by omega
  have hlow : (16 * m + n) % 16 = n := by omega
  refine ⟨UInt8.ofNat (16 * m + n), ?_, ?_⟩
  · simp only [readChannel, hslice, byte?_pair hma hnb, hbyte]
  · rw [hexByte, hbyte, hhigh, hlow, hmlower, hnlower]

/-- Six digits are cut into three channels, and the colour is written with them again. -/
theorem readChannels_of_hexDigits (text : String) (hds : ∀ d ∈ ds, HexDigit d)
    (hlength : ds.length = 6) :
    ∃ c, readChannels text ds = .ok c ∧ c.rounded = c ∧ hexDigits c = ds.map Char.toLower := by
  obtain ⟨r, r', g, g', b, b', rfl⟩ : ∃ r r' g g' b b', ds = [r, r', g, g', b, b'] := by
    match ds, hlength with
    | [r, r', g, g', b, b'], _ => exact ⟨r, r', g, g', b, b', rfl⟩
  simp only [List.forall_mem_cons] at hds
  obtain ⟨hr, hr', hg, hg', hb, hb', -⟩ := hds
  have hred : Text.slice? 0 2 [r, r', g, g', b, b'] = some [r, r'] :=
    Text.slice?_eq_some.mpr ⟨[], [g, g', b, b'], rfl, rfl, by
      simp [Text.byteLength, hr.utf8Size, hr'.utf8Size]⟩
  have hgreen : Text.slice? 2 4 [r, r', g, g', b, b'] = some [g, g'] :=
    Text.slice?_eq_some.mpr ⟨[r, r'], [b, b'], rfl, by
      simp [Text.byteLength, hr.utf8Size, hr'.utf8Size], by
      simp [Text.byteLength, hg.utf8Size, hg'.utf8Size]⟩
  have hblue : Text.slice? 4 6 [r, r', g, g', b, b'] = some [b, b'] :=
    Text.slice?_eq_some.mpr ⟨[r, r', g, g'], [], rfl, by
      simp [Text.byteLength, hr.utf8Size, hr'.utf8Size, hg.utf8Size, hg'.utf8Size], by
      simp [Text.byteLength, hb.utf8Size, hb'.utf8Size]⟩
  obtain ⟨x, hx, hxdigits⟩ := readChannel_of_slice text hr hr' hred
  obtain ⟨y, hy, hydigits⟩ := readChannel_of_slice text hg hg' hgreen
  obtain ⟨z, hz, hzdigits⟩ := readChannel_of_slice text hb hb' hblue
  refine ⟨⟨ofByte x.toNat, ofByte y.toNat, ofByte z.toNat⟩, ?_, ?_, ?_⟩
  · rw [readChannels, hx, hy, hz]
    rfl
  · simp only [rounded, toByte_ofByte]
  · simp only [hexDigits, toByte_ofByte, hxdigits, hydigits, hzdigits]
    rfl

/-! ### Reading -/

theorem all_isHexDigit_iff : digits.all isHexDigit = true ↔ ∀ d ∈ digits, HexDigit d := by
  simp only [List.all_eq_true, isHexDigit_iff]

theorem byteLength_of_hexDigits (h : ∀ d ∈ digits, HexDigit d) :
    Text.byteLength digits = digits.length :=
  Text.byteLength_eq_length fun d hd => (h d hd).utf8Size

theorem read_of_spells (h : Spells text digits) :
    ∃ c, read text = .ok c ∧ c.rounded = c ∧ hexDigits c = written digits := by
  have hread : read text = readChannels text (doubled digits) := by
    unfold read doubled
    rw [h.unmarked_eq]
    dsimp only
    rw [all_isHexDigit_iff.mpr h.hexadecimal, byteLength_of_hexDigits h.hexadecimal]
    rcases h.length with hlength | hlength
    · simp [hlength]
    · simp [hlength]
  rw [hread]
  exact readChannels_of_hexDigits text (hexDigit_of_mem_doubled h.hexadecimal)
    (length_doubled h.length)

/-- All other text is refused, and not for a slice. -/
theorem read_of_not_spells (h : ¬ ∃ digits, Spells text digits) :
    read text = .error (.refused (.invalidColor text)) := by
  unfold read
  dsimp only
  split
  · rfl
  · next hall =>
    have hdigits : ∀ d ∈ unmarked text.toList, HexDigit d := by
      rw [← all_isHexDigit_iff]
      simpa using hall
    rw [byteLength_of_hexDigits hdigits]
    split
    · next hsix => exact absurd ⟨_, spells_unmarked hdigits (.inr hsix)⟩ h
    · next hthree => exact absurd ⟨_, spells_unmarked hdigits (.inl hthree)⟩ h
    · rfl

theorem mapM_toLower (h : ∀ d ∈ ds, HexDigit d) :
    (ds.map Char.toLower).mapM hexValue? = ds.mapM hexValue? := by
  have hlower : ∀ d ∈ lowerDigits ++ upperDigits, hexValue? d.toLower = hexValue? d := by
    decide +kernel
  induction ds with
  | nil => rfl
  | cons d rest ih =>
    obtain ⟨hd, hrest⟩ := List.forall_mem_cons.mp h
    rw [List.map_cons, List.mapM_cons, List.mapM_cons, hlower d hd, ih hrest]

theorem mapM_doubled (h : digits.length = 3) (hdigits : ∀ d ∈ digits, HexDigit d) :
    ((doubled digits).mapM hexValue?).bind ofDigits? = (digits.mapM hexValue?).bind ofDigits? := by
  obtain ⟨r, g, b, rfl⟩ := List.length_eq_three.mp h
  simp only [List.forall_mem_cons] at hdigits
  obtain ⟨hr, hg, hb, -⟩ := hdigits
  obtain ⟨k, -, hk, -⟩ := hr.exists_value
  obtain ⟨m, -, hm, -⟩ := hg.exists_value
  obtain ⟨n, -, hn, -⟩ := hb.exists_value
  have htwice (n : Nat) : 16 * n + n = 17 * n := by omega
  simp [doubled, hk, hm, hn, ofDigits?, htwice]

theorem hexDigit_of_mapM {ns : List Nat} (h : ds.mapM hexValue? = some ns) :
    ds.length = ns.length ∧ ∀ d ∈ ds, HexDigit d := by
  induction ds generalizing ns with
  | nil =>
    cases h
    exact ⟨rfl, List.forall_mem_nil _⟩
  | cons d rest ih =>
    rw [List.mapM_cons] at h
    obtain ⟨n, hn, h⟩ := Option.bind_eq_some_iff.mp h
    obtain ⟨ms, hms, h⟩ := Option.bind_eq_some_iff.mp h
    cases h
    obtain ⟨hlength, hrest⟩ := ih hms
    have hd : HexDigit d := isHexDigit_iff.mp (Option.isSome_of_eq_some hn)
    exact ⟨congrArg (· + 1) hlength, List.forall_mem_cons.mpr ⟨hd, hrest⟩⟩

theorem length_of_ofDigits? {ns : List Nat} (h : ofDigits? ns = some c) :
    ns.length = 3 ∨ ns.length = 6 := by
  unfold ofDigits? at h
  split at h
  · exact .inr rfl
  · exact .inl rfl
  · cases h

theorem spells_of_ofHex? (h : ofHex? text = some c) : ∃ digits, Spells text digits := by
  obtain ⟨ns, hns, hc⟩ := Option.bind_eq_some_iff.mp h
  obtain ⟨hlength, hdigits⟩ := hexDigit_of_mapM hns
  exact ⟨_, spells_unmarked hdigits (hlength ▸ length_of_ofDigits? hc)⟩

/-- Slices give what the digits give. -/
theorem read_eq (text : String) : read text = (parse text).mapError .refused := by
  by_cases h : ∃ digits, Spells text digits
  · obtain ⟨digits, hspells⟩ := h
    obtain ⟨c, hread, hrounded, hdigits⟩ := read_of_spells hspells
    have hsix : ((doubled digits).mapM hexValue?).bind ofDigits? = some c := by
      rw [← mapM_toLower (hexDigit_of_mem_doubled hspells.hexadecimal)]
      have := mapM_hexDigits c
      rw [hdigits, hrounded] at this
      exact this
    have hof : ofHex? text = some c := by
      rw [ofHex?, hspells.unmarked_eq]
      rcases hspells.length with hlength | hlength
      · rw [← mapM_doubled hlength hspells.hexadecimal, hsix]
      · rw [doubled, if_neg (by omega)] at hsix
        exact hsix
    rw [hread, parse, hof]
    rfl
  · have hof : ofHex? text = none := Option.eq_none_iff_forall_ne_some.mpr
      fun c hc => h (spells_of_ofHex? hc)
    rw [read_of_not_spells h, parse, hof]
    rfl

/-! ### Writing -/

theorem lowerDigit_hexDigit : ∀ n < 16, hexDigit n ∈ lowerDigits := by decide +kernel

theorem mem_lowerDigits_of_mem_hexDigits : ∀ d ∈ hexDigits c, d ∈ lowerDigits := by
  have hbyte (b : UInt8) : ∀ d ∈ hexByte b, d ∈ lowerDigits := by
    have hb := b.toNat_lt
    simp only [hexByte, List.forall_mem_cons]
    exact ⟨lowerDigit_hexDigit _ (by omega), lowerDigit_hexDigit _ (by omega),
      List.forall_mem_nil _⟩
  unfold hexDigits
  simp only [List.forall_mem_append]
  exact ⟨⟨hbyte _, hbyte _⟩, hbyte _⟩

/-- A colour is written as six digits in lower case, and they spell it. -/
theorem spells_hexDigits (c : Color) : Spells (toHex c) (hexDigits c) where
  marked := .inl (String.toList_ofList)
  hexadecimal d hd := List.mem_append_left _ (mem_lowerDigits_of_mem_hexDigits d hd)
  length := .inr rfl

/-- Colours of bytes that are written alike are one colour. -/
theorem eq_of_hexDigits {c d : Color} (hc : c.rounded = c) (hd : d.rounded = d)
    (h : hexDigits c = hexDigits d) : c = d := by
  have hread := mapM_hexDigits c
  rw [h, mapM_hexDigits d, hc, hd] at hread
  exact (Option.some.inj hread).symm

theorem written_hexDigits (c : Color) : written (hexDigits c) = hexDigits c := by
  have hlower : ∀ d ∈ lowerDigits, d.toLower = d := by decide +kernel
  have hlength : (hexDigits c).length ≠ 3 := by
    show 6 ≠ 3
    decide
  rw [written, doubled, if_neg hlength]
  rw [List.map_congr_left fun d hd => hlower d (mem_lowerDigits_of_mem_hexDigits d hd),
    List.map_id']

/-- **The reader of colours accepts its grammar and no more, and writing undoes it.** Text is read
just when it is three or six hexadecimal digits of either case with at most one mark in front. All
other text is refused, and no slice of it is asked for that would cut a character. What is read has
its channels between zero and one and is written with the digits of the text, in lower case and
doubled where there were three; so another text is read as the same colour just when its digits are
the same in that form. And every colour, whatever its channels, is written with six digits in lower
case, which are read as a colour that is written with them again. -/
theorem read_grammar (text : String) :
    ((∃ c, read text = .ok c) ↔ ∃ digits, Spells text digits) ∧
      (∀ fault, read text = .error fault → fault = .refused (.invalidColor text)) ∧
      (∀ digits, Spells text digits → ∃ c, read text = .ok c ∧ c.InUnit ∧
        (toHex c).toList = written digits ∧
        ∀ text' digits', Spells text' digits' →
          (read text' = .ok c ↔ written digits' = written digits)) ∧
      ∀ c : Color, (toHex c).toList.length = 6 ∧ (∀ d ∈ (toHex c).toList, d ∈ lowerDigits) ∧
        ∃ c', read (toHex c) = .ok c' ∧ toHex c' = toHex c := by
  refine ⟨⟨fun ⟨c, hc⟩ => ?_, fun ⟨digits, hspells⟩ => ?_⟩, fun fault hfault => ?_,
    fun digits hspells => ?_, fun c => ?_⟩
  · by_contra hnone
    cases hc.symm.trans (read_of_not_spells hnone)
  · obtain ⟨c, hread, -⟩ := read_of_spells hspells
    exact ⟨c, hread⟩
  · by_cases hsome : ∃ digits, Spells text digits
    · obtain ⟨digits, hspells⟩ := hsome
      obtain ⟨c, hread, -⟩ := read_of_spells hspells
      cases hread.symm.trans hfault
    · cases (read_of_not_spells hsome).symm.trans hfault
      rfl
  · obtain ⟨c, hread, hrounded, hdigits⟩ := read_of_spells hspells
    refine ⟨c, hread, hrounded ▸ inUnit_rounded c, ?_, fun text' digits' hspells' => ?_⟩
    · rw [toHex, String.toList_ofList, hdigits]
    · obtain ⟨c', hread', hrounded', hdigits'⟩ := read_of_spells hspells'
      rw [hread', ← hdigits, ← hdigits']
      constructor
      · intro heq
        cases heq
        rfl
      · intro heq
        rw [eq_of_hexDigits hrounded' hrounded heq]
  · obtain ⟨c', hread, -, hdigits⟩ := read_of_spells (spells_hexDigits c)
    rw [written_hexDigits] at hdigits
    have htext : (toHex c).toList = hexDigits c := String.toList_ofList
    rw [htext]
    exact ⟨rfl, mem_lowerDigits_of_mem_hexDigits, c', hread, congrArg String.ofList hdigits⟩

/-- Digits of either case, three of them with a mark or six without, are read alike. A letter that
takes two bytes makes four bytes of three characters. -/
theorem read_grammar_marked :
    Spells "#0aF" ['0', 'a', 'F'] ∧ Spells "00AaFf" ['0', '0', 'A', 'a', 'F', 'f'] ∧
      (∃ c, read "#0aF" = .ok c ∧ read "00AaFf" = .ok c ∧ c.InUnit ∧ toHex c = "00aaff") ∧
      read "0aé" = .error (.refused (.invalidColor "0aé")) := by
  have hshort : Spells "#0aF" ['0', 'a', 'F'] := ⟨.inr rfl, by decide, .inl rfl⟩
  have hlong : Spells "00AaFf" ['0', '0', 'A', 'a', 'F', 'f'] := ⟨.inl rfl, by decide, .inr rfl⟩
  obtain ⟨-, -, hspells, -⟩ := read_grammar "#0aF"
  obtain ⟨c, hread, hunit, hdigits, hsame⟩ := hspells _ hshort
  obtain ⟨-, hfault, -⟩ := read_grammar "0aé"
  refine ⟨hshort, hlong, ⟨c, hread, (hsame _ _ hlong).mpr rfl, hunit, ?_⟩, ?_⟩
  · exact String.toList_inj.mp (hdigits.trans rfl)
  · cases h : read "0aé" with
    | error fault => rw [hfault fault h]
    | ok c =>
      have hnone : (read "0aé").toOption = none := by decide +kernel
      rw [h] at hnone
      cases hnone

end Color
end ColorChain
