import ColorChain.Proofs.Color.Channel
import Mathlib.Data.List.Basic

/-! Colours that come back from their digits.

The digits of a colour say one byte for each channel, and are read as the channels that these
bytes stand for (`ofHex?_hexDigits`). The bytes in turn come back from their channels
(`toByte_ofRatio`), so a colour of such channels is read as itself. -/
namespace ColorChain.Color

/-- Colours are equal when their channels are. -/
theorem beq_iff {c d : Color} :
    (c == d) = true ↔ (c.x == d.x) = true ∧ (c.y == d.y) = true ∧ (c.z == d.z) = true := by
  cases c
  cases d
  show (_ && (_ && _)) = true ↔ _
  rw [Bool.and_eq_true, Bool.and_eq_true]

theorem beq_symm {c d : Color} (h : (c == d) = true) : (d == c) = true := by
  obtain ⟨hx, hy, hz⟩ := beq_iff.mp h
  exact beq_iff.mpr ⟨Binary.beq_symm hx, Binary.beq_symm hy, Binary.beq_symm hz⟩

theorem beq_trans {c d e : Color} (h : (c == d) = true) (h' : (d == e) = true) :
    (c == e) = true := by
  obtain ⟨hx, hy, hz⟩ := beq_iff.mp h
  obtain ⟨hx', hy', hz'⟩ := beq_iff.mp h'
  exact beq_iff.mpr ⟨Binary.beq_trans hx hx', Binary.beq_trans hy hy', Binary.beq_trans hz hz'⟩

/-! ### Digits -/

theorem hexValue?_hexDigit : ∀ n < 16, hexValue? (hexDigit n) = some n := by decide

theorem hexDigit_ne_mark : ∀ n < 16, hexDigit n ≠ '#' := by decide

theorem isAlphanum_hexDigit : ∀ n < 16, (hexDigit n).isAlphanum = true := by decide

theorem isAlphanum_of_mem_hexDigits {c : Color} : ∀ d ∈ hexDigits c, d.isAlphanum = true := by
  intro d hd
  simp only [hexDigits, hexByte, List.mem_append, List.mem_cons, List.not_mem_nil, or_false] at hd
  have hx := (toByte c.x).toNat_lt
  have hy := (toByte c.y).toNat_lt
  have hz := (toByte c.z).toNat_lt
  rcases hd with ((rfl | rfl) | rfl | rfl) | rfl | rfl <;> exact isAlphanum_hexDigit _ (by omega)

/-- The channels that a colour's bytes stand for. -/
def rounded (c : Color) : Color :=
  ⟨ofByte (toByte c.x).toNat, ofByte (toByte c.y).toNat, ofByte (toByte c.z).toNat⟩

theorem mapM_hexByte (b : UInt8) (rest : List Char) :
    (hexByte b ++ rest).mapM hexValue? =
      (rest.mapM hexValue?).map fun ns => b.toNat / 16 :: b.toNat % 16 :: ns := by
  have hb := b.toNat_lt
  simp only [hexByte, List.cons_append, List.nil_append, List.mapM_cons,
    hexValue?_hexDigit (b.toNat / 16) (by omega), hexValue?_hexDigit (b.toNat % 16) (by omega)]
  cases rest.mapM hexValue? <;> rfl

theorem mapM_hexDigits (c : Color) :
    ((hexDigits c).mapM hexValue?).bind ofDigits? = some c.rounded := by
  have hbyte (n : Nat) : 16 * (n / 16) + n % 16 = n := Nat.div_add_mod n 16
  unfold hexDigits
  rw [List.append_assoc, mapM_hexByte, mapM_hexByte, ← List.append_nil (hexByte (toByte c.z)),
    mapM_hexByte]
  simp only [List.mapM_nil, Option.pure_def, Option.map_some, Option.bind_some, ofDigits?, hbyte]
  rfl

theorem unmarked_hexDigits (c : Color) : unmarked (hexDigits c) = hexDigits c := by
  have hx := (toByte c.x).toNat_lt
  have hmark : hexDigit ((toByte c.x).toNat / 16) ≠ '#' := hexDigit_ne_mark _ (by omega)
  unfold unmarked hexDigits hexByte
  split
  · next heq => exact absurd (List.cons.inj heq).1 hmark
  · rfl

/-- The digits of a colour are read as what its bytes stand for. -/
theorem ofHex?_hexDigits (c : Color) : ofHex? (String.ofList (hexDigits c)) = some c.rounded := by
  rw [ofHex?, String.toList_ofList, unmarked_hexDigits, mapM_hexDigits]

/-- So they are with a mark in front. -/
theorem ofHex?_marked (c : Color) :
    ofHex? (String.ofList ('#' :: hexDigits c)) = some c.rounded := by
  rw [ofHex?, String.toList_ofList, unmarked, mapM_hexDigits]

/-! ### Channels -/

/-- The sign of a zero does not show in a byte. -/
theorem toByte_alike {a b : Single} (h : a.Alike b) : toByte a = toByte b := by
  have hlow : Scalar.lt a Scalar.zero = Scalar.lt b Scalar.zero := h.lt_left _
  have hhigh : Scalar.lt Scalar.one a = Scalar.lt Scalar.one b := h.lt_right _
  have hclamp : (Scalar.clamp a Scalar.zero Scalar.one).Alike
      (Scalar.clamp b Scalar.zero Scalar.one) := by
    unfold Scalar.clamp
    rw [hlow, hhigh]
    exact (h.ite _ _).ite _ _
  have hscaled := (hclamp.mul_right (by decide) (.ofRatio 255 1)).round (by decide)
  show UInt8.ofNat _ = UInt8.ofNat _
  rw [hscaled.truncate (by decide)]

theorem hexDigits_beq {c d : Color} (h : (c == d) = true) : hexDigits c = hexDigits d := by
  obtain ⟨hx, hy, hz⟩ := beq_iff.mp h
  unfold hexDigits
  rw [toByte_alike (Binary.beq_iff.mp hx).2.2, toByte_alike (Binary.beq_iff.mp hy).2.2,
    toByte_alike (Binary.beq_iff.mp hz).2.2]

/-- Every channel is a byte over 255. -/
def OfBytes (c : Color) : Prop :=
  ∃ r < 256, ∃ g < 256, ∃ b < 256,
    (c == ⟨.ofRatio r 255, .ofRatio g 255, .ofRatio b 255⟩) = true

/-- A colour of bytes is what its bytes stand for. -/
theorem OfBytes.rounded_beq {c : Color} (h : c.OfBytes) : (c.rounded == c) = true := by
  obtain ⟨r, hr, g, hg, b, hb, h⟩ := h
  obtain ⟨hx, hy, hz⟩ := beq_iff.mp h
  have channel {n : Nat} {a : Single} (hn : n < 256) (ha : (a == .ofRatio n 255) = true) :
      (ofByte (toByte a).toNat == a) = true := by
    rw [toByte_alike (Binary.beq_iff.mp ha).2.2, toByte_ofRatio hn, ofByte_eq_ofRatio hn]
    exact Binary.beq_symm ha
  exact beq_iff.mpr ⟨channel hr hx, channel hg hy, channel hb hz⟩

theorem hexValue?_lt {c : Char} {n : Nat} (h : hexValue? c = some n) : n < 16 := by
  have hzero : ('0' : Char).toNat = 48 := rfl
  have hnine : ('9' : Char).toNat = 57 := rfl
  have ha : ('a' : Char).toNat = 97 := rfl
  have hf : ('f' : Char).toNat = 102 := rfl
  have hA : ('A' : Char).toNat = 65 := rfl
  have hF : ('F' : Char).toNat = 70 := rfl
  unfold hexValue? at h
  simp only [Bool.and_eq_true, decide_eq_true_eq, Char.le_def, UInt32.le_iff_toNat_le,
    Char.toNat_val] at h
  split_ifs at h
  · cases h
    omega
  · cases h
    omega
  · cases h
    omega

theorem lt_of_mapM_hexValue? {ds : List Char} {ns : List Nat} (h : ds.mapM hexValue? = some ns) :
    ∀ n ∈ ns, n < 16 := by
  induction ds generalizing ns with
  | nil =>
    cases h
    simp
  | cons d rest ih =>
    rw [List.mapM_cons] at h
    obtain ⟨n, hn, h⟩ := Option.bind_eq_some_iff.mp h
    obtain ⟨ms, hms, h⟩ := Option.bind_eq_some_iff.mp h
    cases h
    exact List.forall_mem_cons.mpr ⟨hexValue?_lt hn, ih hms⟩

/-- A row of digit values spells bytes, if it spells a colour. -/
theorem ofBytes_of_ofDigits? {ns : List Nat} {c : Color} (hns : ∀ n ∈ ns, n < 16)
    (h : ofDigits? ns = some c) : c.OfBytes := by
  have hself {n : Nat} (hn : n < 256) :
      ((Binary.ofRatio n 255 : Single) == Binary.ofRatio n 255) = true :=
    Binary.beq_self (Binary.isNaN_of_isFinite (isFinite_channel hn))
  have bytes {r g b : Nat} (hr : r < 256) (hg : g < 256) (hb : b < 256) :
      OfBytes ⟨ofByte r, ofByte g, ofByte b⟩ := by
    refine ⟨r, hr, g, hg, b, hb, ?_⟩
    rw [ofByte_eq_ofRatio hr, ofByte_eq_ofRatio hg, ofByte_eq_ofRatio hb]
    exact beq_iff.mpr ⟨hself hr, hself hg, hself hb⟩
  unfold ofDigits? at h
  split at h
  · cases h
    simp only [List.forall_mem_cons] at hns
    exact bytes (by omega) (by omega) (by omega)
  · cases h
    simp only [List.forall_mem_cons] at hns
    exact bytes (by omega) (by omega) (by omega)
  · cases h

/-- A colour that is read of digits has a byte for each channel. -/
theorem ofBytes_of_ofHex? {text : String} {c : Color} (h : ofHex? text = some c) : c.OfBytes := by
  obtain ⟨ns, hns, hc⟩ := Option.bind_eq_some_iff.mp h
  exact ofBytes_of_ofDigits? (lt_of_mapM_hexValue? hns) hc

end ColorChain.Color
