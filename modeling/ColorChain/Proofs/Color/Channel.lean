import ColorChain.Color.Hex
import ColorChain.Proofs.Binary.Gap

/-! Channels that stand for bytes.

A byte stands for the single nearest to the byte over 255 (`ofByte_eq_ofRatio`). These channels
are within 0 and 1 (`channel_within`), and since what is lost in the division is far less than
half a byte, the byte comes back from its channel (`toByte_ofRatio`). -/
namespace ColorChain.Color

open Binary

/-- The channel of byte `n`. -/
theorem ofRatio_eq (n : Nat) : (ofRatio n 255 : Single) = nearest false (n / 255) :=
  ofRatio_eq_nearest n (by decide)

theorem ofByte_eq_ofRatio {n : Nat} (hn : n < 256) : ofByte n = .ofRatio n 255 := by
  have hscale := magnitude_small (n := 255) (by decide) false
  have hnonzero : (nearest false ((255 : Nat) : Rat) : Single).isZero = false :=
    not_isZero_of_magnitude (by rw [hscale]; norm_num)
  rw [ofByte, ofRatio_one, ofRatio_one, div_eq_nearest (isFinite_small (by omega) _)
    (isFinite_small (by decide) _) hnonzero, hscale, magnitude_small (by omega), ofRatio_eq]
  rfl

theorem isFinite_channel {n : Nat} (hn : n < 256) : (ofRatio n 255 : Single).isFinite = true := by
  have hcast : (n : Rat) < 256 := by exact_mod_cast hn
  rw [ofRatio_eq]
  exact isFinite_single (by positivity) (by linarith) false

/-- Channels are within 0 and 1. -/
theorem channel_within {n : Nat} (hn : n < 256) :
    Binary.le Scalar.zero (ofRatio n 255 : Single) = true ∧
      Binary.le (ofRatio n 255 : Single) Scalar.one = true := by
  have hzero : (Scalar.zero : Single) = nearest false (0 : Nat) := ofRatio_one 0
  have hone : (Scalar.one : Single) = nearest false (1 : Nat) := ofRatio_one 1
  have hcast : (n : Rat) ≤ 255 := by exact_mod_cast Nat.le_of_lt_succ hn
  rw [hzero, hone, ofRatio_eq]
  refine ⟨nearest_le_nearest (by positivity) ?_, nearest_le_nearest (by positivity) ?_⟩
  · rw [Nat.cast_zero]
    positivity
  · rw [Nat.cast_one]
    linarith

/-- A channel is close to the byte over 255. -/
theorem channel_error {n : Nat} (hn : n < 256) :
    |(ofRatio n 255 : Single).magnitude - n / 255| ≤ 1 / 2 ^ 24 := by
  have hfinite := isFinite_channel hn
  rw [ofRatio_eq] at hfinite ⊢
  rcases Nat.eq_zero_or_pos n with rfl | hpos
  · rw [Nat.cast_zero, zero_div, nearest_zero, magnitude_zero]
    norm_num
  · have hlow : (1 : Rat) ≤ n := by exact_mod_cast hpos
    have hhigh : (n : Rat) ≤ 255 := by exact_mod_cast Nat.le_of_lt_succ hn
    have hunit : (2 : Rat) ^ Format.single.fractionBits ≤
        n / 255 * 2 ^ Format.single.unitBits := by
      have hbits : Format.single.unitBits = Format.single.fractionBits + 8 + 118 := rfl
      rw [hbits, pow_add, pow_add]
      have hblock : (0 : Rat) < 2 ^ Format.single.fractionBits := by positivity
      nlinarith
    refine (magnitude_nearest_error (by positivity) hunit hfinite).trans ?_
    have hbits : Format.single.fractionBits + 1 = 24 := rfl
    rw [hbits]
    exact div_le_div_of_nonneg_right (by linarith) (by positivity)

/-- The product with 255 is off by the error of the channel, 255 times as large, and by no more
than that once again when it is rounded itself. -/
theorem round_scaled {n : Nat} (hn : n < 256) :
    ((ofRatio n 255 : Single) * ofRatio 255 1).round = nearest false n := by
  have hscale := magnitude_small (n := 255) (by decide) false
  have hproduct : (ofRatio n 255 : Single) * ofRatio 255 1 =
      nearest false ((ofRatio n 255 : Single).magnitude * (255 : Nat)) := by
    rw [ofRatio_one, mul_eq_nearest (isFinite_channel hn) (isFinite_small (by decide) _), hscale]
    rfl
  have herror := abs_le.mp (channel_error hn)
  have hhigh : (n : Rat) < 256 := by exact_mod_cast hn
  have hnonneg := (ofRatio n 255 : Single).magnitude_nonneg
  rw [hproduct]
  generalize (ofRatio n 255 : Single).magnitude = q at *
  rw [Nat.cast_ofNat]
  have hfinite : (nearest false (q * 255) : Single).isFinite = true :=
    isFinite_single (by positivity) (by linarith) false
  have hrounding := magnitude_nearest_le (by positivity) hfinite (nearest false n)
  rw [magnitude_small (by omega)] at hrounding
  have hscaled : |(n : Rat) - q * 255| ≤ 255 / 2 ^ 24 := by
    rw [abs_le]
    constructor <;> linarith
  rw [round_eq_nearest hfinite, whole_eq (n := n)]
  · rfl
  · calc |(nearest false (q * 255) : Single).magnitude - n|
        ≤ |(nearest false (q * 255) : Single).magnitude - q * 255| + |q * 255 - n| :=
          abs_sub_le _ _ _
      _ ≤ 255 / 2 ^ 24 + 255 / 2 ^ 24 := by
          rw [abs_sub_comm (q * 255)]
          exact add_le_add (hrounding.trans hscaled) hscaled
      _ < 1 / 2 := by norm_num

/-- **The byte comes back from its channel.** -/
theorem toByte_ofRatio {n : Nat} (hn : n < 256) : (toByte (.ofRatio n 255)).toNat = n := by
  obtain ⟨hlow, hhigh⟩ := channel_within hn
  have hclamp : Scalar.clamp (ofRatio n 255 : Single) Scalar.zero Scalar.one = ofRatio n 255 := by
    have hbelow : Scalar.lt (ofRatio n 255 : Single) Scalar.zero = false := not_lt_of_le hlow
    have habove : Scalar.lt Scalar.one (ofRatio n 255 : Single) = false := not_lt_of_le hhigh
    simp [Scalar.clamp, hbelow, habove]
  have htruncate : (nearest false n : Single).truncate 0 255 = n := by
    rw [truncate_whole (isFinite_small (by omega) false) (magnitude_small (by omega) false)]
    show max (0 : Int) (min 255 n) = n
    omega
  rw [toByte, hclamp, round_scaled hn, htruncate, Int.toNat_natCast]
  exact UInt8.toNat_ofNat_of_lt hn

theorem toByte_ofByte (b : UInt8) : toByte (ofByte b.toNat) = b := by
  rw [ofByte_eq_ofRatio b.toNat_lt]
  exact UInt8.toNat_inj.mp (toByte_ofRatio b.toNat_lt)

end ColorChain.Color
