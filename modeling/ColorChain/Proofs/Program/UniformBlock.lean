import ColorChain.Program.Shading

/-! What a written block holds.

A block fits the layout that it was made for, and a write of the layout's measure succeeds,
leaves the slots at the front of the parameter words and sets every flag (`Fits.write`). The
flag of a filter is then above one half exactly when the filter is visible (`shows_write`).
-/
namespace ColorChain

theorem Binary.length_bytes (x : Single) : x.bytes.length = 4 := rfl

namespace UniformBlock

theorem length_bytes (b : UniformBlock) : b.bytes.length = 16 * b.words.length := by
  have word (v : Slot) : (v.toList.flatMap Binary.bytes).length = 16 := by
    simp [Vec4.toList, Binary.length_bytes]
  unfold bytes
  induction b.words with
  | nil => rfl
  | cons v rest ih =>
    rw [List.flatMap_cons, List.length_append, word, ih, List.length_cons]
    omega

/-! ### Flags -/

theorem lt_half_flag (visibility : List Bool) (i : Nat) :
    Binary.lt 0.5 (flag visibility i) = visibility[i]?.getD false := by
  have shown : Binary.lt (0.5 : Single) 1 = true := by decide +kernel
  have hidden : Binary.lt (0.5 : Single) 0 = false := by decide +kernel
  unfold flag
  cases visibility[i]?.getD false
  · exact hidden
  · exact shown

/-- The components of a word are the flags of four filters in a row. -/
theorem component_flagWord (visibility : List Bool) (word : Nat) :
    ∀ k, k < 4 → (flagWord visibility word).component k = flag visibility (4 * word + k)
  | 0, _ => rfl
  | 1, _ => rfl
  | 2, _ => rfl
  | 3, _ => rfl

/-! ### Writing -/

variable {b : UniformBlock} {slots : List Slot} {visibility : List Bool}

/-- A block made for a layout, whatever was written into it. -/
structure Fits (b : UniformBlock) (l : Layout) : Prop where
  slotCount : b.slotCount = l.slotCount
  filterCount : b.filterCount = l.filterCount
  params : b.params.length = l.paramLength
  visible : b.visible.length = l.visibleLength

theorem fits_new (l : Layout) : (new l).Fits l := by
  refine ⟨rfl, rfl, ?_, ?_⟩ <;> simp [new]

/-- A write of as many slots and flags as the layout has replaces the front of the
parameters and every flag. -/
theorem Fits.write {l : Layout} (hb : b.Fits l) (hs : slots.length = l.slotCount)
    (hv : visibility.length = l.filterCount) :
    ∃ b', b.write slots visibility = .ok b' ∧ b'.Fits l ∧
      b'.params = slots ++ b.params.drop slots.length ∧
      b'.visible = (List.range l.visibleLength).map (flagWord visibility) := by
  have hwrite : b.write slots visibility = .ok { b with
      params := slots ++ b.params.drop slots.length
      visible := (List.range b.visible.length).map (flagWord visibility) } := by
    simp [UniformBlock.write, hs, hv, hb.slotCount, hb.filterCount]
  refine ⟨_, hwrite, ⟨hb.slotCount, hb.filterCount, ?_, ?_⟩, rfl, ?_⟩
  · have := hb.params
    simp only [List.length_append, List.length_drop, this, hs, Layout.paramLength]
    omega
  · simpa using hb.visible
  · rw [hb.visible]

/-- The slots are counted first. -/
theorem Fits.write_other_slots {l : Layout} (hb : b.Fits l) (h : slots.length ≠ l.slotCount) :
    b.write slots visibility = .error (.uniformMismatch .slots l.slotCount slots.length) := by
  rw [UniformBlock.write, hb.slotCount, if_pos h]

theorem Fits.write_other_filters {l : Layout} (hb : b.Fits l) (hs : slots.length = l.slotCount)
    (h : visibility.length ≠ l.filterCount) :
    b.write slots visibility =
      .error (.uniformMismatch .filters l.filterCount visibility.length) := by
  rw [UniformBlock.write, hb.slotCount, hb.filterCount, if_neg (fun hne => hne hs), if_pos h]

theorem Fits.length_bytes {l : Layout} (hb : b.Fits l) : b.bytes.length = l.byteSize := by
  rw [UniformBlock.length_bytes, words, List.length_append, hb.params, hb.visible,
    Layout.byteSize, Nat.mul_comm]

/-- The flag of a filter of the layout says whether the filter is visible. -/
theorem shows_write {l : Layout}
    (hw : b.visible = (List.range l.visibleLength).map (flagWord visibility)) {i : Nat}
    (hi : i < l.filterCount) : b.shows i = visibility[i]?.getD false := by
  have hword : i / 4 < l.visibleLength := by
    unfold Layout.visibleLength
    omega
  have hget : b.visible[i / 4]? = some (flagWord visibility (i / 4)) := by
    rw [hw, List.getElem?_map, List.getElem?_range hword, Option.map_some]
  rw [shows, flagAt, hget, Option.getD_some,
    component_flagWord visibility _ _ (Nat.mod_lt i (by decide)), Nat.div_add_mod, lt_half_flag]

end UniformBlock
end ColorChain
