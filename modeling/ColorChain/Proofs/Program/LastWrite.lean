import ColorChain.Program.HeldBlock
import ColorChain.Proofs.Program.UniformBlock
import Mathlib.Data.List.Induction
import Mathlib.Tactic.IntervalCases

/-! A held block shows its last write.

The words of a held block stay from frame to frame, so a slot or a flag of an earlier frame would
show where a write leaves it standing. One word at most is left standing, the one that pads an empty
array of slots, and `Cleared` says that it is still zero. The flags are set one by one in words that
were cleared before; the invariant of that loop is that the words hold the flags of the filters so
far (`setFlag_run`). So a write that is made has one outcome, whatever was written before
(`Cleared.write_eq`), and a block shows the last of them (`block_of_last_write`). -/
namespace ColorChain

/-! ### Bytes -/

/-- The number that bytes spell, the lowest first. -/
def Binary.littleEndian : List UInt8 → Nat
  | [] => 0
  | byte :: rest => byte.toNat + 256 * littleEndian rest

theorem Binary.toBits_lt (x : Single) : x.toBits < 2 ^ 32 := by
  have hindex := x.index_lt
  have hbound : Format.single.indexBound = 2 ^ 31 := rfl
  rw [hbound] at hindex
  unfold toBits
  rw [hbound]
  split <;> omega

theorem Binary.littleEndian_bytes (x : Single) : littleEndian x.bytes = x.toBits := by
  have hlt := x.toBits_lt
  simp only [bytes, littleEndian, UInt8.toNat_ofNat']
  omega

namespace HeldBlock

theorem drop_bytes (words : List Slot) (k : Nat) :
    (words.flatMap fun word => word.toList.flatMap Binary.bytes).drop (16 * k) =
      (words.drop k).flatMap fun word => word.toList.flatMap Binary.bytes := by
  induction k generalizing words with
  | zero => rfl
  | succ k ih =>
    cases words with
    | nil => rfl
    | cons word rest =>
      rw [List.drop_succ_cons, ← ih rest, Nat.mul_succ, Nat.add_comm, ← List.drop_drop]
      rfl

/-- Component `j` of word `k` stands at byte `16 * k + 4 * j`. -/
theorem bytes_component {b : HeldBlock} {k : Nat} {word : Slot} (hword : b.words[k]? = some word)
    {j : Nat} (hj : j < 4) : (b.bytes.drop (16 * k + 4 * j)).take 4 = (word.component j).bytes := by
  obtain ⟨hk, rfl⟩ := List.getElem?_eq_some_iff.mp hword
  rw [bytes, ← List.drop_drop, drop_bytes, List.drop_eq_getElem_cons hk, List.flatMap_cons]
  interval_cases j <;> rfl

end HeldBlock

/-! ### Flags -/

namespace UniformBlock

theorem flag_of_some {visibility : List Bool} {i : Nat} {shown : Bool}
    (h : visibility[i]? = some shown) : flag visibility i = if shown then 1 else 0 := by
  rw [flag, h, Option.getD_some]

theorem flag_of_length_le {visibility : List Bool} {i : Nat} (h : visibility.length ≤ i) :
    flag visibility i = 0 := by
  rw [flag, List.getElem?_eq_none h, Option.getD_none]
  rfl

theorem flag_concat (done : List Bool) (shown : Bool) (i : Nat) :
    flag (done ++ [shown]) i = if i = done.length then if shown then 1 else 0 else flag done i := by
  split
  · next h => exact flag_of_some (by rw [h, List.getElem?_concat_length])
  · next h =>
    rcases Nat.lt_or_gt_of_ne h with hlt | hgt
    · rw [flag, flag, List.getElem?_append_left hlt]
    · rw [flag_of_length_le hgt.le, flag_of_length_le]
      rw [List.length_append]
      exact hgt

/-- One more flag changes one component of one word. -/
theorem flagWord_concat (done : List Bool) (shown : Bool) (k : Nat) :
    flagWord (done ++ [shown]) k = if k = done.length / 4 then
      (flagWord done k).withComponent (if shown then 1 else 0) (done.length % 4)
    else flagWord done k := by
  by_cases h : k = done.length / 4
  · have hlength : done.length = 4 * k + done.length % 4 := by omega
    have hj : done.length % 4 < 4 := Nat.mod_lt _ (by decide)
    rw [if_pos h]
    generalize done.length % 4 = j at hj hlength
    interval_cases j <;> simp [flagWord, flag_concat, hlength, Vec4.withComponent]
  · have hother (j : Nat) (hj : j < 4) : flag (done ++ [shown]) (4 * k + j) =
        flag done (4 * k + j) := by
      rw [flag_concat, if_neg (by omega)]
    rw [if_neg h, flagWord, flagWord, hother 1 (by decide), hother 2 (by decide),
      hother 3 (by decide)]
    exact congrArg (Vec4.mk · _ _ _) (hother 0 (by decide))

theorem flagWord_nil (k : Nat) : flagWord [] k = zeroSlot := rfl

/-! ### One write -/

/-- The block as one run of words. -/
def held (b : UniformBlock) : HeldBlock where
  words := b.words
  paramLength := b.params.length
  slotCount := b.slotCount
  filterCount := b.filterCount

/-- What replacing a block amounts to for one that is held. -/
def settle (b : UniformBlock) :
    Except ProgramError UniformBlock → EStateM.Result WriteFault HeldBlock Unit
  | .ok b' => .ok () b'.held
  | .error e => .error (.refused e) b.held

/-- The block with the flags of `visibility` in `n` words. -/
def flagged (b : UniformBlock) (n : Nat) (visibility : List Bool) : UniformBlock :=
  { b with visible := (List.range n).map (flagWord visibility) }

variable {b : UniformBlock} {l : Layout}

theorem copySlots_run {slots : List Slot} (h : slots.length ≤ b.params.length) :
    (BlockWriter.copySlots slots).run b.held =
      .ok () { b with params := slots ++ b.params.drop slots.length }.held := by
  have hwords : ¬ b.held.words.length < slots.length := by
    simp only [held, words, List.length_append]
    omega
  have hlength : (slots ++ b.params.drop slots.length).length = b.params.length := by
    rw [List.length_append, List.length_drop]
    omega
  unfold BlockWriter.copySlots
  simp only [EStateM.run_bind, EStateM.run_get, hwords, if_false]
  rw [EStateM.run_set, held, held, words, words, hlength]
  simp only [List.drop_append_of_le_length h, List.append_assoc]

theorem clearFlags_run :
    BlockWriter.clearFlags.run b.held = .ok () (b.flagged b.visible.length []).held := by
  have hwords : ¬ b.held.words.length < b.held.paramLength := by
    simp only [held, words, List.length_append]
    omega
  have hparams : b.held.params = b.params := List.take_left
  have hvisible : b.held.visible = b.visible := List.drop_left
  have hflags : (List.range b.visible.length).map (flagWord []) =
      b.visible.map fun _ => zeroSlot := by
    rw [List.map_const', List.map_eq_replicate_iff.mpr fun k _ => flagWord_nil k, List.length_range]
  unfold BlockWriter.clearFlags
  simp only [EStateM.run_bind, EStateM.run_get, hwords, if_false]
  rw [EStateM.run_set, hparams, hvisible, flagged, hflags]
  rfl

/-- The words hold one flag more. -/
theorem setFlag_run (b : UniformBlock) {n : Nat} {done : List Bool} (shown : Bool)
    (h : done.length / 4 < n) :
    (BlockWriter.setFlag done.length shown).run (b.flagged n done).held =
      .ok () (b.flagged n (done ++ [shown])).held := by
  have hget : (b.flagged n done).held.words[(b.flagged n done).held.paramLength +
      done.length / 4]? = some (flagWord done (done.length / 4)) := by
    simp [held, words, flagged, h]
  have hset : (flagWord done (done.length / 4)).withComponent (if shown then 1 else 0)
      (done.length % 4) = flagWord (done ++ [shown]) (done.length / 4) := by
    rw [flagWord_concat, if_pos rfl]
  have hflags : ((List.range n).map (flagWord done)).set (done.length / 4)
      (flagWord (done ++ [shown]) (done.length / 4)) =
        (List.range n).map (flagWord (done ++ [shown])) := by
    refine List.ext_getElem (by simp) fun k hk _ => ?_
    rw [List.getElem_set, List.getElem_map, List.getElem_range, List.getElem_map,
      List.getElem_range]
    split
    · next heq => rw [heq]
    · next hne => rw [flagWord_concat, if_neg (Ne.symm hne)]
  unfold BlockWriter.setFlag
  simp only [EStateM.run_bind, EStateM.run_get, hget, hset]
  rw [EStateM.run_set]
  simp only [held, words, flagged]
  rw [List.set_append_right _ _ (Nat.le_add_right _ _), Nat.add_sub_cancel_left, hflags]

/-- The words hold the flags of the rest, too. The induction is on the rest, with the filters before
it done. -/
theorem setFlags_run (b : UniformBlock) {n : Nat} (done rest : List Bool)
    (h : done.length + rest.length ≤ 4 * n) :
    (BlockWriter.setFlags done.length rest).run (b.flagged n done).held =
      .ok () (b.flagged n (done ++ rest)).held := by
  induction rest generalizing done with
  | nil =>
    rw [List.append_nil]
    rfl
  | cons shown rest ih =>
    rw [List.length_cons] at h
    have hnext := ih (done ++ [shown]) (by rw [List.length_append, List.length_singleton]; omega)
    rw [List.length_append, List.length_singleton, List.append_assoc] at hnext
    rw [BlockWriter.setFlags, EStateM.run_bind, setFlag_run b shown (by omega)]
    exact hnext

/-- A held block is written into as a block is replaced. -/
theorem Fits.run_write (hb : b.Fits l) (w : BlockWrite) :
    (BlockWriter.write w).run b.held = b.settle (b.write w.slots w.visibility) := by
  have hheld : b.held.slotCount = b.slotCount ∧ b.held.filterCount = b.filterCount := ⟨rfl, rfl⟩
  unfold BlockWriter.write UniformBlock.write
  simp only [EStateM.run_bind, EStateM.run_get, hheld]
  by_cases hslots : w.slots.length = b.slotCount
  · by_cases hflags : w.visibility.length = b.filterCount
    · have hparams : w.slots.length ≤ b.params.length := by
        rw [hslots, hb.slotCount, hb.params]
        exact Nat.le_max_left _ _
      have hvisible : ([] : List Bool).length + w.visibility.length ≤ 4 * b.visible.length := by
        rw [hflags, hb.filterCount, hb.visible, Layout.visibleLength, List.length_nil]
        omega
      have hloop := setFlags_run { b with params := w.slots ++ b.params.drop w.slots.length } []
        w.visibility hvisible
      simp only [not_not.mpr hslots, not_not.mpr hflags, if_false, EStateM.run_bind,
        copySlots_run hparams, clearFlags_run]
      exact hloop
    · simp only [hslots, hflags, not_true, ne_eq, not_false_iff, if_true, if_false]
      rfl
  · simp only [hslots, ne_eq, not_false_iff, if_true]
    rfl

/-! ### The last write -/

/-- The block of a layout with one write and nothing else. -/
def image (l : Layout) (w : BlockWrite) : UniformBlock where
  slotCount := l.slotCount
  filterCount := l.filterCount
  params := w.slots ++ List.replicate (l.paramLength - l.slotCount) zeroSlot
  visible := (List.range l.visibleLength).map (flagWord w.visibility)

/-- The words of a block that no slot belongs to are zero. -/
structure Cleared (b : UniformBlock) (l : Layout) : Prop extends b.Fits l where
  padding : b.params.drop l.slotCount = List.replicate (l.paramLength - l.slotCount) zeroSlot

theorem cleared_new (l : Layout) : (new l).Cleared l where
  toFits := fits_new l
  padding := List.drop_replicate

theorem Cleared.write_eq (hb : b.Cleared l) {w : BlockWrite} (hslots : w.slots.length = l.slotCount)
    (hflags : w.visibility.length = l.filterCount) :
    b.write w.slots w.visibility = .ok (image l w) := by
  rw [write, if_neg (not_not.mpr (hslots.trans hb.slotCount.symm)),
    if_neg (not_not.mpr (hflags.trans hb.filterCount.symm)), hslots, hb.padding, hb.visible,
    hb.slotCount, hb.filterCount]
  rfl

theorem cleared_image {w : BlockWrite} (hslots : w.slots.length = l.slotCount)
    (hflags : w.visibility.length = l.filterCount) : (image l w).Cleared l := by
  obtain ⟨b, hwrite, hfits, -, -⟩ := (fits_new l).write hslots hflags
  cases hwrite.symm.trans ((cleared_new l).write_eq hslots hflags)
  exact ⟨hfits, List.drop_left' hslots⟩

end UniformBlock

namespace HeldBlock

/-- `b` shows the write `w` of a block of the layout `l`, and nothing else. -/
structure Shows (b : HeldBlock) (l : Layout) (w : BlockWrite) : Prop where
  params : b.params.length = l.paramLength
  visible : b.visible.length = l.visibleLength
  slots : ∀ j : Nat, j < w.slots.length → b.params[j]? = w.slots[j]?
  padding : ∀ j : Nat, w.slots.length ≤ j → j < l.paramLength →
    b.params[j]? = some UniformBlock.zeroSlot
  flags : ∀ (i : Nat) shown, w.visibility[i]? = some shown → ∃ word, b.visible[i / 4]? = some word ∧
    word.component (i % 4) = if shown then 1 else 0
  unused : ∀ (i : Nat) word, w.visibility.length ≤ i → b.visible[i / 4]? = some word →
    word.component (i % 4) = 0
  words : b.words = b.params ++ b.visible
  size : b.bytes.length = l.byteSize
  bytes : ∀ (k j : Nat) word, b.words[k]? = some word → j < 4 →
    Binary.littleEndian ((b.bytes.drop (16 * k + 4 * j)).take 4) = (word.component j).toBits

end HeldBlock

namespace UniformBlock

theorem shows_image {w : BlockWrite} (hslots : w.slots.length = l.slotCount)
    (hflags : w.visibility.length = l.filterCount) : (image l w).held.Shows l w := by
  have hcleared := cleared_image hslots hflags
  have hparams : (image l w).held.params = (image l w).params := List.take_left
  have hvisible : (image l w).held.visible = (image l w).visible := List.drop_left
  have hcomponent (i : Nat) (word : Slot) (hword : (image l w).visible[i / 4]? = some word) :
      word.component (i % 4) = flag w.visibility i := by
    obtain ⟨hlt, rfl⟩ := List.getElem?_eq_some_iff.mp hword
    simp only [image, List.getElem_map, List.getElem_range]
    rw [component_flagWord w.visibility _ _ (Nat.mod_lt i (by decide)), Nat.div_add_mod]
  exact {
    params := by rw [hparams, hcleared.params]
    visible := by rw [hvisible, hcleared.visible]
    slots := fun j hj => by rw [hparams, image, List.getElem?_append_left hj]
    padding := fun j hle hj => by
      rw [hparams, image, List.getElem?_append_right hle]
      exact List.getElem?_replicate_of_lt (by omega)
    flags := fun i shown hshown => by
      have hi : i < w.visibility.length := (List.getElem?_eq_some_iff.mp hshown).1
      have hlt : i / 4 < (image l w).visible.length := by
        rw [hcleared.visible, Layout.visibleLength]
        omega
      have hword := List.getElem?_eq_getElem hlt
      refine ⟨(image l w).visible[i / 4], by rw [hvisible, hword], ?_⟩
      rw [hcomponent i _ hword, flag_of_some hshown]
    unused := fun i word hi hword => by
      rw [hvisible] at hword
      rw [hcomponent i word hword, flag_of_length_le hi]
    words := (List.take_append_drop _ _).symm
    size := hcleared.length_bytes
    bytes := fun k j word hword hj => by
      rw [HeldBlock.bytes_component hword hj, Binary.littleEndian_bytes] }

end UniformBlock

/-- Whether the numbers of a write are those of a layout. -/
def Layout.takes (l : Layout) (w : BlockWrite) : Bool :=
  w.slots.length == l.slotCount && w.visibility.length == l.filterCount

namespace HeldBlock

variable {b : UniformBlock} {l : Layout} {w : BlockWrite}

theorem held_new (l : Layout) : (UniformBlock.new l).held = new l := by
  unfold UniformBlock.held UniformBlock.words UniformBlock.new new
  rw [List.length_replicate, List.replicate_append_replicate]

/-- How a block of the layout `l` answers a write. -/
structure Answers (b : HeldBlock) (l : Layout) (w : BlockWrite) : Prop where
  /-- The slots are counted first. -/
  otherSlots : w.slots.length ≠ l.slotCount → (BlockWriter.write w).run b =
    .error (.refused (.uniformMismatch .slots l.slotCount w.slots.length)) b
  otherFilters : w.slots.length = l.slotCount → w.visibility.length ≠ l.filterCount →
    (BlockWriter.write w).run b =
      .error (.refused (.uniformMismatch .filters l.filterCount w.visibility.length)) b
  made : w.slots.length = l.slotCount → w.visibility.length = l.filterCount →
    ∃ b', (BlockWriter.write w).run b = .ok () b' ∧ b'.Shows l w

theorem answers (hb : b.Cleared l) (w : BlockWrite) : b.held.Answers l w where
  otherSlots h := by
    rw [hb.run_write, hb.write_other_slots h]
    rfl
  otherFilters hslots h := by
    rw [hb.run_write, hb.write_other_filters hslots h]
    rfl
  made hslots hflags := by
    rw [hb.run_write, hb.write_eq hslots hflags]
    exact ⟨_, rfl, UniformBlock.shows_image hslots hflags⟩

theorem after_of_takes (hb : b.Cleared l) (h : l.takes w = true) :
    b.held.after w = (UniformBlock.image l w).held ∧ (UniformBlock.image l w).Cleared l := by
  obtain ⟨hslots, hflags⟩ : w.slots.length = l.slotCount ∧ w.visibility.length = l.filterCount := by
    simpa [Layout.takes] using h
  rw [after, hb.run_write, hb.write_eq hslots hflags]
  exact ⟨rfl, UniformBlock.cleared_image hslots hflags⟩

theorem after_of_refused (hb : b.Cleared l) (h : l.takes w = false) : b.held.after w = b.held := by
  have hanswers := answers hb w
  rw [after]
  by_cases hslots : w.slots.length = l.slotCount
  · have hflags : w.visibility.length ≠ l.filterCount := by
      simpa [Layout.takes, hslots] using h
    rw [hanswers.otherFilters hslots hflags]
  · rw [hanswers.otherSlots hslots]

theorem history_concat (b : HeldBlock) (writes : List BlockWrite) (w : BlockWrite) :
    b.history (writes ++ [w]) = (b.history writes).after w := by
  induction writes generalizing b with
  | nil => rfl
  | cons w' rest ih => exact ih (b.after w')

/-- What a history leaves is known from its last write that the layout takes. -/
theorem history_new (l : Layout) (writes : List BlockWrite) :
    ∃ b : UniformBlock, b.Cleared l ∧ (new l).history writes = b.held ∧
      b.held = (writes.filter l.takes).getLast?.elim (new l) (new l).after := by
  induction writes using List.reverseRecOn with
  | nil => exact ⟨.new l, UniformBlock.cleared_new l, (held_new l).symm, held_new l⟩
  | append_singleton rest w ih =>
    obtain ⟨b, hb, hrest, hlast⟩ := ih
    rw [history_concat, hrest, List.filter_append]
    cases h : l.takes w with
    | true =>
      obtain ⟨hafter, hcleared⟩ := after_of_takes hb h
      obtain ⟨hfirst, -⟩ := after_of_takes (UniformBlock.cleared_new l) h
      rw [held_new] at hfirst
      refine ⟨_, hcleared, hafter, ?_⟩
      simp [h, hfirst]
    | false =>
      refine ⟨b, hb, after_of_refused hb h, ?_⟩
      simpa [h] using hlast

end HeldBlock

/-- **A block shows exactly its last successful write.** After any history of writes, successful
ones and refused ones, a block is what the last successful one makes of a new block, and a new block
when there is none. The next write is refused, and leaves the block as it is, if its numbers are not
the layout's; otherwise it is made, and then the words hold its slots, its flags and zeros, and the
bytes spell the words. -/
theorem block_of_last_write (l : Layout) (writes : List BlockWrite) :
    (HeldBlock.new l).history writes =
        (writes.filter l.takes).getLast?.elim (.new l) (HeldBlock.new l).after ∧
      ∀ w, ((HeldBlock.new l).history writes).Answers l w := by
  obtain ⟨b, hb, hhistory, hlast⟩ := HeldBlock.history_new l writes
  rw [hhistory]
  exact ⟨hlast, HeldBlock.answers hb⟩

/-- Filters of two slots and of one: the first is hidden by a second write, and a third write, of
no slots, is refused. -/
theorem block_of_last_write_hidden :
    let l : Layout := ⟨[⟨"first", 0, 2⟩, ⟨"second", 2, 1⟩]⟩
    let slots := List.replicate 3 (Vec4.splat 1)
    let b := (HeldBlock.new l).history [⟨slots, [true, true]⟩, ⟨slots, [false, true]⟩]
    b = (HeldBlock.new l).after ⟨slots, [false, true]⟩ ∧
      (BlockWriter.write ⟨[], [true, true]⟩).run b =
        .error (.refused (.uniformMismatch .slots 3 0)) b := by
  intro l slots b
  obtain ⟨hlast, hanswers⟩ :=
    block_of_last_write l [⟨slots, [true, true]⟩, ⟨slots, [false, true]⟩]
  exact ⟨hlast, (hanswers ⟨[], [true, true]⟩).otherSlots (by decide)⟩

end ColorChain
