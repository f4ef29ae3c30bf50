import ColorChain.Program.UniformBlock

/-! A uniform block that is held.

A program that is drawn frame by frame keeps one run of words and overwrites it for each frame: the
parameter words at its front, the visibility words behind them. What an earlier frame wrote is
still there until something is written over it. The operations here change the words write by
write, and an error leaves them as the writes so far have made them. An index outside the run
stops a write with a fault of its own, so that none is reached is to be shown, too. -/
namespace ColorChain

/-- The vector with component `index` replaced, the last one for any index from 3 on. -/
def Vec4.withComponent {α : Type} (v : Vec4 α) (a : α) : Nat → Vec4 α
  | 0 => { v with x := a }
  | 1 => { v with y := a }
  | 2 => { v with z := a }
  | _ => { v with w := a }

/-- What is written into a block: the slots of all filters, and whether each filter is shown. -/
structure BlockWrite where
  slots : List Slot
  visibility : List Bool

/-- Visibility words follow the first `paramLength` words. -/
structure HeldBlock where
  words : List Slot
  paramLength : Nat
  slotCount : Nat
  filterCount : Nat

namespace HeldBlock

/-- The block of a layout with nothing written: every filter is hidden. -/
def new (l : Layout) : HeldBlock where
  words := List.replicate (l.paramLength + l.visibleLength) UniformBlock.zeroSlot
  paramLength := l.paramLength
  slotCount := l.slotCount
  filterCount := l.filterCount

def params (b : HeldBlock) : List Slot := b.words.take b.paramLength

def visible (b : HeldBlock) : List Slot := b.words.drop b.paramLength

/-- The bytes of a block, word by word. -/
def bytes (b : HeldBlock) : List UInt8 :=
  b.words.flatMap fun word => word.toList.flatMap Binary.bytes

end HeldBlock

/-- What stops a write into a held block. -/
inductive WriteFault where
  | refused (e : ProgramError)
  /-- No word has this index. -/
  | outside (index : Nat)

/-- Work on a held block. An error keeps the block as it is when the error arises. -/
abbrev BlockWriter (α : Type) := EStateM WriteFault HeldBlock α

namespace BlockWriter

/-- Puts slots in the place of the first words. -/
def copySlots (slots : List Slot) : BlockWriter Unit := do
  let b ← get
  if b.words.length < slots.length then
    throw (.outside b.words.length)
  set { b with words := slots ++ b.words.drop slots.length }

/-- Hides every filter, and clears what belongs to none. -/
def clearFlags : BlockWriter Unit := do
  let b ← get
  if b.words.length < b.paramLength then
    throw (.outside b.words.length)
  set { b with words := b.params ++ b.visible.map fun _ => UniformBlock.zeroSlot }

/-- Sets the flag of filter `index`. -/
def setFlag (index : Nat) (shown : Bool) : BlockWriter Unit := do
  let b ← get
  let position := b.paramLength + index / 4
  match b.words[position]? with
  | none => throw (.outside position)
  | some word =>
    let word := word.withComponent (if shown then 1 else 0) (index % 4)
    set { b with words := b.words.set position word }

/-- Sets the flags of the filters from `index` on. -/
def setFlags (index : Nat) : List Bool → BlockWriter Unit
  | [] => pure ()
  | shown :: rest => do
    setFlag index shown
    setFlags (index + 1) rest

/-- Writes slots and flags, or nothing when their numbers are not the block's. -/
def write (w : BlockWrite) : BlockWriter Unit := do
  let b ← get
  if w.slots.length ≠ b.slotCount then
    throw (.refused (.uniformMismatch .slots b.slotCount w.slots.length))
  if w.visibility.length ≠ b.filterCount then
    throw (.refused (.uniformMismatch .filters b.filterCount w.visibility.length))
  copySlots w.slots
  clearFlags
  setFlags 0 w.visibility

end BlockWriter

namespace HeldBlock

/-- The block after a write, made or refused. -/
def after (b : HeldBlock) (w : BlockWrite) : HeldBlock :=
  match (BlockWriter.write w).run b with
  | .ok _ b => b
  | .error _ b => b

/-- The block after a history of writes. -/
def history (b : HeldBlock) : List BlockWrite → HeldBlock
  | [] => b
  | w :: rest => history (b.after w) rest

end HeldBlock
end ColorChain
