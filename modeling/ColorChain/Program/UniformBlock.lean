import ColorChain.Program.Layout

/-! Uniform blocks: the values a program runs on.

A block holds the parameter words and after them the visibility words of a layout. Writing
replaces all parameters and all flags at once, or nothing when their numbers do not fit the
layout. -/
namespace ColorChain

structure UniformBlock where
  slotCount : Nat
  filterCount : Nat
  params : List Slot
  visible : List Slot
  deriving DecidableEq

namespace UniformBlock

def zeroSlot : Slot := .splat (.zero false)

/-- The block of a layout with nothing written: every filter is hidden. -/
def new (l : Layout) : UniformBlock where
  slotCount := l.slotCount
  filterCount := l.filterCount
  params := List.replicate l.paramLength zeroSlot
  visible := List.replicate l.visibleLength zeroSlot

/-- The flag of filter `index`: 1 if it is shown. Past the last filter it is 0. -/
def flag (visibility : List Bool) (index : Nat) : Single :=
  if visibility[index]?.getD false then 1 else 0

/-- Visibility word `word`, with the flags of four filters. -/
def flagWord (visibility : List Bool) (word : Nat) : Slot :=
  ⟨flag visibility (4 * word), flag visibility (4 * word + 1), flag visibility (4 * word + 2),
    flag visibility (4 * word + 3)⟩

/-- The block with all slots and flags replaced. -/
def write (b : UniformBlock) (slots : List Slot) (visibility : List Bool) :
    Except ProgramError UniformBlock :=
  if slots.length ≠ b.slotCount then
    .error (.uniformMismatch .slots b.slotCount slots.length)
  else if visibility.length ≠ b.filterCount then
    .error (.uniformMismatch .filters b.filterCount visibility.length)
  else .ok { b with
    params := slots ++ b.params.drop slots.length
    visible := (List.range b.visible.length).map (flagWord visibility) }

def words (b : UniformBlock) : List Slot := b.params ++ b.visible

end UniformBlock

/-- The four bytes of a number, the lowest first. -/
def Binary.bytes (x : Single) : List UInt8 :=
  let n := x.toBits
  [.ofNat n, .ofNat (n / 2 ^ (8 : Nat)), .ofNat (n / 2 ^ (16 : Nat)), .ofNat (n / 2 ^ (24 : Nat))]

/-- The bytes of a block, word by word. -/
def UniformBlock.bytes (b : UniformBlock) : List UInt8 :=
  b.words.flatMap fun word => word.toList.flatMap Binary.bytes

end ColorChain
