/-! Binary floating-point numbers.

A format says how many bits hold the fraction and how many the exponent. The
magnitudes of a format, laid out in increasing order from zero, have the indexes
0, 1, 2, …: the index is what the bits below the sign spell as a number, so the
next larger magnitude always has the next index. Infinity follows the largest
finite magnitude, and every index beyond infinity is a not-a-number, whose index
is its payload.

Each finite magnitude is a whole number of *units* (`Format.units`), the unit being
the smallest positive magnitude, two to the minus `Format.unitBits`. Exact arithmetic on
these numbers is arithmetic on integers. -/
namespace ColorChain

-- A power of natural numbers is the core library's, whatever else is imported.
attribute [scoped instance (high)] instPowNat

/-- The widths of the two fields of a binary format. -/
structure Format where
  fractionBits : Nat
  exponentBits : Nat
  deriving DecidableEq, Repr

namespace Format

/-- Thirty-two bits: colours, slots and control values. -/
def single : Format := ⟨23, 8⟩

/-- Sixty-four bits: displayed numbers on their way through rounding. -/
def double : Format := ⟨52, 11⟩

variable (f : Format)

/-- The unit is two to the minus this. -/
def unitBits : Nat := 2 ^ (f.exponentBits - 1) + f.fractionBits - 2

/-- Every index lies below this; the sign is the bit of this weight. -/
def indexBound : Nat := 2 ^ (f.fractionBits + f.exponentBits)

/-- The index of infinity: all exponent bits set, no fraction bit set. -/
def infinityIndex : Nat := (2 ^ f.exponentBits - 1) * 2 ^ f.fractionBits

/-- The fraction bit that tells a quiet not-a-number from a signalling one. -/
def quietBit : Nat := 2 ^ (f.fractionBits - 1)

/-- The magnitude of index `n`, in units. The indexes fall into blocks of
`2 ^ fractionBits`; neighbours are one unit apart in the first two blocks and twice
as far apart in each block after that. -/
def units (n : Nat) : Nat :=
  let block := 2 ^ f.fractionBits
  if n < block then n else (block + n % block) * 2 ^ (n / block - 1)

theorem indexBound_pos : 0 < f.indexBound := Nat.two_pow_pos _

theorem infinityIndex_lt : f.infinityIndex < f.indexBound := by
  unfold infinityIndex indexBound
  rw [Nat.pow_add, Nat.mul_comm]
  exact Nat.mul_lt_mul_of_pos_left (Nat.sub_lt (Nat.two_pow_pos _) Nat.one_pos)
    (Nat.two_pow_pos _)

end Format

/-- A number of format `f`: its sign and the index of its magnitude. -/
structure Binary (f : Format) where
  negative : Bool
  index : Nat
  index_lt : index < f.indexBound
  deriving DecidableEq

abbrev Single := Binary .single

abbrev Double := Binary .double

namespace Binary

variable {f : Format}

@[ext] theorem ext {x y : Binary f} (hs : x.negative = y.negative) (hi : x.index = y.index) :
    x = y := by
  cases x; cases y; cases hs; cases hi; rfl

/-! ### Bits -/

/-- The number with the given sign and index bits, higher bits dropped. -/
def ofIndex (negative : Bool) (n : Nat) : Binary f :=
  ⟨negative, n % f.indexBound, Nat.mod_lt _ f.indexBound_pos⟩

/-- The number whose bits, sign first, spell `n`. -/
def ofBits (n : Nat) : Binary f := ofIndex (n / f.indexBound % 2 == 1) n

def toBits (x : Binary f) : Nat := (if x.negative then f.indexBound else 0) + x.index

/-! ### Classes -/

def isNaN (x : Binary f) : Bool := f.infinityIndex < x.index

def isInfinite (x : Binary f) : Bool := x.index == f.infinityIndex

def isFinite (x : Binary f) : Bool := x.index < f.infinityIndex

def isZero (x : Binary f) : Bool := x.index == 0

/-- The value of a finite number, in units. Both zeros have the value 0. -/
def units (x : Binary f) : Int :=
  if x.negative then -(f.units x.index : Int) else f.units x.index

/-! ### Special numbers -/

def zero (negative : Bool) : Binary f := ⟨negative, 0, f.indexBound_pos⟩

def infinity (negative : Bool) : Binary f := ⟨negative, f.infinityIndex, f.infinityIndex_lt⟩

/-- The not-a-number that an operation without a meaningful result produces. -/
def indefinite : Binary f := ofIndex true (f.infinityIndex ||| f.quietBit)

/-- A not-a-number as an operation passes it on: its payload with the quiet bit set. -/
def quiet (x : Binary f) : Binary f := ofIndex x.negative (x.index ||| f.quietBit)

/-- The result of an operation on two operands: a not-a-number among them wins, the
left one first, and otherwise `result` stands. -/
def orNaN (x y result : Binary f) : Binary f :=
  if x.isNaN then x.quiet else if y.isNaN then y.quiet else result

/-! ### Comparisons

Every comparison with a not-a-number is false. The others compare positions on the
signed line of indexes, on which both zeros are at 0. -/

def position (x : Binary f) : Int := if x.negative then -(x.index : Int) else x.index

def lt (x y : Binary f) : Bool := !x.isNaN && !y.isNaN && decide (x.position < y.position)

def le (x y : Binary f) : Bool := !x.isNaN && !y.isNaN && decide (x.position ≤ y.position)

/-- Equality as numbers: zeros of either sign are equal and a not-a-number is not
even equal to itself. -/
def same (x y : Binary f) : Bool := !x.isNaN && !y.isNaN && x.position == y.position

instance : BEq (Binary f) := ⟨same⟩

/-- The smaller operand; a not-a-number yields to a number, and of two equal operands
the second is taken. -/
def lower (x y : Binary f) : Binary f := if y.isNaN then x else if x.lt y then x else y

/-- The larger operand; a not-a-number yields to a number, and of two equal operands
the second is taken. -/
def upper (x y : Binary f) : Binary f := if y.isNaN then x else if y.lt x then x else y

end Binary
end ColorChain
