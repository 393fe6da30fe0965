/-!
# Classes of characters

The classes that a grammar can ask for. Their digits and letters are those of ASCII; a range is one of code
points, both ends included.

A numeral is made of decimal digits, and these may be of any script: the Unicode property Decimal. Each
script has its ten digits in a row, from zero to nine. Leading zeros are allowed.
-/

namespace Descent.Text

inductive CharClass where
  | digit
  | letter
  | all
  | none
  | among (chars : String)
  | notAmong (chars : String)
  | between (low high : Int)
  deriving DecidableEq

def CharClass.has : CharClass → Char → Bool
  | digit, c => c.isDigit
  | letter, c => c.isAlpha
  | all, _ => true
  | none, _ => false
  | among chars, c => chars.toList.contains c
  | notAmong chars, c => !chars.toList.contains c
  | between low high, c => low ≤ c.toNat && c.toNat ≤ high

/-! ## Decimal digits -/

/-- The code points of the digits zero, as of Unicode 14. -/
def zeros : List Nat :=
  [0x30, 0x660, 0x6f0, 0x7c0, 0x966, 0x9e6, 0xa66, 0xae6, 0xb66, 0xbe6, 0xc66, 0xce6, 0xd66, 0xde6,
   0xe50, 0xed0, 0xf20, 0x1040, 0x1090, 0x17e0, 0x1810, 0x1946, 0x19d0, 0x1a80, 0x1a90, 0x1b50,
   0x1bb0, 0x1c40, 0x1c50, 0xa620, 0xa8d0, 0xa900, 0xa9d0, 0xa9f0, 0xaa50, 0xabf0, 0xff10, 0x104a0,
   0x10d30, 0x11066, 0x110f0, 0x11136, 0x111d0, 0x112f0, 0x11450, 0x114d0, 0x11650, 0x116c0, 0x11730,
   0x118e0, 0x11950, 0x11c50, 0x11d50, 0x11da0, 0x16a60, 0x16ac0, 0x16b50, 0x1d7ce, 0x1d7d8, 0x1d7e2,
   0x1d7ec, 0x1d7f6, 0x1e140, 0x1e2f0, 0x1e950, 0x1fbf0]

-- ascending, and no two rows of ten overlap
example : zeros.Pairwise (· + 10 ≤ ·) := by decide

/-- What a decimal digit counts. -/
def digit? (c : Char) : Option Nat :=
  (zeros.find? fun z => z ≤ c.toNat && c.toNat < z + 10).map (c.toNat - ·)

def isDecimal (c : Char) : Bool := (digit? c).isSome

namespace Numeral

def isNumeral (digits : List Char) : Bool := !digits.isEmpty && digits.all isDecimal

theorem isNumeral_iff {digits : List Char} :
    isNumeral digits ↔ digits ≠ [] ∧ ∀ c ∈ digits, isDecimal c := by
  simp [isNumeral]

def value (digits : List Char) : Nat := digits.foldl (fun n c => 10 * n + (digit? c).getD 0) 0

def read? (chars : List Char) : Option Nat :=
  if isNumeral chars then some (value chars) else none

end Numeral

end Descent.Text
