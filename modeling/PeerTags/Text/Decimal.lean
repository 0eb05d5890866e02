import PeerTags.Radix
/-! Whole numbers in decimal, as they are written and as they are read. Reading
takes leading zeros and a leading plus sign, neither of which is ever written. -/
namespace PeerTags.Text.Decimal

def ofDigit (d : Nat) : Char := Char.ofNat (48 + d)

/-- The value of one of the ten characters `0` to `9`. -/
def digit? (c : Char) : Option Nat :=
  if '0' ≤ c ∧ c ≤ '9' then some (c.toNat - 48) else none

def ofNat (n : Nat) : List Char :=
  if n = 0 then ['0'] else (Radix.digits 10 n).map ofDigit

def ofInt (i : Int) : List Char :=
  if i < 0 then '-' :: ofNat i.natAbs else ofNat i.natAbs

/-- One or more digits. -/
def toNat? (s : List Char) : Option Nat :=
  if s = [] then none else (s.mapM digit?).map (Radix.value 10)

/-- Digits after an optional plus sign. -/
def toUnsigned? : List Char → Option Nat
  | '+' :: s => toNat? s
  | s => toNat? s

/-- Digits after an optional sign. -/
def toSigned? : List Char → Option Int
  | '-' :: s => (toNat? s).map fun n => -(n : Int)
  | s => (toUnsigned? s).map Int.ofNat

end PeerTags.Text.Decimal
