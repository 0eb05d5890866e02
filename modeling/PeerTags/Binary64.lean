import PeerTags.Amount
/-! Floating-point numbers of 64 bits, read as exact numbers. A finite one is
`± mantissa * 2^exponent`; a product is formed exactly and rounded once, to the
nearest number of the format, a tie going to the even neighbour. -/
namespace PeerTags

inductive Binary64 where
  | nan
  | infinite (negative : Bool)
  | finite (negative : Bool) (mantissa : Nat) (exponent : Int)
deriving DecidableEq

namespace Binary64

/-- One sign bit, eleven bits of exponent, 52 bits of fraction. -/
def ofBits (bits : UInt64) : Binary64 :=
  let fraction : Nat := bits.toNat % Nat.pow 2 52
  let biased : Nat := bits.toNat / Nat.pow 2 52 % Nat.pow 2 11
  let negative := bits.toNat / Nat.pow 2 63 == 1
  if biased = 2047 then if fraction = 0 then infinite negative else nan
  else if biased = 0 then finite negative fraction (-1074)
  else finite negative (Nat.pow 2 52 + fraction) ((biased : Int) - 1075)

/-- The integer nearest to `n / d`; of two, the even one. -/
def nearest (n d : Nat) : Nat :=
  let q := n / d
  let r := n % d
  if 2 * r < d then q else if d < 2 * r then q + 1 else if q % 2 = 0 then q else q + 1

/-- The number of the format nearest to `± mantissa * 2^exponent`. It has at most
53 bits and no bit below `2^-1074`; what reaches `2^1024` is infinite. -/
def round (negative : Bool) (mantissa : Nat) (exponent : Int) : Binary64 :=
  let least := max (exponent + (Nat.log2 mantissa : Int) - 52) (-1074)
  let (m, e) :=
    if least ≤ exponent then (mantissa, exponent)
    else (nearest mantissa (Nat.pow 2 (least - exponent).toNat), least)
  if m ≠ 0 ∧ 1024 ≤ e + (Nat.log2 m : Int) then infinite negative else finite negative m e

def ofInt (i : Int) : Binary64 := round (decide (i < 0)) i.natAbs 0

/-- Zero times infinity is not a number. -/
def mul : Binary64 → Binary64 → Binary64
  | nan, _ | _, nan => nan
  | infinite s, infinite t => infinite (s != t)
  | infinite s, finite t m _ | finite t m _, infinite s => if m = 0 then nan else infinite (s != t)
  | finite s m e, finite t n f => round (s != t) (m * n) (e + f)

/-- The greatest integer that is not above a finite number. -/
def floor (negative : Bool) (mantissa : Nat) (exponent : Int) : Int :=
  let signed : Int := if negative then -(mantissa : Int) else mantissa
  if 0 ≤ exponent then signed * (Nat.pow 2 exponent.toNat : Nat) else signed / (Nat.pow 2 (-exponent).toNat : Nat)

/-- The amount closest to the floor; zero for what is not a number. -/
def floorAmount : Binary64 → Amount
  | nan => 0
  | infinite true => Amount.least
  | infinite false => Amount.greatest
  | finite negative mantissa exponent => Amount.clamp (floor negative mantissa exponent)

end Binary64
end PeerTags
