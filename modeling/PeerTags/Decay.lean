import PeerTags.Binary64
/-! How a decaying tag's value falls from one interval to the next. -/
namespace PeerTags

inductive Decay where
  /-- The value stays. -/
  | never
  /-- A constant is taken off. -/
  | fixed (amount : Amount)
  /-- The value is multiplied and rounded down. -/
  | linear (coefficient : Binary64)
  /-- The value stays until it has not been visited for so many seconds. -/
  | expiring (after : Nat)
  /-- Any other function of the value and the seconds since the last visit. -/
  | custom (next : (idle : Nat) → (value : Amount) → Option Amount)

namespace Decay

def positive? (a : Amount) : Option Amount := if 0 < a.toInt then some a else none

/-- The next value, or none if the entry is to be dropped. Of the stock
functions only `expiring` depends on the seconds since the last visit. -/
def next (d : Decay) (idle : Nat) (value : Amount) : Option Amount :=
  match d with
  | never => some value
  | fixed amount => positive? (value - amount)
  | linear coefficient => positive? ((Binary64.ofInt value.toInt).mul coefficient).floorAmount
  | expiring after => if idle < after then some value else none
  | custom next => next idle value

/-- The values of so many intervals in a row; a final `none` is the entry's end. -/
def run (d : Decay) (idle : Nat) : (intervals : Nat) → (value : Amount) → List (Option Amount)
  | 0, _ => []
  | n + 1, value =>
    match d.next idle value with
    | none => [none]
    | some w => some w :: d.run idle n w

end Decay
end PeerTags
