import PeerTags.Amount
/-! How a decaying tag's value takes in a new amount. -/
namespace PeerTags

inductive Bump where
  | sum
  | bounded (least greatest : Amount)
  | capped (greatest : Amount)
  | overwrite
  /-- Any other function of the value and the new amount. -/
  | custom (combine : (value delta : Amount) → Amount)

/-- The new value. Only crossed bounds have none. -/
def Bump.apply (b : Bump) (value delta : Amount) : Option Amount :=
  match b with
  | sum => some (value + delta)
  | bounded least greatest =>
    if least ≤ greatest then some (max least (min (value + delta) greatest)) else none
  | capped greatest => some (min (value + delta) greatest)
  | overwrite => some delta
  | custom combine => some (combine value delta)

end PeerTags
