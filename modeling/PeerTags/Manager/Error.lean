import PeerTags.Text.Nested
import PeerTags.Text.Quoted
/-! Why a manager refuses an operation. -/
namespace PeerTags.Manager

inductive Error where
  /-- An open decaying tag has the name already. -/
  | nameTaken (name : String)
  | closed (name : String)
  | decayUnsupported
  | rejected (what : String)
  /-- No decaying tag was ever issued under the number. -/
  | unknown (number : Nat)
  /-- The bounds of a bump are crossed, so that no value lies between them. -/
  | crossedBounds
deriving DecidableEq

namespace Error

def message : Error → String
  | nameTaken name => "decaying tag with name " ++ name ++ " already exists"
  | closed name => "decaying tag " ++ name ++ " has been closed"
  | decayUnsupported => "connection manager does not support decaying tags"
  | rejected what => "tag operation rejected: " ++ what
  | unknown number => "no decaying tag has number " ++ toString number
  | crossedBounds => "bump bounds are crossed"

open Text in
def detail : Error → String
  | nameTaken name => variant "DuplicateTag" (quoted name)
  | closed name => variant "TagClosed" (quoted name)
  | decayUnsupported => "DecayUnsupported"
  | rejected what => variant "Rejected" (quoted what)
  | unknown number => variant "Unknown" (toString number)
  | crossedBounds => "CrossedBounds"

end Error
end PeerTags.Manager
