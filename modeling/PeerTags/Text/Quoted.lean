import PeerTags.Text.Unprintable
/-! Text between double quotes, as it appears in the detailed form of a value.
What would not show as itself is escaped. -/
namespace PeerTags.Text.Quoted

def hexDigits (n : Nat) : List Char := Nat.toDigits 16 n

def escape (c : Char) : List Char :=
  match c with
  | '\x00' => ['\\', '0']
  | '\t' => ['\\', 't']
  | '\n' => ['\\', 'n']
  | '\r' => ['\\', 'r']
  | '"' => ['\\', '"']
  | '\\' => ['\\', '\\']
  | c => if isUnprintable c then ['\\', 'u', '\x7b'] ++ hexDigits c.toNat ++ ['\x7d'] else [c]

def encode (s : List Char) : List Char := '"' :: s.flatMap escape ++ ['"']

end PeerTags.Text.Quoted

/-- The text between double quotes, with escapes. -/
def PeerTags.Text.quoted (s : String) : String := String.ofList (Quoted.encode s.toList)
