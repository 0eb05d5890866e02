import PeerTags.Radix
/-! Strings as they are written in a JSON text. Quotes, backslashes and controls
are escaped, all else stands for itself. -/
namespace PeerTags.Json

/-- The lower-case digit of a number below 16. -/
def hexDigit (n : Nat) : Char := Char.ofNat (if n < 10 then 48 + n else 87 + n)

def escape (c : Char) : List Char :=
  match c with
  | '"' => ['\\', '"']
  | '\\' => ['\\', '\\']
  | '\x08' => ['\\', 'b']
  | '\x0c' => ['\\', 'f']
  | '\n' => ['\\', 'n']
  | '\r' => ['\\', 'r']
  | '\t' => ['\\', 't']
  | c => if c < ' ' then ['\\', 'u', '0', '0', hexDigit (c.toNat / 16), hexDigit (c.toNat % 16)] else [c]

def quote (s : List Char) : List Char := '"' :: s.flatMap escape ++ ['"']

end PeerTags.Json
