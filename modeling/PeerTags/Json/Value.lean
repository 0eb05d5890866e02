import PeerTags.Json.Token
/-! JSON values and their reading from tokens. Reading goes once over the tokens
and keeps the containers it is inside of, so that depth costs no recursion. -/
namespace PeerTags

/-- What a JSON text says; see `Json.Token` for numbers and strings. -/
inductive Json where
  | null
  | bool (value : Bool)
  | number (integer : Option Int)
  | string (content : Option String)
  | array (items : List Json)
  | object (members : List (Option String × Json))

namespace Json

abbrev Member := Option String × Json

/-- A container that waits for the value that is being read in it. What it holds
already is latest first. -/
inductive Frame where
  | array (items : List Json)
  | object (members : List Member) (key : Option String)

/-- What may come next. -/
inductive Place where
  | value
  /-- After an opening bracket. -/
  | valueOrEnd
  /-- After an opening brace. -/
  | keyOrEnd
  | key (members : List Member)
  | colon (members : List Member) (key : Option String)
  /-- After a value. -/
  | after (value : Json)

structure Reader where
  inside : List Frame
  place : Place

namespace Reader

def start : Reader := ⟨[], .value⟩

/-- A token where a value may begin. -/
def beginValue (inside : List Frame) : Token → Option Reader
  | .null => some ⟨inside, .after .null⟩
  | .bool b => some ⟨inside, .after (.bool b)⟩
  | .number n => some ⟨inside, .after (.number n)⟩
  | .string s => some ⟨inside, .after (.string s)⟩
  | .leftBracket => some ⟨inside, .valueOrEnd⟩
  | .leftBrace => some ⟨inside, .keyOrEnd⟩
  | _ => none

/-- A token after a value: the container goes on or ends. -/
def afterValue (v : Json) : List Frame → Token → Option Reader
  | .array items :: outer, .comma => some ⟨.array (v :: items) :: outer, .value⟩
  | .array items :: outer, .rightBracket => some ⟨outer, .after (.array (v :: items).reverse)⟩
  | .object members key :: outer, .comma => some ⟨outer, .key ((key, v) :: members)⟩
  | .object members key :: outer, .rightBrace => some ⟨outer, .after (.object ((key, v) :: members).reverse)⟩
  | _, _ => none

def step (r : Reader) (t : Token) : Option Reader :=
  match r.place, t with
  | .value, t => beginValue r.inside t
  | .valueOrEnd, .rightBracket => some ⟨r.inside, .after (.array [])⟩
  | .valueOrEnd, t => beginValue (.array [] :: r.inside) t
  | .keyOrEnd, .rightBrace => some ⟨r.inside, .after (.object [])⟩
  | .keyOrEnd, .string key => some ⟨r.inside, .colon [] key⟩
  | .key members, .string key => some ⟨r.inside, .colon members key⟩
  | .colon members key, .colon => some ⟨.object members key :: r.inside, .value⟩
  | .after v, t => afterValue v r.inside t
  | _, _ => none

/-- The value, once it is whole. -/
def result? : Reader → Option Json
  | ⟨[], .after v⟩ => some v
  | _ => none

end Reader

def ofTokens? (ts : List Token) : Option Json := (ts.foldlM Reader.step Reader.start).bind Reader.result?

def parse? (s : String) : Option Json := (tokens? s.toList).bind ofTokens?

end Json
end PeerTags
