import PeerTags.Json.Value
import PeerTags.Options.Basic
/-! Settings read from a JSON text. An object names the fields, each at most
once; keys of no field are passed over. An array gives the fields in their
order and may stop early. Fields that are not given keep their defaults. -/
namespace PeerTags.Options

def stringItem? : Json → Option String
  | .string content => content
  | _ => none

/-- What a field is set to. Only the direct peers may be null. -/
def Setting.ofJson? : Field → Json → Option Setting
  | .directPeers, .null => some (.directPeers none)
  | .directPeers, .array items => (items.mapM stringItem?).map fun peers => .directPeers (some peers)
  | f, .number integer => integer.bind (ofInt? f)
  | _, _ => none

def ofItems? (items : List Json) : Option Options :=
  if items.length ≤ Field.all.length then
    (List.zip Field.all items).foldlM (fun o (f, item) => (Setting.ofJson? f item).map o.set) default
  else none

/-- Take one member in; fields that were given before are listed with the settings. -/
def takeMember (sofar : Options × List Field) (m : Json.Member) : Option (Options × List Field) :=
  m.1.bind fun key =>
    match Field.ofKey? key with
    | none => some sofar
    | some f => if f ∈ sofar.2 then none else (Setting.ofJson? f m.2).map fun s => (sofar.1.set s, f :: sofar.2)

def ofMembers? (members : List Json.Member) : Option Options :=
  (members.foldlM takeMember (default, [])).map (·.1)

def ofValue? : Json → Option Options
  | .array items => ofItems? items
  | .object members => ofMembers? members
  | _ => none

def ofJson? (text : String) : Option Options := (Json.parse? text).bind ofValue?

end PeerTags.Options
