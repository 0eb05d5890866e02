import PeerTags.Options.Basic
/-! Settings read from a command line. An option's value follows an equals sign
or is the next argument. It is taken in at once in the first case; in the
second, when the next option or a call for help begins, or at the end: an
argument that is out of place is reported before such a value. -/
namespace PeerTags.Options.CommandLine

/-- Why a command line gives no settings. -/
inductive Stop where
  | unknownArgument
  /-- An option's value is missing. -/
  | invalidValue
  /-- A value is not a number of its field. -/
  | valueValidation
  /-- A number is given twice. -/
  | argumentConflict
  | displayHelp
  /-- Help takes no value. -/
  | tooManyValues
deriving DecidableEq

/-- An option whose value stands in an argument of its own. -/
inductive Pending where
  | none
  | awaiting (field : Field)
  | holding (field : Field) (value : List Char)
deriving DecidableEq

structure Scan where
  options : Options
  /-- The number fields that were given. -/
  given : List Field
  pending : Pending
  /-- After two dashes, no argument is an option. -/
  optionsEnded : Bool

def Scan.start : Scan := ⟨default, [], .none, false⟩

/-- The parts between commas; of n commas n + 1 parts, empty ones among them. -/
def splitCommas : List Char → List (List Char)
  | [] => [[]]
  | c :: rest =>
    match splitCommas rest with
    | [] => [[c]]
    | part :: parts => if c = ',' then [] :: part :: parts else (c :: part) :: parts

/-- A number field's value. Seconds have no minus sign. -/
def settingOfText? (f : Field) (value : List Char) : Option Setting :=
  match f with
  | .decayIntervalSecs => (Text.Decimal.toUnsigned? value).bind fun n => Setting.ofInt? f n
  | _ => (Text.Decimal.toSigned? value).bind (Setting.ofInt? f)

/-- Take a value in. Peers are added to those given before. -/
def take (s : Scan) (f : Field) (value : List Char) : Except Stop Scan :=
  if f = .directPeers then
    let peers := s.options.directPeers.getD [] ++ (splitCommas value).map String.ofList
    .ok { s with options := s.options.set (.directPeers (some peers)) }
  else if f ∈ s.given then .error .argumentConflict
  else
    match settingOfText? f value with
    | none => .error .valueValidation
    | some setting => .ok { s with options := s.options.set setting, given := f :: s.given }

/-- Be done with the pending option. -/
def settle (s : Scan) : Except Stop Scan :=
  match s.pending with
  | .none => .ok s
  | .awaiting _ => .error .invalidValue
  | .holding f value => take { s with pending := .none } f value

/-- What an argument is by its form. -/
inductive Shape where
  /-- Two dashes alone. -/
  | endOfOptions
  /-- A name after two dashes, and what follows an equals sign. -/
  | long (name : List Char) (value : Option (List Char))
  /-- Letters after one dash. -/
  | short (letters : List Char)
  /-- Anything else, a dash alone too. -/
  | plain
deriving DecidableEq

def shape : List Char → Shape
  | ['-', '-'] => .endOfOptions
  | '-' :: '-' :: s =>
    match s.dropWhile (· ≠ '=') with
    | [] => .long s none
    | _ :: value => .long (s.takeWhile (· ≠ '=')) (some value)
  | '-' :: c :: s => .short (c :: s)
  | _ => .plain

def longOption (s : Scan) (name : List Char) (value : Option (List Char)) : Except Stop Scan :=
  if name = "help".toList then
    match value with
    | some _ => .error .tooManyValues
    | none => (settle s).bind fun _ => .error .displayHelp
  else
    match Field.ofFlag? name, value with
    | none, _ => .error .unknownArgument
    | some f, some value => (settle s).bind fun s => take s f value
    | some f, none => (settle s).map fun s => { s with pending := .awaiting f }

def step (s : Scan) (arg : String) : Except Stop Scan :=
  if s.optionsEnded then .error .unknownArgument
  else
    match shape arg.toList with
    | .endOfOptions => .ok { s with optionsEnded := true }
    | .long name value => longOption s name value
    | .short letters =>
      if letters.head? = some 'h' then (settle s).bind fun _ => .error .displayHelp else .error .unknownArgument
    | .plain =>
      match s.pending with
      | .awaiting f => .ok { s with pending := .holding f arg.toList }
      | _ => .error .unknownArgument

/-- The settings that the arguments give; the first argument that cannot go on decides the error. -/
def parse (args : List String) : Except Stop Options :=
  (args.foldlM step Scan.start).bind fun s => (settle s).map Scan.options

end PeerTags.Options.CommandLine
