import PeerTags.Tagger.Detail
/-! Several managers with the observers that tag on them. An observer names its
manager by place; a manager may be shared. Decaying tags are numbered once more
in the order in which any manager issued them: these are the session's handles. -/
namespace PeerTags.Session

/-- A manager and how often it was asked for decay support. One that is only
used for static tags is never asked. -/
structure Seat where
  manager : Manager
  staticOnly : Bool
  probes : Nat

def Seat.probed (s : Seat) : Seat := if s.staticOnly then s else { s with probes := s.probes + 1 }

inductive Observer where
  /-- Takes no notice of events. -/
  | silent
  | tagger (manager : Nat) (tagger : Tagger)

structure World where
  seats : List Seat
  observers : List Observer
  /-- Manager and number of each decaying tag, oldest first. -/
  handles : List (Nat × Nat)
  /-- Kept from the first tagger on. -/
  tally : Option Tally

namespace World

/-- What a manager is made to be. -/
inductive Kind where
  | decaying
  | withoutDecay
  /-- Only used for static tags, so without decay support too. -/
  | staticOnly
deriving DecidableEq

def Kind.seat : Kind → Seat
  | decaying => ⟨.new true, false, 0⟩
  | withoutDecay => ⟨.new false, false, 0⟩
  | staticOnly => ⟨.new false, true, 0⟩

def ofKinds (kinds : List Kind) : World := ⟨kinds.map Kind.seat, [], [], none⟩

def manager? (w : World) (i : Nat) : Option Manager := (w.seats[i]?).map Seat.manager

def tagger? (w : World) (i : Nat) : Option Tagger :=
  match w.observers[i]? with
  | some (.tagger _ t) => some t
  | _ => none

/-- The handles that a manager's new decaying tags get. -/
def newHandles (i : Nat) (before after : Manager) : List (Nat × Nat) :=
  (List.range' before.issued.length (after.issued.length - before.issued.length)).map (i, ·)

/-- Put a manager in the place of its earlier state. -/
def setManager (w : World) (i : Nat) (after : Manager) : World :=
  match w.seats[i]? with
  | none => w
  | some seat =>
    { w with
      seats := w.seats.set i { seat with manager := after }
      handles := w.handles ++ newHandles i seat.manager after }

def probe (w : World) (i : Nat) : World := { w with seats := w.seats.modify i Seat.probed }

/-- How an observer begins. -/
inductive Opening where
  | silent
  | tagger (manager : Nat) (config : Config) (direct : List Peer)

/-- What came of it: whether it tags, or why its settings were refused. -/
structure Opened where
  result : Except Config.Error Bool
  log : List LogEntry

/-- Settings are checked before the manager is asked for decay support. With
settings that are refused the observer stays silent. -/
def addObserver (w : World) : Opening → World × Opened
  | .silent => ({ w with observers := w.observers ++ [.silent] }, ⟨.ok false, []⟩)
  | .tagger i config direct =>
    match w.seats[i]? with
    | none => ({ w with observers := w.observers ++ [.silent] }, ⟨.ok false, []⟩)
    | some seat =>
      match Tagger.create config seat.manager.supportsDecay (PeerSet.ofList direct) with
      | .error e => ({ w with observers := w.observers ++ [.silent] }, ⟨.error e, []⟩)
      | .ok (t, log) =>
        let w := w.probe i
        ({ w with observers := w.observers ++ [.tagger i t], tally := some (w.tally.getD .zero) }, ⟨.ok true, log⟩)

def openWith (w : World) (openings : List Opening) : World × List Opened :=
  openings.foldl (fun (w, done) opening =>
    let (w, opened) := w.addObserver opening
    (w, done ++ [opened])) (w, [])

/-- Let one observer react to an event. -/
def notify (w : World) (event : Event) (i : Nat) : World × List LogEntry :=
  match w.observers[i]? with
  | some (.tagger j t) =>
    match w.manager? j with
    | none => (w, [])
    | some m =>
      let r := t.react m event
      let w := w.setManager j r.manager
      ({ w with observers := w.observers.set i (.tagger j r.tagger), tally := w.tally.map (· + r.tally) }, r.log)
  | _ => (w, [])

/-- Let observers react one after another. -/
def notifyEach (w : World) (event : Event) (observers : List Nat) : World × List LogEntry :=
  observers.foldl (fun (w, log) i =>
    let (w, more) := w.notify event i
    (w, log ++ more)) (w, [])

def notifyAll (w : World) (event : Event) : World × List LogEntry :=
  w.notifyEach event (List.range w.observers.length)

end World
end PeerTags.Session
