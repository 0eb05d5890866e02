import PeerTags.Bump
import PeerTags.Decay
import PeerTags.Duration
import PeerTags.Manager.Error
import PeerTags.Peer
/-! A connection manager. It keeps one table of tag values, written directly by
`tag` and `untag` and by the decaying tags it has issued. A decaying tag has its
own value for each peer and copies every change into the table under its name;
the registry holds the numbers of the open ones. Every change goes through an
operation here, and operations that are refused say why. -/
namespace PeerTags

/-- A place in the tag table. -/
structure Slot where
  peer : Peer
  tag : String
deriving DecidableEq

/-- The text of a value in its place. -/
def Slot.valueText (s : Slot) (value : Amount) : String := s.tag ++ "=" ++ toString value ++ " (" ++ s.peer.text ++ ")"

instance : Ord Slot := ⟨compareLex (compareOn Slot.peer) (compareOn Slot.tag)⟩
instance : Std.TransOrd Slot := inferInstanceAs (Std.TransCmp (compareLex (compareOn Slot.peer) (compareOn Slot.tag)))

instance : Std.LawfulEqOrd Slot where
  compare_self := Std.ReflCmp.compare_self
  eq_of_compare {a b} h := by
    have both : compare a.peer b.peer = .eq ∧ compare a.tag b.tag = .eq := by
      simpa only [Ordering.then_eq_eq] using
        (show (compare a.peer b.peer).then (compare a.tag b.tag) = .eq from h)
    cases a; cases b
    cases Std.LawfulEqCmp.eq_of_compare both.1
    cases Std.LawfulEqCmp.eq_of_compare both.2
    rfl

/-- What a manager remembers of being asked. -/
inductive Call where
  | tag (peer : Peer) (tag : String) (value : Amount)
  | untag (peer : Peer) (tag : String)
  | register (name : String) (interval : Duration)
  | bump (peer : Peer) (tag : String) (delta : Amount)
deriving DecidableEq

/-- A decaying tag as it was issued, with its values. Closing is for good. -/
structure DecayingTag where
  name : String
  interval : Duration
  decay : Decay
  bump : Bump
  values : Table Peer Amount
  closed : Bool

structure Manager where
  supportsDecay : Bool
  tags : Table Slot Amount
  /-- The numbers of the open decaying tags, by name. -/
  registry : Table String Nat
  /-- Every decaying tag ever issued; its number is its place. -/
  issued : List DecayingTag
  /-- Oldest first. -/
  calls : List Call
  rejectsTags : Bool
  rejectsRegistrations : Bool

namespace Manager

def new (supportsDecay : Bool) : Manager := ⟨supportsDecay, ∅, ∅, [], [], false, false⟩

def note (m : Manager) (c : Call) : Manager := { m with calls := m.calls ++ [c] }

def setTag (m : Manager) (peer : Peer) (tag : String) (value : Amount) : Manager :=
  { m with tags := m.tags.insert ⟨peer, tag⟩ value }

def clearTag (m : Manager) (peer : Peer) (tag : String) : Manager :=
  { m with tags := m.tags.erase ⟨peer, tag⟩ }

def setValues (m : Manager) (number : Nat) (values : Table Peer Amount) : Manager :=
  { m with issued := m.issued.modify number fun d => { d with values } }

/-! Tags set directly. A call is recorded whether or not it is accepted. -/

def refusal (peer : Peer) (tag : String) : Error :=
  .rejected ("tag " ++ tag ++ " on " ++ peer.text ++ " refused")

def tag (m : Manager) (peer : Peer) (tag : String) (value : Amount) : Manager × Except Error Unit :=
  let m := m.note (.tag peer tag value)
  if m.rejectsTags then (m, .error (refusal peer tag)) else (m.setTag peer tag value, .ok ())

def untag (m : Manager) (peer : Peer) (tag : String) : Manager × Except Error Unit :=
  let m := m.note (.untag peer tag)
  if m.rejectsTags then (m, .error (refusal peer tag)) else (m.clearTag peer tag, .ok ())

/-! Decaying tags. -/

/-- Issue a decaying tag under the next number. -/
def register (m : Manager) (name : String) (interval : Duration) (decay : Decay) (bump : Bump) :
    Manager × Except Error Nat :=
  if !m.supportsDecay then (m, .error .decayUnsupported)
  else if m.rejectsRegistrations then (m, .error (.rejected ("registration of " ++ name ++ " refused")))
  else if m.registry.contains name then (m, .error (.nameTaken name))
  else
    let number := m.issued.length
    let fresh : DecayingTag := ⟨name, interval, decay, bump, ∅, false⟩
    let m := { m with issued := m.issued ++ [fresh], registry := m.registry.insert name number }
    (m.note (.register name interval), .ok number)

def openTag (m : Manager) (number : Nat) : Except Error DecayingTag :=
  match m.issued[number]? with
  | none => .error (.unknown number)
  | some d => if d.closed then .error (.closed d.name) else .ok d

/-- A peer without a value is bumped from zero. Under crossed bounds the
operation breaks off: the call and the starting value stay, the table is not
reached. -/
def bump (m : Manager) (number : Nat) (peer : Peer) (delta : Amount) : Manager × Except Error Unit :=
  match m.openTag number with
  | .error e => (m, .error e)
  | .ok d =>
    let m := m.note (.bump peer d.name delta)
    let old := (d.values.get? peer).getD 0
    match d.bump.apply old delta with
    | none => (m.setValues number (d.values.insert peer old), .error .crossedBounds)
    | some new => ((m.setValues number (d.values.insert peer new)).setTag peer d.name new, .ok ())

def remove (m : Manager) (number : Nat) (peer : Peer) : Manager × Except Error Unit :=
  match m.openTag number with
  | .error e => (m, .error e)
  | .ok d => ((m.setValues number (d.values.erase peer)).clearTag peer d.name, .ok ())

/-- Free the name and drop every value. -/
def close (m : Manager) (number : Nat) : Manager × Except Error Unit :=
  match m.openTag number with
  | .error e => (m, .error e)
  | .ok d =>
    let shut : DecayingTag := { d with values := ∅, closed := true }
    let m := { m with issued := m.issued.set number shut, registry := m.registry.erase d.name }
    (d.values.keys.foldl (fun m peer => m.clearTag peer d.name) m, .ok ())

/-! Decay. No time passes between operations, so a value that is dropped for
lack of visits is one that never lasts. -/

/-- The values that survive an interval. -/
def decayed (d : DecayingTag) : Table Peer Amount := d.values.filterMap fun _ v => d.decay.next 0 v

/-- Copy one peer's next value into the table. -/
def settle (d : DecayingTag) (m : Manager) (entry : Peer × Amount) : Manager :=
  match d.decay.next 0 entry.2 with
  | some next => m.setTag entry.1 d.name next
  | none => m.clearTag entry.1 d.name

/-- Where a value does not survive an interval. -/
def expiries (d : DecayingTag) : List Slot :=
  d.values.entries.filterMap fun e => if d.decay.next 0 e.2 = none then some ⟨e.1, d.name⟩ else none

/-- One interval of one decaying tag; a closed one stands still. -/
def decayStep (m : Manager) (number : Nat) : Manager × List Slot :=
  match m.openTag number with
  | .error _ => (m, [])
  | .ok d => ((d.values.entries.foldl (settle d) m).setValues number (decayed d), expiries d)

/-- One interval of each of the given tags, in their order. -/
def decayAll (m : Manager) (numbers : List Nat) : Manager × List Slot :=
  numbers.foldl (fun (m, log) number =>
    let (m, more) := m.decayStep number
    (m, log ++ more)) (m, [])

def openNumbers (m : Manager) : List Nat := m.registry.entries.map (·.2)

/-- So many intervals of every registered tag. -/
def advance (m : Manager) : (intervals : Nat) → Manager × List Slot
  | 0 => (m, [])
  | n + 1 =>
    let (m, first) := m.decayAll m.openNumbers
    let (m, later) := m.advance n
    (m, first ++ later)

/-! Questions. -/

def tagValue (m : Manager) (peer : Peer) (tag : String) : Option Amount := m.tags.get? ⟨peer, tag⟩

/-- A peer's tags in the order of their names. -/
def peerTags (m : Manager) (peer : Peer) : List (String × Amount) :=
  m.tags.entries.filterMap fun e => if e.1.peer = peer then some (e.1.tag, e.2) else none

/-- The figure that peers are ranked by: the total of a peer's values, if they can be added up in the
order of their names without leaving the range. -/
def peerValue (m : Manager) (peer : Peer) : Option Amount := Amount.total? ((m.peerTags peer).map Prod.snd)

/-- The names of the open decaying tags, in order. -/
def registered (m : Manager) : List String := m.registry.keys

end Manager
end PeerTags
