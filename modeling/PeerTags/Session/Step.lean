import PeerTags.Session.World
/-! The steps of a session and what each of them answers. -/
namespace PeerTags.Session

inductive Target where
  | one (observer : Nat)
  | all

inductive TaggerQuestion where
  | trackedTopics
  | isTracking (topic : String)
  | isDirect (peer : Peer)
  | supportsDecay
  | config
  | detail

/-- What changes a manager, decaying tags already issued aside. -/
inductive Command where
  | tag (peer : Peer) (tag : String) (value : Amount)
  | untag (peer : Peer) (tag : String)
  | register (name : String) (interval : Duration) (decay : Decay) (bump : Bump)
  | advance (intervals : Nat)
  | rejectTags (on : Bool)
  | rejectRegistrations (on : Bool)
  | clearCalls

inductive ManagerQuestion where
  | supportsDecay
  | tagValue (peer : Peer) (tag : String)
  | peerTags (peer : Peer)
  | peerValue (peer : Peer)
  | registered
  | calls
  | detail

/-- What is done with a decaying tag. -/
inductive HandleUse where
  | bump (peer : Peer) (delta : Amount)
  | remove (peer : Peer)
  | close
  | name
  | interval

inductive Step where
  | event (target : Target) (event : Event)
  | bumpDelivery (observer : Nat) (peer : Peer) (topic : String)
  | askTagger (observer : Nat) (question : TaggerQuestion)
  | command (manager : Nat) (command : Command)
  | askManager (manager : Nat) (question : ManagerQuestion)
  | useHandle (handle : Nat) (use : HandleUse)

inductive Answer where
  | done
  | refused (cause : Manager.Error)
  | notBumped (cause : Tagger.Error)
  /-- No such observer or manager. -/
  | absent
  | handle (number : Nat)
  | yesNo (answer : Bool)
  | value (value : Option Amount)
  | total (total : Option Amount)
  | names (names : List String)
  | tags (tags : List (String × Amount))
  | calls (calls : List Call)
  | config (config : Config)
  | text (text : String)
  | interval (interval : Duration)
deriving DecidableEq

def Answer.ofResult : Except Manager.Error Unit → Answer
  | .ok () => done
  | .error e => refused e

def TaggerQuestion.answer (t : Tagger) : TaggerQuestion → Answer
  | .trackedTopics => .names t.trackedTopics
  | .isTracking topic => .yesNo (t.isTracking topic)
  | .isDirect peer => .yesNo (t.isDirect peer)
  | .supportsDecay => .yesNo t.supportsDecay
  | .config => .config t.config
  | .detail => .text t.detail

def ManagerQuestion.answer (m : Manager) : ManagerQuestion → Answer
  | .supportsDecay => .yesNo m.supportsDecay
  | .tagValue peer tag => .value (m.tagValue peer tag)
  | .peerTags peer => .tags (m.peerTags peer)
  | .peerValue peer => .total (m.peerValue peer)
  | .registered => .names m.registered
  | .calls => .calls m.calls
  | .detail => .text m.detail

/-- A step's outcome. -/
structure Outcome where
  world : World
  answer : Answer
  log : List LogEntry

namespace World

def quiet (w : World) (answer : Answer) : Outcome := ⟨w, answer, []⟩

def bumpDelivery (w : World) (i : Nat) (peer : Peer) (topic : String) : Outcome :=
  match w.observers[i]? with
  | some (.tagger j t) =>
    match w.manager? j with
    | none => w.quiet .absent
    | some m =>
      match t.bumpDelivery m peer topic with
      | (m, .ok ()) => (w.setManager j m).quiet .done
      | (m, .error e) => (w.setManager j m).quiet (.notBumped e)
  | _ => w.quiet .absent

/-- Asking for decay support counts as a probe even when there is none. -/
def register (w : World) (i : Nat) (m : Manager) (name : String) (interval : Duration) (decay : Decay) (bump : Bump) :
    Outcome :=
  let w := w.probe i
  match m.register name interval decay bump with
  | (m, .ok _) => (w.setManager i m).quiet (.handle w.handles.length)
  | (m, .error e) => (w.setManager i m).quiet (.refused e)

def command (w : World) (i : Nat) (c : Command) : Outcome :=
  match w.manager? i with
  | none => w.quiet .absent
  | some m =>
    let after (r : Manager × Except Manager.Error Unit) : Outcome := (w.setManager i r.1).quiet (.ofResult r.2)
    match c with
    | .tag peer name value => after (m.tag peer name value)
    | .untag peer name => after (m.untag peer name)
    | .register name interval decay bump => w.register i m name interval decay bump
    | .advance n => let (m, expired) := m.advance n; ⟨w.setManager i m, .done, expired.map .expired⟩
    | .rejectTags on => after ({ m with rejectsTags := on }, .ok ())
    | .rejectRegistrations on => after ({ m with rejectsRegistrations := on }, .ok ())
    | .clearCalls => after ({ m with calls := [] }, .ok ())

def useHandle (w : World) (h : Nat) (use : HandleUse) : Outcome :=
  match w.handles[h]? with
  | none => w.quiet (.refused (.unknown h))
  | some (i, number) =>
    match w.manager? i with
    | none => w.quiet .absent
    | some m =>
      let after (r : Manager × Except Manager.Error Unit) : Outcome := (w.setManager i r.1).quiet (.ofResult r.2)
      match use with
      | .bump peer delta => after (m.bump number peer delta)
      | .remove peer => after (m.remove number peer)
      | .close => after (m.close number)
      | .name => w.quiet ((m.issued[number]?).elim .absent fun d => .text d.name)
      | .interval => w.quiet ((m.issued[number]?).elim .absent fun d => .interval d.interval)

def step (w : World) : Step → Outcome
  | .event (.one i) event => let (w, log) := w.notify event i; ⟨w, .done, log⟩
  | .event .all event => let (w, log) := w.notifyAll event; ⟨w, .done, log⟩
  | .bumpDelivery i peer topic => w.bumpDelivery i peer topic
  | .askTagger i question => w.quiet ((w.tagger? i).elim .absent fun t => question.answer t)
  | .command i c => w.command i c
  | .askManager i question => w.quiet ((w.manager? i).elim .absent fun m => question.answer m)
  | .useHandle h use => w.useHandle h use

/-- The world after a run of steps. -/
def run (w : World) (steps : List Step) : World := steps.foldl (fun w s => (w.step s).world) w

end World
end PeerTags.Session
