import PeerTags.Config
import PeerTags.Event
import PeerTags.Log
import PeerTags.TagName
import PeerTags.Tagger.Tally
/-! A tagger turns pubsub events into tags on a connection manager. Direct peers
are tagged when they connect and keep the tag. Mesh peers are tagged from graft
to prune. A peer that delivers a message first has the delivery tag of each of
its topics bumped, if the tagger tracks the topic: between join and leave, when
the join could register the tag. Failures are logged and counted; they never
keep the rest of an event from happening. -/
namespace PeerTags

structure Tagger where
  config : Config
  valid : config.Valid
  /-- Whether the manager supported decaying tags when the tagger was made. -/
  supportsDecay : Bool
  direct : PeerSet
  /-- The number of the decaying tag of each tracked topic. -/
  tracked : Table String Nat

namespace Tagger

/-- A tagger comes with the log entries of its making. -/
def create (config : Config) (supportsDecay : Bool) (direct : PeerSet) : Except Config.Error (Tagger × List LogEntry) :=
  match checked : config.check with
  | .error e => .error e
  | .ok () => .ok (⟨config, Config.check_eq_ok_iff.mp checked, supportsDecay, direct, ∅⟩,
      if supportsDecay then [] else [.decayUnsupported])

def isDirect (t : Tagger) (peer : Peer) : Bool := t.direct.contains peer
def isTracking (t : Tagger) (topic : String) : Bool := t.tracked.contains topic

/-- In order. -/
def trackedTopics (t : Tagger) : List String := t.tracked.keys

/-- What an event leaves behind: tagger and manager as they are after it, what
it adds to the tally, and its log. -/
structure Reaction where
  tagger : Tagger
  manager : Manager
  tally : Tally
  log : List LogEntry

namespace Reaction

def nothing (t : Tagger) (m : Manager) : Reaction := ⟨t, m, .zero, []⟩

/-- One reaction after another. -/
def andThen (r : Reaction) (next : Tagger → Manager → Reaction) : Reaction :=
  let s := next r.tagger r.manager
  ⟨s.tagger, s.manager, r.tally + s.tally, r.log ++ s.log⟩

end Reaction

/-- The end of a call to tag or untag a peer. -/
def settled (t : Tagger) (peer : Peer) (tag : String) (tally : Tally) (entry : LogEntry) :
    Manager × Except Manager.Error Unit → Reaction
  | (m, .ok ()) => ⟨t, m, tally, [entry]⟩
  | (m, .error e) => ⟨t, m, { Tally.zero with tagFailures := 1 }, [.tagRejected peer tag e]⟩

def connect (t : Tagger) (m : Manager) (peer : Peer) : Reaction :=
  if t.isDirect peer then
    settled t peer TagName.direct { Tally.zero with directTagged := 1 } (.taggedDirect peer)
      (m.tag peer TagName.direct t.config.directPeerValue)
  else .nothing t m

def graft (t : Tagger) (m : Manager) (peer : Peer) (topic : String) : Reaction :=
  settled t peer (TagName.mesh topic) { Tally.zero with meshTagged := 1 } (.taggedMesh peer topic)
    (m.tag peer (TagName.mesh topic) t.config.meshPeerValue)

def prune (t : Tagger) (m : Manager) (peer : Peer) (topic : String) : Reaction :=
  settled t peer (TagName.mesh topic) { Tally.zero with meshUntagged := 1 } (.untaggedMesh peer topic)
    (m.untag peer (TagName.mesh topic))

/-- Register a topic's delivery tag and track it. A failed registration leaves
what is tracked as it was. -/
def join (t : Tagger) (m : Manager) (topic : String) : Reaction :=
  if !t.supportsDecay then .nothing t m
  else
    let name := TagName.delivery topic
    match m.register name t.config.decayInterval (.fixed t.config.decayAmount) (.capped t.config.deliveryCap) with
    | (m, .ok number) =>
      ⟨{ t with tracked := t.tracked.insert topic number }, m,
        { Tally.zero with trackedTopics := if t.isTracking topic then 0 else 1 }, [.registered topic name]⟩
    | (m, .error e) =>
      ⟨t, m, { Tally.zero with registrationFailures := 1 }, [.registrationFailed topic e]⟩

/-- Stop tracking a topic. Its decaying tag stays registered and decays on. -/
def leave (t : Tagger) (m : Manager) (topic : String) : Reaction :=
  if t.isTracking topic then
    ⟨{ t with tracked := t.tracked.erase topic }, m,
      { Tally.zero with trackedTopics := -1 }, [.stoppedTracking topic]⟩
  else .nothing t m

/-- Bump a peer's delivery tag for a topic by the configured amount. -/
def bumpDelivery (t : Tagger) (m : Manager) (peer : Peer) (topic : String) : Manager × Except Error Unit :=
  match t.tracked.get? topic with
  | none => (m, .error (.noDecayingTag topic))
  | some number =>
    match m.bump number peer t.config.deliveryBump with
    | (m, .ok ()) => (m, .ok ())
    | (m, .error e) => (m, .error (.manager e))

def deliverTopic (peer : Peer) (topic : String) (t : Tagger) (m : Manager) : Reaction :=
  match t.bumpDelivery m peer topic with
  | (m, .ok ()) => ⟨t, m, { Tally.zero with deliveryBumps := 1 }, [.bumped peer topic]⟩
  | (m, .error e) => ⟨t, m, { Tally.zero with deliveryBumpFailures := 1 }, [.bumpFailed peer topic e]⟩

/-- Topics in the message's order, repeated ones again. -/
def deliver (t : Tagger) (m : Manager) (message : Message) : Reaction :=
  message.topics.foldl (fun r topic => r.andThen (deliverTopic message.receivedFrom topic)) (.nothing t m)

def react (t : Tagger) (m : Manager) : Event → Reaction
  | .connect peer => t.connect m peer
  | .join topic => t.join m topic
  | .leave topic => t.leave m topic
  | .graft peer topic => t.graft m peer topic
  | .prune peer topic => t.prune m peer topic
  | .deliver message => t.deliver m message
  | .disconnect _ | .validate _ | .reject _ _ | .duplicate _ => .nothing t m

end Tagger
end PeerTags
