import PeerTags.Manager.Basic
import PeerTags.Tagger.Error
/-! What managers and taggers write to the log. -/
namespace PeerTags

inductive Level where
  | warn
  | debug
  | trace
deriving DecidableEq

def Level.name : Level → String
  | warn => "WARN"
  | debug => "DEBUG"
  | trace => "TRACE"

inductive LogEntry where
  | decayUnsupported
  | taggedDirect (peer : Peer)
  | taggedMesh (peer : Peer) (topic : String)
  | untaggedMesh (peer : Peer) (topic : String)
  | tagRejected (peer : Peer) (tag : String) (cause : Manager.Error)
  | registered (topic : String) (tag : String)
  | registrationFailed (topic : String) (cause : Manager.Error)
  | stoppedTracking (topic : String)
  | bumped (peer : Peer) (topic : String)
  | bumpFailed (peer : Peer) (topic : String) (cause : Tagger.Error)
  | expired (slot : Slot)
deriving DecidableEq

namespace LogEntry

/-- Failures are warnings, single deliveries and expiries are traces. -/
def level : LogEntry → Level
  | decayUnsupported | tagRejected .. | registrationFailed .. | bumpFailed .. => .warn
  | taggedDirect .. | taggedMesh .. | untaggedMesh .. | registered .. | stoppedTracking .. => .debug
  | bumped .. | expired .. => .trace

def message : LogEntry → String
  | decayUnsupported => "connection manager does not support decaying tags, delivery tags will not be applied"
  | taggedDirect .. => "tagged direct peer"
  | taggedMesh .. => "tagged mesh peer"
  | untaggedMesh .. => "untagged mesh peer"
  | tagRejected .. => "connection manager rejected tag update"
  | registered .. => "registered delivery tag"
  | registrationFailed .. => "unable to create decaying delivery tag"
  | stoppedTracking .. => "stopped tracking delivery tag"
  | bumped .. => "bumped delivery tag"
  | bumpFailed .. => "error bumping delivery tag"
  | expired .. => "decaying tag value expired"

def fields : LogEntry → List (String × String)
  | decayUnsupported => []
  | taggedDirect peer => [("peer", peer.text)]
  | taggedMesh peer topic | untaggedMesh peer topic | bumped peer topic =>
    [("peer", peer.text), ("topic", topic)]
  | tagRejected peer tag cause => [("peer", peer.text), ("tag", tag), ("err", cause.message)]
  | registered topic tag => [("topic", topic), ("tag", tag)]
  | registrationFailed topic cause => [("topic", topic), ("err", cause.message)]
  | stoppedTracking topic => [("topic", topic)]
  | bumpFailed peer topic cause => [("peer", peer.text), ("topic", topic), ("err", cause.message)]
  | expired slot => [("tag", slot.tag), ("peer", slot.peer.text)]

/-- Level, message, and each field after its name. -/
def line (e : LogEntry) : List String :=
  e.level.name :: e.message :: e.fields.map fun f => f.1 ++ "=" ++ f.2

end LogEntry
end PeerTags
