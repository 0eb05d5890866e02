import PeerTags.Manager.Detail
import PeerTags.Tagger.Basic
/-! The detailed text of a tagger. Its manager and its numbers are not shown. -/
namespace PeerTags

open Text in
def Tagger.detail (t : Tagger) : String :=
  partialRecord "TagTracer" [
    ("config", t.config.detail),
    ("supports_decay", toString t.supportsDecay),
    ("tracked_topics", list (t.trackedTopics.map quoted)),
    ("direct", set (t.direct.keys.map Peer.detail))]

end PeerTags
