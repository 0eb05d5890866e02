import PeerTags.Manager.Basic
/-! The detailed text of a manager and of what it keeps. -/
namespace PeerTags
open Text

def Peer.detail (p : Peer) : String := variant "PeerId" (quoted p.text)

def Call.detail : Call → String
  | .tag peer name value => record "Tag" [("peer", peer.detail), ("tag", quoted name), ("value", toString value)]
  | .untag peer name => record "Untag" [("peer", peer.detail), ("tag", quoted name)]
  | .register name interval => record "Register" [("name", quoted name), ("interval", interval.text)]
  | .bump peer name delta => record "Bump" [("peer", peer.detail), ("tag", quoted name), ("delta", toString delta)]

def DecayingTag.detail (d : DecayingTag) : String :=
  partialRecord "MemoryDecayingTag" [
    ("name", quoted d.name), ("interval", d.interval.text), ("closed", toString d.closed)]

namespace Manager

/-- The peers that have a tag, in order. -/
def taggedPeers (m : Manager) : List Peer := (m.tags.keys.map Slot.peer).eraseDups

def tagsDetail (m : Manager) : String :=
  map (m.taggedPeers.map fun p =>
    (p.detail, map ((m.peerTags p).map fun e => (quoted e.1, toString e.2))))

def registryDetail (m : Manager) : String :=
  map (m.registry.entries.filterMap fun e => (m.issued[e.2]?).map fun d => (quoted e.1, d.detail))

def detail (m : Manager) : String :=
  let shared := record "Shared" [
    ("tags", record "RwLock" [("data", m.tagsDetail)]),
    ("decaying", record "RwLock" [("data", m.registryDetail)]),
    ("calls", record "Mutex" [("data", list (m.calls.map Call.detail))]),
    ("reject_registrations", toString m.rejectsRegistrations),
    ("reject_tags", toString m.rejectsTags)]
  record "MemoryConnManager" [("shared", shared), ("supports_decay", toString m.supportsDecay)]

end Manager
end PeerTags
