import PeerTags.Manager.Error
/-! Why a delivery is not counted. -/
namespace PeerTags.Tagger

inductive Error where
  | noDecayingTag (topic : String)
  | manager (cause : Manager.Error)
deriving DecidableEq

namespace Error

/-- A manager's refusal speaks for itself. -/
def message : Error → String
  | noDecayingTag topic => "no decaying tag registered for topic " ++ topic
  | manager cause => cause.message

def detail : Error → String
  | noDecayingTag topic => Text.record "NoDecayingTag" [("topic", Text.quoted topic)]
  | manager cause => Text.variant "ConnMgr" cause.detail

end Error
end PeerTags.Tagger
