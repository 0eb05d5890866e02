import PeerTags.Peer
/-! What a pubsub router reports. -/
namespace PeerTags

structure Message where
  /-- The peer that passed the message on. -/
  receivedFrom : Peer
  /-- The author, if the message is signed. -/
  source : Option Peer
  topics : List String
  data : List UInt8
deriving DecidableEq

inductive RejectReason where
  | missingSignature
  | unexpectedSignature
  | unexpectedAuthInfo
  | invalidSignature
  | selfOrigin
  | blacklistedPeer
  | blacklistedSource
  | validationFailed
  | validationIgnored
  | validationThrottled
  | validationQueueFull
deriving DecidableEq

def RejectReason.name : RejectReason → String
  | missingSignature => "missing_signature"
  | unexpectedSignature => "unexpected_signature"
  | unexpectedAuthInfo => "unexpected_auth_info"
  | invalidSignature => "invalid_signature"
  | selfOrigin => "self_origin"
  | blacklistedPeer => "blacklisted_peer"
  | blacklistedSource => "blacklisted_source"
  | validationFailed => "validation_failed"
  | validationIgnored => "validation_ignored"
  | validationThrottled => "validation_throttled"
  | validationQueueFull => "validation_queue_full"

inductive Event where
  | connect (peer : Peer)
  | disconnect (peer : Peer)
  | join (topic : String)
  | leave (topic : String)
  | graft (peer : Peer) (topic : String)
  | prune (peer : Peer) (topic : String)
  /-- The first arrival of a valid message. -/
  | deliver (message : Message)
  | validate (message : Message)
  | reject (message : Message) (reason : RejectReason)
  | duplicate (message : Message)
deriving DecidableEq

end PeerTags
