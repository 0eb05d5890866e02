import PeerTags.Config
import PeerTags.Json.Quoted
import PeerTags.Peer
import PeerTags.Text.Blank
/-! The settings as a user gives them, before they are checked: the numbers of
`Config`, with whole seconds for the interval, and the direct peers as texts. -/
namespace PeerTags

structure Options where
  directPeerValue : Amount
  meshPeerValue : Amount
  deliveryBump : Amount
  deliveryCap : Amount
  decayIntervalSecs : UInt64
  decayAmount : Amount
  directPeers : Option (List String)
deriving DecidableEq

namespace Options

def default : Options := ⟨1000, 20, 1, 15, 600, 1, none⟩
instance : Inhabited Options := ⟨default⟩

inductive Field where
  | directPeerValue
  | meshPeerValue
  | deliveryBump
  | deliveryCap
  | decayIntervalSecs
  | decayAmount
  | directPeers
deriving DecidableEq

namespace Field

def all : List Field :=
  [directPeerValue, meshPeerValue, deliveryBump, deliveryCap, decayIntervalSecs, decayAmount, directPeers]

/-- The key in a JSON text. -/
def key : Field → String
  | directPeerValue => "direct_peer_value"
  | meshPeerValue => "mesh_peer_value"
  | deliveryBump => "delivery_bump"
  | deliveryCap => "delivery_cap"
  | decayIntervalSecs => "decay_interval_secs"
  | decayAmount => "decay_amount"
  | directPeers => "direct_peers"

/-- The name on a command line, after two dashes. -/
def flag : Field → String
  | directPeerValue => "pubsub.tag.direct-value"
  | meshPeerValue => "pubsub.tag.mesh-value"
  | deliveryBump => "pubsub.tag.delivery-bump"
  | deliveryCap => "pubsub.tag.delivery-cap"
  | decayIntervalSecs => "pubsub.tag.decay-interval"
  | decayAmount => "pubsub.tag.decay-amount"
  | directPeers => "pubsub.direct-peers"

def ofKey? (key : String) : Option Field := all.find? fun f => f.key = key
def ofFlag? (flag : List Char) : Option Field := all.find? fun f => f.flag.toList = flag

theorem mem_all (f : Field) : f ∈ all := by cases f <;> decide

@[simp] theorem ofKey?_key (f : Field) : ofKey? f.key = some f := by cases f <;> decide

end Field

/-- A field with the value it is given. -/
inductive Setting where
  | directPeerValue (value : Amount)
  | meshPeerValue (value : Amount)
  | deliveryBump (value : Amount)
  | deliveryCap (value : Amount)
  | decayIntervalSecs (secs : UInt64)
  | decayAmount (value : Amount)
  | directPeers (peers : Option (List String))
deriving DecidableEq

/-- The setting that gives a number field an integer, if it is in the field's range. -/
def Setting.ofInt? (f : Field) (i : Int) : Option Setting :=
  match f with
  | .directPeerValue => (Amount.ofInt? i).map .directPeerValue
  | .meshPeerValue => (Amount.ofInt? i).map .meshPeerValue
  | .deliveryBump => (Amount.ofInt? i).map .deliveryBump
  | .deliveryCap => (Amount.ofInt? i).map .deliveryCap
  | .decayAmount => (Amount.ofInt? i).map .decayAmount
  | .decayIntervalSecs =>
    if 0 ≤ i ∧ i < 18446744073709551616 then some (.decayIntervalSecs (UInt64.ofNat i.toNat)) else none
  | .directPeers => none

def set (o : Options) : Setting → Options
  | .directPeerValue value => { o with directPeerValue := value }
  | .meshPeerValue value => { o with meshPeerValue := value }
  | .deliveryBump value => { o with deliveryBump := value }
  | .deliveryCap value => { o with deliveryCap := value }
  | .decayIntervalSecs secs => { o with decayIntervalSecs := secs }
  | .decayAmount value => { o with decayAmount := value }
  | .directPeers peers => { o with directPeers := peers }

/-- The settings, checked. -/
def config (o : Options) : Except Config.Error Config :=
  let c : Config := {
    directPeerValue := o.directPeerValue
    meshPeerValue := o.meshPeerValue
    deliveryBump := o.deliveryBump
    deliveryCap := o.deliveryCap
    decayInterval := .ofSecs o.decayIntervalSecs
    decayAmount := o.decayAmount }
  c.check.map fun _ => c

/-- One peer's text, white space around it left out. A text that names no peer
is given back as it came. -/
def readPeer (text : String) : Except Config.Error Peer :=
  match Peer.ofText? (Text.trim text.toList) with
  | some p => .ok p
  | none => .error (.invalidPeer text)

/-- The set of the direct peers; the first text that names none is the error. -/
def peers (o : Options) : Except Config.Error PeerSet :=
  ((o.directPeers.getD []).mapM readPeer).map PeerSet.ofList

/-! The settings as a JSON text. -/

def peersJson (peers : List String) : List Char :=
  '[' :: [','].intercalate (peers.map fun p => Json.quote p.toList) ++ [']']

/-- Every field that has a text, under its key, in order. -/
def membersJson (o : Options) : List (Field × List Char) :=
  [(.directPeerValue, Text.Decimal.ofInt o.directPeerValue.toInt),
    (.meshPeerValue, Text.Decimal.ofInt o.meshPeerValue.toInt),
    (.deliveryBump, Text.Decimal.ofInt o.deliveryBump.toInt),
    (.deliveryCap, Text.Decimal.ofInt o.deliveryCap.toInt),
    (.decayIntervalSecs, Text.Decimal.ofNat o.decayIntervalSecs.toNat),
    (.decayAmount, Text.Decimal.ofInt o.decayAmount.toInt)] ++
    (o.directPeers.toList.map fun peers => (.directPeers, peersJson peers))

/-- Without spaces; direct peers are left out if there is no list of them. -/
def toJson (o : Options) : String :=
  String.ofList ('\x7b' ::
    [','].intercalate (o.membersJson.map fun (f, value) => Json.quote f.key.toList ++ ':' :: value) ++ ['\x7d'])

end Options
end PeerTags
