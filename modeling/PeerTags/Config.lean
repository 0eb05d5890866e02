import PeerTags.Amount
import PeerTags.Duration
import PeerTags.Text.Nested
import PeerTags.Text.Quoted
/-! Tag values and decay parameters. The two static values may be anything, a
negative one ranks its peers down; the delivery parameters have to be positive. -/
namespace PeerTags

structure Config where
  directPeerValue : Amount
  meshPeerValue : Amount
  deliveryBump : Amount
  deliveryCap : Amount
  decayInterval : Duration
  decayAmount : Amount
deriving DecidableEq

namespace Config

def default : Config := ⟨1000, 20, 1, 15, .ofSecs 600, 1⟩
instance : Inhabited Config := ⟨default⟩

/-- Why settings are refused. -/
inductive Error where
  | zeroDecayInterval
  | notPositive (field : String) (value : Amount)
  | invalidPeer (text : String)
deriving DecidableEq

namespace Error

def message : Error → String
  | zeroDecayInterval => "decay interval must be non-zero"
  | notPositive field value => field ++ " must be at least 1, got " ++ toString value
  | invalidPeer text => "invalid peer id " ++ Text.quoted text

def detail : Error → String
  | zeroDecayInterval => "ZeroDecayInterval"
  | notPositive field value =>
    Text.record "NotPositive" [("field", Text.quoted field), ("value", toString value)]
  | invalidPeer text => Text.variant "InvalidPeerId" (Text.quoted text)

end Error

/-- The first fault, in the order interval, bump, cap, amount. -/
def check (c : Config) : Except Error Unit :=
  if c.decayInterval.isZero then .error .zeroDecayInterval
  else if c.deliveryBump < 1 then .error (.notPositive "delivery_bump" c.deliveryBump)
  else if c.deliveryCap < 1 then .error (.notPositive "delivery_cap" c.deliveryCap)
  else if c.decayAmount < 1 then .error (.notPositive "decay_amount" c.decayAmount)
  else .ok ()

def Valid (c : Config) : Prop :=
  c.decayInterval.isZero = false ∧ 1 ≤ c.deliveryBump.toInt ∧ 1 ≤ c.deliveryCap.toInt ∧ 1 ≤ c.decayAmount.toInt

instance (c : Config) : Decidable c.Valid := inferInstanceAs (Decidable (_ ∧ _))

theorem check_eq_ok_iff {c : Config} : c.check = .ok () ↔ c.Valid := by
  unfold check Valid
  simp only [Amount.lt_iff, show (1 : Amount).toInt = 1 from rfl]
  grind

def detail (c : Config) : String :=
  Text.record "TagTracerConfig" [
    ("direct_peer_value", toString c.directPeerValue),
    ("mesh_peer_value", toString c.meshPeerValue),
    ("delivery_bump", toString c.deliveryBump),
    ("delivery_cap", toString c.deliveryCap),
    ("decay_interval", c.decayInterval.text),
    ("decay_amount", toString c.decayAmount)]

end Config
end PeerTags
