/-! Counts of what taggers did. -/
namespace PeerTags

structure Tally where
  directTagged : Nat
  meshTagged : Nat
  meshUntagged : Nat
  deliveryBumps : Nat
  deliveryBumpFailures : Nat
  registrationFailures : Nat
  tagFailures : Nat
  /-- Goes up and down; the others only go up. -/
  trackedTopics : Int
deriving DecidableEq

namespace Tally

def zero : Tally := ⟨0, 0, 0, 0, 0, 0, 0, 0⟩
instance : Inhabited Tally := ⟨zero⟩

def add (a b : Tally) : Tally where
  directTagged := a.directTagged + b.directTagged
  meshTagged := a.meshTagged + b.meshTagged
  meshUntagged := a.meshUntagged + b.meshUntagged
  deliveryBumps := a.deliveryBumps + b.deliveryBumps
  deliveryBumpFailures := a.deliveryBumpFailures + b.deliveryBumpFailures
  registrationFailures := a.registrationFailures + b.registrationFailures
  tagFailures := a.tagFailures + b.tagFailures
  trackedTopics := a.trackedTopics + b.trackedTopics

instance : Add Tally := ⟨add⟩

/-- Each count under the name it is published by. -/
def named (t : Tally) : List (String × Int) := [
  ("pubsub.tags.direct_tagged_total", t.directTagged),
  ("pubsub.tags.mesh_tagged_total", t.meshTagged),
  ("pubsub.tags.mesh_untagged_total", t.meshUntagged),
  ("pubsub.tags.delivery_bumps_total", t.deliveryBumps),
  ("pubsub.tags.delivery_bump_failures_total", t.deliveryBumpFailures),
  ("pubsub.tags.registration_failures_total", t.registrationFailures),
  ("pubsub.tags.tag_failures_total", t.tagFailures),
  ("pubsub.tags.tracked_topics", t.trackedTopics)]

end Tally
end PeerTags
