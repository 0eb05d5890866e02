/-! Names of the tags that are set from pubsub events. -/
namespace PeerTags.TagName

/-- The tag of direct peers. -/
def direct : String := "pubsub:direct"

/-- The tag of a topic's mesh peers. -/
def mesh (topic : String) : String := "pubsub:" ++ topic

/-- The decaying tag that counts a topic's deliveries. -/
def delivery (topic : String) : String := "pubsub-deliveries:" ++ topic

theorem mesh_inj {t u : String} : mesh t = mesh u ↔ t = u := String.append_right_inj _

theorem delivery_inj {t u : String} : delivery t = delivery u ↔ t = u := String.append_right_inj _

/-- The names differ at the character after `pubsub`. -/
theorem mesh_ne_delivery (t u : String) : mesh t ≠ delivery u := by
  intro same
  unfold mesh delivery at same
  have chars := congrArg String.toList same
  simp only [String.toList_append, String.reduceToList] at chars
  simp at chars

/-- The tag of direct peers is the mesh tag of one topic. -/
theorem mesh_direct : mesh "direct" = direct := by simp only [mesh, direct, String.reduceAppend]

end PeerTags.TagName
