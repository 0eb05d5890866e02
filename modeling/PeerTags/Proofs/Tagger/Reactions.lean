import Mathlib.Algebra.Group.Int.Defs
import Mathlib.Algebra.Group.Nat.Defs
import PeerTags.Proofs.Manager.Calls
import PeerTags.Proofs.Tagger.Requests
/-! What an event comes to: what the tagger tracks afterwards, which names are
registered, what is recorded and how it is counted. A join is decided by whether
the manager admits the name of the topic's delivery tag, a delivery topic by
topic by whether the decaying tag that is tracked is still open. -/
namespace PeerTags

attribute [ext] Tally

namespace Tally

instance : Zero Tally := ⟨zero⟩

/-- Tallies add up in any order. -/
instance : AddCommMonoid Tally where
  add_assoc a b c := by ext <;> exact add_assoc ..
  zero_add a := by ext <;> exact zero_add _
  add_zero a := by ext <;> exact add_zero _
  add_comm a b := by ext <;> exact add_comm ..
  nsmul := nsmulRec

/-- So many topics were bumped, and so many could not be. -/
def deliveries (bumps failures : Nat) : Tally :=
  { zero with deliveryBumps := bumps, deliveryBumpFailures := failures }

theorem deliveries_add (a b c d : Nat) : deliveries a b + deliveries c d = deliveries (a + c) (b + d) := rfl

end Tally

namespace Tagger

open Manager (Action)

/-- A join goes through when the manager admits the name, and else changes nothing. -/
theorem join_cases (t : Tagger) (m : Manager) (topic : String) (alike : t.supportsDecay = m.supportsDecay) :
    (m.admits (TagName.delivery topic) = true ∧
      (t.join m topic).tagger = { t with tracked := t.tracked.insert topic m.issued.length } ∧
      (t.join m topic).tally = { Tally.zero with trackedTopics := if t.isTracking topic then 0 else 1 }) ∨
    (m.admits (TagName.delivery topic) = false ∧
      (t.join m topic).tagger = t ∧ (t.join m topic).manager = m ∧
      (t.join m topic).tally = if m.supportsDecay then { Tally.zero with registrationFailures := 1 } else 0) := by
  rw [← alike]
  cases supports : t.supportsDecay with
  | false =>
      have refused : m.admits (TagName.delivery topic) = false := by simp [Manager.admits, ← alike, supports]
      exact .inr ⟨refused, by simp [join, supports, Reaction.nothing], by simp [join, supports, Reaction.nothing],
        by simp only [join, supports]; rfl⟩
  | true =>
      cases admitted : m.admits (TagName.delivery topic) with
      | true =>
          have registered := Manager.register_of_admitted admitted t.config.decayInterval
            (.fixed t.config.decayAmount) (.capped t.config.deliveryCap)
          refine .inl ⟨rfl, ?_, ?_⟩ <;> simp [join, supports, registered]
      | false =>
          obtain ⟨e, refused⟩ := Manager.register_of_not_admitted admitted t.config.decayInterval
            (.fixed t.config.decayAmount) (.capped t.config.deliveryCap)
          refine .inr ⟨rfl, ?_, ?_, ?_⟩ <;> simp [join, supports, refused]

/-! What is tracked and registered. -/

theorem isTracking_insert (t : Tagger) (topic : String) (number : Nat) (topic' : String) :
    ({ t with tracked := t.tracked.insert topic number } : Tagger).isTracking topic' =
      (decide (topic' = topic) || t.isTracking topic') := by
  simp only [isTracking, Table.contains, Table.get?_insert]
  by_cases same : topic' = topic <;> simp [same]

theorem join_isTracking (t : Tagger) (m : Manager) (topic : String) (alike : t.supportsDecay = m.supportsDecay)
    (topic' : String) : (t.join m topic).tagger.isTracking topic' =
      (decide (topic' = topic) && m.admits (TagName.delivery topic) || t.isTracking topic') := by
  rcases join_cases t m topic alike with ⟨admitted, after, _⟩ | ⟨refused, after, _, _⟩
  · rw [after, isTracking_insert, admitted, Bool.and_true]
  · rw [after, refused, Bool.and_false, Bool.false_or]

theorem join_registers (t : Tagger) (m : Manager) (topic : String) (alike : t.supportsDecay = m.supportsDecay)
    (topic' : String) : (t.join m topic).manager.registry.contains (TagName.delivery topic') =
      (decide (topic' = topic) && m.admits (TagName.delivery topic) ||
        m.registry.contains (TagName.delivery topic')) := by
  rw [join_manager]
  cases supports : t.supportsDecay with
  | false =>
      have refused : m.admits (TagName.delivery topic) = false := by simp [Manager.admits, ← alike, supports]
      simp [requests, supports, refused]
  | true =>
      simp only [requests, supports, if_true, Manager.run_cons, Manager.run_nil, Manager.act,
        Manager.register_contains, TagName.delivery_inj]

theorem leave_isTracking (t : Tagger) (m : Manager) (topic topic' : String) :
    (t.leave m topic).tagger.isTracking topic' = (!decide (topic' = topic) && t.isTracking topic') := by
  rcases leave_tagger t m topic with after | ⟨after, untracked⟩
  · simp only [after, isTracking, Table.contains, Table.get?_erase]
    by_cases same : topic' = topic <;> simp [same]
  · by_cases same : topic' = topic
    · subst same
      simp [after, isTracking, Table.contains, untracked]
    · simp [after, same]

theorem leave_tally (t : Tagger) (m : Manager) (topic : String) : (t.leave m topic).tally =
    if t.isTracking topic then { Tally.zero with trackedTopics := -1 } else 0 := by
  unfold leave
  split <;> rfl

/-- Apart from joining, events leave the handles of the manager as they are. -/
theorem requests_sameHandles (t : Tagger) (m : Manager) {e : Event} (joins : ∀ topic, e ≠ .join topic) :
    m.SameHandles (m.run (t.requests e)) := by
  apply Manager.run_sameHandles
  intro a member
  cases t.requests_asks e a member with
  | join topic => exact absurd rfl (joins topic)
  | _ => exact ⟨rfl, fun _ same => nomatch same⟩

/-! Deliveries. -/

/-- The topic is tracked and its decaying tag is open. -/
def reaches (t : Tagger) (m : Manager) (topic : String) : Bool :=
  (t.tracked.get? topic).any fun number => (m.issued[number]?).any fun d => !d.closed

theorem reaches_sameHandles {m m' : Manager} (h : m.SameHandles m') (t : Tagger) : t.reaches m' = t.reaches m := by
  funext topic
  have same (number : Nat) : ((m'.issued[number]?).any fun d => !d.closed) =
      (m.issued[number]?).any fun d => !d.closed := by
    have bare := congrArg (fun d => d.any fun d => !d.closed) (h.bare_eq number)
    rw [Option.any_map, Option.any_map] at bare
    exact bare
  unfold reaches
  simp only [same]

theorem reaches_of_openTag {t : Tagger} {m : Manager} {topic : String} {number : Nat} {d : DecayingTag}
    (tracked : t.tracked.get? topic = some number) (found : m.openTag number = .ok d) :
    t.reaches m topic = true := by
  obtain ⟨inside, isOpen⟩ := Manager.openTag_eq_ok_iff.mp found
  simp [reaches, tracked, inside, isOpen]

theorem reaches_of_error {t : Tagger} {m : Manager} {topic : String} {number : Nat} {e : Manager.Error}
    (tracked : t.tracked.get? topic = some number) (refused : m.openTag number = .error e) :
    t.reaches m topic = false := by
  cases inside : m.issued[number]? with
  | none => simp [reaches, tracked, inside]
  | some d =>
      cases shut : d.closed with
      | true => simp [reaches, tracked, inside, shut]
      | false =>
          rw [Manager.openTag_eq_ok_iff.mpr ⟨inside, shut⟩] at refused
          cases refused

theorem reaches_of_untracked {t : Tagger} {topic : String} (untracked : t.tracked.get? topic = none) (m : Manager) :
    t.reaches m topic = false := by
  simp [reaches, untracked]

/-- What one topic of a delivery comes to. -/
theorem bumpDelivery_cases {t : Tagger} {m : Manager} (h : t.Holds m) (peer : Peer) (topic : String) :
    (t.reaches m topic = true ∧ (t.bumpDelivery m peer topic).2 = .ok () ∧
      (t.bumpDelivery m peer topic).1.calls =
        m.calls ++ [.bump peer (TagName.delivery topic) t.config.deliveryBump]) ∨
    (t.reaches m topic = false ∧ (∃ e, (t.bumpDelivery m peer topic).2 = .error e) ∧
      (t.bumpDelivery m peer topic).1 = m) := by
  unfold bumpDelivery
  cases tracked : t.tracked.get? topic with
  | none => exact .inr ⟨reaches_of_untracked tracked m, ⟨_, rfl⟩, rfl⟩
  | some number =>
      cases found : m.openTag number with
      | error e =>
          refine .inr ⟨reaches_of_error tracked found, ?_⟩
          simp [Manager.bump_of_error found]
      | ok d =>
          obtain ⟨d', inside, terms⟩ := h topic number tracked
          cases Option.some.inj (inside.symm.trans (Manager.openTag_eq_ok_iff.mp found).1)
          refine .inl ⟨reaches_of_openTag tracked found, ?_⟩
          simp only [Manager.bump, found, terms.bump, Bump.apply, terms.name, true_and]
          rfl

/-- The topics of a delivery, counted by whether they reach an open decaying tag. -/
def deliveryTally (t : Tagger) (m : Manager) (topics : List String) : Tally :=
  .deliveries (topics.countP (t.reaches m)) (topics.countP fun topic => !t.reaches m topic)

theorem deliverTopic_tally {t : Tagger} {m : Manager} (h : t.Holds m) (peer : Peer) (topic : String) :
    (deliverTopic peer topic t m).tally = t.deliveryTally m [topic] := by
  unfold deliverTopic deliveryTally
  rcases bumpDelivery_cases h peer topic with ⟨reached, done, _⟩ | ⟨missed, ⟨e, failed⟩, _⟩
  · generalize t.bumpDelivery m peer topic = r at done
    obtain ⟨after, _⟩ := r
    cases done
    simp [reached, Tally.deliveries, Tally.zero]
  · generalize t.bumpDelivery m peer topic = r at failed
    obtain ⟨after, _⟩ := r
    cases failed
    simp [missed, Tally.deliveries, Tally.zero]

theorem bumpRequest_sameHandles (t : Tagger) (m : Manager) (peer : Peer) (topic : String) :
    m.SameHandles (m.run (t.bumpRequest peer topic)) := by
  apply Manager.run_sameHandles
  intro a member
  cases t.bumpRequest_asks ⟨peer, none, [], []⟩ topic a member
  exact ⟨rfl, fun _ same => nomatch same⟩

theorem foldl_deliverTopic_tally (peer : Peer) (topics : List String) {r : Reaction}
    (holds : r.tagger.Holds r.manager) :
    (topics.foldl (fun r topic => r.andThen (deliverTopic peer topic)) r).tally =
      r.tally + r.tagger.deliveryTally r.manager topics := by
  induction topics generalizing r with
  | nil => exact (add_zero r.tally).symm
  | cons topic topics ih =>
      have tagger : (r.andThen (deliverTopic peer topic)).tagger = r.tagger :=
        deliverTopic_tagger peer topic r.tagger r.manager
      have manager : (r.andThen (deliverTopic peer topic)).manager =
          r.manager.run (r.tagger.bumpRequest peer topic) := deliverTopic_manager peer topic r.tagger r.manager
      have first : (r.andThen (deliverTopic peer topic)).tally =
          r.tally + r.tagger.deliveryTally r.manager [topic] :=
        congrArg (r.tally + ·) (deliverTopic_tally holds peer topic)
      have same := bumpRequest_sameHandles r.tagger r.manager peer topic
      rw [List.foldl_cons, ih (by rw [tagger, manager]; exact holds.run _), tagger, manager, first, add_assoc]
      -- bumps close nothing, so the later topics are judged by the manager as it was at first
      simp only [deliveryTally, reaches_sameHandles same, Tally.deliveries_add]
      rw [← List.countP_append, ← List.countP_append, List.singleton_append]

/-- Each topic of a delivery counts as a bump or as a failure. -/
theorem deliver_tally {t : Tagger} {m : Manager} (h : t.Holds m) (message : Message) :
    (t.deliver m message).tally = t.deliveryTally m message.topics :=
  (foldl_deliverTopic_tally message.receivedFrom message.topics (r := .nothing t m) h).trans (zero_add _)

theorem bumpRequest_calls {t : Tagger} {m : Manager} (h : t.Holds m) (peer : Peer) (topic : String) :
    (m.run (t.bumpRequest peer topic)).calls =
      m.calls ++ ([topic].filter (t.reaches m)).map fun topic =>
        .bump peer (TagName.delivery topic) t.config.deliveryBump := by
  rw [← bumpDelivery_fst]
  rcases bumpDelivery_cases h peer topic with ⟨reached, _, calls⟩ | ⟨missed, _, same⟩
  · simp [calls, reached]
  · simp [same, missed]

/-- A delivery records a bump for each of its topics that reaches an open decaying tag. -/
theorem deliver_calls {t : Tagger} {m : Manager} (h : t.Holds m) (peer : Peer) (topics : List String) :
    (m.run (topics.flatMap (t.bumpRequest peer))).calls =
      m.calls ++ (topics.filter (t.reaches m)).map fun topic =>
        .bump peer (TagName.delivery topic) t.config.deliveryBump := by
  induction topics generalizing m with
  | nil => exact (List.append_nil _).symm
  | cons topic topics ih =>
      have same := bumpRequest_sameHandles t m peer topic
      rw [List.flatMap_cons, Manager.run_append, ih (h.run _), reaches_sameHandles same, bumpRequest_calls h,
        List.append_assoc, ← List.map_append, ← List.filter_append, List.singleton_append]

/-! Tags that are set and cleared directly. -/

theorem settled_tally_tag (t : Tagger) (m : Manager) (peer : Peer) (name : String) (value : Amount) (tally : Tally)
    (entry : LogEntry) : (settled t peer name tally entry (m.tag peer name value)).tally =
      if m.rejectsTags then { Tally.zero with tagFailures := 1 } else tally := by
  rw [Manager.tag_eq]
  split <;> rfl

theorem settled_tally_untag (t : Tagger) (m : Manager) (peer : Peer) (name : String) (tally : Tally)
    (entry : LogEntry) : (settled t peer name tally entry (m.untag peer name)).tally =
      if m.rejectsTags then { Tally.zero with tagFailures := 1 } else tally := by
  rw [Manager.untag_eq]
  split <;> rfl

end Tagger
end PeerTags
