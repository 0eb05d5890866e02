import PeerTags.Proofs.Manager.Registry
import PeerTags.Tagger.Basic
/-! What an event makes a tagger ask of its manager. The actions depend on the
tagger alone; an event that changes what is tracked asks for no bump. A tagger
`Holds` what it tracks: each number was issued for its topic on its terms, which
no later action undoes. -/
namespace PeerTags
namespace Tagger

open Manager (Action)

def bumpRequest (t : Tagger) (peer : Peer) (topic : String) : List Action :=
  match t.tracked.get? topic with
  | none => []
  | some number => [.bump number peer t.config.deliveryBump]

def requests (t : Tagger) : Event → List Action
  | .connect peer => if t.isDirect peer then [.tag peer TagName.direct t.config.directPeerValue] else []
  | .graft peer topic => [.tag peer (TagName.mesh topic) t.config.meshPeerValue]
  | .prune peer topic => [.untag peer (TagName.mesh topic)]
  | .join topic =>
    if t.supportsDecay then
      [.register (TagName.delivery topic) t.config.decayInterval (.fixed t.config.decayAmount)
        (.capped t.config.deliveryCap)]
    else []
  | .deliver message => message.topics.flatMap (t.bumpRequest message.receivedFrom)
  | .leave _ | .disconnect _ | .validate _ | .reject _ _ | .duplicate _ => []

/-- All that an event may make a tagger on these terms ask for. -/
inductive Asks (config : Config) : Event → Action → Prop where
  | connect (peer : Peer) : Asks config (.connect peer) (.tag peer TagName.direct config.directPeerValue)
  | graft (peer : Peer) (topic : String) :
    Asks config (.graft peer topic) (.tag peer (TagName.mesh topic) config.meshPeerValue)
  | prune (peer : Peer) (topic : String) : Asks config (.prune peer topic) (.untag peer (TagName.mesh topic))
  | join (topic : String) : Asks config (.join topic) (.register (TagName.delivery topic) config.decayInterval
      (.fixed config.decayAmount) (.capped config.deliveryCap))
  | deliver (message : Message) (number : Nat) :
    Asks config (.deliver message) (.bump number message.receivedFrom config.deliveryBump)

theorem mem_bumpRequest_iff {t : Tagger} {peer : Peer} {topic : String} {a : Action} :
    a ∈ t.bumpRequest peer topic ↔
      ∃ number, t.tracked.get? topic = some number ∧ a = .bump number peer t.config.deliveryBump := by
  unfold bumpRequest
  cases t.tracked.get? topic with
  | none => simp
  | some number => simp

theorem bumpRequest_asks (t : Tagger) (message : Message) (topic : String) :
    ∀ a ∈ t.bumpRequest message.receivedFrom topic, Asks t.config (.deliver message) a := by
  intro a member
  obtain ⟨number, _, rfl⟩ := mem_bumpRequest_iff.mp member
  exact .deliver ..

theorem requests_asks (t : Tagger) (event : Event) : ∀ a ∈ t.requests event, Asks t.config event a := by
  intro a member
  cases event with
  | connect peer =>
      simp only [requests] at member
      split at member
      · cases List.mem_singleton.mp member
        exact .connect peer
      · cases member
  | graft peer topic =>
      cases List.mem_singleton.mp member
      exact .graft peer topic
  | prune peer topic =>
      cases List.mem_singleton.mp member
      exact .prune peer topic
  | join topic =>
      simp only [requests] at member
      split at member
      · cases List.mem_singleton.mp member
        exact .join topic
      · cases member
  | deliver message =>
      obtain ⟨topic, _, requested⟩ := List.mem_flatMap.mp member
      exact t.bumpRequest_asks message topic a requested
  | _ => cases member

theorem Asks.switches {config : Config} {e : Event} {actions : List Action}
    (asks : ∀ a ∈ actions, Asks config e a) (m : Manager) : (m.run actions).switches = m.switches :=
  Manager.run_switches_of_still m fun a member on => by cases asks a member <;> exact ⟨nofun, nofun⟩

/-- No event turns a switch. -/
theorem requests_switches (t : Tagger) (m : Manager) (e : Event) :
    (m.run (t.requests e)).switches = m.switches := Asks.switches (t.requests_asks e) m

theorem bumpDelivery_fst (t : Tagger) (m : Manager) (peer : Peer) (topic : String) :
    (t.bumpDelivery m peer topic).1 = m.run (t.bumpRequest peer topic) := by
  unfold bumpDelivery bumpRequest
  cases t.tracked.get? topic with
  | none => rfl
  | some number =>
      simp only [Manager.run_cons, Manager.run_nil, Manager.act]
      rcases m.bump number peer t.config.deliveryBump with ⟨after, _ | _⟩ <;> rfl

theorem settled_tagger (t : Tagger) (peer : Peer) (tag : String) (tally : Tally) (entry : LogEntry)
    (r : Manager × Except Manager.Error Unit) : (settled t peer tag tally entry r).tagger = t := by
  rcases r with ⟨after, _ | _⟩ <;> rfl

theorem settled_manager (t : Tagger) (peer : Peer) (tag : String) (tally : Tally) (entry : LogEntry)
    (r : Manager × Except Manager.Error Unit) : (settled t peer tag tally entry r).manager = r.1 := by
  rcases r with ⟨after, _ | _⟩ <;> rfl

theorem deliverTopic_tagger (peer : Peer) (topic : String) (t : Tagger) (m : Manager) :
    (deliverTopic peer topic t m).tagger = t := by
  unfold deliverTopic
  rcases t.bumpDelivery m peer topic with ⟨after, _ | _⟩ <;> rfl

theorem deliverTopic_manager (peer : Peer) (topic : String) (t : Tagger) (m : Manager) :
    (deliverTopic peer topic t m).manager = m.run (t.bumpRequest peer topic) := by
  rw [← bumpDelivery_fst]
  unfold deliverTopic
  rcases t.bumpDelivery m peer topic with ⟨after, _ | _⟩ <;> rfl

theorem foldl_deliverTopic (peer : Peer) (topics : List String) (r : Reaction) :
    (topics.foldl (fun r topic => r.andThen (deliverTopic peer topic)) r).tagger = r.tagger ∧
    (topics.foldl (fun r topic => r.andThen (deliverTopic peer topic)) r).manager =
      r.manager.run (topics.flatMap (r.tagger.bumpRequest peer)) := by
  induction topics generalizing r with
  | nil => exact ⟨rfl, rfl⟩
  | cons topic topics ih =>
      have tagger : (r.andThen (deliverTopic peer topic)).tagger = r.tagger :=
        deliverTopic_tagger peer topic r.tagger r.manager
      have manager : (r.andThen (deliverTopic peer topic)).manager =
          r.manager.run (r.tagger.bumpRequest peer topic) := deliverTopic_manager peer topic r.tagger r.manager
      rw [List.foldl_cons, (ih _).1, (ih _).2, tagger, manager, List.flatMap_cons, Manager.run_append]
      exact ⟨rfl, rfl⟩

/-- What is left of a join that a tagger asks for: the manager's answer decides what is tracked. -/
theorem join_eq (t : Tagger) (m : Manager) (topic : String) (supports : t.supportsDecay = true) :
    (∃ number, (m.register (TagName.delivery topic) t.config.decayInterval (.fixed t.config.decayAmount)
        (.capped t.config.deliveryCap)).2 = .ok number ∧
      (t.join m topic).tagger = { t with tracked := t.tracked.insert topic number }) ∨
    (∃ e, (m.register (TagName.delivery topic) t.config.decayInterval (.fixed t.config.decayAmount)
        (.capped t.config.deliveryCap)).2 = .error e ∧ (t.join m topic).tagger = t) := by
  simp only [join, supports, Bool.not_true, Bool.false_eq_true, if_false]
  rcases m.register (TagName.delivery topic) t.config.decayInterval (.fixed t.config.decayAmount)
    (.capped t.config.deliveryCap) with ⟨after, e | number⟩
  · exact .inr ⟨e, rfl, rfl⟩
  · exact .inl ⟨number, rfl, rfl⟩

theorem join_manager (t : Tagger) (m : Manager) (topic : String) :
    (t.join m topic).manager = m.run (t.requests (.join topic)) := by
  by_cases supports : t.supportsDecay = true
  · simp only [join, requests, supports, Bool.not_true, Bool.false_eq_true, if_false, if_true, Manager.run_cons,
      Manager.run_nil, Manager.act]
    rcases m.register (TagName.delivery topic) t.config.decayInterval (.fixed t.config.decayAmount)
      (.capped t.config.deliveryCap) with ⟨after, _ | _⟩ <;> rfl
  · simp [join, requests, supports, Reaction.nothing]

theorem react_manager (t : Tagger) (m : Manager) (e : Event) : (t.react m e).manager = m.run (t.requests e) := by
  cases e with
  | connect peer =>
      simp only [react, connect, requests]
      split
      · exact settled_manager ..
      · rfl
  | graft peer topic => exact settled_manager ..
  | prune peer topic => exact settled_manager ..
  | join topic => exact join_manager t m topic
  | leave topic =>
      simp only [react, leave, requests]
      split <;> rfl
  | deliver message => exact (foldl_deliverTopic message.receivedFrom message.topics (.nothing t m)).2
  | _ => rfl

/-- Apart from joining and leaving, events leave a tagger as it is. -/
theorem react_tagger (t : Tagger) (m : Manager) {e : Event} (joins : ∀ topic, e ≠ .join topic)
    (leaves : ∀ topic, e ≠ .leave topic) : (t.react m e).tagger = t := by
  cases e with
  | connect peer =>
      simp only [react, connect]
      split
      · exact settled_tagger ..
      · rfl
  | graft peer topic => exact settled_tagger ..
  | prune peer topic => exact settled_tagger ..
  | join topic => exact absurd rfl (joins topic)
  | leave topic => exact absurd rfl (leaves topic)
  | deliver message => exact (foldl_deliverTopic message.receivedFrom message.topics (.nothing t m)).1
  | _ => rfl

theorem leave_tagger (t : Tagger) (m : Manager) (topic : String) :
    (t.leave m topic).tagger = { t with tracked := t.tracked.erase topic } ∨
      (t.leave m topic).tagger = t ∧ t.tracked.get? topic = none := by
  unfold leave
  split
  · exact .inl rfl
  · rename_i untracked
    exact .inr ⟨rfl, by simpa [isTracking, Table.contains] using untracked⟩

/-- A tagger's terms are for good; only what it tracks changes. -/
theorem react_terms (t : Tagger) (m : Manager) (e : Event) :
    (t.react m e).tagger.config = t.config ∧ (t.react m e).tagger.supportsDecay = t.supportsDecay ∧
      (t.react m e).tagger.direct = t.direct := by
  cases e with
  | join topic =>
      by_cases supports : t.supportsDecay = true
      · rcases join_eq t m topic supports with ⟨_, _, after⟩ | ⟨_, _, after⟩ <;>
          simp [react, after]
      · simp [react, join, supports, Reaction.nothing]
  | leave topic =>
      rcases leave_tagger t m topic with after | ⟨after, _⟩ <;> simp [react, after]
  | _ => rw [react_tagger t m (fun _ h => by cases h) fun _ h => by cases h]; exact ⟨rfl, rfl, rfl⟩

/-! What a tagger tracks. -/

/-- A decaying tag that was issued for a topic's deliveries on the given terms. -/
structure IssuedFor (config : Config) (topic : String) (d : DecayingTag) : Prop where
  name : d.name = TagName.delivery topic
  interval : d.interval = config.decayInterval
  decay : d.decay = .fixed config.decayAmount
  bump : d.bump = .capped config.deliveryCap

theorem IssuedFor.continues {config : Config} {topic : String} {d d' : DecayingTag}
    (h : IssuedFor config topic d) (later : d.Continues d') : IssuedFor config topic d' :=
  ⟨later.name.trans h.name, later.interval.trans h.interval, later.decay.trans h.decay, later.bump.trans h.bump⟩

theorem create_of_valid {config : Config} (valid : config.Valid) (supportsDecay : Bool) (direct : PeerSet) :
    create config supportsDecay direct =
      .ok (⟨config, valid, supportsDecay, direct, ∅⟩, if supportsDecay then [] else [.decayUnsupported]) := by
  unfold create
  split
  · rename_i e refused
    rw [Config.check_eq_ok_iff.mpr valid] at refused
    cases refused
  · rfl

theorem create_fresh {config : Config} {supportsDecay : Bool} {direct : PeerSet} {t : Tagger} {log : List LogEntry}
    (created : create config supportsDecay direct = .ok (t, log)) :
    t.tracked = ∅ ∧ t.supportsDecay = supportsDecay := by
  unfold create at created
  split at created
  · cases created
  · cases created
    exact ⟨rfl, rfl⟩

/-- Each tracked number is that of a decaying tag issued for the topic, open or not. -/
def Holds (t : Tagger) (m : Manager) : Prop :=
  ∀ topic number, t.tracked.get? topic = some number →
    ∃ d, m.issued[number]? = some d ∧ IssuedFor t.config topic d

theorem Holds.run {t : Tagger} {m : Manager} (h : t.Holds m) (actions : List Action) : t.Holds (m.run actions) := by
  intro topic number tracked
  obtain ⟨d, found, terms⟩ := h topic number tracked
  obtain ⟨d', found', later⟩ := Manager.run_continues actions found
  exact ⟨d', found', terms.continues later⟩

theorem join_holds {t : Tagger} {m : Manager} (h : t.Holds m) (topic : String) :
    (t.join m topic).tagger.Holds (t.join m topic).manager := by
  rw [join_manager]
  have kept := h.run (t.requests (.join topic))
  by_cases supports : t.supportsDecay = true
  · rcases join_eq t m topic supports with ⟨number, ok, after⟩ | ⟨_, _, after⟩
    · rw [after]
      intro topic' number' tracked
      simp only [Table.get?_insert] at tracked
      split at tracked
      · rename_i same
        subst same
        cases Option.some.inj tracked
        rcases Manager.register_cases m (TagName.delivery topic') t.config.decayInterval
          (.fixed t.config.decayAmount) (.capped t.config.deliveryCap) with ⟨_, issued⟩ | ⟨e, refused⟩
        · rw [issued] at ok
          cases ok
          simp only [requests, supports, if_true, Manager.run_cons, Manager.run_nil, Manager.act, issued]
          exact ⟨_, Manager.getElem?_concat_eq_some_iff.mpr (.inr ⟨rfl, rfl⟩), rfl, rfl, rfl, rfl⟩
        · rw [refused] at ok
          cases ok
      · exact kept topic' number' tracked
    · rw [after]
      exact kept
  · have same : (t.join m topic).tagger = t := by simp [join, supports, Reaction.nothing]
    rw [same]
    exact kept

theorem leave_holds {t : Tagger} {m : Manager} (h : t.Holds m) (topic : String) :
    (t.leave m topic).tagger.Holds m := by
  rcases leave_tagger t m topic with after | ⟨after, _⟩
  · rw [after]
    intro topic' number tracked
    simp only [Table.get?_erase] at tracked
    split at tracked
    · cases tracked
    · exact h topic' number tracked
  · rw [after]
    exact h

theorem react_holds {t : Tagger} {m : Manager} (h : t.Holds m) (e : Event) :
    (t.react m e).tagger.Holds (t.react m e).manager := by
  cases e with
  | join topic => exact join_holds h topic
  | leave topic =>
      rw [react_manager]
      exact leave_holds h topic
  | _ =>
      rw [react_manager, react_tagger t m (fun _ same => by cases same) fun _ same => by cases same]
      exact h.run _

/-! A delivery tag is capped, so no event breaks off. -/

theorem bump_of_mem_requests {t : Tagger} {e : Event} {number : Nat} {peer : Peer} {delta : Amount}
    (asked : .bump number peer delta ∈ t.requests e) :
    ∃ topic, t.tracked.get? topic = some number ∧ delta = t.config.deliveryBump := by
  cases t.requests_asks e _ asked
  obtain ⟨topic, _, requested⟩ := List.mem_flatMap.mp asked
  obtain ⟨_, tracked, same⟩ := mem_bumpRequest_iff.mp requested
  cases same
  exact ⟨topic, tracked, rfl⟩

theorem Holds.capped {t : Tagger} {m : Manager} (h : t.Holds m) {topic : String} {number : Nat}
    (tracked : t.tracked.get? topic = some number) :
    ∃ d greatest, m.issued[number]? = some d ∧ d.bump = .capped greatest := by
  obtain ⟨d, found, terms⟩ := h topic number tracked
  exact ⟨d, _, found, terms.bump⟩

theorem bumpRequest_calm {t : Tagger} {m : Manager} (h : t.Holds m) (peer : Peer) (topic : String) :
    m.Calm (t.bumpRequest peer topic) := by
  refine Manager.calm_of_capped fun number peer' delta asked => ?_
  obtain ⟨_, tracked, same⟩ := mem_bumpRequest_iff.mp asked
  cases same
  exact h.capped tracked

theorem requests_calm {t : Tagger} {m : Manager} (h : t.Holds m) (e : Event) : m.Calm (t.requests e) := by
  refine Manager.calm_of_capped fun number peer delta asked => ?_
  obtain ⟨_, tracked, _⟩ := bump_of_mem_requests asked
  exact h.capped tracked

end Tagger
end PeerTags
