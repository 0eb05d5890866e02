import PeerTags.Proofs.Session.Delivery
/-! What a session of one tagger shows: the values under the names of mesh tags, the topics
that are tracked and those that have a delivery tag, the scores of deliveries, the counts of
the tally, and the switches. The order of the calls, the log and the numbers of decaying tags
are left out. Each input changes what is shown in a way that depends on nothing else. -/
namespace PeerTags

namespace Event

/-- The topic that is joined or left. -/
def membership? : Event → Option String
  | .join topic | .leave topic => some topic
  | _ => none

/-- How often a peer's deliveries of a topic are to be bumped. -/
def bumps (peer : Peer) (topic : String) : Event → Nat
  | .deliver message => if message.receivedFrom = peer then message.topics.count topic else 0
  | _ => 0

end Event

namespace Session

@[ext] structure View where
  supportsDecay : Bool
  rejectsTags : Bool
  rejectsRegistrations : Bool
  /-- The value under the name of a topic's mesh tag. -/
  mesh : Peer → String → Option Amount
  tracking : String → Bool
  /-- Whether a topic has a delivery tag. -/
  registered : String → Bool
  score : Peer → String → Option Int
  tally : Tally

namespace View

def admits (v : View) (topic : String) : Bool :=
  v.supportsDecay && !v.rejectsRegistrations && !v.registered topic

/-- A call to set or clear a tag counts as what it is for, or as a failure. -/
def settled (v : View) (tally : Tally) : Tally :=
  if v.rejectsTags then { Tally.zero with tagFailures := 1 } else tally

/-- What an event adds to the tally. -/
def tallied (direct : List Peer) (v : View) : Event → Tally
  | .connect peer => if peer ∈ direct then v.settled { Tally.zero with directTagged := 1 } else 0
  | .graft _ _ => v.settled { Tally.zero with meshTagged := 1 }
  | .prune _ _ => v.settled { Tally.zero with meshUntagged := 1 }
  | .join topic =>
    if v.admits topic then { Tally.zero with trackedTopics := if v.tracking topic then 0 else 1 }
    else if v.supportsDecay then { Tally.zero with registrationFailures := 1 } else 0
  | .leave topic => if v.tracking topic then { Tally.zero with trackedTopics := -1 } else 0
  | .deliver message =>
    .deliveries (message.topics.countP v.tracking) (message.topics.countP fun topic => !v.tracking topic)
  | .disconnect _ | .validate _ | .reject _ _ | .duplicate _ => 0

def event (config : Config) (direct : List Peer) (v : View) (e : Event) : View where
  supportsDecay := v.supportsDecay
  rejectsTags := v.rejectsTags
  rejectsRegistrations := v.rejectsRegistrations
  mesh := fun peer topic =>
    if v.rejectsTags then v.mesh peer topic
    else (Solo.write? config direct peer (TagName.mesh topic) e).getD (v.mesh peer topic)
  tracking := fun topic =>
    match e with
    | .join t => decide (topic = t) && v.admits t || v.tracking topic
    | .leave t => !decide (topic = t) && v.tracking topic
    | _ => v.tracking topic
  registered := fun topic =>
    match e with
    | .join t => decide (topic = t) && v.admits t || v.registered topic
    | _ => v.registered topic
  score := fun peer topic =>
    if v.tracking topic then (Delivery.bumped config)^[e.bumps peer topic] (v.score peer topic)
    else v.score peer topic
  tally := v.tally + v.tallied direct e

def take (config : Config) (direct : List Peer) (v : View) : Input → View
  | .event e => v.event config direct e
  | .advance intervals =>
    { v with score := fun peer topic => (Delivery.decayed config)^[intervals] (v.score peer topic) }
  | .rejectTags on => { v with rejectsTags := on }
  | .rejectRegistrations on => { v with rejectsRegistrations := on }

/-- Before anything has happened. -/
def fresh (supportsDecay : Bool) : View where
  supportsDecay := supportsDecay
  rejectsTags := false
  rejectsRegistrations := false
  mesh := fun _ _ => none
  tracking := fun _ => false
  registered := fun _ => false
  score := fun _ _ => none
  tally := 0

def run (config : Config) (direct : List Peer) (v : View) (inputs : List Input) : View :=
  inputs.foldl (take config direct) v

/-- Each score is positive as long as there is one. -/
def Positive (v : View) : Prop := ∀ peer topic, Delivery.Positive (v.score peer topic)

theorem Positive.take {config : Config} (valid : config.Valid) (direct : List Peer) {v : View} (h : v.Positive)
    (input : Input) : (v.take config direct input).Positive := by
  intro peer topic
  cases input with
  | event e =>
      show Delivery.Positive (if v.tracking topic then _ else _)
      split
      · exact Function.Iterate.rec Delivery.Positive (h peer topic) (fun _ => Delivery.bumped_positive valid) _
      · exact h peer topic
  | advance intervals =>
      exact Function.Iterate.rec Delivery.Positive (h peer topic)
        (fun score _ => Delivery.decayed_positive config score) intervals
  | rejectTags on => exact h peer topic
  | rejectRegistrations on => exact h peer topic

end View

namespace Solo

/-- What the pair shows, when the tally stands so far. -/
def view (s : Solo) (tally : Tally) : View where
  supportsDecay := s.manager.supportsDecay
  rejectsTags := s.manager.rejectsTags
  rejectsRegistrations := s.manager.rejectsRegistrations
  mesh := fun peer topic => s.manager.tagValue peer (TagName.mesh topic)
  tracking := s.tagger.isTracking
  registered := fun topic => s.manager.registry.contains (TagName.delivery topic)
  score := score s.manager
  tally := tally

/-- What an input adds to the tally. -/
def tallied (s : Solo) : Input → Tally
  | .event e => (s.tagger.react s.manager e).tally
  | _ => 0

variable {config : Config} {direct : List Peer} {s : Solo}

theorem Steady.tallied_event (h : Steady config direct s) (tally : Tally) (e : Event) :
    s.tallied (.event e) = (s.view tally).tallied direct e := by
  cases e with
  | connect peer =>
      simp only [tallied, Tagger.react, Tagger.connect, h.members, View.tallied, decide_eq_true_eq]
      split
      · exact Tagger.settled_tally_tag ..
      · rfl
  | graft peer topic => exact Tagger.settled_tally_tag ..
  | prune peer topic => exact Tagger.settled_tally_untag ..
  | join topic =>
      have admits : (s.view tally).admits topic = s.manager.admits (TagName.delivery topic) := rfl
      rw [View.tallied, admits]
      rcases Tagger.join_cases s.tagger s.manager topic h.alike with ⟨admitted, _, counted⟩ | ⟨refused, _, _, counted⟩
      · rw [admitted, if_pos rfl]
        exact counted
      · rw [refused, if_neg Bool.false_ne_true]
        exact counted
  | leave topic => exact Tagger.leave_tally s.tagger s.manager topic
  | deliver message =>
      have counted := Tagger.deliver_tally h.holds message
      rwa [Tagger.deliveryTally, h.reaches_eq] at counted
  | _ => rfl

theorem Steady.tracking_event (h : Steady config direct s) (tally : Tally) (e : Event) :
    (s.take (.event e)).tagger.isTracking = ((s.view tally).event config direct e).tracking := by
  funext topic
  have other (joins : ∀ t, e ≠ .join t) (leaves : ∀ t, e ≠ .leave t) :
      (s.take (.event e)).tagger.isTracking topic = s.tagger.isTracking topic :=
    congrArg (fun t => t.isTracking topic) (Tagger.react_tagger s.tagger s.manager joins leaves)
  cases e with
  | join t => exact h.take_join_isTracking t topic
  | leave t => exact s.tagger.leave_isTracking s.manager t topic
  | _ => exact other (fun _ same => by cases same) fun _ same => by cases same

theorem Steady.registered_event (h : Steady config direct s) (tally : Tally) (e : Event) (topic : String) :
    (s.take (.event e)).manager.registry.contains (TagName.delivery topic) =
      ((s.view tally).event config direct e).registered topic := by
  have other (joins : ∀ t, e ≠ .join t) : (s.take (.event e)).manager.registry.contains (TagName.delivery topic) =
      s.manager.registry.contains (TagName.delivery topic) :=
    congrArg (fun registry => registry.contains (TagName.delivery topic)) (s.event_sameHandles joins).registry
  cases e with
  | join t => exact h.take_join_registers t topic
  | _ => exact other fun _ same => by cases same

theorem Steady.score_event_eq (h : Steady config direct s) (valid : config.Valid) {tally : Tally}
    (positive : (s.view tally).Positive) (e : Event) (peer : Peer) (topic : String) :
    score (s.take (.event e)).manager peer topic = ((s.view tally).event config direct e).score peer topic := by
  cases e with
  | deliver message =>
      have scored := h.score_deliver valid message.receivedFrom peer topic (positive peer topic) message.topics
      refine scored.trans ?_
      simp only [View.event, Event.bumps, view]
      by_cases own : message.receivedFrom = peer <;> simp [own]
  | _ =>
      rw [score_event s fun _ same => by cases same]
      exact (ite_self _).symm

/-- What the pair shows after an input is what it showed before, changed by the input. -/
theorem Steady.view_take (h : Steady config direct s) (valid : config.Valid) {tally : Tally}
    (positive : (s.view tally).Positive) (input : Input) :
    (s.take input).view (tally + s.tallied input) = (s.view tally).take config direct input := by
  have switches := s.take_switches input
  cases input with
  | event e =>
      obtain ⟨supports, rejectsTags, rejectsRegistrations⟩ := Manager.switches_eq_iff.mp switches
      apply View.ext
      · exact supports
      · exact rejectsTags
      · exact rejectsRegistrations
      · funext peer topic
        exact h.tagValue_event (TagName.mesh_ne_delivery topic) peer e
      · exact h.tracking_event tally e
      · funext topic
        exact h.registered_event tally e topic
      · funext peer topic
        exact h.score_event_eq valid positive e peer topic
      · exact congrArg (tally + ·) (h.tallied_event tally e)
  | advance intervals =>
      have handles := Manager.advance_sameHandles s.manager intervals
      obtain ⟨supports, rejectsTags, rejectsRegistrations⟩ := Manager.switches_eq_iff.mp switches
      apply View.ext
      · exact supports
      · exact rejectsTags
      · exact rejectsRegistrations
      · funext peer topic
        exact h.tagValue_take (TagName.mesh_ne_delivery topic) peer (.advance intervals)
      · rfl
      · funext topic
        exact congrArg (fun registry => registry.contains (TagName.delivery topic)) handles.registry
      · funext peer topic
        exact h.score_advance valid peer topic (positive peer topic) intervals
      · exact add_zero tally
  | rejectTags on => exact View.ext rfl rfl rfl rfl rfl rfl rfl (add_zero tally)
  | rejectRegistrations on => exact View.ext rfl rfl rfl rfl rfl rfl rfl (add_zero tally)

/-! The session. -/

theorem ShownBy.step_tally {w : World} (h : s.ShownBy w) (input : Input) :
    (w.step input.step).world.tally = w.tally.map (· + s.tallied input) := by
  obtain ⟨seat, observer⟩ := h
  have still : w.tally = w.tally.map (· + 0) := by
    cases w.tally with
    | none => rfl
    | some tally => exact congrArg some (add_zero tally).symm
  cases input with
  | event e => simp only [Input.step, World.step, World.notify, observer, seat, World.tally_setManager, tallied]
  | advance intervals =>
      simp only [Input.step, World.step, World.command, seat, World.tally_setManager, tallied]
      exact still
  | rejectTags on =>
      simp only [Input.step, World.step, World.command, seat, World.quiet, World.tally_setManager, tallied]
      exact still
  | rejectRegistrations on =>
      simp only [Input.step, World.step, World.command, seat, World.quiet, World.tally_setManager, tallied]
      exact still

/-- A world, its tagger and its manager show this. -/
structure Exhibits (config : Config) (direct : List Peer) (s : Solo) (w : World) (v : View) : Prop where
  pair : s.ShownBy w
  steady : Steady config direct s
  tally : w.tally = some v.tally
  shows : s.view v.tally = v
  positive : v.Positive
  /-- There is nothing under other names. -/
  bare : ∀ peer name, (∀ topic, name ≠ TagName.mesh topic) → (∀ topic, name ≠ TagName.delivery topic) →
    s.manager.tagValue peer name = none

theorem startOn_exhibits (kind : World.Kind) (valid : config.Valid) (direct : List Peer) :
    Exhibits config direct (startOn (decide (kind = .decaying)) config valid direct)
      (World.soloOn kind config direct) (.fresh (decide (kind = .decaying))) where
  pair := startOn_shownBy kind valid direct
  steady := startOn_steady _ valid direct
  tally := by
    have seats : (World.ofKinds [kind]).seats[0]? = some kind.seat := rfl
    rw [World.soloOn, World.opened, World.openWith_fst, List.foldl_cons, List.foldl_nil, World.addObserver]
    simp only [seats, Tagger.create_of_valid valid]
    rfl
  shows := rfl
  positive := fun _ _ _ scored => nomatch scored
  bare := fun _ _ _ _ => rfl

namespace Exhibits

variable {w : World} {v : View}

theorem step (h : Exhibits config direct s w v) (valid : config.Valid) (input : Input) :
    Exhibits config direct (s.take input) (w.step input.step).world (v.take config direct input) := by
  have positive : (s.view v.tally).Positive := h.shows ▸ h.positive
  have after : (s.take input).view (v.tally + s.tallied input) = v.take config direct input := by
    rw [h.steady.view_take valid positive, h.shows]
  have counted : v.tally + s.tallied input = (v.take config direct input).tally := congrArg View.tally after
  refine ⟨h.pair.step input, h.steady.take input, ?_, counted ▸ after, h.positive.take valid direct input, ?_⟩
  · rw [h.pair.step_tally, h.tally, Option.map_some, counted]
  · intro peer name mesh delivery
    have before := h.bare peer name mesh delivery
    rw [h.steady.tagValue_take delivery peer input]
    cases input with
    | event e =>
        simp only [write?_other config direct peer mesh e, Option.getD_none, ite_self]
        exact before
    | _ => exact before

theorem run (h : Exhibits config direct s w v) (valid : config.Valid) (inputs : List Input) :
    Exhibits config direct (s.run inputs) (w.run (inputs.map Input.step)) (v.run config direct inputs) := by
  induction inputs generalizing s w v with
  | nil => exact h
  | cons input inputs ih => exact ih (h.step valid input)

/-! What is shown tells the states apart no further. -/

variable {s' : Solo} {w' : World} {v' : View}

theorem tagValue_mesh (h : Exhibits config direct s w v) (peer : Peer) (topic : String) :
    s.manager.tagValue peer (TagName.mesh topic) = v.mesh peer topic :=
  congrFun (congrFun (congrArg View.mesh h.shows) peer) topic

theorem isTracking_eq (h : Exhibits config direct s w v) (topic : String) :
    s.tagger.isTracking topic = v.tracking topic := congrFun (congrArg View.tracking h.shows) topic

theorem registers_eq (h : Exhibits config direct s w v) (topic : String) :
    s.manager.registry.contains (TagName.delivery topic) = v.registered topic :=
  congrFun (congrArg View.registered h.shows) topic

theorem score_eq (h : Exhibits config direct s w v) (peer : Peer) (topic : String) :
    score s.manager peer topic = v.score peer topic :=
  congrFun (congrFun (congrArg View.score h.shows) peer) topic

theorem tagValue_delivery_eq (h : Exhibits config direct s w v) (h' : Exhibits config direct s' w' v')
    (same : v.score = v'.score) (peer : Peer) (topic : String) :
    s.manager.tagValue peer (TagName.delivery topic) = s'.manager.tagValue peer (TagName.delivery topic) := by
  have scores : score s.manager peer topic = score s'.manager peer topic := by
    rw [h.score_eq, h'.score_eq, same]
  exact Option.map_injective (fun _ _ equal => Amount.ext equal) scores

theorem trackedTopics_eq (h : Exhibits config direct s w v) (h' : Exhibits config direct s' w' v')
    (same : v.tracking = v'.tracking) : s.tagger.trackedTopics = s'.tagger.trackedTopics :=
  Table.keys_eq_of_contains fun topic => (h.isTracking_eq topic).trans (same ▸ (h'.isTracking_eq topic).symm)

/-- Only delivery tags are ever registered. -/
theorem registered_other (h : Exhibits config direct s w v) {name : String}
    (apart : ∀ topic, name ≠ TagName.delivery topic) : s.manager.registry.contains name = false := by
  have free : s.manager.registry.get? name = none :=
    h.steady.consistent.get?_eq_none_iff.mpr fun ⟨number, isOpen⟩ => h.steady.free apart number isOpen
  rw [Table.contains, free]
  rfl

theorem registered_eq (h : Exhibits config direct s w v) (h' : Exhibits config direct s' w' v')
    (same : v.registered = v'.registered) : s.manager.registered = s'.manager.registered := by
  refine Table.keys_eq_of_contains fun name => ?_
  rcases exists_or_forall_not fun topic => name = TagName.delivery topic with ⟨topic, rfl⟩ | apart
  · rw [h.registers_eq, h'.registers_eq, same]
  · rw [h.registered_other apart, h'.registered_other apart]

theorem held_eq (h : Exhibits config direct s w v) (h' : Exhibits config direct s' w' v')
    (same : v.score = v'.score) (name : String) (peer : Peer) :
    s.manager.held name peer = s'.manager.held name peer := by
  rcases exists_or_forall_not fun topic => name = TagName.delivery topic with ⟨topic, rfl⟩ | apart
  · rw [← h.steady.mirrors topic peer, ← h'.steady.mirrors topic peer, h.tagValue_delivery_eq h' same]
  · rw [h.steady.consistent.held_eq_none (h.steady.free apart),
      h'.steady.consistent.held_eq_none (h'.steady.free apart)]

theorem tags_eq (h : Exhibits config direct s w v) (h' : Exhibits config direct s' w' v')
    (mesh : v.mesh = v'.mesh) (scores : v.score = v'.score) : s.manager.tags = s'.manager.tags := by
  apply Table.ext
  rintro ⟨peer, name⟩
  show s.manager.tagValue peer name = s'.manager.tagValue peer name
  rcases exists_or_forall_not fun topic => name = TagName.mesh topic with ⟨topic, rfl⟩ | noMesh
  · rw [h.tagValue_mesh, h'.tagValue_mesh, mesh]
  · rcases exists_or_forall_not fun topic => name = TagName.delivery topic with ⟨topic, rfl⟩ | apart
    · exact h.tagValue_delivery_eq h' scores peer topic
    · rw [h.bare peer name noMesh apart, h'.bare peer name noMesh apart]

end Exhibits

end Solo
end Session
end PeerTags
