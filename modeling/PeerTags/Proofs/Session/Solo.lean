import PeerTags.Proofs.Peer
import PeerTags.Proofs.Session.Mirror
/-! One tagger alone on a new manager: what a session of its events, of intervals
and of the two switches comes to, as a run of the pair. The pair is `Steady`: every
decaying tag of the manager is an open delivery tag on the tagger's terms, and the
table shows its values. What is shown under other names is what the latest event
wrote there while tags were accepted. -/
namespace PeerTags.Session

open Manager (Action)

/-- What happens to a manager that a single tagger uses. -/
inductive Input where
  | event (event : Event)
  | advance (intervals : Nat)
  | rejectTags (on : Bool)
  | rejectRegistrations (on : Bool)
deriving DecidableEq

def Input.step : Input → Step
  | .event e => .event (.one 0) e
  | .advance intervals => .command 0 (.advance intervals)
  | .rejectTags on => .command 0 (.rejectTags on)
  | .rejectRegistrations on => .command 0 (.rejectRegistrations on)

/-- A new manager with one tagger on it. -/
def World.solo (config : Config) (direct : List Peer) : World := opened [.decaying] [.tagger 0 config direct]

/-- A new manager of any kind with one tagger on it. -/
def World.soloOn (kind : World.Kind) (config : Config) (direct : List Peer) : World :=
  opened [kind] [.tagger 0 config direct]

/-- A tagger and its manager. -/
structure Solo where
  tagger : Tagger
  manager : Manager

namespace Solo

def start (config : Config) (valid : config.Valid) (direct : List Peer) : Solo :=
  ⟨⟨config, valid, true, PeerSet.ofList direct, ∅⟩, .new true⟩

/-- The start with or without support for decay. -/
def startOn (supportsDecay : Bool) (config : Config) (valid : config.Valid) (direct : List Peer) : Solo :=
  ⟨⟨config, valid, supportsDecay, PeerSet.ofList direct, ∅⟩, .new supportsDecay⟩

def requests (s : Solo) : Input → List Action
  | .event event => s.tagger.requests event
  | .advance intervals => [.advance intervals]
  | .rejectTags on => [.rejectTags on]
  | .rejectRegistrations on => [.rejectRegistrations on]

def take (s : Solo) (input : Input) : Solo where
  manager := s.manager.run (s.requests input)
  tagger :=
    match input with
    | .event event => (s.tagger.react s.manager event).tagger
    | _ => s.tagger

theorem take_supportsDecay (s : Solo) (input : Input) :
    (s.take input).manager.supportsDecay = s.manager.supportsDecay := Manager.run_supportsDecay s.manager _

theorem take_manager (s : Solo) (input : Input) : (s.take input).manager = s.manager.run (s.requests input) := rfl

def run (s : Solo) (inputs : List Input) : Solo := inputs.foldl take s

/-! The pair against the session. -/

/-- The session's first observer and first manager are this pair. -/
def ShownBy (s : Solo) (w : World) : Prop :=
  w.manager? 0 = some s.manager ∧ w.observers[0]? = some (.tagger 0 s.tagger)

theorem ShownBy.tagger? {s : Solo} {w : World} (h : s.ShownBy w) : w.tagger? 0 = some s.tagger := by
  rw [World.tagger?, h.2]

theorem startOn_shownBy (kind : World.Kind) {config : Config} (valid : config.Valid) (direct : List Peer) :
    (startOn (decide (kind = .decaying)) config valid direct).ShownBy (World.soloOn kind config direct) := by
  have seats : (World.ofKinds [kind]).seats[0]? = some kind.seat := rfl
  have manager : kind.seat.manager = .new (decide (kind = .decaying)) := by cases kind <;> rfl
  constructor
  · exact World.opened_manager?_eq [kind] [.tagger 0 config direct] 0
  · rw [World.soloOn, World.opened, World.openWith_fst, List.foldl_cons, List.foldl_nil, World.addObserver]
    simp only [seats, Tagger.create_of_valid valid, manager]
    rfl

theorem start_shownBy {config : Config} (valid : config.Valid) (direct : List Peer) :
    (start config valid direct).ShownBy (World.solo config direct) := startOn_shownBy .decaying valid direct

theorem ShownBy.step {s : Solo} {w : World} (h : s.ShownBy w) (input : Input) :
    (s.take input).ShownBy (w.step input.step).world := by
  obtain ⟨seat, observer⟩ := h
  have manager : w.requests 0 input.step = s.requests input := by
    cases input with
    | event event => simp [Input.step, World.requests, World.eventRequests, observer, Observer.requests, requests]
    | _ => rfl
  refine ⟨by rw [World.step_manager?, seat, manager]; rfl, ?_⟩
  cases input with
  | event event =>
      have inside : 0 < w.observers.length := (List.getElem?_eq_some_iff.mp observer).1
      simp only [Input.step, World.step, World.notify, observer, seat, World.observers_setManager]
      exact List.getElem?_set_self inside
  | _ =>
      rw [World.step_observers w fun _ _ same => by cases same]
      exact observer

theorem ShownBy.run {s : Solo} {w : World} (h : s.ShownBy w) (inputs : List Input) :
    (s.run inputs).ShownBy (w.run (inputs.map Input.step)) := by
  induction inputs generalizing s w with
  | nil => exact h
  | cons input inputs ih => exact ih (h.step input)

/-! What all decaying tags of the manager are. -/

/-- All that is asked of the manager. -/
inductive Asked (config : Config) : Action → Prop where
  | byTagger {e : Event} {a : Action} (asks : Tagger.Asks config e a) : Asked config a
  | advance (intervals : Nat) : Asked config (.advance intervals)
  | rejectTags (on : Bool) : Asked config (.rejectTags on)
  | rejectRegistrations (on : Bool) : Asked config (.rejectRegistrations on)

theorem requests_asked (s : Solo) (input : Input) : ∀ a ∈ s.requests input, Asked s.tagger.config a := by
  intro a member
  cases input with
  | event e => exact .byTagger (s.tagger.requests_asks e a member)
  | advance intervals =>
      cases List.mem_singleton.mp member
      exact .advance intervals
  | rejectTags on =>
      cases List.mem_singleton.mp member
      exact .rejectTags on
  | rejectRegistrations on =>
      cases List.mem_singleton.mp member
      exact .rejectRegistrations on

/-- Every decaying tag is an open delivery tag on the given terms. -/
def OnTerms (config : Config) (m : Manager) : Prop :=
  ∀ (number : Nat) (d : DecayingTag), m.issued[number]? = some d →
    d.closed = false ∧ ∃ topic, Tagger.IssuedFor config topic d

theorem OnTerms.sameHandles {config : Config} {m m' : Manager} (h : OnTerms config m) (same : m.SameHandles m') :
    OnTerms config m' := by
  intro number d' found'
  obtain ⟨d, found, earlier⟩ := same.symm.continues found'
  obtain ⟨isOpen, topic, terms⟩ := h number d found
  obtain ⟨d'', found'', later⟩ := same.continues found
  cases Option.some.inj (found'.symm.trans found'')
  refine ⟨?_, topic, terms.continues later⟩
  cases shut : d'.closed with
  | false => rfl
  | true => exact absurd (earlier.closed shut) (by simp [isOpen])

theorem act_onTerms {config : Config} {m : Manager} (h : OnTerms config m) {a : Action} (asked : Asked config a) :
    OnTerms config (m.act a) := by
  cases asked with
  | byTagger asks =>
      cases asks with
      | join topic =>
          rcases Manager.register_cases m (TagName.delivery topic) config.decayInterval (.fixed config.decayAmount)
            (.capped config.deliveryCap) with ⟨_, issued⟩ | ⟨e, refused⟩
          · rw [Manager.act, issued]
            intro number d found
            rcases Manager.getElem?_concat_eq_some_iff.mp found with old | ⟨_, rfl⟩
            · exact h number d old
            · exact ⟨rfl, topic, rfl, rfl, rfl, rfl⟩
          · rw [Manager.act, refused]
            exact h
      | _ => exact h.sameHandles (Manager.act_sameHandles m rfl fun _ same => by cases same)
  | _ => exact h.sameHandles (Manager.act_sameHandles m rfl fun _ same => by cases same)

theorem run_onTerms {config : Config} {m : Manager} (h : OnTerms config m) {actions : List Action}
    (asked : ∀ a ∈ actions, Asked config a) : OnTerms config (m.run actions) := by
  induction actions generalizing m with
  | nil => exact h
  | cons a actions ih =>
      exact ih (act_onTerms h (asked a List.mem_cons_self)) fun b later => asked b (List.mem_cons_of_mem a later)

/-- What holds of the pair after every run. -/
structure Steady (config : Config) (direct : List Peer) (s : Solo) : Prop where
  terms : s.tagger.config = config
  members : ∀ peer, s.tagger.isDirect peer = decide (peer ∈ direct)
  alike : s.tagger.supportsDecay = s.manager.supportsDecay
  holds : s.tagger.Holds s.manager
  consistent : s.manager.Consistent
  mirrors : ∀ topic, s.manager.Mirrors (TagName.delivery topic)
  issued : OnTerms config s.manager

theorem startOn_steady (supportsDecay : Bool) {config : Config} (valid : config.Valid) (direct : List Peer) :
    Steady config direct (startOn supportsDecay config valid direct) where
  terms := rfl
  members := PeerSet.contains_ofList direct
  alike := rfl
  holds := fun _ _ tracked => by cases tracked
  consistent := Manager.new_consistent supportsDecay
  mirrors := fun topic => Manager.new_mirrors supportsDecay (TagName.delivery topic)
  issued := fun _ _ found => by cases found

theorem start_steady {config : Config} (valid : config.Valid) (direct : List Peer) :
    Steady config direct (start config valid direct) := startOn_steady true valid direct

variable {config : Config} {direct : List Peer} {s : Solo}

theorem requests_calm (holds : s.tagger.Holds s.manager) (input : Input) :
    s.manager.Calm (s.requests input) := by
  cases input with
  | event e => exact Tagger.requests_calm holds e
  | _ => exact ⟨id, trivial⟩

theorem take_holds (holds : s.tagger.Holds s.manager) (input : Input) :
    (s.take input).tagger.Holds (s.take input).manager := by
  cases input with
  | event e =>
      have after := Tagger.react_holds holds e
      rw [Tagger.react_manager] at after
      exact after
  | _ => exact holds.run _

theorem Asked.tagged_ne_delivery {a : Action} (asked : Asked config a) (topic : String) :
    a.tagged? ≠ some (TagName.delivery topic) := by
  intro tagged
  cases asked with
  | byTagger asks =>
      obtain ⟨topic', same⟩ := asks.fromTopics.1 (TagName.delivery topic) tagged
      exact TagName.mesh_ne_delivery topic' topic same.symm
  | _ => cases tagged

/-- More of what is asked of the manager, the tagger left as it is. -/
theorem Steady.more (h : Steady config direct s) {actions : List Action}
    (asked : ∀ a ∈ actions, Asked config a) (calm : s.manager.Calm actions) :
    Steady config direct ⟨s.tagger, s.manager.run actions⟩ where
  terms := h.terms
  members := h.members
  alike := h.alike.trans (Manager.run_supportsDecay s.manager actions).symm
  holds := h.holds.run actions
  consistent := Manager.run_consistent h.consistent actions
  mirrors := fun topic => Manager.run_mirrors h.consistent (h.mirrors topic)
    (fun a member => (asked a member).tagged_ne_delivery topic) calm
  issued := run_onTerms h.issued asked

theorem Steady.take (h : Steady config direct s) (input : Input) : Steady config direct (s.take input) := by
  have asked : ∀ a ∈ s.requests input, Asked config a := h.terms ▸ s.requests_asked input
  have after := h.more asked (requests_calm h.holds input)
  have kept : (s.take input).tagger.config = s.tagger.config ∧
      (s.take input).tagger.supportsDecay = s.tagger.supportsDecay ∧
      (s.take input).tagger.direct = s.tagger.direct := by
    cases input with
    | event e => exact Tagger.react_terms s.tagger s.manager e
    | _ => exact ⟨rfl, rfl, rfl⟩
  exact {
    terms := kept.1.trans h.terms
    members := fun peer => (congrArg (fun members : PeerSet => members.contains peer) kept.2.2).trans (h.members peer)
    alike := kept.2.1.trans after.alike
    holds := take_holds h.holds input
    consistent := after.consistent
    mirrors := after.mirrors
    issued := after.issued }

theorem Steady.run (h : Steady config direct s) (inputs : List Input) : Steady config direct (s.run inputs) := by
  induction inputs generalizing s with
  | nil => exact h
  | cons input inputs ih => exact ih (h.take input)

/-! Names that are not those of delivery tags. -/

theorem Steady.free (h : Steady config direct s) {name : String}
    (apart : ∀ topic, name ≠ TagName.delivery topic) : ∀ number, ¬ s.manager.OpenAs number name := by
  rintro number ⟨d, found, rfl, _⟩
  obtain ⟨_, topic, terms⟩ := h.issued number d found
  exact apart topic terms.name

/-- What an event writes at a place of the table: a value, or that there is none. -/
def write? (config : Config) (direct : List Peer) (peer : Peer) (name : String) : Event → Option (Option Amount)
  | .connect p => if peer = p ∧ name = TagName.direct ∧ p ∈ direct then some (some config.directPeerValue) else none
  | .graft p topic => if peer = p ∧ name = TagName.mesh topic then some (some config.meshPeerValue) else none
  | .prune p topic => if peer = p ∧ name = TagName.mesh topic then some none else none
  | _ => none

/-- Only places under the names of mesh tags are written; that of direct peers is one of them. -/
theorem write?_other (config : Config) (direct : List Peer) (peer : Peer) {name : String}
    (mesh : ∀ topic, name ≠ TagName.mesh topic) (e : Event) : write? config direct peer name e = none := by
  cases e with
  | connect p => exact if_neg fun all => mesh "direct" (all.2.1.trans TagName.mesh_direct.symm)
  | graft p t => exact if_neg fun all => mesh t all.2
  | prune p t => exact if_neg fun all => mesh t all.2
  | _ => rfl

/-- An event that sets and clears nothing directly changes delivery tags only. -/
theorem Steady.tagValue_indirect (h : Steady config direct s) {name : String}
    (apart : ∀ topic, name ≠ TagName.delivery topic) (peer : Peer) {e : Event}
    (indirect : ∀ a ∈ s.tagger.requests e, a.tagged? = none) :
    (s.take (.event e)).manager.tagValue peer name = s.manager.tagValue peer name := by
  apply Manager.tagValue_run_of_free h.consistent (h.free apart)
  intro a member
  refine ⟨indirect a member, fun registered => ?_⟩
  obtain ⟨topic, same⟩ := (s.tagger.requests_asks e a member).fromTopics.2 name registered
  exact apart topic same

theorem Steady.tagValue_event (h : Steady config direct s) {name : String}
    (apart : ∀ topic, name ≠ TagName.delivery topic) (peer : Peer) (e : Event) :
    (s.take (.event e)).manager.tagValue peer name =
      if s.manager.rejectsTags then s.manager.tagValue peer name
      else (write? config direct peer name e).getD (s.manager.tagValue peer name) := by
  cases e with
  | connect p =>
      simp only [take_manager, requests, Tagger.requests, h.members, decide_eq_true_eq, write?, h.terms]
      by_cases member : p ∈ direct
      · simp only [member, if_true, Manager.run_cons, Manager.run_nil, Manager.act, Manager.tagValue_tag, and_true]
        by_cases here : peer = p ∧ name = TagName.direct <;> simp [here]
      · simp only [member, if_false, Manager.run_nil, and_false, Option.getD_none, ite_self]
  | graft p topic =>
      simp only [take_manager, requests, Tagger.requests, Manager.run_cons, Manager.run_nil, Manager.act,
        Manager.tagValue_tag, write?, h.terms]
      by_cases here : peer = p ∧ name = TagName.mesh topic <;> simp [here]
  | prune p topic =>
      simp only [take_manager, requests, Tagger.requests, Manager.run_cons, Manager.run_nil, Manager.act,
        Manager.tagValue_untag, write?]
      by_cases here : peer = p ∧ name = TagName.mesh topic <;> simp [here]
  | join topic =>
      have indirect : ∀ a ∈ s.tagger.requests (.join topic), a.tagged? = none := by
        intro a member
        cases s.tagger.requests_asks (.join topic) a member
        rfl
      exact (h.tagValue_indirect apart peer indirect).trans (ite_self _).symm
  | deliver message =>
      have indirect : ∀ a ∈ s.tagger.requests (.deliver message), a.tagged? = none := by
        intro a member
        cases s.tagger.requests_asks (.deliver message) a member
        rfl
      exact (h.tagValue_indirect apart peer indirect).trans (ite_self _).symm
  | _ => exact (ite_self _).symm

theorem Steady.tagValue_take (h : Steady config direct s) {name : String}
    (apart : ∀ topic, name ≠ TagName.delivery topic) (peer : Peer) (input : Input) :
    (s.take input).manager.tagValue peer name =
      match input with
      | .event e =>
        if s.manager.rejectsTags then s.manager.tagValue peer name
        else (write? config direct peer name e).getD (s.manager.tagValue peer name)
      | _ => s.manager.tagValue peer name := by
  cases input with
  | event e => exact h.tagValue_event apart peer e
  | advance intervals => exact Manager.tagValue_advance_of_free (h.free apart) intervals peer
  | _ => rfl

/-- The switches are the session's alone. -/
theorem take_switches (s : Solo) (input : Input) : (s.take input).manager.switches =
    match input with
    | .rejectTags on => (s.manager.supportsDecay, on, s.manager.rejectsRegistrations)
    | .rejectRegistrations on => (s.manager.supportsDecay, s.manager.rejectsTags, on)
    | _ => s.manager.switches := by
  cases input with
  | event e => exact s.tagger.requests_switches s.manager e
  | advance intervals => exact Manager.act_switches s.manager (.advance intervals)
  | _ => rfl

/-- The events that occur while tags are accepted, when at first they are rejected or not. -/
def accepted (rejected : Bool) : List Input → List Event
  | [] => []
  | .event e :: rest => if rejected then accepted rejected rest else e :: accepted rejected rest
  | .rejectTags on :: rest => accepted on rest
  | .advance _ :: rest | .rejectRegistrations _ :: rest => accepted rejected rest

/-- What the last of some writes leaves in the place of a value. -/
def latest (write? : Event → Option (Option Amount)) (before : Option Amount) (events : List Event) : Option Amount :=
  events.foldl (fun v e => (write? e).getD v) before

theorem Steady.tagValue_run (h : Steady config direct s) {name : String}
    (apart : ∀ topic, name ≠ TagName.delivery topic) (peer : Peer) (inputs : List Input) :
    (s.run inputs).manager.tagValue peer name =
      latest (write? config direct peer name) (s.manager.tagValue peer name)
        (accepted s.manager.rejectsTags inputs) := by
  induction inputs generalizing s with
  | nil => rfl
  | cons input inputs ih =>
      have rest := ih (h.take input)
      have value := h.tagValue_take apart peer input
      have switches := congrArg (fun switches => switches.2.1) (s.take_switches input)
      refine rest.trans ?_
      rw [value]
      cases input with
      | event e =>
          have same : (s.take (.event e)).manager.rejectsTags = s.manager.rejectsTags := switches
          rw [same, accepted]
          by_cases rejects : s.manager.rejectsTags = true
          · simp only [rejects, if_true]
          · simp only [rejects]
            rfl
      | advance intervals =>
          have same : (s.take (.advance intervals)).manager.rejectsTags = s.manager.rejectsTags := switches
          rw [same, accepted]
      | rejectTags on => rfl
      | rejectRegistrations on => rfl

theorem latest_eq (write? : Event → Option (Option Amount)) (before : Option Amount) (events : List Event) :
    latest write? before events = ((events.filterMap write?).getLast?).getD before := by
  induction events generalizing before with
  | nil => rfl
  | cons e events ih =>
      rw [latest, List.foldl_cons]
      refine (ih _).trans ?_
      cases written : write? e with
      | none => rw [List.filterMap_cons_none written, Option.getD_none]
      | some v => rw [List.filterMap_cons_some written, List.getLast?_cons, Option.getD_some, Option.getD_some]

/-! Mesh tags. That of one topic is shared with the tag of direct peers. -/

/-- The events that write a peer's mesh tag of a topic. -/
def concerns (direct : List Peer) (peer : Peer) (topic : String) : Event → Bool
  | .connect p => peer = p ∧ topic = "direct" ∧ p ∈ direct
  | .graft p t | .prune p t => peer = p ∧ topic = t
  | _ => false

/-- What such an event leaves. -/
def shown (config : Config) : Event → Option Amount
  | .connect _ => some config.directPeerValue
  | .graft _ _ => some config.meshPeerValue
  | _ => none

theorem write?_mesh (config : Config) (direct : List Peer) (peer : Peer) (topic : String) (e : Event) :
    write? config direct peer (TagName.mesh topic) e =
      if concerns direct peer topic e then some (shown config e) else none := by
  cases e with
  | connect p => simp only [write?, concerns, shown, ← TagName.mesh_direct, TagName.mesh_inj, decide_eq_true_eq]
  | graft p t => simp only [write?, concerns, shown, TagName.mesh_inj, decide_eq_true_eq]
  | prune p t => simp only [write?, concerns, shown, TagName.mesh_inj, decide_eq_true_eq]
  | _ => rfl

/-- The last event that writes a peer's mesh tag of a topic. -/
def last (direct : List Peer) (peer : Peer) (topic : String) (events : List Event) : Option Event :=
  (events.filter (concerns direct peer topic)).getLast?

theorem latest_mesh (config : Config) (direct : List Peer) (peer : Peer) (topic : String) (events : List Event) :
    latest (write? config direct peer (TagName.mesh topic)) none events =
      (last direct peer topic events).bind (shown config) := by
  have writes : events.filterMap (write? config direct peer (TagName.mesh topic)) =
      (events.filter (concerns direct peer topic)).map (shown config) := by
    induction events with
    | nil => rfl
    | cons e events ih =>
        cases concerned : concerns direct peer topic e with
        | true =>
            have written := (write?_mesh config direct peer topic e).trans (if_pos concerned)
            rw [List.filterMap_cons_some written, List.filter_cons_of_pos concerned, List.map_cons, ih]
        | false =>
            have silent := (write?_mesh config direct peer topic e).trans (if_neg (by simp [concerned]))
            rw [List.filterMap_cons_none silent, List.filter_cons_of_neg (by simp [concerned]), ih]
  rw [latest_eq, writes, List.getLast?_map, last]
  cases (events.filter (concerns direct peer topic)).getLast? <;> rfl

theorem last_mem {direct : List Peer} {peer : Peer} {topic : String} {events : List Event} {e : Event}
    (h : last direct peer topic events = some e) : e ∈ events ∧ concerns direct peer topic e = true :=
  List.mem_filter.mp (List.mem_of_getLast? h)

theorem last_of_connect {direct : List Peer} {peer : Peer} {events : List Event} (member : peer ∈ direct)
    (connect : .connect peer ∈ events) : ∃ e, last direct peer "direct" events = some e := by
  have kept : .connect peer ∈ events.filter (concerns direct peer "direct") := by
    refine List.mem_filter.mpr ⟨connect, ?_⟩
    simp [concerns, member]
  cases ended : last direct peer "direct" events with
  | some e => exact ⟨e, rfl⟩
  | none =>
      rw [List.getLast?_eq_none_iff.mp ended] at kept
      cases kept

theorem start_tagValue {config : Config} (valid : config.Valid) (direct : List Peer) (inputs : List Input)
    (peer : Peer) (topic : String) :
    ((start config valid direct).run inputs).manager.tagValue peer (TagName.mesh topic) =
      (last direct peer topic (accepted false inputs)).bind (shown config) := by
  rw [← latest_mesh]
  exact (start_steady valid direct).tagValue_run (TagName.mesh_ne_delivery topic) peer inputs

end Solo
end PeerTags.Session
