import PeerTags.Proofs.Session.View
/-! Independent events of one tagger commute: what is shown after them does not depend on
their order. A session that differs from another in the order of independent events only
therefore ends in the same state, the order of calls and the numbers of decaying tags aside. -/
namespace PeerTags

namespace Event

/-- The place of the table that is set or cleared directly. -/
def place? : Event → Option Slot
  | .connect peer => some ⟨peer, TagName.direct⟩
  | .graft peer topic | .prune peer topic => some ⟨peer, TagName.mesh topic⟩
  | _ => none

def delivered : Event → List String
  | .deliver message => message.topics
  | _ => []

/-- Neither joins or leaves a topic that the other joins, leaves or delivers, and they do
not act on the same place of the table. -/
def Independent (e e' : Event) : Prop :=
  (∀ topic ∈ e.membership?, topic ∉ e'.membership? ∧ topic ∉ e'.delivered) ∧
  (∀ topic ∈ e'.membership?, topic ∉ e.delivered) ∧
  ∀ slot ∈ e.place?, slot ∉ e'.place?

instance (e e' : Event) : Decidable (e.Independent e') := inferInstanceAs (Decidable (_ ∧ _ ∧ _))

theorem Independent.symm {e e' : Event} (h : e.Independent e') : e'.Independent e := by
  obtain ⟨left, right, places⟩ := h
  exact ⟨fun topic there => ⟨fun here => (left topic here).1 there, right topic there⟩,
    fun topic here => (left topic here).2, fun slot there here => places slot here there⟩

theorem bumps_eq_zero {e : Event} {topic : String} (silent : topic ∉ e.delivered) (peer : Peer) :
    e.bumps peer topic = 0 := by
  cases e with
  | deliver message =>
      have none : message.topics.count topic = 0 := List.count_eq_zero.mpr silent
      rw [bumps, none, ite_self]
  | _ => rfl

theorem delivered_of_membership {e : Event} {topic : String} (member : topic ∈ e.membership?) : e.delivered = [] := by
  cases e with
  | deliver message => cases member
  | _ => rfl

end Event

namespace Session

theorem Solo.place_of_write {config : Config} {direct : List Peer} {peer : Peer} {name : String} {e : Event}
    {value : Option Amount} (written : Solo.write? config direct peer name e = some value) :
    (⟨peer, name⟩ : Slot) ∈ e.place? := by
  cases e with
  | connect p =>
      simp only [write?] at written
      split at written
      · rename_i here
        rw [here.1, here.2.1]
        rfl
      · cases written
  | graft p t =>
      simp only [write?] at written
      split at written
      · rename_i here
        rw [here.1, here.2]
        rfl
      · cases written
  | prune p t =>
      simp only [write?] at written
      split at written
      · rename_i here
        rw [here.1, here.2]
        rfl
      · cases written
  | _ => cases written

namespace View

/-- Two views have the same of a topic's membership, and the same switches for it. -/
structure AlikeAt (v w : View) (topic : String) : Prop where
  supportsDecay : v.supportsDecay = w.supportsDecay
  rejectsRegistrations : v.rejectsRegistrations = w.rejectsRegistrations
  tracking : v.tracking topic = w.tracking topic
  registered : v.registered topic = w.registered topic

variable {config : Config} {direct : List Peer} {v w : View} {topic : String}

theorem AlikeAt.symm (h : v.AlikeAt w topic) : w.AlikeAt v topic :=
  ⟨h.supportsDecay.symm, h.rejectsRegistrations.symm, h.tracking.symm, h.registered.symm⟩

theorem AlikeAt.trans {u : View} (h : u.AlikeAt v topic) (h' : v.AlikeAt w topic) : u.AlikeAt w topic :=
  ⟨h.supportsDecay.trans h'.supportsDecay, h.rejectsRegistrations.trans h'.rejectsRegistrations,
    h.tracking.trans h'.tracking, h.registered.trans h'.registered⟩

theorem AlikeAt.admits (h : v.AlikeAt w topic) : v.admits topic = w.admits topic := by
  rw [View.admits, View.admits, h.supportsDecay, h.rejectsRegistrations, h.registered]

/-- An event that does not join or leave the topic leaves its membership alone. -/
theorem alikeAt_event (config : Config) (direct : List Peer) (v : View) {e : Event} (away : topic ∉ e.membership?) :
    (v.event config direct e).AlikeAt v topic := by
  cases e with
  | join t =>
      have other : topic ≠ t := fun same => away (same ▸ rfl)
      exact ⟨rfl, rfl, by simp [event, other], by simp [event, other]⟩
  | leave t =>
      have other : topic ≠ t := fun same => away (same ▸ rfl)
      exact ⟨rfl, rfl, by simp [event, other], rfl⟩
  | _ => exact ⟨rfl, rfl, rfl, rfl⟩

theorem AlikeAt.event (h : v.AlikeAt w topic) (config : Config) (direct : List Peer) (e : Event) :
    (v.event config direct e).AlikeAt (w.event config direct e) topic := by
  refine ⟨h.supportsDecay, h.rejectsRegistrations, ?_, ?_⟩
  · cases e with
    | join t =>
        by_cases same : topic = t
        · subst same
          simp only [View.event, h.admits, h.tracking]
        · simp only [View.event, same, decide_false, Bool.false_and, h.tracking]
    | leave t => simp only [View.event, h.tracking]
    | _ => exact h.tracking
  · cases e with
    | join t =>
        by_cases same : topic = t
        · subst same
          simp only [View.event, h.admits, h.registered]
        · simp only [View.event, same, decide_false, Bool.false_and, h.registered]
    | _ => exact h.registered

/-- How an event counts depends on the topics that it joins, leaves or delivers. -/
theorem tallied_congr (direct : List Peer) {e : Event} (switch : v.rejectsTags = w.rejectsTags)
    (supports : v.supportsDecay = w.supportsDecay)
    (alike : ∀ topic, topic ∈ e.membership? ∨ topic ∈ e.delivered → v.AlikeAt w topic) :
    v.tallied direct e = w.tallied direct e := by
  cases e with
  | join t =>
      have at_t := alike t (.inl rfl)
      rw [tallied, tallied, at_t.admits, at_t.tracking, supports]
  | leave t => rw [tallied, tallied, (alike t (.inl rfl)).tracking]
  | deliver message =>
      have same : ∀ t ∈ message.topics, v.tracking t = w.tracking t := fun t listed => (alike t (.inr listed)).tracking
      have bumps : message.topics.countP v.tracking = message.topics.countP w.tracking :=
        List.countP_congr fun t listed => by rw [same t listed]
      have failures : (message.topics.countP fun t => !v.tracking t) = message.topics.countP fun t => !w.tracking t :=
        List.countP_congr fun t listed => by rw [same t listed]
      rw [tallied, tallied, bumps, failures]
  | _ => simp only [tallied, settled, switch]

theorem score_event (config : Config) (direct : List Peer) (v : View) (e : Event) (peer : Peer) (topic : String) :
    (v.event config direct e).score peer topic =
      if v.tracking topic then (Delivery.bumped config)^[e.bumps peer topic] (v.score peer topic)
      else v.score peer topic := rfl

theorem score_event_of_silent {e : Event} {peer : Peer} (silent : e.bumps peer topic = 0) :
    (v.event config direct e).score peer topic = v.score peer topic := by
  rw [score_event, silent]
  exact ite_self _

section

variable {e e' : Event} (h : e.Independent e')

include h

theorem tallied_event (config : Config) (direct : List Peer) (v : View) :
    (v.event config direct e).tallied direct e' = v.tallied direct e' := by
  refine tallied_congr direct rfl rfl fun topic concerned => alikeAt_event config direct v fun member => ?_
  rcases concerned with member' | listed
  · exact (h.1 topic member).1 member'
  · exact (h.1 topic member).2 listed

theorem alikeAt_event_comm (config : Config) (direct : List Peer) (v : View) (topic : String) :
    ((v.event config direct e).event config direct e').AlikeAt ((v.event config direct e').event config direct e)
      topic := by
  by_cases member : topic ∈ e.membership?
  · have away : topic ∉ e'.membership? := (h.1 topic member).1
    exact (alikeAt_event config direct _ away).trans ((alikeAt_event config direct v away).symm.event config direct e)
  · exact ((alikeAt_event config direct v member).event config direct e').trans
      (alikeAt_event config direct _ member).symm

theorem mesh_event_comm (config : Config) (direct : List Peer) (v : View) (peer : Peer) (topic : String) :
    ((v.event config direct e).event config direct e').mesh peer topic =
      ((v.event config direct e').event config direct e).mesh peer topic := by
  simp only [event]
  split
  · rfl
  · cases first : Solo.write? config direct peer (TagName.mesh topic) e with
    | none => rfl
    | some value =>
        cases second : Solo.write? config direct peer (TagName.mesh topic) e' with
        | none => rfl
        | some value' => exact absurd (Solo.place_of_write second) (h.2.2 _ (Solo.place_of_write first))

theorem score_event_comm (config : Config) (direct : List Peer) (v : View) (peer : Peer) (topic : String) :
    ((v.event config direct e).event config direct e').score peer topic =
      ((v.event config direct e').event config direct e).score peer topic := by
  by_cases member : topic ∈ e.membership?
  · have silent : e.bumps peer topic = 0 := Event.bumps_eq_zero (by simp [Event.delivered_of_membership member]) peer
    have silent' : e'.bumps peer topic = 0 := Event.bumps_eq_zero (h.1 topic member).2 peer
    simp only [score_event_of_silent, silent, silent']
  · by_cases member' : topic ∈ e'.membership?
    · have silent : e.bumps peer topic = 0 := Event.bumps_eq_zero (h.2.1 topic member') peer
      have silent' : e'.bumps peer topic = 0 :=
        Event.bumps_eq_zero (by simp [Event.delivered_of_membership member']) peer
      simp only [score_event_of_silent, silent, silent']
    · have tracking := (alikeAt_event config direct v member).tracking
      have tracking' := (alikeAt_event config direct v member').tracking
      -- both may bump the score, which comes to the same in either order
      rw [score_event, score_event, score_event, score_event, tracking, tracking']
      cases v.tracking topic with
      | false => rfl
      | true =>
          simp only [if_true]
          rw [← Function.iterate_add_apply, ← Function.iterate_add_apply, add_comm]

theorem event_comm (config : Config) (direct : List Peer) (v : View) :
    (v.event config direct e).event config direct e' = (v.event config direct e').event config direct e := by
  apply View.ext
  · rfl
  · rfl
  · rfl
  · funext peer topic
    exact mesh_event_comm h config direct v peer topic
  · funext topic
    exact (alikeAt_event_comm h config direct v topic).tracking
  · funext topic
    exact (alikeAt_event_comm h config direct v topic).registered
  · funext peer topic
    exact score_event_comm h config direct v peer topic
  · show v.tally + v.tallied direct e + _ = v.tally + v.tallied direct e' + _
    rw [tallied_event h, tallied_event h.symm, add_assoc, add_assoc, add_comm (v.tallied direct e)]

end

end View

/-! Lists that differ in the order of independent entries only. -/

/-- The same entries, and any two that depend on each other in the same order. -/
def Reordering {α : Type} [DecidableEq α] (independent : α → α → Prop) (l l' : List α) : Prop :=
  l.Perm l' ∧ ∀ a ∈ l, ∀ b ∈ l, ¬ independent a b →
    l.filter (fun c => c = a ∨ c = b) = l'.filter fun c => c = a ∨ c = b

instance {α : Type} [DecidableEq α] (independent : α → α → Prop) [∀ a b, Decidable (independent a b)]
    (l l' : List α) : Decidable (Reordering independent l l') := inferInstanceAs (Decidable (_ ∧ _))

namespace Reordering

variable {α σ : Type} [DecidableEq α] {independent : α → α → Prop} {a : α} {l before after : List α}

/-- The first entry of one list is found in the other behind entries that it does not depend on. -/
theorem head_independent (h : Reordering independent (a :: l) (before ++ a :: after)) (first : a ∉ before) :
    ∀ b ∈ before, independent b a := by
  intro b member
  apply Classical.byContradiction
  intro dependent
  have there : b ∈ a :: l := h.1.mem_iff.mpr (List.mem_append_left _ member)
  have same := h.2 b there a List.mem_cons_self dependent
  -- one list begins with `a` here, the other with an entry before the first `a`
  rw [List.filter_cons_of_pos (by simp), List.filter_append] at same
  have chosen : b ∈ before.filter fun c => c = b ∨ c = a := by simp [member]
  obtain ⟨c, rest, found⟩ := List.exists_cons_of_ne_nil (List.ne_nil_of_mem chosen)
  rw [found, List.cons_append] at same
  have inside : c ∈ before.filter fun c => c = b ∨ c = a := found ▸ List.mem_cons_self
  exact first ((List.cons.inj same).1 ▸ (List.mem_filter.mp inside).1)

theorem tail (h : Reordering independent (a :: l) (before ++ a :: after)) (first : a ∉ before)
    (symm : ∀ b c, independent b c → independent c b) : Reordering independent l (before ++ after) := by
  have apart := h.head_independent first
  refine ⟨(List.perm_cons a).mp (h.1.trans List.perm_middle), fun b hb c hc dependent => ?_⟩
  have same := h.2 b (List.mem_cons_of_mem a hb) c (List.mem_cons_of_mem a hc) dependent
  rw [List.filter_append, List.filter_cons, List.filter_cons] at same
  rw [List.filter_append]
  by_cases own : a = b ∨ a = c
  · have none : before.filter (fun d => d = b ∨ d = c) = [] := by
      rw [List.filter_eq_nil_iff]
      intro d member chosen
      rcases own with rfl | rfl
      · rcases of_decide_eq_true chosen with rfl | rfl
        · exact first member
        · exact dependent (symm _ _ (apart d member))
      · rcases of_decide_eq_true chosen with rfl | rfl
        · exact dependent (apart d member)
        · exact first member
    rw [none, List.nil_append] at same ⊢
    simpa only [decide_eq_true own, if_true, List.cons.injEq, true_and] using same
  · simpa only [decide_eq_false own, Bool.false_eq_true, if_false] using same

omit [DecidableEq α] in
/-- An entry can be taken out from behind entries that it does not depend on. -/
theorem foldl_move {f : σ → α → σ} (comm : ∀ s b c, independent b c → f (f s b) c = f (f s c) b)
    (apart : ∀ b ∈ before, independent b a) (after : List α) (s : σ) :
    (before ++ a :: after).foldl f s = (before ++ after).foldl f (f s a) := by
  induction before generalizing s with
  | nil => rfl
  | cons b before ih =>
      rw [List.cons_append, List.foldl_cons, ih (fun c member => apart c (List.mem_cons_of_mem b member)),
        comm s b a (apart b List.mem_cons_self)]
      rfl

theorem foldl_eq {f : σ → α → σ} (comm : ∀ s b c, independent b c → f (f s b) c = f (f s c) b)
    (symm : ∀ b c, independent b c → independent c b) {l l' : List α} (h : Reordering independent l l') (s : σ) :
    l.foldl f s = l'.foldl f s := by
  induction l generalizing l' s with
  | nil => rw [h.1.nil_eq]
  | cons a l ih =>
      obtain ⟨before, after, rfl, first⟩ := List.eq_append_cons_of_mem (h.1.mem_iff.mp List.mem_cons_self)
      rw [foldl_move comm (h.head_independent first), List.foldl_cons]
      exact ih (h.tail first symm) (f s a)

end Reordering

/-! Sessions. -/

/-- Events may be independent; intervals and switches keep their places. -/
def Input.Independent : Input → Input → Prop
  | .event e, .event e' => e.Independent e'
  | _, _ => False

instance : (input input' : Input) → Decidable (input.Independent input')
  | .event e, .event e' => inferInstanceAs (Decidable (e.Independent e'))
  | .event _, .advance _ | .event _, .rejectTags _ | .event _, .rejectRegistrations _ => .isFalse id
  | .advance _, _ | .rejectTags _, _ | .rejectRegistrations _, _ => .isFalse id

theorem Input.Independent.symm {input input' : Input} (h : input.Independent input') : input'.Independent input := by
  cases input with
  | event e =>
      cases input' with
      | event e' => exact Event.Independent.symm h
      | _ => cases h
  | _ => cases h

theorem View.take_comm (config : Config) (direct : List Peer) (v : View) {input input' : Input}
    (h : input.Independent input') :
    (v.take config direct input).take config direct input' =
      (v.take config direct input').take config direct input := by
  cases input with
  | event e =>
      cases input' with
      | event e' => exact View.event_comm h config direct v
      | _ => cases h
  | _ => cases h

/-- The table, the topics that are tracked, the names that are registered with their values,
and the tally are the same. -/
def World.Agrees (w w' : World) : Prop :=
  ∃ t t' m m', w.tagger? 0 = some t ∧ w'.tagger? 0 = some t' ∧ w.manager? 0 = some m ∧ w'.manager? 0 = some m' ∧
    m.tags = m'.tags ∧ t.trackedTopics = t'.trackedTopics ∧ m.registered = m'.registered ∧
    (∀ name peer, m.held name peer = m'.held name peer) ∧ w.tally = w'.tally

namespace Solo

variable {config : Config} {direct : List Peer} {s s' : Solo} {w w' : World} {v : View}

/-- What shows the same is in the same state. -/
theorem Exhibits.agrees (h : Exhibits config direct s w v) (h' : Exhibits config direct s' w' v) : w.Agrees w' :=
  ⟨s.tagger, s'.tagger, s.manager, s'.manager, h.pair.tagger?, h'.pair.tagger?, h.pair.1, h'.pair.1,
    h.tags_eq h' rfl rfl, h.trackedTopics_eq h' rfl, h.registered_eq h' rfl, h.held_eq h' rfl,
    h.tally.trans h'.tally.symm⟩

/-- From every state that a session reaches, two independent events lead to the same state in
either order, and so do any two sessions that differ in the order of independent events only. -/
theorem independent_events_commute (kind : World.Kind) (checked : config.check = .ok ()) (direct : List Peer) :
    let start := World.soloOn kind config direct
    (∀ (inputs : List Input) (e e' : Event), e.Independent e' →
      let w := start.run (inputs.map Input.step)
      (w.run [.event (.one 0) e, .event (.one 0) e']).Agrees (w.run [.event (.one 0) e', .event (.one 0) e])) ∧
    ∀ inputs inputs' : List Input, Reordering Input.Independent inputs inputs' →
      (start.run (inputs.map Input.step)).Agrees (start.run (inputs'.map Input.step)) := by
  intro start
  have valid : config.Valid := Config.check_eq_ok_iff.mp checked
  let fresh := View.fresh (decide (kind = .decaying))
  have begins (inputs : List Input) := (startOn_exhibits kind valid direct).run valid inputs
  constructor
  · intro inputs e e' independent w
    let v := fresh.run config direct inputs
    have one := (begins inputs).run valid [.event e, .event e']
    have other := (begins inputs).run valid [.event e', .event e]
    have same : v.run config direct [.event e, .event e'] = v.run config direct [.event e', .event e] :=
      View.event_comm independent config direct v
    exact Exhibits.agrees one (same ▸ other)
  · intro inputs inputs' reordered
    have same : fresh.run config direct inputs = fresh.run config direct inputs' :=
      reordered.foldl_eq (fun v _ _ independent => v.take_comm config direct independent)
        (fun _ _ independent => independent.symm) fresh
    exact Exhibits.agrees (begins inputs) (same ▸ begins inputs')

/-- Two deliveries that share a topic, in either order after a rejected graft; and a session
whose mesh and whose topics are served in another order. -/
theorem shared_deliveries_commute :
    let p : Peer := ⟨.identity, [], by decide⟩
    let q : Peer := ⟨.identity, [0], by decide⟩
    let start := World.soloOn .decaying .default [p]
    let first : Event := .deliver ⟨p, none, ["a", "b", "a"], []⟩
    let second : Event := .deliver ⟨q, none, ["a"], []⟩
    let w := start.run ([.event (.join "a"), .rejectTags true, .event (.graft p "a")].map Input.step)
    let inputs : List Input := [.event (.join "a"), .event first, .event (.graft p "direct"), .advance 1,
      .event (.leave "a"), .event (.connect q), .event (.join "b")]
    let inputs' : List Input := [.event (.graft p "direct"), .event (.join "a"), .event first, .advance 1,
      .event (.join "b"), .event (.connect q), .event (.leave "a")]
    (w.run [.event (.one 0) first, .event (.one 0) second]).Agrees
      (w.run [.event (.one 0) second, .event (.one 0) first]) ∧
    (start.run (inputs.map Input.step)).Agrees (start.run (inputs'.map Input.step)) := by
  intro p q start first second w inputs inputs'
  have checked : Config.check .default = .ok () := by decide +kernel
  obtain ⟨pairs, sessions⟩ := independent_events_commute .decaying checked [p]
  exact ⟨pairs _ first second (by decide +kernel), sessions inputs inputs' (by decide +kernel)⟩

end Solo

end Session
end PeerTags
