import PeerTags.Proofs.Manager.Footprint
import PeerTags.Proofs.Session.Tracking
/-! What a step leaves alone. `Touches` says at which places of a manager a step may change
anything: one name of one peer for an event or a bump, whatever the decaying tag has values for
when it is closed or decays. A manager that a step does not concern stays as it is. -/
namespace PeerTags

open Manager (Action)

/-- The places that an event may change by way of a tagger. -/
def Tagger.Touches (t : Tagger) (peer : Peer) (name : String) : Event → Prop
  | .connect p => peer = p ∧ name = TagName.direct ∧ t.isDirect p = true
  | .graft p topic | .prune p topic => peer = p ∧ name = TagName.mesh topic
  | .deliver message => peer = message.receivedFrom ∧ ∃ topic ∈ message.topics, name = TagName.delivery topic
  | .join _ | .leave _ | .disconnect _ | .validate _ | .reject .. | .duplicate _ => False

section

variable {t : Tagger} {m : Manager} {peer : Peer} {name : String}

/-- A bump that a tagger asks for stays at the topic's delivery tag, whatever was done before. -/
theorem Tagger.Holds.bumpRequest_outside (h : t.Holds m) {p : Peer} {topic : String}
    (outside : ¬ (peer = p ∧ name = TagName.delivery topic)) :
    ∀ a ∈ t.bumpRequest p topic, ∀ past, ¬ (m.run past).Writes peer name a := by
  intro a asked past writes
  obtain ⟨number, tracked, rfl⟩ := mem_bumpRequest_iff.mp asked
  obtain ⟨same, isOpen⟩ := writes
  obtain ⟨d, found, terms⟩ := h.run past topic number tracked
  obtain ⟨d', found', named, _⟩ := isOpen
  cases found.symm.trans found'
  exact outside ⟨same, named.symm.trans terms.name⟩

theorem Tagger.Holds.requests_outside (h : t.Holds m) {event : Event} (outside : ¬ t.Touches peer name event) :
    ∀ a ∈ t.requests event, ∀ past, ¬ (m.run past).Writes peer name a := by
  intro a asked past
  cases event with
  | connect p =>
      simp only [requests] at asked
      split at asked
      · rename_i direct
        cases List.mem_singleton.mp asked
        exact fun both => outside ⟨both.1, both.2, direct⟩
      · cases asked
  | graft p topic =>
      cases List.mem_singleton.mp asked
      exact outside
  | prune p topic =>
      cases List.mem_singleton.mp asked
      exact outside
  | join topic =>
      simp only [requests] at asked
      split at asked
      · cases List.mem_singleton.mp asked
        exact id
      · cases asked
  | deliver message =>
      obtain ⟨topic, listed, requested⟩ := List.mem_flatMap.mp asked
      exact h.bumpRequest_outside (fun both => outside ⟨both.1, topic, listed, both.2⟩) a requested past
  | _ => cases asked

end

namespace Session

/-- All that a step may ask of a manager. -/
inductive Step.Asks : Step → Action → Prop where
  | event {config : Config} {event : Event} {a : Action} (target : Target) (asks : Tagger.Asks config event a) :
    Asks (.event target event) a
  | bumpDelivery (k : Nat) (peer : Peer) (topic : String) (number : Nat) (delta : Amount) :
    Asks (.bumpDelivery k peer topic) (.bump number peer delta)
  | command (i : Nat) (c : Command) : Asks (.command i c) c.action
  | bump (handle number : Nat) (peer : Peer) (delta : Amount) :
    Asks (.useHandle handle (.bump peer delta)) (.bump number peer delta)
  | remove (handle number : Nat) (peer : Peer) : Asks (.useHandle handle (.remove peer)) (.remove number peer)
  | close (handle number : Nat) : Asks (.useHandle handle .close) (.close number)

/-- The target takes in the observer at a place. -/
def Target.Includes (k : Nat) : Target → Prop
  | .one k' => k = k'
  | .all => True

namespace Step

/-- A decaying tag may be issued or closed. -/
def Issues : Step → Prop
  | .event _ (.join _) | .command _ (.register ..) | .useHandle _ .close => True
  | _ => False

/-- A switch may be turned. -/
def Switches : Step → Prop
  | .command _ (.rejectTags _) | .command _ (.rejectRegistrations _) => True
  | _ => False

/-- Decaying tags are no part of it. -/
def Direct : Step → Prop
  | .event _ (.join _) | .event _ (.deliver _) | .command _ (.register ..) | .command _ (.advance _) => False
  | .bumpDelivery .. | .useHandle .. => False
  | _ => True

/-- The observer at a place is told to track a topic or to stop that. -/
def Retracks (k : Nat) : Step → Prop
  | .event target (.join _) | .event target (.leave _) => target.Includes k
  | _ => False

end Step

namespace World

/-- The step is one on the manager at a place, on its taggers or on its decaying tags. -/
def Concerns (w : World) (i : Nat) : Step → Prop
  | .event target _ => ∃ k, target.Includes k ∧ w.managerOf? k = some i
  | .bumpDelivery k _ _ => w.managerOf? k = some i
  | .command j _ => j = i
  | .useHandle handle _ => ∃ number, w.handles[handle]? = some (i, number)
  | .askTagger .. | .askManager .. => False

/-- The places of a manager that a step may change. -/
def Touches (w : World) (i : Nat) (m : Manager) (peer : Peer) (name : String) : Step → Prop
  | .event target event => ∃ k t, target.Includes k ∧ w.observers[k]? = some (.tagger i t) ∧ t.Touches peer name event
  | .bumpDelivery k p topic => w.managerOf? k = some i ∧ peer = p ∧ name = TagName.delivery topic
  | .command j c => j = i ∧ m.Writes peer name c.action
  | .useHandle handle use => ∃ number, w.handles[handle]? = some (i, number) ∧
      ∃ a ∈ use.actions number, m.Writes peer name a
  | .askTagger .. | .askManager .. => False

/-- The names of decaying tags that a step may take or set free on a manager. -/
def Renames (w : World) (i : Nat) (m : Manager) (name : String) : Step → Prop
  | .event target (.join topic) => name = TagName.delivery topic ∧ ∃ k, target.Includes k ∧ w.managerOf? k = some i
  | .command j (.register n ..) => j = i ∧ name = n
  | .useHandle handle .close => ∃ number, w.handles[handle]? = some (i, number) ∧ m.OpenAs number name
  | _ => False

section

variable {w : World} {i : Nat} {m : Manager} {s : Step} {a : Action}

/-- An event asks by way of the taggers that it reaches. -/
theorem mem_requests_event_iff {target : Target} {event : Event} : a ∈ w.requests i (.event target event) ↔
    ∃ k t, target.Includes k ∧ w.observers[k]? = some (.tagger i t) ∧ a ∈ t.requests event := by
  cases target with
  | one k => simp only [requests, mem_eventRequests_iff, Target.Includes, exists_and_left, exists_eq_left]
  | all =>
      simp only [requests, List.mem_flatMap, mem_eventRequests_iff, Target.Includes, true_and]
      constructor
      · rintro ⟨k, _, t, asks⟩
        exact ⟨k, t, asks⟩
      · rintro ⟨k, t, found, asks⟩
        exact ⟨k, List.mem_range.mpr (List.getElem?_eq_some_iff.mp found).1, t, found, asks⟩

theorem mem_requests_bumpDelivery_iff {k : Nat} {peer : Peer} {topic : String} :
    a ∈ w.requests i (.bumpDelivery k peer topic) ↔
      ∃ t, w.observers[k]? = some (.tagger i t) ∧ a ∈ t.bumpRequest peer topic := by
  simp only [requests]
  split
  · rename_i j t found
    by_cases same : j = i
    · subst same
      simp [found]
    · simp [found, same]
  · rename_i untagged
    simp only [List.not_mem_nil, false_iff, not_exists, not_and]
    exact fun t found => absurd found (untagged i t)

theorem mem_requests_command_iff {j : Nat} {c : Command} :
    a ∈ w.requests i (.command j c) ↔ j = i ∧ a = c.action := by
  simp only [requests]
  split <;> simp_all

theorem mem_requests_useHandle_iff {handle : Nat} {use : HandleUse} :
    a ∈ w.requests i (.useHandle handle use) ↔
      ∃ number, w.handles[handle]? = some (i, number) ∧ a ∈ use.actions number := by
  simp only [requests]
  split
  · rename_i j number found
    by_cases same : j = i
    · subst same
      simp [found]
    · simp [found, same]
  · rename_i missing
    simp [missing]

/-- A step asks nothing of a manager that it does not concern. -/
theorem requests_eq_nil (outside : ¬ w.Concerns i s) : w.requests i s = [] := by
  refine List.eq_nil_iff_forall_not_mem.mpr fun a asked => outside ?_
  cases s with
  | event target event =>
      obtain ⟨k, t, reached, found, _⟩ := mem_requests_event_iff.mp asked
      exact ⟨k, reached, managerOf?_eq_some_iff.mpr ⟨t, found⟩⟩
  | bumpDelivery k peer topic =>
      obtain ⟨t, found, _⟩ := mem_requests_bumpDelivery_iff.mp asked
      exact managerOf?_eq_some_iff.mpr ⟨t, found⟩
  | command j c => exact (mem_requests_command_iff.mp asked).1
  | useHandle handle use =>
      obtain ⟨number, found, _⟩ := mem_requests_useHandle_iff.mp asked
      exact ⟨number, found⟩
  | _ => cases asked

theorem Sound.holds (h : w.Sound) (seat : w.manager? i = some m) {k : Nat} {t : Tagger}
    (found : w.observers[k]? = some (.tagger i t)) : t.Holds m := by
  obtain ⟨m', seat', holds, _⟩ := h k i t found
  cases seat.symm.trans seat'
  exact holds

/-- What is done with a decaying tag is done alone, so nothing was done before it in its step. -/
theorem run_useHandle (handle : Nat) (use : HandleUse) : m.run (w.requests i (.useHandle handle use)) = m ∨
    ∃ number a, w.handles[handle]? = some (i, number) ∧ a ∈ use.actions number ∧
      m.run (w.requests i (.useHandle handle use)) = m.act a := by
  simp only [requests]
  split
  · rename_i j number found
    split
    · rename_i same
      subst same
      cases use with
      | name | interval => exact .inl rfl
      | _ => exact .inr ⟨number, _, found, List.mem_singleton_self _, rfl⟩
    · exact .inl rfl
  · exact .inl rfl

theorem step_sameAt (h : w.Sound) (seat : w.manager? i = some m) {peer : Peer} {name : String}
    (outside : ¬ w.Touches i m peer name s) : m.SameAt (m.run (w.requests i s)) peer name := by
  cases s with
  | event target event =>
      refine Manager.run_sameAt fun a asked => ?_
      obtain ⟨k, t, reached, found, requested⟩ := mem_requests_event_iff.mp asked
      exact (h.holds seat found).requests_outside (fun touches => outside ⟨k, t, reached, found, touches⟩) a requested
  | bumpDelivery k p topic =>
      refine Manager.run_sameAt fun a asked => ?_
      obtain ⟨t, found, requested⟩ := mem_requests_bumpDelivery_iff.mp asked
      have placed : w.managerOf? k = some i := managerOf?_eq_some_iff.mpr ⟨t, found⟩
      exact (h.holds seat found).bumpRequest_outside (fun both => outside ⟨placed, both⟩) a requested
  | command j c =>
      simp only [requests]
      split
      · exact Manager.act_sameAt fun writes => outside ⟨‹j = i›, writes⟩
      · exact .refl m peer name
  | useHandle handle use =>
      rcases run_useHandle (w := w) (i := i) (m := m) handle use with same | ⟨number, a, found, requested, alone⟩
      · rw [same]
        exact .refl m peer name
      · rw [alone]
        exact Manager.act_sameAt fun writes => outside ⟨number, found, a, requested, writes⟩
  | _ => exact .refl m peer name

theorem requests_asks (asked : a ∈ w.requests i s) : s.Asks a := by
  cases s with
  | event target event =>
      obtain ⟨_, t, _, _, requested⟩ := mem_requests_event_iff.mp asked
      exact .event target (t.requests_asks event a requested)
  | bumpDelivery k peer topic =>
      obtain ⟨_, _, requested⟩ := mem_requests_bumpDelivery_iff.mp asked
      obtain ⟨_, _, rfl⟩ := Tagger.mem_bumpRequest_iff.mp requested
      exact .bumpDelivery ..
  | command j c =>
      obtain ⟨_, rfl⟩ := mem_requests_command_iff.mp asked
      exact .command ..
  | useHandle handle use =>
      obtain ⟨number, _, requested⟩ := mem_requests_useHandle_iff.mp asked
      cases use with
      | bump peer delta => exact List.mem_singleton.mp requested ▸ .bump ..
      | remove peer => exact List.mem_singleton.mp requested ▸ .remove ..
      | close => exact List.mem_singleton.mp requested ▸ .close ..
      | name | interval => cases requested
  | _ => cases asked

/-- What is not issued or closed stays as open or closed as it is. -/
theorem requests_plain (plain : ¬ s.Issues) :
    ∀ a ∈ w.requests i s, a.registered? = none ∧ ∀ number, a ≠ .close number := by
  intro a asked
  cases requests_asks asked with
  | event _ asks =>
      cases asks with
      | join => exact absurd trivial plain
      | _ => exact ⟨rfl, nofun⟩
  | command _ c =>
      cases c with
      | register => exact absurd trivial plain
      | _ => exact ⟨rfl, nofun⟩
  | close => exact absurd trivial plain
  | _ => exact ⟨rfl, nofun⟩

theorem step_registry_get? {name : String} (outside : ¬ w.Renames i m name s) :
    (m.run (w.requests i s)).registry.get? name = m.registry.get? name := by
  by_cases issues : s.Issues
  · cases s with
    | event target event =>
        refine m.run_registry_get? fun a asked past => ?_
        obtain ⟨k, t, reached, found, requested⟩ := mem_requests_event_iff.mp asked
        cases t.requests_asks event a requested with
        | join topic => exact fun same => outside ⟨same, k, reached, managerOf?_eq_some_iff.mpr ⟨t, found⟩⟩
        | _ => cases issues
    | command j c =>
        refine m.run_registry_get? fun a asked past => ?_
        obtain ⟨here, rfl⟩ := mem_requests_command_iff.mp asked
        cases c with
        | register => exact fun same => outside ⟨here, same⟩
        | _ => cases issues
    | useHandle handle use =>
        rcases run_useHandle (w := w) (i := i) (m := m) handle use with same | ⟨number, a, found, requested, alone⟩
        · rw [same]
        · rw [alone]
          cases use with
          | close =>
              cases List.mem_singleton.mp requested
              have kept : ¬ m.Renames name (.close number) := fun isOpen => outside ⟨number, found, isOpen⟩
              exact m.act_registry_get? kept
          | _ => cases issues
    | _ => cases issues
  · rw [(m.run_sameHandles (requests_plain issues)).registry]

theorem requests_still (still : ¬ s.Switches) :
    ∀ a ∈ w.requests i s, ∀ on, a ≠ .rejectTags on ∧ a ≠ .rejectRegistrations on := by
  intro a asked on
  cases requests_asks asked with
  | event _ asks => cases asks <;> exact ⟨nofun, nofun⟩
  | command _ c =>
      cases c with
      | rejectTags | rejectRegistrations => exact absurd trivial still
      | _ => exact ⟨nofun, nofun⟩
  | _ => exact ⟨nofun, nofun⟩

theorem requests_direct (direct : s.Direct) : ∀ a ∈ w.requests i s, a.isDirect = true := by
  intro a asked
  cases requests_asks asked with
  | event _ asks =>
      cases asks with
      | join | deliver => cases direct
      | _ => rfl
  | command _ c =>
      cases c with
      | register | advance => cases direct
      | _ => rfl
  | _ => cases direct

end

/-- An observer that is told of no join and no leave stays as it is. -/
theorem Sound.notify_observers {w : World} (h : w.Sound) {event : Event} {turn k : Nat}
    (still : ¬ (Step.event (.one turn) event).Retracks k) : (w.notify event turn).1.observers[k]? = w.observers[k]? := by
  by_cases own : turn = k
  · subst own
    rcases h.turn event turn with ⟨j, t, m, found, _, _, _, after⟩ | ⟨_, same⟩
    · have kept : (t.react m event).tagger = t := Tagger.react_tagger t m
        (fun topic joined => still (joined ▸ rfl)) fun topic left => still (left ▸ rfl)
      rw [after, reacted_self found, kept, found]
    · rw [same]
  · exact notify_observers_ne w event own

theorem Sound.step_observers_eq {w : World} (h : w.Sound) {s : Step} {k : Nat} (still : ¬ s.Retracks k) :
    (w.step s).world.observers[k]? = w.observers[k]? := by
  by_cases loud : ∃ target event, s = .event target event
  · obtain ⟨target, event, rfl⟩ := loud
    cases target with
    | one turn => exact h.notify_observers still
    | all =>
        have each (observers : List Nat) : ∀ {w : World}, w.Sound →
            (w.notifyEach event observers).1.observers[k]? = w.observers[k]? := by
          intro w h
          rw [notifyEach_fst]
          induction observers generalizing w with
          | nil => rfl
          | cons turn observers ih =>
              have quiet : ¬ (Step.event (.one turn) event).Retracks k := by
                cases event with
                | join topic | leave topic => exact absurd trivial still
                | _ => exact id
              exact (ih (notify_sound h event turn)).trans (h.notify_observers quiet)
        exact each (List.range w.observers.length) h
  · rw [step_observers w fun target event same => loud ⟨target, event, same⟩]

/-- A step changes a manager only if it concerns it, only at the places that it touches and only
under the names that it takes or sets free; what a message brings about is never put down to
its author. Steps that decaying tags are no part of leave those as they are, and each observer
stays as it is that is told of no join and no leave. -/
theorem step_frame (kinds : List Kind) (openings : List Opening) (past : List Step) (s : Step) {i : Nat} {m : Manager}
    (seat : ((opened kinds openings).run past).manager? i = some m) :
    let w := (opened kinds openings).run past
    ∃ m', (w.step s).world.manager? i = some m' ∧
      (¬ w.Concerns i s → m' = m) ∧
      (∀ peer name, ¬ w.Touches i m peer name s → m.SameAt m' peer name) ∧
      (∀ target message author, s = .event target (.deliver message) → message.source = some author →
        author ≠ message.receivedFrom → ∀ name, m.SameAt m' author name) ∧
      (∀ name, ¬ w.Renames i m name s → m'.registry.get? name = m.registry.get? name) ∧
      (¬ s.Issues → m.SameHandles m') ∧
      (s.Direct → m'.issued = m.issued) ∧
      (¬ s.Switches → m'.switches = m.switches) ∧
      ∀ k, ¬ s.Retracks k → (w.step s).world.observers[k]? = w.observers[k]? := by
  intro w
  have sound : w.Sound := run_sound (opened_sound kinds openings) past
  have after : (w.step s).world.manager? i = some (m.run (w.requests i s)) := by
    rw [step_manager?, seat, Option.map_some]
  refine ⟨m.run (w.requests i s), after, fun outside => ?_, fun peer name => step_sameAt sound seat, ?_,
    fun name => step_registry_get?, fun plain => m.run_sameHandles (requests_plain plain),
    fun direct => m.run_issued_of_direct (requests_direct direct),
    fun still => m.run_switches_of_still (requests_still still), fun k => sound.step_observers_eq⟩
  · rw [requests_eq_nil outside, Manager.run_nil]
  · rintro target message author rfl _ other name
    refine step_sameAt sound seat ?_
    rintro ⟨_, _, _, _, same, _⟩
    exact other same

/-- One peer passes on a message of another: the author keeps all it has, and so does the other
manager, whose tagger tracks the topic too. -/
theorem delivery_spares_author_and_neighbour :
    let p : Peer := ⟨.identity, [], by decide⟩
    let q : Peer := ⟨.identity, [1], by decide⟩
    let start := opened [.decaying, .decaying] [.tagger 0 .default [], .tagger 1 .default []]
    let w := start.run [.event .all (.join "a"), .command 0 (.tag q "seen" 3)]
    let s : Step := .event (.one 0) (.deliver ⟨p, some q, ["a"], []⟩)
    ∃ m m' n, w.manager? 0 = some m ∧ (w.step s).world.manager? 0 = some m' ∧ (∀ name, m.SameAt m' q name) ∧
      m.SameHandles m' ∧ w.manager? 1 = some n ∧ (w.step s).world.manager? 1 = some n := by
  intro p q start w s
  have first : (w.manager? 0).isSome = true := by decide +kernel
  have second : (w.manager? 1).isSome = true := by decide +kernel
  obtain ⟨m, seat⟩ := Option.isSome_iff_exists.mp first
  obtain ⟨n, neighbour⟩ := Option.isSome_iff_exists.mp second
  obtain ⟨m', after, _, _, author, _, handles, _⟩ := step_frame _ _ _ s seat
  obtain ⟨n', still, spared, _⟩ := step_frame _ _ _ s neighbour
  have elsewhere : w.managerOf? 0 = some 0 := by decide +kernel
  refine ⟨m, m', n, seat, after, author _ _ q rfl rfl (by decide), handles id, neighbour, ?_⟩
  rw [still, spared]
  rintro ⟨k, rfl, here⟩
  cases elsewhere.symm.trans here

end World
end Session
end PeerTags
