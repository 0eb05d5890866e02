import PeerTags.Proofs.Manager.Mirror
import PeerTags.Proofs.Session.History
/-! The table of a session's manager against the decaying tags it has issued,
with any number of taggers and anything else done to the manager in between.
Events only set mesh tags and only register delivery tags, so that their names
are never in each other's way. -/
namespace PeerTags

/-- No name is both set or cleared directly and registered. -/
def Manager.Action.Apart (actions : List Manager.Action) : Prop :=
  ∀ a ∈ actions, ∀ b ∈ actions, ∀ name ∈ a.tagged?, b.registered? ≠ some name

instance (actions : List Manager.Action) : Decidable (Manager.Action.Apart actions) :=
  inferInstanceAs (Decidable (∀ a ∈ actions, ∀ b ∈ actions, ∀ name ∈ a.tagged?, b.registered? ≠ some name))

/-- Topics are where the names come from, each kind of name its own way. -/
def Manager.Action.FromTopics (a : Manager.Action) : Prop :=
  (∀ name, a.tagged? = some name → ∃ topic, name = TagName.mesh topic) ∧
    ∀ name, a.registered? = some name → ∃ topic, name = TagName.delivery topic

theorem Manager.Action.apart_of_fromTopics {actions : List Manager.Action} (h : ∀ a ∈ actions, a.FromTopics) :
    Apart actions := by
  intro a ha b hb name tagged registered
  obtain ⟨topic, mesh⟩ := (h a ha).1 name tagged
  obtain ⟨topic', delivery⟩ := (h b hb).2 name registered
  exact TagName.mesh_ne_delivery topic topic' (mesh.symm.trans delivery)

theorem Tagger.Asks.fromTopics {config : Config} {e : Event} {a : Manager.Action} (asks : Tagger.Asks config e a) :
    a.FromTopics := by
  constructor
  · intro name tagged
    cases asks with
    | connect peer =>
        cases tagged
        exact ⟨"direct", TagName.mesh_direct.symm⟩
    | graft peer topic =>
        cases tagged
        exact ⟨topic, rfl⟩
    | prune peer topic =>
        cases tagged
        exact ⟨topic, rfl⟩
    | join topic => cases tagged
    | deliver message number => cases tagged
  · intro name registered
    cases asks with
    | join topic =>
        cases registered
        exact ⟨topic, rfl⟩
    | _ => cases registered

namespace Session

/-- An event, or intervals that pass. -/
def Step.Plain : Step → Prop
  | .event _ _ | .command _ (.advance _) => True
  | _ => False

namespace World

theorem requests_fromTopics (w : World) (i : Nat) {s : Step} (plain : s.Plain) :
    ∀ a ∈ w.requests i s, a.FromTopics := by
  intro a member
  cases s with
  | event target event =>
      obtain ⟨_, t, _, requested⟩ := exists_of_mem_requests_event member
      exact (t.requests_asks event a requested).fromTopics
  | command j c =>
      cases c with
      | advance n =>
          simp only [requests] at member
          split at member
          · cases List.mem_singleton.mp member
            constructor
            · intro name tagged
              cases tagged
            · intro name registered
              cases registered
          · cases member
      | _ => cases plain
  | _ => cases plain

theorem history_fromTopics (w : World) (i : Nat) {steps : List Step} (plain : ∀ s ∈ steps, s.Plain) :
    ∀ a ∈ w.history i steps, a.FromTopics := by
  induction steps generalizing w with
  | nil => exact fun _ member => by cases member
  | cons s steps ih =>
      intro a member
      rcases List.mem_append.mp member with now | later
      · exact w.requests_fromTopics i (plain s List.mem_cons_self) a now
      · exact ih (w.step s).world (fun s later => plain s (List.mem_cons_of_mem _ later)) a later

/-- Events and intervals are never refused. -/
theorem answers_of_plain (w : World) {steps : List Step} (plain : ∀ s ∈ steps, s.Plain) :
    ∀ answer ∈ w.answers steps, ∀ cause, answer ≠ .refused cause := by
  induction steps generalizing w with
  | nil => exact fun _ member => by cases member
  | cons s steps ih =>
      intro answer member
      rcases List.mem_cons.mp member with rfl | later
      · intro cause
        have now : s.Plain := plain s List.mem_cons_self
        cases s with
        | event target event => cases target <;> exact fun refused => by cases refused
        | command j c =>
            cases c with
            | advance n =>
                simp only [step, command]
                split <;> exact fun refused => by cases refused
            | _ => cases now
        | _ => cases now
      · exact ih (w.step s).world (fun s later => plain s (List.mem_cons_of_mem _ later)) answer later

/-- In every state of every session a registered name shows, for each peer, what the open
decaying tag of the name has for it, and nothing when there is no such tag: as long as no
bump breaks off and the names that are registered are not set or cleared directly.
Sessions of events and intervals always keep to that. -/
theorem run_table_agrees {kinds : List Kind} {openings : List Opening} {steps : List Step} {i : Nat} {m : Manager}
    (found : ((opened kinds openings).run steps).manager? i = some m) :
    let w := opened kinds openings
    ((∀ s ∈ steps, s.Plain) → Manager.Action.Apart (w.history i steps) ∧
      ∀ answer ∈ w.answers steps, answer ≠ .refused .crossedBounds) ∧
    ((∀ s ∈ steps, s.Plain) ∨ Manager.Action.Apart (w.history i steps) ∧
      (∀ answer ∈ w.answers steps, answer ≠ .refused .crossedBounds) →
    ∀ name, (∃ a ∈ w.history i steps, a.registered? = some name) → ∀ peer,
      (∀ (number : Nat) (d : DecayingTag), m.issued[number]? = some d → d.name = name → d.closed = false →
        m.tagValue peer name = d.values.get? peer) ∧
      ((∀ number, ¬ m.OpenAs number name) → m.tagValue peer name = none)) := by
  intro w
  have kept (plain : ∀ s ∈ steps, s.Plain) : Manager.Action.Apart (w.history i steps) ∧
      ∀ answer ∈ w.answers steps, answer ≠ .refused .crossedBounds :=
    ⟨Manager.Action.apart_of_fromTopics (w.history_fromTopics i plain),
      fun answer member => w.answers_of_plain plain answer member .crossedBounds⟩
  refine ⟨kept, ?_⟩
  intro either name registered peer
  obtain ⟨apart, calm⟩ := either.elim kept id
  obtain ⟨supportsDecay, rfl, seat⟩ := run_opened_manager? found
  obtain ⟨b, hb, named⟩ := registered
  have consistent := Manager.run_consistent (Manager.new_consistent supportsDecay) (w.history i steps)
  have mirrored := Manager.run_mirrors (Manager.new_consistent supportsDecay)
    (Manager.new_mirrors supportsDecay name) (fun a ha tagged => apart a ha b hb name tagged named)
    (history_calm (opened_sound kinds openings) calm seat)
  exact mirrored.agrees consistent peer

/-- The first tagger's delivery tag is closed under it, and the second tagger's takes the name. -/
theorem later_delivery_tag_shows :
    let p : Peer := ⟨.identity, [], by decide⟩
    let w := opened [.decaying] [.tagger 0 .default [p], .tagger 0 .default []]
    let steps : List Step :=
      [.event .all (.connect p), .event (.one 0) (.join "a"), .event .all (.deliver ⟨p, none, ["a"], []⟩),
        .useHandle 0 .close, .event (.one 1) (.join "a"), .command 0 (.tag p "b" 7),
        .event .all (.deliver ⟨p, none, ["a", "a"], []⟩), .useHandle 0 (.bump p 9)]
    ∃ m, (w.run steps).manager? 0 = some m ∧ m.OpenAs 1 (TagName.delivery "a") ∧
      m.tagValue p (TagName.delivery "a") = some 2 := by
  intro p w steps
  have apart : Manager.Action.Apart (w.history 0 steps) := by decide +kernel
  have calm : ∀ answer ∈ w.answers steps, answer ≠ .refused .crossedBounds := by decide +kernel
  have registered : ∃ a ∈ w.history 0 steps, a.registered? = some (TagName.delivery "a") := by decide +kernel
  have second : ((w.run steps).manager? 0).map (fun m =>
      (m.issued[1]?).map fun d => (d.name, d.closed, d.values.get? p)) =
        some (some (TagName.delivery "a", false, some 2)) := by decide +kernel
  obtain ⟨m, found, second⟩ := Option.map_eq_some_iff.mp second
  obtain ⟨d, inside, fields⟩ := Option.map_eq_some_iff.mp second
  obtain ⟨named, isOpen, value⟩ : d.name = TagName.delivery "a" ∧ d.closed = false ∧ d.values.get? p = some 2 := by
    simpa only [Prod.mk.injEq] using fields
  have agrees := (run_table_agrees found).2 (.inr ⟨apart, calm⟩) (TagName.delivery "a") registered p
  exact ⟨m, found, ⟨d, inside, named, isOpen⟩, (agrees.1 1 d inside named isOpen).trans value⟩

end World
end Session
end PeerTags
