import Mathlib.Algebra.Ring.Nat
import Mathlib.Data.List.Induction
import PeerTags.Proofs.Session.Tracking
/-! A session one observer at a time. An event for all observers is an event for each of
them in their order, so every run is a run of steps that concern one observer at most, and
what each turn keeps and each step that is no event, a run keeps. -/
namespace PeerTags.Session

/-- The step concerns one observer at most. -/
def Step.Single : Step → Prop
  | .event .all _ => False
  | _ => True

namespace World

/-- The steps that a step stands for: an event for all observers stands for each one's turn. -/
def turns (w : World) : Step → List Step
  | .event .all event => (List.range w.observers.length).map fun k => .event (.one k) event
  | s => [s]

theorem run_turns_of_all (w : World) (event : Event) (observers : List Nat) :
    w.run (observers.map fun k => .event (.one k) event) = (w.notifyEach event observers).1 := by
  rw [notifyEach_fst]
  induction observers generalizing w with
  | nil => rfl
  | cons k observers ih => exact ih (w.notify event k).1

theorem run_turns_step (w : World) (s : Step) : w.run (w.turns s) = (w.step s).world := by
  cases s with
  | event target event =>
      cases target with
      | one k => rfl
      | all => exact w.run_turns_of_all event (List.range w.observers.length)
  | _ => rfl

/-- A turn is the step itself, or one observer's share of an event for all. -/
theorem mem_turns {w : World} {s turn : Step} (part : turn ∈ w.turns s) :
    turn = s ∧ s.Single ∨ ∃ event k, s = .event .all event ∧ turn = .event (.one k) event := by
  cases s with
  | event target event =>
      cases target with
      | one k => exact .inl ⟨List.mem_singleton.mp part, trivial⟩
      | all =>
          obtain ⟨k, _, rfl⟩ := List.mem_map.mp part
          exact .inr ⟨event, k, rfl, rfl⟩
  | _ => exact .inl ⟨List.mem_singleton.mp part, trivial⟩

theorem turns_single (w : World) (steps : List Step) : ∀ s ∈ steps.flatMap w.turns, s.Single := by
  intro turn member
  obtain ⟨s, _, part⟩ := List.mem_flatMap.mp member
  rcases mem_turns part with ⟨rfl, single⟩ | ⟨_, _, _, rfl⟩
  · exact single
  · trivial

/-- What every observer's turn keeps, and every step that is no event, a step keeps. -/
theorem step_induction {P : World → Prop} (turn : ∀ w event k, P w → P (w.notify event k).1)
    (quiet : ∀ w s, (∀ target event, s ≠ .event target event) → P w → P (w.step s).world) {w : World} (h : P w)
    (s : Step) : P (w.step s).world := by
  cases s with
  | event target event =>
      cases target with
      | one k => exact turn w event k h
      | all =>
          have each (observers : List Nat) : ∀ {w : World}, P w → P (w.notifyEach event observers).1 := by
            intro w h
            rw [notifyEach_fst]
            induction observers generalizing w with
            | nil => exact h
            | cons k observers ih => exact ih (turn w event k h)
          exact each (List.range w.observers.length) h
  | _ => exact quiet w _ (fun _ _ same => by cases same) h

theorem run_induction {P : World → Prop} (turn : ∀ w event k, P w → P (w.notify event k).1)
    (quiet : ∀ w s, (∀ target event, s ≠ .event target event) → P w → P (w.step s).world) {w : World} (h : P w)
    (steps : List Step) : P (w.run steps) := by
  induction steps generalizing w with
  | nil => exact h
  | cons s steps ih => exact ih (step_induction turn quiet h s)

theorem step_length (w : World) (s : Step) : (w.step s).world.observers.length = w.observers.length := by
  refine step_induction (P := fun w' => w'.observers.length = w.observers.length) (fun w' event k same => ?_)
    (fun w' s quiet same => ?_) rfl s
  · exact (w'.notify_length event k).trans same
  · rw [step_observers w' quiet, same]

theorem turns_step (w : World) (s : Step) : (w.step s).world.turns = w.turns := by
  funext s'
  cases s' with
  | event target event =>
      cases target with
      | one k => rfl
      | all => simp only [turns, w.step_length s]
  | _ => rfl

/-- A run is the run of its turns. -/
theorem run_turns (w : World) (steps : List Step) : w.run (steps.flatMap w.turns) = w.run steps := by
  induction steps generalizing w with
  | nil => rfl
  | cons s steps ih =>
      have rest := ih (w.step s).world
      rw [turns_step] at rest
      rw [List.flatMap_cons, run_append, run_turns_step, rest, run_cons]

/-- What holds of no steps, and still holds after one more turn or one more step that is no event,
holds of all steps that concern one observer at most. -/
theorem single_induction {P : List Step → Prop} (nil : P [])
    (turn : ∀ past k event, P past → P (past ++ [.event (.one k) event]))
    (quiet : ∀ past s, (∀ target event, s ≠ .event target event) → P past → P (past ++ [s])) {past : List Step}
    (single : ∀ s ∈ past, s.Single) : P past := by
  induction past using List.reverseRecOn with
  | nil => exact nil
  | append_singleton past s ih =>
      have before : P past := ih fun s' member => single s' (List.mem_append_left _ member)
      have last : s.Single := single s (List.mem_append_right _ List.mem_cons_self)
      cases s with
      | event target event =>
          cases target with
          | one k => exact turn past k event before
          | all => cases last
      | _ => exact quiet past _ (fun _ _ same => by cases same) before

/-- A tagger's place, manager and settings are for good. -/
theorem run_config {w : World} (h : w.Sound) {k j : Nat} {t : Tagger} (found : w.observers[k]? = some (.tagger j t))
    (steps : List Step) : ∃ t', (w.run steps).observers[k]? = some (.tagger j t') ∧ t'.config = t.config := by
  refine (run_induction (P := fun w' => w'.Sound ∧ ∃ t', w'.observers[k]? = some (.tagger j t') ∧ t'.config = t.config)
    (fun w' event turn kept => ⟨notify_sound kept.1 event turn, ?_⟩)
    (fun w' s quiet kept => ⟨step_sound kept.1 s, ?_⟩) ⟨h, t, found, rfl⟩ steps).2
  · obtain ⟨sound, t', place, config⟩ := kept
    by_cases own : turn = k
    · subst own
      rcases sound.turn event turn with ⟨_, _, m, before, _, _, _, after⟩ | ⟨_, same⟩
      · cases before.symm.trans place
        rw [after]
        exact ⟨_, reacted_self before _, (t'.react_terms m event).1.trans config⟩
      · rw [same]
        exact ⟨t', place, config⟩
    · rw [notify_observers_ne w' event own]
      exact ⟨t', place, config⟩
  · rw [step_observers w' quiet]
    exact kept.2

/-! Sums over a list one of whose places is taken anew. -/

theorem sum_map_set {α : Type} {l : List α} {k : Nat} {a : α} (found : l[k]? = some a) (f : α → Nat) (b : α) :
    ((l.set k b).map f).sum + f a = (l.map f).sum + f b := by
  induction l generalizing k with
  | nil => cases found
  | cons c l ih =>
      cases k with
      | zero =>
          cases found
          simp only [List.set_cons_zero, List.map_cons, List.sum_cons]
          omega
      | succ k =>
          have rest := ih found
          simp only [List.set_cons_succ, List.map_cons, List.sum_cons]
          omega

/-! What is counted. There is a tally from the first tagger on. -/

/-- What has been counted so far, nothing while there is no tally. -/
def counted (w : World) : Tally := w.tally.getD .zero

/-- Whoever tags is counted. -/
def Tallies (w : World) : Prop := ∀ (k j : Nat) (t : Tagger), w.observers[k]? = some (.tagger j t) → w.tally.isSome

theorem Tallies.counted_reacted {w : World} (h : w.Tallies) {k j : Nat} {t : Tagger}
    (found : w.observers[k]? = some (.tagger j t)) (r : Tagger.Reaction) :
    (w.reacted k j r).counted = w.counted + r.tally := by
  obtain ⟨tally, some⟩ := Option.isSome_iff_exists.mp (h k j t found)
  simp only [counted, reacted, some, Option.map_some, Option.getD_some]

theorem Sound.notify_tallies {w : World} (h : w.Sound) (tallies : w.Tallies) (event : Event) (k : Nat) :
    (w.notify event k).1.Tallies := by
  rcases h.turn event k with ⟨j, t, m, found, _, _, _, after⟩ | ⟨_, same⟩
  · intro k' j' t' _
    rw [after]
    exact (Option.isSome_map ..).trans (tallies k j t found)
  · rw [same]
    exact tallies

theorem step_tallies {w : World} (tallies : w.Tallies) {s : Step} (quiet : ∀ target event, s ≠ .event target event) :
    (w.step s).world.Tallies := by
  intro k j t found
  rw [step_observers w quiet] at found
  rw [step_tally w quiet]
  exact tallies k j t found

theorem step_counted (w : World) {s : Step} (quiet : ∀ target event, s ≠ .event target event) :
    (w.step s).world.counted = w.counted := congrArg (·.getD .zero) (step_tally w quiet)

theorem addObserver_counted {w : World} (h : w.Tallies ∧ w.counted = 0) (opening : Opening) :
    (w.addObserver opening).1.Tallies ∧ (w.addObserver opening).1.counted = 0 := by
  rcases w.addObserver_cases opening with silent | ⟨i, t, m, _, _, _, tagger⟩
  · rw [silent]
    refine ⟨fun k j t found => ?_, h.2⟩
    rcases Manager.getElem?_concat_eq_some_iff.mp found with before | ⟨_, last⟩
    · exact h.1 k j t before
    · cases last
  · rw [tagger]
    exact ⟨fun _ _ _ _ => rfl, h.2⟩

/-- A session starts with nothing counted. -/
theorem opened_counted (kinds : List Kind) (openings : List Opening) :
    (opened kinds openings).Tallies ∧ (opened kinds openings).counted = 0 :=
  openWith_induction (P := fun w => w.Tallies ∧ w.counted = 0) (fun _ opening h => addObserver_counted h opening)
    ⟨(fun _ _ _ found => by cases found), rfl⟩ openings

end World
end PeerTags.Session
