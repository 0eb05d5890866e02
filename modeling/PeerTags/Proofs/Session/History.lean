import PeerTags.Proofs.Tagger.Requests
import PeerTags.Session.Step
import Mathlib.Data.List.Basic
/-! What a session does to each of its managers. A step asks a list of actions of
every manager, and the manager after the step is the one before it after those
actions; so every manager of every session is a run of its own. -/
namespace PeerTags.Session

open Manager (Action)

def Command.action : Command → Action
  | .tag peer name value => .tag peer name value
  | .untag peer name => .untag peer name
  | .register name interval decay bump => .register name interval decay bump
  | .advance intervals => .advance intervals
  | .rejectTags on => .rejectTags on
  | .rejectRegistrations on => .rejectRegistrations on
  | .clearCalls => .clearCalls

def HandleUse.actions (number : Nat) : HandleUse → List Action
  | .bump peer delta => [.bump number peer delta]
  | .remove peer => [.remove number peer]
  | .close => [.close number]
  | .name | .interval => []

def Observer.requests (i : Nat) (event : Event) : Observer → List Action
  | .silent => []
  | .tagger j t => if j = i then t.requests event else []

namespace World

/-- What an event makes the observer at a place ask of the manager at a place. -/
def eventRequests (w : World) (i : Nat) (event : Event) (k : Nat) : List Action :=
  (w.observers[k]?).elim [] (Observer.requests i event)

/-- What a step asks of the manager at a place. -/
def requests (w : World) (i : Nat) : Step → List Action
  | .event (.one k) event => w.eventRequests i event k
  | .event .all event => (List.range w.observers.length).flatMap (w.eventRequests i event)
  | .bumpDelivery k peer topic =>
    match w.observers[k]? with
    | some (.tagger j t) => if j = i then t.bumpRequest peer topic else []
    | _ => []
  | .command j c => if j = i then [c.action] else []
  | .useHandle h use =>
    match w.handles[h]? with
    | some (j, number) => if j = i then use.actions number else []
    | none => []
  | .askTagger .. | .askManager .. => []

/-- All that a run of steps asks of the manager at a place, oldest first. -/
def history (w : World) (i : Nat) : List Step → List Action
  | [] => []
  | s :: rest => w.requests i s ++ (w.step s).world.history i rest

/-- What the steps of a run answer. -/
def answers (w : World) : List Step → List Answer
  | [] => []
  | s :: rest => (w.step s).answer :: (w.step s).world.answers rest

@[simp] theorem run_nil (w : World) : w.run [] = w := rfl

@[simp] theorem run_cons (w : World) (s : Step) (rest : List Step) :
    w.run (s :: rest) = (w.step s).world.run rest := rfl

theorem run_append (w : World) (first later : List Step) : w.run (first ++ later) = (w.run first).run later :=
  List.foldl_append

/-- What an event makes an observer ask of a manager, its tagger asks, if that is the tagger's manager. -/
theorem mem_eventRequests_iff {w : World} {i : Nat} {event : Event} {k : Nat} {a : Action} :
    a ∈ w.eventRequests i event k ↔ ∃ t, w.observers[k]? = some (.tagger i t) ∧ a ∈ t.requests event := by
  unfold eventRequests
  cases w.observers[k]? with
  | none => simp
  | some observer =>
      cases observer with
      | silent => simp [Observer.requests]
      | tagger j t =>
          by_cases same : j = i
          · subst same
            simp [Observer.requests]
          · simp [Observer.requests, same]

theorem exists_of_mem_requests_event {w : World} {i : Nat} {target : Target} {event : Event} {a : Action}
    (asked : a ∈ w.requests i (.event target event)) :
    ∃ (k : Nat) (t : Tagger), w.observers[k]? = some (.tagger i t) ∧ a ∈ t.requests event := by
  cases target with
  | one k => exact ⟨k, mem_eventRequests_iff.mp asked⟩
  | all =>
      obtain ⟨k, _, requested⟩ := List.mem_flatMap.mp asked
      exact ⟨k, mem_eventRequests_iff.mp requested⟩

/-- What a run asks it asks at one of its steps. -/
theorem exists_of_mem_history {w : World} {i : Nat} {steps : List Step} {a : Action} (asked : a ∈ w.history i steps) :
    ∃ before s after, steps = before ++ s :: after ∧ a ∈ (w.run before).requests i s := by
  induction steps generalizing w with
  | nil => cases asked
  | cons s steps ih =>
      rcases List.mem_append.mp asked with now | later
      · exact ⟨[], s, steps, rfl, now⟩
      · obtain ⟨before, s', after, rfl, requested⟩ := ih later
        exact ⟨s :: before, s', after, rfl, requested⟩

/-! Managers step by step. -/

theorem manager?_setManager (w : World) (j : Nat) (m : Manager) (i : Nat) :
    (w.setManager j m).manager? i = if j = i then (w.manager? i).map fun _ => m else w.manager? i := by
  unfold setManager manager?
  cases found : w.seats[j]? with
  | none =>
      by_cases same : j = i
      · subst same
        simp [found]
      · simp [same]
  | some seat =>
      simp only [List.getElem?_set]
      by_cases same : j = i
      · subst same
        have inside := (List.getElem?_eq_some_iff.mp found).1
        simp [inside]
      · simp [same]

/-- A manager that has taken some actions is put in its own place. -/
theorem manager?_setManager_run {w : World} {j : Nat} {m : Manager} (found : w.manager? j = some m)
    (actions : List Action) (i : Nat) : (w.setManager j (m.run actions)).manager? i =
      (w.manager? i).map (·.run (if j = i then actions else [])) := by
  rw [manager?_setManager]
  by_cases same : j = i
  · subst same
    simp [found]
  · simp [same]

theorem manager?_of_absent {w : World} {j : Nat} (absent : w.manager? j = none) (actions : List Action) (i : Nat) :
    w.manager? i = (w.manager? i).map (·.run (if j = i then actions else [])) := by
  by_cases same : j = i
  · subst same
    simp [absent]
  · simp [same]

theorem observers_setManager (w : World) (j : Nat) (m : Manager) : (w.setManager j m).observers = w.observers := by
  unfold setManager
  split <;> rfl

theorem tally_setManager (w : World) (j : Nat) (m : Manager) : (w.setManager j m).tally = w.tally := by
  unfold setManager
  split <;> rfl

theorem manager?_probe (w : World) (j i : Nat) : (w.probe j).manager? i = w.manager? i := by
  simp only [probe, manager?, List.getElem?_modify]
  cases w.seats[i]? with
  | none => rfl
  | some seat =>
      simp only [Option.map_eq_map, Option.map_some, Option.some.injEq]
      split
      · unfold Seat.probed
        split <;> rfl
      · rfl

theorem notify_manager? (w : World) (event : Event) (k i : Nat) :
    (w.notify event k).1.manager? i = (w.manager? i).map (·.run (w.eventRequests i event k)) := by
  unfold notify eventRequests
  cases w.observers[k]? with
  | none => simp
  | some observer =>
      cases observer with
      | silent => simp [Observer.requests]
      | tagger j t =>
          simp only [Option.elim_some, Observer.requests]
          cases found : w.manager? j with
          | none => exact manager?_of_absent found (t.requests event) i
          | some m =>
              rw [← manager?_setManager_run found, ← Tagger.react_manager]
              rfl

theorem notify_observers_ne (w : World) (event : Event) {k k' : Nat} (other : k ≠ k') :
    (w.notify event k).1.observers[k']? = w.observers[k']? := by
  unfold notify
  split
  · split
    · rfl
    · simp only [List.getElem?_set_ne other, observers_setManager]
  · rfl

theorem notify_length (w : World) (event : Event) (k : Nat) :
    (w.notify event k).1.observers.length = w.observers.length := by
  unfold notify
  split
  · split
    · rfl
    · simp only [List.length_set, observers_setManager]
  · rfl

theorem notifyEach_fst (w : World) (event : Event) (observers : List Nat) :
    (w.notifyEach event observers).1 = observers.foldl (fun w k => (w.notify event k).1) w :=
  Manager.foldl_logged_fst (fun (w : World) (k : Nat) => w.notify event k) observers w []

/-- An observer is not changed by the others' turns, so what each will ask is known beforehand. -/
theorem notifyEach_manager? (w : World) (event : Event) {observers : List Nat} (once : observers.Nodup) (i : Nat) :
    (w.notifyEach event observers).1.manager? i =
      (w.manager? i).map (·.run (observers.flatMap (w.eventRequests i event))) := by
  rw [notifyEach_fst]
  induction observers generalizing w with
  | nil => simp
  | cons k observers ih =>
      obtain ⟨notLater, once⟩ := List.nodup_cons.mp once
      have later : observers.flatMap ((w.notify event k).1.eventRequests i event) =
          observers.flatMap (w.eventRequests i event) := by
        apply List.flatMap_congr
        intro k' member
        rw [eventRequests, notify_observers_ne w event fun same : k = k' => notLater (same ▸ member)]
        rfl
      rw [List.foldl_cons, ih (w.notify event k).1 once, later, notify_manager?, Option.map_map, List.flatMap_cons]
      simp only [Function.comp_def, Manager.run_append]

theorem bumpDelivery_manager? (w : World) (k : Nat) (peer : Peer) (topic : String) (i : Nat) :
    (w.bumpDelivery k peer topic).world.manager? i =
      (w.manager? i).map (·.run (w.requests i (.bumpDelivery k peer topic))) := by
  simp only [bumpDelivery, requests]
  cases before : w.observers[k]? with
  | none => simp [quiet]
  | some observer =>
      cases observer with
      | silent => simp [quiet]
      | tagger j t =>
          simp only
          cases found : w.manager? j with
          | none => exact manager?_of_absent found (t.bumpRequest peer topic) i
          | some m =>
              simp only
              rw [← manager?_setManager_run found, ← Tagger.bumpDelivery_fst]
              rcases t.bumpDelivery m peer topic with ⟨after, _ | _⟩ <;> rfl

theorem command_manager? (w : World) (j : Nat) (c : Command) (i : Nat) :
    (w.command j c).world.manager? i = (w.manager? i).map (·.run (w.requests i (.command j c))) := by
  simp only [command, requests]
  cases found : w.manager? j with
  | none => exact manager?_of_absent found [c.action] i
  | some m =>
      rw [← manager?_setManager_run found]
      cases c with
      | register name interval decay bump =>
          simp only [register, Command.action, Manager.run_cons, Manager.run_nil, Manager.act]
          rcases m.register name interval decay bump with ⟨after, _ | _⟩ <;>
            simp only [quiet, manager?_setManager, manager?_probe]
      | _ => rfl

theorem useHandle_manager? (w : World) (h : Nat) (use : HandleUse) (i : Nat) :
    (w.useHandle h use).world.manager? i = (w.manager? i).map (·.run (w.requests i (.useHandle h use))) := by
  simp only [useHandle, requests]
  cases w.handles[h]? with
  | none => simp [quiet]
  | some place =>
      obtain ⟨j, number⟩ := place
      simp only
      cases found : w.manager? j with
      | none => exact manager?_of_absent found (use.actions number) i
      | some m =>
          cases use with
          | bump peer delta => exact manager?_setManager_run found [.bump number peer delta] i
          | remove peer => exact manager?_setManager_run found [.remove number peer] i
          | close => exact manager?_setManager_run found [.close number] i
          | name => simp [HandleUse.actions, quiet]
          | interval => simp [HandleUse.actions, quiet]

/-- Each manager takes the actions that the step asks of it, and nothing else happens to it. -/
theorem step_manager? (w : World) (s : Step) (i : Nat) :
    (w.step s).world.manager? i = (w.manager? i).map (·.run (w.requests i s)) := by
  cases s with
  | event target event =>
      cases target with
      | one k => exact notify_manager? w event k i
      | all => exact notifyEach_manager? w event List.nodup_range i
  | bumpDelivery k peer topic => exact bumpDelivery_manager? w k peer topic i
  | command j c => exact command_manager? w j c i
  | useHandle h use => exact useHandle_manager? w h use i
  | askTagger k question => simp [step, quiet, requests]
  | askManager j question => simp [step, quiet, requests]

theorem run_manager? (w : World) (steps : List Step) (i : Nat) :
    (w.run steps).manager? i = (w.manager? i).map (·.run (w.history i steps)) := by
  induction steps generalizing w with
  | nil => simp [history]
  | cons s steps ih =>
      rw [run_cons, ih, step_manager?, Option.map_map, history]
      simp only [Function.comp_def, Manager.run_append]

/-! Observers. -/

/-- Every tagger has a manager, which issued what the tagger tracks. -/
def Sound (w : World) : Prop :=
  ∀ (k j : Nat) (t : Tagger), w.observers[k]? = some (.tagger j t) →
    ∃ m, w.manager? j = some m ∧ t.Holds m ∧ t.supportsDecay = m.supportsDecay

/-- A tagger's manager may take any actions. -/
theorem Sound.later {w w' : World} (h : w.Sound) {requests : Nat → List Action}
    (managers : ∀ i, w'.manager? i = (w.manager? i).map (·.run (requests i))) {k j : Nat} {t : Tagger}
    (found : w.observers[k]? = some (.tagger j t)) :
    ∃ m, w'.manager? j = some m ∧ t.Holds m ∧ t.supportsDecay = m.supportsDecay := by
  obtain ⟨m, seat, holds, supports⟩ := h k j t found
  refine ⟨m.run (requests j), by rw [managers, seat, Option.map_some], holds.run _, ?_⟩
  rw [Manager.run_supportsDecay, supports]

/-- The world after the tagger of an observer has reacted at its manager. -/
def reacted (w : World) (k j : Nat) (r : Tagger.Reaction) : World :=
  { w.setManager j r.manager with
    observers := w.observers.set k (.tagger j r.tagger)
    tally := w.tally.map (· + r.tally) }

theorem reacted_self {w : World} {k j : Nat} {t : Tagger} (found : w.observers[k]? = some (.tagger j t))
    (r : Tagger.Reaction) : (w.reacted k j r).observers[k]? = some (.tagger j r.tagger) :=
  List.getElem?_set_self (List.getElem?_eq_some_iff.mp found).1

/-- An observer's turn: a tagger reacts at its manager, which it always has, and one that is
silent does nothing. -/
theorem Sound.turn {w : World} (h : w.Sound) (event : Event) (k : Nat) :
    (∃ j t m, w.observers[k]? = some (.tagger j t) ∧ w.manager? j = some m ∧ t.Holds m ∧
      t.supportsDecay = m.supportsDecay ∧
      w.notify event k = (w.reacted k j (t.react m event), (t.react m event).log)) ∨
    (∀ j t, w.observers[k]? ≠ some (.tagger j t)) ∧ w.notify event k = (w, []) := by
  cases found : w.observers[k]? with
  | none => exact .inr ⟨by simp, by simp only [notify, found]⟩
  | some observer =>
      cases observer with
      | silent => exact .inr ⟨by simp, by simp only [notify, found]⟩
      | tagger j t =>
          obtain ⟨m, seat, holds, alike⟩ := h k j t found
          refine .inl ⟨j, t, m, rfl, seat, holds, alike, ?_⟩
          simp only [notify, found, seat, observers_setManager, tally_setManager, reacted]

theorem notify_sound {w : World} (h : w.Sound) (event : Event) (k : Nat) : (w.notify event k).1.Sound := by
  intro k' j t found
  by_cases other : k = k'
  · subst other
    rcases h.turn event k with ⟨_, t', m, before, seat, holds, alike, after⟩ | ⟨_, same⟩
    · rw [after] at found ⊢
      cases (reacted_self before _).symm.trans found
      refine ⟨(t'.react m event).manager, ?_, Tagger.react_holds holds event, ?_⟩
      · exact (manager?_setManager w j _ j).trans (by simp [seat])
      · rw [(Tagger.react_terms t' m event).2.1, alike, Tagger.react_manager, Manager.run_supportsDecay]
    · rw [same] at found ⊢
      exact h k j t found
  · rw [notify_observers_ne w event other] at found
    exact h.later (notify_manager? w event k) found

theorem notifyEach_sound {w : World} (h : w.Sound) (event : Event) (observers : List Nat) :
    (w.notifyEach event observers).1.Sound := by
  rw [notifyEach_fst]
  induction observers generalizing w with
  | nil => exact h
  | cons k observers ih => exact ih (notify_sound h event k)

/-- A step that is no event puts a manager in its place at most, perhaps after the manager
was asked for decay support. -/
theorem step_quiet (w : World) {s : Step} (quiet : ∀ target event, s ≠ .event target event) :
    (w.step s).world = w ∨ ∃ j m, (w.step s).world = w.setManager j m ∨
      (w.step s).world = (w.probe j).setManager j m := by
  cases s with
  | event target event => exact absurd rfl (quiet target event)
  | bumpDelivery k peer topic =>
      simp only [step, bumpDelivery]
      split
      · split
        · exact .inl rfl
        · split <;> exact .inr ⟨_, _, .inl rfl⟩
      · exact .inl rfl
  | command j c =>
      simp only [step, command]
      cases w.manager? j with
      | none => exact .inl rfl
      | some m =>
          cases c with
          | register name interval decay bump =>
              simp only [register]
              rcases m.register name interval decay bump with ⟨after, _ | _⟩ <;>
                exact .inr ⟨j, _, .inr rfl⟩
          | _ => exact .inr ⟨j, _, .inl rfl⟩
  | useHandle h use =>
      simp only [step, useHandle]
      split
      · exact .inl rfl
      · split
        · exact .inl rfl
        · cases use with
          | name => exact .inl rfl
          | interval => exact .inl rfl
          | _ => exact .inr ⟨_, _, .inl rfl⟩
  | askTagger k question => exact .inl rfl
  | askManager j question => exact .inl rfl

/-- Only events change observers. -/
theorem step_observers (w : World) {s : Step} (quiet : ∀ target event, s ≠ .event target event) :
    (w.step s).world.observers = w.observers := by
  rcases w.step_quiet quiet with same | ⟨j, m, placed | placed⟩
  · rw [same]
  · rw [placed, observers_setManager]
  · rw [placed, observers_setManager]
    rfl

/-- Only events are counted. -/
theorem step_tally (w : World) {s : Step} (quiet : ∀ target event, s ≠ .event target event) :
    (w.step s).world.tally = w.tally := by
  rcases w.step_quiet quiet with same | ⟨j, m, placed | placed⟩
  · rw [same]
  · rw [placed, tally_setManager]
  · rw [placed, tally_setManager]
    rfl

theorem step_sound {w : World} (h : w.Sound) (s : Step) : (w.step s).world.Sound := by
  by_cases loud : ∃ target event, s = .event target event
  · obtain ⟨target, event, rfl⟩ := loud
    cases target with
    | one k => exact notify_sound h event k
    | all => exact notifyEach_sound h event (List.range w.observers.length)
  · intro k j t found
    rw [step_observers w fun target event same => loud ⟨target, event, same⟩] at found
    exact h.later (step_manager? w s) found

theorem run_sound {w : World} (h : w.Sound) (steps : List Step) : (w.run steps).Sound := by
  induction steps generalizing w with
  | nil => exact h
  | cons s steps ih => exact ih (step_sound h s)

/-! Where a session starts. -/

/-- One more observer: a silent one, or a tagger on a manager, which tracks nothing yet and is
counted from now on. -/
theorem addObserver_cases (w : World) (opening : Opening) :
    (w.addObserver opening).1 = { w with observers := w.observers ++ [.silent] } ∨
    ∃ i t m, w.manager? i = some m ∧ t.tracked = ∅ ∧ t.supportsDecay = m.supportsDecay ∧
      (w.addObserver opening).1 =
        { w.probe i with observers := w.observers ++ [.tagger i t], tally := some (w.tally.getD .zero) } := by
  unfold addObserver
  cases opening with
  | silent => exact .inl rfl
  | tagger i config direct =>
      simp only
      split
      · exact .inl rfl
      · rename_i seat seated
        split
        · exact .inl rfl
        · rename_i t log created
          obtain ⟨untracked, supports⟩ := Tagger.create_fresh created
          exact .inr ⟨i, t, seat.manager, by rw [manager?, seated, Option.map_some], untracked, supports, rfl⟩

theorem addObserver_manager? (w : World) (opening : Opening) (i : Nat) :
    (w.addObserver opening).1.manager? i = w.manager? i := by
  rcases w.addObserver_cases opening with silent | ⟨j, t, m, _, _, _, tagger⟩
  · rw [silent]
    rfl
  · rw [tagger]
    exact manager?_probe w j i

theorem addObserver_sound {w : World} (h : w.Sound) (opening : Opening) : (w.addObserver opening).1.Sound := by
  intro k j t found
  rw [addObserver_manager?]
  rcases w.addObserver_cases opening with silent | ⟨i, t', m, seat, untracked, supports, tagger⟩
  · rw [silent] at found
    rcases Manager.getElem?_concat_eq_some_iff.mp found with before | ⟨_, last⟩
    · exact h k j t before
    · cases last
  · rw [tagger] at found
    rcases Manager.getElem?_concat_eq_some_iff.mp found with before | ⟨_, last⟩
    · exact h k j t before
    · cases last
      refine ⟨m, seat, fun topic number tracked => ?_, supports⟩
      rw [untracked] at tracked
      cases tracked

/-- The world of the given managers and observers before any step. -/
def opened (kinds : List Kind) (openings : List Opening) : World := ((ofKinds kinds).openWith openings).1

theorem openWith_fst (w : World) (openings : List Opening) :
    (w.openWith openings).1 = openings.foldl (fun w opening => (w.addObserver opening).1) w :=
  Manager.foldl_logged_fst
    (fun (w : World) (opening : Opening) => ((w.addObserver opening).1, [(w.addObserver opening).2])) openings w []

/-- What each new observer keeps, all of them keep. -/
theorem openWith_induction {P : World → Prop} (add : ∀ w opening, P w → P (w.addObserver opening).1) {w : World}
    (h : P w) (openings : List Opening) : P (w.openWith openings).1 := by
  rw [openWith_fst]
  induction openings generalizing w with
  | nil => exact h
  | cons opening openings ih => exact ih (add w opening h)

theorem openWith_manager? (w : World) (openings : List Opening) (i : Nat) :
    (w.openWith openings).1.manager? i = w.manager? i :=
  openWith_induction (P := fun w' => w'.manager? i = w.manager? i)
    (fun w' opening same => (w'.addObserver_manager? opening i).trans same) rfl openings

theorem opened_sound (kinds : List Kind) (openings : List Opening) : (opened kinds openings).Sound :=
  openWith_induction (P := Sound) (fun _ opening h => addObserver_sound h opening) (fun _ _ _ found => by cases found)
    openings

theorem opened_manager?_eq (kinds : List Kind) (openings : List Opening) (i : Nat) :
    (opened kinds openings).manager? i = (kinds[i]?).map fun kind => .new (decide (kind = .decaying)) := by
  have made (kind : Kind) : kind.seat.manager = .new (decide (kind = .decaying)) := by cases kind <;> rfl
  rw [opened, openWith_manager?, manager?, ofKinds, List.getElem?_map, Option.map_map]
  exact congrArg (fun f => (kinds[i]?).map f) (funext made)

/-- A session starts with managers that nothing was done to. -/
theorem opened_manager? {kinds : List Kind} {openings : List Opening} {i : Nat} {m : Manager}
    (found : (opened kinds openings).manager? i = some m) : ∃ supportsDecay, m = .new supportsDecay := by
  rw [opened_manager?_eq] at found
  obtain ⟨_, _, rfl⟩ := Option.map_eq_some_iff.mp found
  exact ⟨_, rfl⟩

/-- A manager after a run of a session is a new one after what the session asked of it. -/
theorem run_opened_manager? {kinds : List Kind} {openings : List Opening} {steps : List Step} {i : Nat} {m : Manager}
    (found : ((opened kinds openings).run steps).manager? i = some m) :
    ∃ supportsDecay, m = (Manager.new supportsDecay).run ((opened kinds openings).history i steps) ∧
      (opened kinds openings).manager? i = some (.new supportsDecay) := by
  rw [run_manager?] at found
  obtain ⟨start, seat, rfl⟩ := Option.map_eq_some_iff.mp found
  obtain ⟨supportsDecay, rfl⟩ := opened_manager? seat
  exact ⟨supportsDecay, rfl, seat⟩

/-! Bumps that break off. Taggers' bumps never do, so a step that does says so. -/

theorem event_calm {w : World} (h : w.Sound) {i : Nat} {m : Manager} (seat : w.manager? i = some m) (target : Target)
    (event : Event) : m.Calm (w.requests i (.event target event)) := by
  refine Manager.calm_of_capped fun number peer delta asked => ?_
  obtain ⟨k, t, found, requested⟩ := exists_of_mem_requests_event asked
  obtain ⟨_, tracked, _⟩ := Tagger.bump_of_mem_requests requested
  obtain ⟨m', seat', holds, _⟩ := h k i t found
  cases seat.symm.trans seat'
  exact holds.capped tracked

theorem bumpDelivery_calm {w : World} (h : w.Sound) {i : Nat} {m : Manager} (seat : w.manager? i = some m) (k : Nat)
    (peer : Peer) (topic : String) : m.Calm (w.requests i (.bumpDelivery k peer topic)) := by
  simp only [requests]
  split
  · rename_i j t found
    split
    · rename_i same
      subst same
      obtain ⟨m', seat', holds, _⟩ := h k j t found
      cases seat.symm.trans seat'
      exact Tagger.bumpRequest_calm holds peer topic
    · exact trivial
  · exact trivial

theorem useHandle_calm {w : World} {handle : Nat} {use : HandleUse}
    (calm : (w.useHandle handle use).answer ≠ .refused .crossedBounds) {i : Nat} {m : Manager}
    (seat : w.manager? i = some m) : m.Calm (w.requests i (.useHandle handle use)) := by
  simp only [requests]
  cases found : w.handles[handle]? with
  | none => exact trivial
  | some place =>
      obtain ⟨j, number⟩ := place
      simp only
      split
      · rename_i same
        subst same
        cases use with
        | bump peer delta =>
            refine ⟨fun crosses => calm ?_, trivial⟩
            simp only [Manager.Crosses] at crosses
            simp only [useHandle, found, seat, quiet, crosses, Answer.ofResult]
        | remove peer => exact ⟨id, trivial⟩
        | close => exact ⟨id, trivial⟩
        | name => exact trivial
        | interval => exact trivial
      · exact trivial

theorem requests_calm {w : World} (h : w.Sound) {s : Step} (calm : (w.step s).answer ≠ .refused .crossedBounds)
    {i : Nat} {m : Manager} (seat : w.manager? i = some m) : m.Calm (w.requests i s) := by
  cases s with
  | event target event => exact event_calm h seat target event
  | bumpDelivery k peer topic => exact bumpDelivery_calm h seat k peer topic
  | command j c =>
      simp only [requests]
      split
      · cases c <;> exact ⟨id, trivial⟩
      · exact trivial
  | useHandle handle use => exact useHandle_calm calm seat
  | askTagger k question => exact trivial
  | askManager j question => exact trivial

theorem history_calm {w : World} (h : w.Sound) {steps : List Step}
    (calm : ∀ answer ∈ w.answers steps, answer ≠ .refused .crossedBounds) {i : Nat} {m : Manager}
    (seat : w.manager? i = some m) : m.Calm (w.history i steps) := by
  induction steps generalizing w m with
  | nil => exact trivial
  | cons s steps ih =>
      have next : (w.step s).world.manager? i = some (m.run (w.requests i s)) := by
        rw [step_manager?, seat, Option.map_some]
      rw [history, Manager.calm_append]
      exact ⟨requests_calm h (calm _ List.mem_cons_self) seat,
        ih (step_sound h s) (fun answer later => calm answer (List.mem_cons_of_mem _ later)) next⟩

end World
end PeerTags.Session
