import Mathlib.Data.List.Forall2
import PeerTags.Proofs.Session.Turns
import PeerTags.Proofs.Tagger.Accounts
import PeerTags.Session.Report
/-! The accounts of a session. What the events of a run make taggers attempt is known from
the session's start, since no step changes a tagger's terms or whether its manager supports
decay. Each observer's turn accounts for its own attempts, so a run accounts for all. -/
namespace PeerTags

theorem Tagger.Asks.kept {config : Config} {e : Event} {a : Manager.Action} (asks : Asks config e a) :
    a ≠ .clearCalls := by
  cases asks <;> exact fun same => by cases same

namespace Manager

/-- Records are only added, unless they are cleared. -/
theorem run_calls_prefix (m : Manager) {actions : List Action} (kept : ∀ a ∈ actions, a ≠ .clearCalls) :
    m.calls <+: (m.run actions).calls := by
  induction actions generalizing m with
  | nil => exact List.prefix_refl _
  | cons a actions ih =>
      have first : m.calls <+: (m.act a).calls := by
        rw [act_calls m (kept a List.mem_cons_self)]
        exact List.prefix_append ..
      exact first.trans (ih (m.act a) fun b later => kept b (List.mem_cons_of_mem a later))

end Manager

namespace Session

def Step.isEvent : Step → Bool
  | .event .. => true
  | .bumpDelivery .. | .askTagger .. | .command .. | .askManager .. | .useHandle .. => false

namespace World

/-- What an event makes the observer at a place attempt. -/
def attemptsAt (w : World) (event : Event) (k : Nat) : Attempts :=
  match w.observers[k]? with
  | some (.tagger j t) => t.attempts ((w.manager? j).any Manager.supportsDecay) event
  | _ => 0

/-- What a step makes observers attempt, by reacting to an event. -/
def attempts (w : World) : Step → Attempts
  | .event (.one k) event => w.attemptsAt event k
  | .event .all event => ((List.range w.observers.length).map (w.attemptsAt event)).sum
  | .bumpDelivery .. | .askTagger .. | .command .. | .askManager .. | .useHandle .. => 0

/-- What the events of a run leave behind, oldest first. -/
def ofEvents {α : Type} (leaves : World → Outcome → List α) (w : World) : List Step → List α
  | [] => []
  | s :: rest => (if s.isEvent then leaves w (w.step s) else []) ++ (w.step s).world.ofEvents leaves rest

/-- The calls that were recorded because of events. -/
def eventCalls : World → List Step → List Call := ofEvents fun w o => (callsBetween w o.world).map Prod.snd

/-- The decaying tags that were issued because of events. -/
def eventHandles : World → List Step → List (Nat × Nat) := ofEvents fun w o => o.world.handles.drop w.handles.length

/-- What was logged because of events. -/
def eventLog : World → List Step → List LogEntry := ofEvents fun _ o => o.log

/-! The terms of a session are for good. -/

theorem any_supportsDecay_of_run {w w' : World} {i : Nat} {actions : List Manager.Action}
    (later : w'.manager? i = (w.manager? i).map (·.run actions)) :
    (w'.manager? i).any Manager.supportsDecay = (w.manager? i).any Manager.supportsDecay := by
  rw [later, Option.any_map]
  exact congrArg (fun f => (w.manager? i).any f) (funext fun m => m.run_supportsDecay actions)

theorem Sound.notify_attemptsAt {w : World} (h : w.Sound) (event : Event) (k : Nat) :
    (w.notify event k).1.attemptsAt = w.attemptsAt := by
  funext event' k'
  have managers (i : Nat) := any_supportsDecay_of_run (notify_manager? w event k i)
  by_cases other : k = k'
  · subst other
    rcases h.turn event k with ⟨j, t, m, found, _, _, _, after⟩ | ⟨_, same⟩
    · have place : (w.notify event k).1.observers[k]? = some (.tagger j (t.react m event).tagger) := by
        rw [after]
        exact reacted_self found _
      obtain ⟨_, _, direct⟩ := t.react_terms m event
      simp only [attemptsAt, place, found, managers]
      unfold Tagger.attempts Tagger.isDirect
      rw [direct]
    · rw [same]
  · simp only [attemptsAt, notify_observers_ne w event other, managers]

theorem step_attempts {w : World} (h : w.Sound) (s : Step) : (w.step s).world.attempts = w.attempts := by
  have places : (w.step s).world.Sound ∧ (w.step s).world.attemptsAt = w.attemptsAt := by
    refine step_induction (P := fun w' => w'.Sound ∧ w'.attemptsAt = w.attemptsAt) (fun w' event k kept => ?_)
      (fun w' s quiet kept => ⟨step_sound kept.1 s, ?_⟩) ⟨h, rfl⟩ s
    · exact ⟨notify_sound kept.1 event k, (kept.1.notify_attemptsAt event k).trans kept.2⟩
    · rw [← kept.2]
      funext event k
      simp only [attemptsAt, step_observers w' quiet, any_supportsDecay_of_run (step_manager? w' s _)]
  funext s'
  cases s' with
  | event target event =>
      cases target with
      | one k => exact congrFun (congrFun places.2 event) k
      | all => simp only [attempts, places.2, w.step_length s]
  | _ => rfl

/-! Records, counted over all managers. -/

/-- How many records of a kind there are. -/
def recorded (w : World) (p : Call → Bool) : Nat := (w.seats.map fun seat => seat.manager.calls.countP p).sum

/-- Of managers that only added to their records, those added make the difference. -/
theorem countP_added {before after : List Seat}
    (grown : List.Forall₂ (fun old new => old.manager.calls <+: new.manager.calls) before after) (p : Call → Bool)
    (start : Nat) :
    ((((List.zip before after).zipIdx start).flatMap fun ((old, new), i) =>
        (new.manager.calls.drop old.manager.calls.length).map (i, ·)).map Prod.snd).countP p +
      (before.map fun seat => seat.manager.calls.countP p).sum =
        (after.map fun seat => seat.manager.calls.countP p).sum := by
  induction grown generalizing start with
  | nil => rfl
  | cons first _ ih =>
      obtain ⟨added, calls⟩ := first
      have rest := ih (start + 1)
      simp only [List.zip_cons_cons, List.zipIdx_cons, List.flatMap_cons, List.map_append, List.countP_append,
        List.map_cons, List.sum_cons, ← calls, List.drop_left, List.map_map, Function.comp_def, List.map_id'] at rest ⊢
      omega

/-- Managers that took actions without losing records only added to them. -/
theorem grown_of_manager? {w w' : World} {requests : Nat → List Manager.Action}
    (managers : ∀ i, w'.manager? i = (w.manager? i).map (·.run (requests i)))
    (kept : ∀ i, ∀ a ∈ requests i, a ≠ .clearCalls) :
    List.Forall₂ (fun (old new : Seat) => old.manager.calls <+: new.manager.calls) w.seats w'.seats := by
  have present (i : Nat) : i < w'.seats.length ↔ i < w.seats.length := by
    have same := congrArg Option.isSome (managers i)
    simp only [manager?, Option.isSome_map] at same
    rw [← isSome_getElem? w'.seats i, same, isSome_getElem?]
  have length : w.seats.length = w'.seats.length :=
    Nat.le_antisymm (Nat.le_of_not_lt fun less => Nat.lt_irrefl _ ((present _).mpr less))
      (Nat.le_of_not_lt fun less => Nat.lt_irrefl _ ((present _).mp less))
  refine List.forall₂_iff_get.mpr ⟨length, fun i inside inside' => ?_⟩
  have same := managers i
  simp only [manager?, List.getElem?_eq_getElem inside, List.getElem?_eq_getElem inside', Option.map_some,
    Option.some.injEq] at same
  simp only [List.get_eq_getElem, same]
  exact w.seats[i].manager.run_calls_prefix (kept i)

theorem event_grown (w : World) (target : Target) (event : Event) :
    List.Forall₂ (fun (old new : Seat) => old.manager.calls <+: new.manager.calls) w.seats
      (w.step (.event target event)).world.seats := by
  refine grown_of_manager? (w.step_manager? (.event target event)) fun i a asked => ?_
  obtain ⟨_, t, _, requested⟩ := exists_of_mem_requests_event asked
  exact (t.requests_asks event a requested).kept

/-! Turns, events and runs. -/

/-- On the way from one world to another, with this log, the attempts were accounted for. -/
def Accounts (w w' : World) (due : Attempts) (log : List LogEntry) : Prop :=
  ∃ tally calls handles, w'.counted = w.counted + tally ∧ (∀ p, w'.recorded p = w.recorded p + calls.countP p) ∧
    w'.handles = w.handles ++ handles ∧ Balanced tally due calls handles.length log

theorem Accounts.refl (w : World) : w.Accounts w 0 [] :=
  ⟨0, [], [], (add_zero _).symm, fun _ => rfl, (List.append_nil _).symm, .nothing⟩

theorem Accounts.trans {w w' w'' : World} {due due' : Attempts} {log log' : List LogEntry}
    (h : w.Accounts w' due log) (h' : w'.Accounts w'' due' log') : w.Accounts w'' (due + due') (log ++ log') := by
  obtain ⟨tally, calls, handles, counted, recorded, issued, balanced⟩ := h
  obtain ⟨tally', calls', handles', counted', recorded', issued', balanced'⟩ := h'
  refine ⟨tally + tally', calls ++ calls', handles ++ handles', ?_, fun p => ?_, ?_, ?_⟩
  · rw [counted', counted, add_assoc]
  · rw [recorded', recorded, List.countP_append, Nat.add_assoc]
  · rw [issued', issued, List.append_assoc]
  · rw [List.length_append]
    exact balanced.append balanced'

theorem Sound.notify_accounts {w : World} (h : w.Sound) (tallies : w.Tallies) (event : Event) (k : Nat) :
    w.Accounts (w.notify event k).1 (w.attemptsAt event k) (w.notify event k).2 := by
  rcases h.turn event k with ⟨j, t, m, found, seat, holds, alike, after⟩ | ⟨silent, after⟩
  · obtain ⟨calls, registered, recorded, issued, balanced⟩ := Tagger.react_accounts holds alike event
    obtain ⟨place, seated, rfl⟩ := Option.map_eq_some_iff.mp seat
    have due : w.attemptsAt event k = t.attempts place.manager.supportsDecay event := by
      simp only [attemptsAt, found, seat, Option.any_some]
    rw [after, due]
    refine ⟨_, calls, newHandles j place.manager (t.react place.manager event).manager,
      tallies.counted_reacted found _, fun p => ?_, ?_, ?_⟩
    · -- one manager's records grew, the others' are as they were
      have total := sum_map_set seated (fun seat => seat.manager.calls.countP p)
        { place with manager := (t.react place.manager event).manager }
      simp only [recorded, List.countP_append] at total
      simp only [World.recorded, reacted, setManager, seated]
      omega
    · simp only [reacted, setManager, seated]
    · have length : (newHandles j place.manager (t.react place.manager event).manager).length = registered := by
        rw [newHandles, List.length_map, List.length_range', issued, Nat.add_sub_cancel_left]
      rwa [length]
  · rw [after]
    have nothing : w.attemptsAt event k = 0 := by
      unfold attemptsAt
      split
      · rename_i j t found
        exact absurd found (silent j t)
      · rfl
    rw [nothing]
    exact .refl w

theorem notifyEach_logged (event : Event) (observers : List Nat) (w : World) (log : List LogEntry) :
    observers.foldl (fun (w, log) i => ((w.notify event i).1, log ++ (w.notify event i).2)) (w, log) =
      ((w.notifyEach event observers).1, log ++ (w.notifyEach event observers).2) := by
  induction observers generalizing w log with
  | nil => exact Prod.ext rfl (List.append_nil log).symm
  | cons k observers ih =>
      have first : w.notifyEach event (k :: observers) =
          (((w.notify event k).1.notifyEach event observers).1,
            (w.notify event k).2 ++ ((w.notify event k).1.notifyEach event observers).2) := ih _ _
      rw [List.foldl_cons, ih, first, List.append_assoc]

theorem notifyEach_cons (w : World) (event : Event) (k : Nat) (observers : List Nat) :
    w.notifyEach event (k :: observers) = (((w.notify event k).1.notifyEach event observers).1,
      (w.notify event k).2 ++ ((w.notify event k).1.notifyEach event observers).2) :=
  notifyEach_logged event observers (w.notify event k).1 (w.notify event k).2

theorem Sound.notifyEach_accounts {w : World} (h : w.Sound) (tallies : w.Tallies) (event : Event)
    (observers : List Nat) : w.Accounts (w.notifyEach event observers).1
      (observers.map (w.attemptsAt event)).sum (w.notifyEach event observers).2 := by
  induction observers generalizing w with
  | nil => exact .refl w
  | cons k observers ih =>
      have rest := ih (notify_sound h event k) (h.notify_tallies tallies event k)
      rw [h.notify_attemptsAt event k] at rest
      rw [notifyEach_cons, List.map_cons, List.sum_cons]
      exact (h.notify_accounts tallies event k).trans rest

theorem Sound.event_accounts {w : World} (h : w.Sound) (tallies : w.Tallies) (target : Target) (event : Event) :
    w.Accounts (w.step (.event target event)).world (w.attempts (.event target event))
      (w.step (.event target event)).log := by
  cases target with
  | one k => exact h.notify_accounts tallies event k
  | all => exact h.notifyEach_accounts tallies event (List.range w.observers.length)

/-- What an event leaves behind, as far as it can be seen. -/
theorem Sound.event_balanced {w : World} (h : w.Sound) (tallies : w.Tallies) (target : Target) (event : Event) :
    ∃ tally, (w.step (.event target event)).world.counted = w.counted + tally ∧
      Balanced tally (w.attempts (.event target event))
        ((callsBetween w (w.step (.event target event)).world).map Prod.snd)
        ((w.step (.event target event)).world.handles.drop w.handles.length).length
        (w.step (.event target event)).log := by
  obtain ⟨tally, calls, handles, counted, recorded, issued, balanced⟩ := h.event_accounts tallies target event
  refine ⟨tally, counted, ?_⟩
  rw [issued, List.drop_left]
  refine balanced.congr_calls fun p => ?_
  have added : ((callsBetween w (w.step (.event target event)).world).map Prod.snd).countP p + w.recorded p =
      (w.step (.event target event)).world.recorded p := countP_added (w.event_grown target event) p 0
  have sum := recorded p
  omega

theorem step_tallied {w : World} (h : w.Sound) (tallies : w.Tallies) (s : Step) : (w.step s).world.Tallies :=
  (step_induction (P := fun w => w.Sound ∧ w.Tallies)
    (fun _ event k kept => ⟨notify_sound kept.1 event k, kept.1.notify_tallies kept.2 event k⟩)
    (fun _ s quiet kept => ⟨step_sound kept.1 s, step_tallies kept.2 quiet⟩) ⟨h, tallies⟩ s).2

theorem Sound.run_balanced {w : World} (h : w.Sound) (tallies : w.Tallies) (steps : List Step) :
    ∃ tally, (w.run steps).counted = w.counted + tally ∧ Balanced tally (steps.map w.attempts).sum
      (w.eventCalls steps) (w.eventHandles steps).length (w.eventLog steps) := by
  induction steps generalizing w with
  | nil => exact ⟨0, (add_zero _).symm, .nothing⟩
  | cons s steps ih =>
      obtain ⟨later, counted, balanced⟩ := ih (step_sound h s) (step_tallied h tallies s)
      rw [step_attempts h s] at balanced
      have first : ∃ tally, (w.step s).world.counted = w.counted + tally ∧ Balanced tally (w.attempts s)
          (if s.isEvent then (callsBetween w (w.step s).world).map Prod.snd else [])
          (if s.isEvent then (w.step s).world.handles.drop w.handles.length else []).length
          (if s.isEvent then (w.step s).log else []) := by
        cases s with
        | event target event => exact h.event_balanced tallies target event
        | _ => exact ⟨0, (step_counted w fun _ _ same => by cases same).trans (add_zero _).symm, .nothing⟩
      obtain ⟨now, counted', balanced'⟩ := first
      refine ⟨now + later, ?_, ?_⟩
      · rw [run_cons, counted, counted', add_assoc]
      · rw [List.map_cons, List.sum_cons, eventHandles, ofEvents, List.length_append]
        exact balanced'.append balanced

/-- Whatever is done in a session, what its events make taggers attempt is accounted for: each
topic of a delivery is a bump or a failed bump, each tag that is due is set, cleared or
failed, and each join with decay support is registered or failed; the managers have a
record of every call that sets or clears a tag and of every bump that was done; and there is
one warning for each failure. -/
theorem run_accounts_for_attempts (kinds : List Kind) (openings : List Opening) (steps : List Step) :
    let start := opened kinds openings
    Balanced (start.run steps).counted (steps.map start.attempts).sum (start.eventCalls steps)
      (start.eventHandles steps).length (start.eventLog steps) := by
  intro start
  obtain ⟨tallies, none⟩ := opened_counted kinds openings
  obtain ⟨tally, counted, balanced⟩ := (opened_sound kinds openings).run_balanced tallies steps
  rw [none, zero_add] at counted
  rwa [counted]

end World
end Session
end PeerTags
