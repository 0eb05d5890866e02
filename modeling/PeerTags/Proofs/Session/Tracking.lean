import PeerTags.Proofs.Session.History
import PeerTags.Proofs.Tagger.Reactions
/-! Which tagger tracks a topic. A tagger that leaves a topic forgets its delivery tag,
but the manager keeps the name. So of all registrations of the tag that are ever
attempted on a manager, by any of its taggers or past them, only the first that is not
rejected goes through; whoever made it tracks the topic until it leaves. -/
namespace PeerTags.Session

/-- What bears on the delivery tag of a topic at one manager. -/
inductive Occurrence where
  /-- From now on registrations are rejected, or are not. -/
  | rejecting (on : Bool)
  /-- Its name is to be registered, by the join of an observer or past all of them. -/
  | attempt (joining : Option Nat)
  | leave (observer : Nat)
deriving DecidableEq

namespace Occurrence

/-- Whether registrations are rejected after all this. -/
def rejected : (rejects : Bool) → List Occurrence → Bool
  | rejects, [] => rejects
  | _, rejecting on :: rest => rejected on rest
  | rejects, attempt _ :: rest | rejects, leave _ :: rest => rejected rejects rest

/-- Who made the first attempt while registrations were accepted, and what came after it. -/
def firstAttempt : (rejects : Bool) → List Occurrence → Option (Option Nat × List Occurrence)
  | _, [] => none
  | _, rejecting on :: rest => firstAttempt on rest
  | rejects, attempt who :: rest => if rejects then firstAttempt rejects rest else some (who, rest)
  | rejects, leave _ :: rest => firstAttempt rejects rest

/-- The first attempt was this observer's join, and it has not left since. -/
def TrackedBy (k : Nat) (past : List Occurrence) : Prop :=
  ∃ after, firstAttempt false past = some (some k, after) ∧ leave k ∉ after

theorem rejected_append (rejects : Bool) (past more : List Occurrence) :
    rejected rejects (past ++ more) = rejected (rejected rejects past) more := by
  fun_induction rejected rejects past with
  | case1 => rfl
  | case2 _ on rest ih => exact ih
  | case3 rejects who rest ih => exact ih
  | case4 rejects k rest ih => exact ih

theorem firstAttempt_append_of_some {rejects : Bool} {past : List Occurrence} {who : Option Nat}
    {after : List Occurrence} (first : firstAttempt rejects past = some (who, after)) (more : List Occurrence) :
    firstAttempt rejects (past ++ more) = some (who, after ++ more) := by
  fun_induction firstAttempt rejects past with
  | case1 => cases first
  | case2 _ on rest ih => exact ih first
  | case3 who' rest ih => exact ih first
  | case4 rejects who' rest accepts =>
      cases first
      rw [List.cons_append, firstAttempt, if_neg accepts]
  | case5 rejects k rest ih => exact ih first

theorem firstAttempt_append_of_none {rejects : Bool} {past : List Occurrence}
    (first : firstAttempt rejects past = none) (more : List Occurrence) :
    firstAttempt rejects (past ++ more) = firstAttempt (rejected rejects past) more := by
  fun_induction firstAttempt rejects past with
  | case1 => rfl
  | case2 _ on rest ih => exact ih first
  | case3 who rest ih => exact ih first
  | case4 => cases first
  | case5 rejects k rest ih => exact ih first

theorem firstAttempt_append_isSome (rejects : Bool) (past more : List Occurrence) :
    (firstAttempt rejects (past ++ more)).isSome =
      ((firstAttempt rejects past).isSome || (firstAttempt (rejected rejects past) more).isSome) := by
  cases first : firstAttempt rejects past with
  | none => rw [firstAttempt_append_of_none first, Option.isSome_none, Bool.false_or]
  | some found =>
      obtain ⟨who, after⟩ := found
      rw [firstAttempt_append_of_some first]
      rfl

theorem attempt_mem {rejects : Bool} {past : List Occurrence} {who : Option Nat} {after : List Occurrence}
    (first : firstAttempt rejects past = some (who, after)) : attempt who ∈ past := by
  fun_induction firstAttempt rejects past with
  | case1 => cases first
  | case2 _ on rest ih => exact List.mem_cons_of_mem _ (ih first)
  | case3 who' rest ih => exact List.mem_cons_of_mem _ (ih first)
  | case4 rejects who' rest accepts =>
      cases first
      exact List.mem_cons_self
  | case5 rejects k rest ih => exact List.mem_cons_of_mem _ (ih first)

variable {k : Nat} {past : List Occurrence}

theorem TrackedBy.append (h : TrackedBy k past) {more : List Occurrence} (stays : leave k ∉ more) :
    TrackedBy k (past ++ more) := by
  obtain ⟨after, first, kept⟩ := h
  refine ⟨after ++ more, firstAttempt_append_of_some first more, fun left => ?_⟩
  rcases List.mem_append.mp left with before | now
  · exact kept before
  · exact stays now

/-- Once the one that tracks the topic has left, nobody tracks it again. -/
theorem TrackedBy.not_after_leave (h : TrackedBy k past) {more : List Occurrence} (left : leave k ∈ more)
    (k' : Nat) : ¬ TrackedBy k' (past ++ more) := by
  rintro ⟨after', first', kept'⟩
  obtain ⟨after, first, _⟩ := h
  cases (firstAttempt_append_of_some first more).symm.trans first'
  exact kept' (List.mem_append_right after left)

theorem not_trackedBy_leave (k : Nat) (past : List Occurrence) : ¬ TrackedBy k (past ++ [leave k]) := by
  rintro ⟨after', first', kept'⟩
  cases first : firstAttempt false past with
  | none =>
      rw [firstAttempt_append_of_none first] at first'
      cases first'
  | some found =>
      obtain ⟨who, after⟩ := found
      cases (firstAttempt_append_of_some first [leave k]).symm.trans first'
      exact kept' (List.mem_append_right after List.mem_cons_self)

theorem trackedBy_attempt : TrackedBy k (past ++ [attempt (some k)]) ↔
    TrackedBy k past ∨ (firstAttempt false past = none ∧ rejected false past = false) := by
  constructor
  · rintro ⟨after', first', kept'⟩
    cases first : firstAttempt false past with
    | none =>
        rw [firstAttempt_append_of_none first, firstAttempt] at first'
        split at first'
        · cases first'
        · rename_i accepts
          exact .inr ⟨rfl, Bool.eq_false_iff.mpr accepts⟩
    | some found =>
        obtain ⟨who, after⟩ := found
        cases (firstAttempt_append_of_some first [attempt (some k)]).symm.trans first'
        exact .inl ⟨after, first, fun left => kept' (List.mem_append_left _ left)⟩
  · rintro (tracked | ⟨first, accepts⟩)
    · exact tracked.append (by simp)
    · refine ⟨[], ?_, List.not_mem_nil⟩
      rw [firstAttempt_append_of_none first, firstAttempt, accepts]
      rfl

/-- The occurrences that are not the observer's own do not matter to it. -/
theorem trackedBy_append_iff {more : List Occurrence} (joins : attempt (some k) ∉ more) (leaves : leave k ∉ more) :
    TrackedBy k (past ++ more) ↔ TrackedBy k past := by
  refine ⟨?_, fun tracked => tracked.append leaves⟩
  rintro ⟨after', first', kept'⟩
  cases first : firstAttempt false past with
  | none =>
      rw [firstAttempt_append_of_none first] at first'
      exact absurd (attempt_mem first') joins
  | some found =>
      obtain ⟨who, after⟩ := found
      cases (firstAttempt_append_of_some first more).symm.trans first'
      exact ⟨after, first, fun left => kept' (List.mem_append_left _ left)⟩

/-- What an event of one observer comes to for a topic. -/
def ofEvent (topic : String) (k : Nat) : Event → List Occurrence
  | .join t => if t = topic then [attempt (some k)] else []
  | .leave t => if t = topic then [leave k] else []
  | _ => []

/-- What a manager is asked for past its taggers. -/
def ofCommand (topic : String) : Command → List Occurrence
  | .register name .. => if name = TagName.delivery topic then [attempt none] else []
  | .rejectRegistrations on => [rejecting on]
  | _ => []

theorem ofEvent_other {k k' : Nat} (other : k' ≠ k) (topic : String) (e : Event) :
    attempt (some k') ∉ ofEvent topic k e ∧ leave k' ∉ ofEvent topic k e := by
  cases e with
  | join t => simp only [ofEvent]; split <;> simp [other]
  | leave t => simp only [ofEvent]; split <;> simp [other]
  | _ => simp [ofEvent]

theorem ofCommand_nobody (topic : String) (c : Command) (k : Nat) :
    attempt (some k) ∉ ofCommand topic c ∧ leave k ∉ ofCommand topic c := by
  cases c with
  | register name interval decay bump => simp only [ofCommand]; split <;> simp
  | _ => simp [ofCommand]

end Occurrence

open Manager (Action)
open Occurrence

/-! One manager. -/

/-- The manager has a topic's delivery tag registered just when the past has it so. -/
structure Keeps (m : Manager) (topic : String) (past : List Occurrence) : Prop where
  rejects : m.rejectsRegistrations = rejected false past
  registers : m.supportsDecay = true →
    m.registry.contains (TagName.delivery topic) = (firstAttempt false past).isSome

namespace Keeps

variable {m m' : Manager} {topic : String} {past : List Occurrence}

/-- Nothing is heard of what leaves the name and the switches alone. -/
theorem still (h : Keeps m topic past) (switches : m'.switches = m.switches)
    (registers : m'.registry.contains (TagName.delivery topic) = m.registry.contains (TagName.delivery topic)) :
    Keeps m' topic past := by
  obtain ⟨supported, _, rejects⟩ := Manager.switches_eq_iff.mp switches
  exact ⟨rejects.trans h.rejects, fun supports => registers.trans (h.registers (supported.symm.trans supports))⟩

theorem sameHandles (h : Keeps m topic past) (handles : m.SameHandles m') (switches : m'.switches = m.switches) :
    Keeps m' topic past := h.still switches (by rw [handles.registry])

/-- An attempt goes through when the manager admits the name. -/
theorem attempted (h : Keeps m topic past) (switches : m'.switches = m.switches)
    (registers : m'.registry.contains (TagName.delivery topic) =
      (m.admits (TagName.delivery topic) || m.registry.contains (TagName.delivery topic))) (who : Option Nat) :
    Keeps m' topic (past ++ [attempt who]) := by
  obtain ⟨alike, _, rejects⟩ := Manager.switches_eq_iff.mp switches
  have tried : (firstAttempt (rejected false past) [attempt who]).isSome = !rejected false past := by
    cases rejected false past <;> rfl
  refine ⟨by rw [rejected_append]; exact rejects.trans h.rejects, fun supports => ?_⟩
  have supported : m.supportsDecay = true := alike.symm.trans supports
  rw [registers, firstAttempt_append_isSome, tried, ← h.registers supported, ← h.rejects, Manager.admits, supported]
  cases m.rejectsRegistrations <;> cases m.registry.contains (TagName.delivery topic) <;> rfl

theorem event {t : Tagger} (h : Keeps m topic past) (alike : t.supportsDecay = m.supportsDecay) (k : Nat)
    (e : Event) : Keeps (m.run (t.requests e)) topic (past ++ ofEvent topic k e) := by
  have switches := t.requests_switches m e
  cases e with
  | join topic' =>
      have registers := t.join_registers m topic' alike topic
      rw [Tagger.join_manager] at registers
      by_cases same : topic' = topic
      · subst same
        rw [ofEvent, if_pos rfl]
        exact h.attempted switches (by simpa using registers) (some k)
      · rw [ofEvent, if_neg same, List.append_nil]
        refine h.still switches ?_
        rw [registers, decide_eq_false (Ne.symm same), Bool.false_and, Bool.false_or]
  | leave topic' =>
      have left : firstAttempt (rejected false past) (ofEvent topic k (.leave topic')) = none ∧
          rejected (rejected false past) (ofEvent topic k (.leave topic')) = rejected false past := by
        rw [ofEvent]
        split <;> exact ⟨rfl, rfl⟩
      refine ⟨by rw [rejected_append, left.2]; exact h.rejects, fun supports => ?_⟩
      rw [firstAttempt_append_isSome, left.1, Option.isSome_none, Bool.or_false]
      exact h.registers supports
  | _ =>
      show Keeps _ topic (past ++ [])
      rw [List.append_nil]
      exact h.sameHandles (t.requests_sameHandles m fun _ same => by cases same) switches

theorem command (h : Keeps m topic past) (c : Command) :
    Keeps (m.act c.action) topic (past ++ ofCommand topic c) := by
  have switches := m.act_switches c.action
  cases c with
  | register name interval decay bump =>
      have registers := m.register_contains name interval decay bump (TagName.delivery topic)
      by_cases same : name = TagName.delivery topic
      · subst same
        rw [ofCommand, if_pos rfl]
        exact h.attempted switches (by simpa [Command.action, Manager.act] using registers) none
      · rw [ofCommand, if_neg same, List.append_nil]
        refine h.still switches ?_
        rw [Command.action, Manager.act, registers, decide_eq_false (Ne.symm same), Bool.false_and, Bool.false_or]
  | rejectRegistrations on =>
      refine ⟨by rw [ofCommand, rejected_append]; rfl, fun supports => ?_⟩
      rw [ofCommand, firstAttempt_append_isSome, firstAttempt, firstAttempt, Option.isSome_none, Bool.or_false]
      exact h.registers supports
  | rejectTags on =>
      show Keeps _ topic (past ++ [])
      rw [List.append_nil]
      exact ⟨h.rejects, h.registers⟩
  | _ =>
      show Keeps _ topic (past ++ [])
      rw [List.append_nil]
      exact h.sameHandles (m.act_sameHandles rfl fun _ same => by cases same) switches

end Keeps

/-- A tagger's own events decide what it tracks, and the past what they come to. -/
theorem Keeps.isTracking_react {t : Tagger} {m : Manager} {topic : String} {past : List Occurrence}
    (h : Keeps m topic past) (alike : t.supportsDecay = m.supportsDecay) {k : Nat}
    (before : t.isTracking topic = true ↔ t.supportsDecay = true ∧ TrackedBy k past) (e : Event) :
    (t.react m e).tagger.isTracking topic = true ↔
      (t.react m e).tagger.supportsDecay = true ∧ TrackedBy k (past ++ ofEvent topic k e) := by
  rw [(t.react_terms m e).2.1]
  cases e with
  | join topic' =>
      rw [Tagger.react, t.join_isTracking m topic' alike topic, Bool.or_eq_true, before]
      by_cases same : topic' = topic
      · subst same
        have admitted : m.admits (TagName.delivery topic') = true ↔ t.supportsDecay = true ∧
            (firstAttempt false past = none ∧ rejected false past = false) := by
          rw [Manager.admits, ← alike]
          cases supports : t.supportsDecay with
          | false => simp
          | true => simp [h.rejects, h.registers (alike ▸ supports), and_comm]
        rw [ofEvent, if_pos rfl, decide_eq_true rfl, Bool.true_and, admitted, trackedBy_attempt, ← and_or_left, or_comm]
      · rw [ofEvent, if_neg same, List.append_nil, decide_eq_false (Ne.symm same), Bool.false_and]
        simp only [Bool.false_eq_true, false_or]
  | leave topic' =>
      rw [Tagger.react, t.leave_isTracking m topic' topic]
      by_cases same : topic' = topic
      · subst same
        simp [ofEvent, not_trackedBy_leave]
      · rw [ofEvent, if_neg same, List.append_nil, decide_eq_false (Ne.symm same), Bool.not_false, Bool.true_and,
          before]
  | _ =>
      rw [t.react_tagger m (fun _ same => by cases same) fun _ same => by cases same]
      show _ ↔ _ ∧ TrackedBy k (past ++ [])
      rw [List.append_nil, before]

/-! The session. -/

namespace World

/-- The manager that an observer tags on. -/
def managerOf? (w : World) (k : Nat) : Option Nat :=
  match w.observers[k]? with
  | some (.tagger j _) => some j
  | _ => none

def tracks (w : World) (k : Nat) (topic : String) : Bool := (w.tagger? k).any (·.isTracking topic)

/-- What an observer's turn comes to for a topic at a manager. -/
def heard (w : World) (j : Nat) (topic : String) (event : Event) (k : Nat) : List Occurrence :=
  if w.managerOf? k = some j then ofEvent topic k event else []

/-- What a step comes to for a topic at a manager. -/
def occurrences (w : World) (j : Nat) (topic : String) : Step → List Occurrence
  | .event (.one k) event => w.heard j topic event k
  | .event .all event => (List.range w.observers.length).flatMap (w.heard j topic event)
  | .command i c => if i = j then ofCommand topic c else []
  | .bumpDelivery .. | .askTagger .. | .askManager .. | .useHandle .. => []

theorem managerOf?_eq_some_iff {w : World} {k j : Nat} :
    w.managerOf? k = some j ↔ ∃ t, w.observers[k]? = some (.tagger j t) := by
  unfold managerOf?
  cases w.observers[k]? with
  | none => simp
  | some observer => cases observer <;> simp [eq_comm]

/-- An observer's turn: a tagger reacts at its manager, and of the others nothing is heard. -/
theorem Sound.notify_cases {w : World} (h : w.Sound) (event : Event) (k : Nat) :
    (∃ i t m, w.observers[k]? = some (.tagger i t) ∧ w.manager? i = some m ∧ t.supportsDecay = m.supportsDecay ∧
      (w.notify event k).1.observers = w.observers.set k (.tagger i (t.react m event).tagger)) ∨
    (w.managerOf? k = none ∧ (w.notify event k).1 = w) := by
  rcases h.turn event k with ⟨i, t, m, found, seat, _, alike, after⟩ | ⟨silent, same⟩
  · exact .inl ⟨i, t, m, found, seat, alike, by rw [after]; rfl⟩
  · refine .inr ⟨Option.eq_none_iff_forall_ne_some.mpr fun j placed => ?_, by rw [same]⟩
    obtain ⟨t, found⟩ := managerOf?_eq_some_iff.mp placed
    exact silent j t found

theorem Sound.notify_managerOf? {w : World} (h : w.Sound) (event : Event) (k k' : Nat) :
    (w.notify event k).1.managerOf? k' = w.managerOf? k' := by
  by_cases other : k = k'
  · subst other
    rcases h.notify_cases event k with ⟨i, t, m, found, _, _, observers⟩ | ⟨_, same⟩
    · have own : (w.notify event k).1.observers[k]? = some (.tagger i (t.react m event).tagger) := by
        rw [observers, List.getElem?_set_self (List.getElem?_eq_some_iff.mp found).1]
      rw [managerOf?_eq_some_iff.mpr ⟨t, found⟩]
      exact managerOf?_eq_some_iff.mpr ⟨_, own⟩
    · rw [same]
  · rw [managerOf?, notify_observers_ne w event other]
    rfl

/-- The managers are as the past has it for a topic, and so are the taggers on one of them. -/
structure Settled (start w : World) (j : Nat) (topic : String) (past : List Occurrence) : Prop where
  sound : w.Sound
  size : w.observers.length = start.observers.length
  places : ∀ k, w.managerOf? k = start.managerOf? k
  keeps : ∀ m, w.manager? j = some m → Keeps m topic past
  tracked : ∀ k t, w.observers[k]? = some (.tagger j t) →
    (t.isTracking topic = true ↔ t.supportsDecay = true ∧ TrackedBy k past)

variable {start w : World} {j : Nat} {topic : String} {past : List Occurrence}

theorem Settled.keeps_notify (h : Settled start w j topic past) (event : Event) (k : Nat) {n : Manager}
    (seated : (w.notify event k).1.manager? j = some n) : Keeps n topic (past ++ start.heard j topic event k) := by
  rw [heard, ← h.places k]
  rcases h.sound.notify_cases event k with ⟨i, t, m, found, seat, alike, _⟩ | ⟨nobody, same⟩
  · rw [notify_manager?, eventRequests, found, Option.elim_some, Observer.requests] at seated
    obtain ⟨before, seat', rfl⟩ := Option.map_eq_some_iff.mp seated
    rw [managerOf?_eq_some_iff.mpr ⟨t, found⟩]
    by_cases here : i = j
    · subst here
      cases Option.some.inj (seat.symm.trans seat')
      rw [if_pos rfl, if_pos rfl]
      exact (h.keeps m seat).event alike k event
    · rw [if_neg here, if_neg fun same => here (Option.some.inj same), List.append_nil]
      exact h.keeps before seat'
  · rw [same] at seated
    rw [nobody, if_neg (Option.some_ne_none j).symm, List.append_nil]
    exact h.keeps n seated

theorem Settled.tracked_notify (h : Settled start w j topic past) (event : Event) (k : Nat) {k' : Nat} {t' : Tagger}
    (found' : (w.notify event k).1.observers[k']? = some (.tagger j t')) :
    t'.isTracking topic = true ↔
      t'.supportsDecay = true ∧ TrackedBy k' (past ++ start.heard j topic event k) := by
  by_cases other : k = k'
  · subst other
    rw [heard, ← h.places k]
    rcases h.sound.notify_cases event k with ⟨i, t, m, found, seat, alike, observers⟩ | ⟨nobody, same⟩
    · rw [observers, List.getElem?_set_self (List.getElem?_eq_some_iff.mp found).1] at found'
      cases Option.some.inj found'
      rw [if_pos (managerOf?_eq_some_iff.mpr ⟨t, found⟩)]
      exact (h.keeps m seat).isTracking_react alike (h.tracked k t found) event
    · rw [same] at found'
      rw [nobody, if_neg (Option.some_ne_none j).symm, List.append_nil]
      exact h.tracked k t' found'
  · rw [notify_observers_ne w event other] at found'
    rw [h.tracked k' t' found', heard]
    split
    · obtain ⟨joins, leaves⟩ := ofEvent_other (Ne.symm other) topic event
      rw [trackedBy_append_iff joins leaves]
    · rw [List.append_nil]

theorem Settled.notify (h : Settled start w j topic past) (event : Event) (k : Nat) :
    Settled start (w.notify event k).1 j topic (past ++ start.heard j topic event k) where
  sound := notify_sound h.sound event k
  size := (w.notify_length event k).trans h.size
  places := fun k' => (h.sound.notify_managerOf? event k k').trans (h.places k')
  keeps := fun _ seated => h.keeps_notify event k seated
  tracked := fun _ _ found => h.tracked_notify event k found

theorem Settled.notifyEach (h : Settled start w j topic past) (event : Event) (observers : List Nat) :
    Settled start (w.notifyEach event observers).1 j topic
      (past ++ observers.flatMap (start.heard j topic event)) := by
  rw [notifyEach_fst]
  induction observers generalizing w past with
  | nil =>
      rw [List.flatMap_nil, List.append_nil]
      exact h
  | cons k observers ih =>
      rw [List.flatMap_cons, ← List.append_assoc]
      exact ih (h.notify event k)

/-- A step that is no event leaves the taggers as they are. -/
theorem Settled.quiet (h : Settled start w j topic past) {s : Step} (quiet : ∀ target event, s ≠ .event target event)
    {more : List Occurrence} (nobody : ∀ k, attempt (some k) ∉ more ∧ leave k ∉ more)
    (keeps : ∀ m, w.manager? j = some m → Keeps (m.run (w.requests j s)) topic (past ++ more)) :
    Settled start (w.step s).world j topic (past ++ more) := by
  have observers := step_observers w quiet
  refine ⟨step_sound h.sound s, by rw [observers, h.size], fun k => ?_, fun n seated => ?_, fun k t found => ?_⟩
  · rw [managerOf?, observers]
    exact h.places k
  · rw [step_manager?] at seated
    obtain ⟨m, seat, rfl⟩ := Option.map_eq_some_iff.mp seated
    exact keeps m seat
  · rw [observers] at found
    rw [h.tracked k t found, trackedBy_append_iff (nobody k).1 (nobody k).2]

theorem Settled.step (h : Settled start w j topic past) {s : Step} (unclosed : ∀ handle, s ≠ .useHandle handle .close) :
    Settled start (w.step s).world j topic (past ++ start.occurrences j topic s) := by
  have unheard {s : Step} (quiet : ∀ target event, s ≠ .event target event)
      (still : ∀ m, w.manager? j = some m →
        m.SameHandles (m.run (w.requests j s)) ∧ (m.run (w.requests j s)).switches = m.switches) :
      Settled start (w.step s).world j topic (past ++ []) := by
    refine h.quiet quiet (by simp) fun m seat => ?_
    rw [List.append_nil]
    exact (h.keeps m seat).sameHandles (still m seat).1 (still m seat).2
  cases s with
  | event target event =>
      cases target with
      | one k => exact h.notify event k
      | all =>
          rw [occurrences, ← h.size]
          exact h.notifyEach event (List.range w.observers.length)
  | command i c =>
      simp only [occurrences]
      by_cases here : i = j
      · rw [if_pos here]
        refine h.quiet (fun _ _ same => by cases same) (ofCommand_nobody topic c) fun m seat => ?_
        rw [requests, if_pos here]
        exact (h.keeps m seat).command c
      · rw [if_neg here]
        refine unheard (fun _ _ same => by cases same) fun m _ => ?_
        rw [requests, if_neg here]
        exact ⟨.refl m, rfl⟩
  | bumpDelivery k peer topic' =>
      refine unheard (fun _ _ same => by cases same) fun m _ => ?_
      simp only [requests]
      split
      · split
        · rename_i t _ _
          exact ⟨t.bumpRequest_sameHandles m peer topic',
            Tagger.Asks.switches (t.bumpRequest_asks ⟨peer, none, [], []⟩ topic') m⟩
        · exact ⟨.refl m, rfl⟩
      · exact ⟨.refl m, rfl⟩
  | useHandle handle use =>
      refine unheard (fun _ _ same => by cases same) fun m _ => ?_
      simp only [requests]
      split
      · split
        · cases use with
          | bump peer delta => exact ⟨m.bump_sameHandles _ peer delta, m.act_switches (.bump _ peer delta)⟩
          | remove peer => exact ⟨m.remove_sameHandles _ peer, m.act_switches (.remove _ peer)⟩
          | close => exact absurd rfl (unclosed handle)
          | name => exact ⟨.refl m, rfl⟩
          | interval => exact ⟨.refl m, rfl⟩
        · exact ⟨.refl m, rfl⟩
      · exact ⟨.refl m, rfl⟩
  | askTagger k question => exact unheard (fun _ _ same => by cases same) fun m _ => ⟨.refl m, rfl⟩
  | askManager i question => exact unheard (fun _ _ same => by cases same) fun m _ => ⟨.refl m, rfl⟩

theorem Settled.run (h : Settled start w j topic past) {steps : List Step}
    (unclosed : ∀ handle, .useHandle handle .close ∉ steps) :
    Settled start (w.run steps) j topic (past ++ steps.flatMap (start.occurrences j topic)) := by
  induction steps generalizing w past with
  | nil =>
      rw [List.flatMap_nil, List.append_nil]
      exact h
  | cons s steps ih =>
      rw [run_cons, List.flatMap_cons, ← List.append_assoc]
      refine ih (h.step fun handle same => unclosed handle (same ▸ List.mem_cons_self)) fun handle later => ?_
      exact unclosed handle (List.mem_cons_of_mem s later)

/-! From the start. -/

theorem opened_untracked {kinds : List Kind} {openings : List Opening} {k j : Nat} {t : Tagger}
    (found : (opened kinds openings).observers[k]? = some (.tagger j t)) : t.tracked = ∅ := by
  revert k j t
  refine openWith_induction (P := fun w => ∀ {k j : Nat} {t : Tagger}, w.observers[k]? = some (.tagger j t) →
    t.tracked = ∅) (fun w opening h k j t found => ?_) (fun found => by cases found) openings
  rcases w.addObserver_cases opening with silent | ⟨i, t', m, _, untracked, _, tagger⟩
  · rw [silent] at found
    rcases Manager.getElem?_concat_eq_some_iff.mp found with before | ⟨_, last⟩
    · exact h before
    · cases last
  · rw [tagger] at found
    rcases Manager.getElem?_concat_eq_some_iff.mp found with before | ⟨_, last⟩
    · exact h before
    · cases last
      exact untracked

theorem opened_settled (kinds : List Kind) (openings : List Opening) (j : Nat) (topic : String) :
    Settled (opened kinds openings) (opened kinds openings) j topic [] where
  sound := opened_sound kinds openings
  size := rfl
  places := fun _ => rfl
  keeps := fun m seat => by
    obtain ⟨supportsDecay, rfl⟩ := opened_manager? seat
    exact ⟨rfl, fun _ => rfl⟩
  tracked := fun k t found => by
    have untracked : t.isTracking topic = false := by
      rw [Tagger.isTracking, opened_untracked found]
      rfl
    rw [untracked]
    constructor
    · intro same
      cases same
    · rintro ⟨_, _, first, _⟩
      cases first

theorem tracks_eq_true_iff {w : World} {k : Nat} {topic : String} : w.tracks k topic = true ↔
    ∃ j t, w.observers[k]? = some (.tagger j t) ∧ t.isTracking topic = true := by
  unfold tracks tagger?
  cases w.observers[k]? with
  | none => simp
  | some observer => cases observer <;> simp

theorem tracks_run_iff {kinds : List Kind} {openings : List Opening} {steps : List Step}
    (unclosed : ∀ handle, .useHandle handle .close ∉ steps) (i : Nat) (topic : String) :
    ((opened kinds openings).run steps).tracks i topic = true ↔
      ∃ j, (opened kinds openings).managerOf? i = some j ∧ kinds[j]? = some .decaying ∧
        TrackedBy i (steps.flatMap ((opened kinds openings).occurrences j topic)) := by
  have settled (j : Nat) := (opened_settled kinds openings j topic).run unclosed
  have supports {j : Nat} {t : Tagger}
      (found : ((opened kinds openings).run steps).observers[i]? = some (.tagger j t)) :
      t.supportsDecay = true ↔ kinds[j]? = some .decaying := by
    obtain ⟨m, seat, _, alike⟩ := (settled j).sound i j t found
    rw [run_manager?, opened_manager?_eq, Option.map_map] at seat
    obtain ⟨kind, made, rfl⟩ := Option.map_eq_some_iff.mp seat
    rw [alike, made, Option.some.injEq]
    exact (congrArg (· = true) (Manager.run_supportsDecay _ _)).to_iff.trans decide_eq_true_iff
  rw [tracks_eq_true_iff]
  constructor
  · rintro ⟨j, t, found, tracking⟩
    obtain ⟨supported, tracked⟩ := ((settled j).tracked i t found).mp tracking
    refine ⟨j, ?_, (supports found).mp supported, tracked⟩
    rw [← (settled j).places i, managerOf?_eq_some_iff]
    exact ⟨t, found⟩
  · rintro ⟨j, placed, decaying, tracked⟩
    rw [← (settled j).places i, managerOf?_eq_some_iff] at placed
    obtain ⟨t, found⟩ := placed
    exact ⟨j, t, found, ((settled j).tracked i t found).mpr ⟨(supports found).mpr decaying, tracked⟩⟩

theorem leave_not_mem_join (w : World) (j : Nat) (topic topic' : String) (target : Target) (i : Nat) :
    leave i ∉ w.occurrences j topic (.event target (.join topic')) := by
  have turn (k : Nat) : leave i ∉ w.heard j topic (.join topic') k := by
    simp only [heard, ofEvent]
    split
    · split <;> simp
    · exact List.not_mem_nil
  cases target with
  | one k => exact turn k
  | all =>
      intro left
      obtain ⟨k, _, heard⟩ := List.mem_flatMap.mp left
      exact turn k heard

theorem leave_mem_leave {w : World} {i j : Nat} (placed : w.managerOf? i = some j) (topic : String) {target : Target}
    (reaches : target = .one i ∨ target = .all) : leave i ∈ w.occurrences j topic (.event target (.leave topic)) := by
  have turn : leave i ∈ w.heard j topic (.leave topic) i := by
    rw [heard, if_pos placed, ofEvent, if_pos rfl]
    exact List.mem_singleton_self _
  rcases reaches with rfl | rfl
  · exact turn
  · obtain ⟨t, found⟩ := managerOf?_eq_some_iff.mp placed
    exact List.mem_flatMap.mpr ⟨i, List.mem_range.mpr (List.getElem?_eq_some_iff.mp found).1, turn⟩

/-- While no handle is closed, a tagger tracks a topic just when its manager supports decay,
the first attempt to register the topic's delivery tag there while registrations were accepted
was its own join, and it has not left since. So no join, its own or another's, makes it lose
the topic; and when it leaves, no tagger on that manager ever tracks the topic again. -/
theorem tracks_iff_first_to_register (kinds : List Kind) (openings : List Opening) {steps : List Step}
    (unclosed : ∀ handle, .useHandle handle .close ∉ steps) (i : Nat) (topic : String) :
    let start := opened kinds openings
    let w := start.run steps
    (w.tracks i topic = true ↔ ∃ j, start.managerOf? i = some j ∧ kinds[j]? = some .decaying ∧
      ∃ after, firstAttempt false (steps.flatMap (start.occurrences j topic)) = some (some i, after) ∧
        leave i ∉ after) ∧
    (w.tracks i topic = true → ∀ target topic',
      (w.step (.event target (.join topic'))).world.tracks i topic = true) ∧
    (w.tracks i topic = true → ∀ target, target = .one i ∨ target = .all → ∀ later : List Step,
      (∀ handle, .useHandle handle .close ∉ later) → ∀ k, start.managerOf? k = start.managerOf? i →
        ((w.step (.event target (.leave topic))).world.run later).tracks k topic = false) := by
  intro start w
  refine ⟨tracks_run_iff unclosed i topic, fun tracks target topic' => ?_,
    fun tracks target reaches later shuts k same => ?_⟩
  · have next : (w.step (.event target (.join topic'))).world = start.run (steps ++ [.event target (.join topic')]) :=
      (run_append start steps [.event target (.join topic')]).symm
    obtain ⟨j, placed, decaying, tracked⟩ := (tracks_run_iff unclosed i topic).mp tracks
    rw [next, tracks_run_iff (by simpa using unclosed)]
    refine ⟨j, placed, decaying, ?_⟩
    rw [List.flatMap_append, List.flatMap_singleton]
    exact tracked.append (start.leave_not_mem_join j topic topic' target i)
  · have next : (w.step (.event target (.leave topic))).world.run later =
        start.run (steps ++ .event target (.leave topic) :: later) :=
      (run_append start steps (.event target (.leave topic) :: later)).symm
    obtain ⟨j, placed, _, tracked⟩ := (tracks_run_iff unclosed i topic).mp tracks
    rw [Bool.eq_false_iff, next, Ne, tracks_run_iff fun handle => by simpa using ⟨unclosed handle, shuts handle⟩]
    rintro ⟨j', placed', _, tracked'⟩
    cases (placed'.symm.trans same).trans placed
    rw [List.flatMap_append, List.flatMap_cons] at tracked'
    exact tracked.not_after_leave (List.mem_append_left _ (leave_mem_leave placed topic reaches)) k tracked'

/-- A join that was rejected does not count: the other tagger's later one does, until all of
them leave. Then the join that was rejected at first fails for good. -/
theorem rejected_join_comes_second :
    let openings : List Opening := [.tagger 0 .default [], .tagger 0 .default [], .tagger 1 .default []]
    let steps : List Step := [.command 0 (.rejectRegistrations true), .event (.one 0) (.join "a"),
      .command 0 (.rejectRegistrations false), .event (.one 1) (.join "a"), .event .all (.join "a"),
      .useHandle 0 .name, .event (.one 0) (.leave "a"), .command 0 (.advance 2)]
    let w := (opened [.decaying, .withoutDecay] openings).run steps
    (∀ handle, .useHandle handle .close ∉ steps) ∧
    w.tracks 1 "a" = true ∧ w.tracks 0 "a" = false ∧ w.tracks 2 "a" = false ∧
    ((w.step (.event .all (.leave "a"))).world.run [.event (.one 0) (.join "a")]).tracks 0 "a" = false := by
  intro openings steps w
  have unclosed : ∀ handle, .useHandle handle .close ∉ steps := by simp [steps]
  have exactly := tracks_iff_first_to_register [.decaying, .withoutDecay] openings unclosed
  have second : w.tracks 1 "a" = true :=
    (exactly 1 "a").1.mpr ⟨0, by decide +kernel, rfl, [.attempt (some 0), .attempt (some 1), .leave 0],
      by decide +kernel, by decide⟩
  refine ⟨unclosed, second, ?_, ?_, ?_⟩
  · rw [Bool.eq_false_iff]
    intro tracks
    obtain ⟨j, placed, _, after, first, _⟩ := (exactly 0 "a").1.mp tracks
    cases (show some 0 = some j from placed)
    have who : _ = some (some 0) := congrArg (Option.map Prod.fst) first
    revert who
    decide +kernel
  · rw [Bool.eq_false_iff]
    intro tracks
    obtain ⟨j, placed, decaying, _⟩ := (exactly 2 "a").1.mp tracks
    cases (show some 1 = some j from placed)
    cases decaying
  · exact (exactly 1 "a").2.2 second .all (.inr rfl) [.event (.one 0) (.join "a")] (by simp) 0 (by decide +kernel)

end World
end PeerTags.Session
