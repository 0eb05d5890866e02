import Mathlib.Algebra.BigOperators.Group.List.Basic
import Mathlib.Data.List.Perm.Subperm
import PeerTags.Proofs.Session.Turns
/-! How many topics are tracked. A tagger that reacts counts each topic that it begins to
track and takes off each that it stops tracking, and nothing else: a registration that
replaces the decaying tag of a tracked topic counts for nothing. So the tally of a session
has, at any time, the number of topics that its taggers track between them. -/
namespace PeerTags

namespace Table

variable {κ ν μ : Type} [Ord κ] [Std.LawfulEqOrd κ]

/-- One table has one key more than another. -/
theorem length_keys_succ {s : Table κ ν} {t : Table κ μ} {k : κ} (new : s.contains k = false)
    (present : t.contains k = true) (others : ∀ k', k' ≠ k → t.contains k' = s.contains k') :
    t.keys.length = s.keys.length + 1 := by
  have absent : k ∉ s.keys := fun member => Bool.false_ne_true (new.symm.trans (mem_keys_iff_contains.mp member))
  have members (k' : κ) : k' ∈ t.keys ↔ k' ∈ k :: s.keys := by
    rw [List.mem_cons, mem_keys_iff_contains, mem_keys_iff_contains]
    by_cases same : k' = k
    · subst same
      simp [present]
    · simp [same, others k' same]
  have perm : t.keys.Perm (k :: s.keys) :=
    (List.perm_ext_iff_of_nodup t.nodup_keys (List.nodup_cons.mpr ⟨absent, s.nodup_keys⟩)).mpr members
  exact perm.length_eq

end Table

namespace Tagger

theorem settled_trackedTopics (t : Tagger) (peer : Peer) (tag : String) {tally : Tally}
    (none : tally.trackedTopics = 0) (entry : LogEntry) (r : Manager × Except Manager.Error Unit) :
    (settled t peer tag tally entry r).tally.trackedTopics = 0 := by
  rcases r with ⟨after, _ | _⟩
  · rfl
  · exact none

theorem join_trackedTopics (t : Tagger) (m : Manager) (topic : String) (alike : t.supportsDecay = m.supportsDecay) :
    ((t.join m topic).tagger.trackedTopics.length : Int) =
      t.trackedTopics.length + (t.join m topic).tally.trackedTopics := by
  rcases t.join_cases m topic alike with ⟨_, after, counted⟩ | ⟨_, after, _, counted⟩
  · rw [after, counted]
    cases tracking : t.isTracking topic with
    | true =>
        -- the topic has a new decaying tag in place of one that was closed
        have same (topic' : String) : (t.tracked.insert topic m.issued.length).contains topic' =
            t.tracked.contains topic' := by
          refine (t.isTracking_insert topic m.issued.length topic').trans ?_
          by_cases own : topic' = topic
          · subst own
            rw [tracking, Bool.or_true]
            exact tracking.symm
          · rw [decide_eq_false own, Bool.false_or]
            rfl
        simp only [trackedTopics, Table.keys_eq_of_contains same, if_true, add_zero]
    | false =>
        have more := Table.length_keys_succ (s := t.tracked) (t := t.tracked.insert topic m.issued.length) tracking
          ((t.isTracking_insert topic m.issued.length topic).trans (by simp)) fun topic' other =>
            (t.isTracking_insert topic m.issued.length topic').trans (by simp [other, isTracking])
        simp only [trackedTopics, more, Bool.false_eq_true, if_false]
        rfl
  · rw [after, counted]
    split <;> exact (add_zero _).symm

theorem leave_trackedTopics (t : Tagger) (m : Manager) (topic : String) :
    ((t.leave m topic).tagger.trackedTopics.length : Int) =
      t.trackedTopics.length + (t.leave m topic).tally.trackedTopics := by
  rw [leave_tally]
  cases tracking : t.isTracking topic with
  | true =>
      have less := Table.length_keys_succ (s := (t.leave m topic).tagger.tracked) (t := t.tracked)
        ((t.leave_isTracking m topic topic).trans (by simp)) tracking fun topic' other =>
          ((t.leave_isTracking m topic topic').trans (by simp [other, isTracking])).symm
      simp only [trackedTopics, less, if_true]
      omega
  | false =>
      have same : (t.leave m topic).tagger = t := by simp [leave, tracking, Reaction.nothing]
      rw [same]
      exact (add_zero _).symm

/-- A reaction counts the topics that it adds to those tracked, or takes from them. -/
theorem react_trackedTopics {t : Tagger} {m : Manager} (holds : t.Holds m) (alike : t.supportsDecay = m.supportsDecay)
    (e : Event) : ((t.react m e).tagger.trackedTopics.length : Int) =
      t.trackedTopics.length + (t.react m e).tally.trackedTopics := by
  have still (joins : ∀ topic, e ≠ .join topic) (leaves : ∀ topic, e ≠ .leave topic)
      (counted : (t.react m e).tally.trackedTopics = 0) : ((t.react m e).tagger.trackedTopics.length : Int) =
        t.trackedTopics.length + (t.react m e).tally.trackedTopics := by
    rw [t.react_tagger m joins leaves, counted, add_zero]
  cases e with
  | join topic => exact t.join_trackedTopics m topic alike
  | leave topic => exact t.leave_trackedTopics m topic
  | connect peer =>
      refine still (fun _ same => by cases same) (fun _ same => by cases same) ?_
      simp only [react, connect]
      split
      · exact t.settled_trackedTopics peer TagName.direct rfl _ _
      · rfl
  | graft peer topic =>
      refine still (fun _ same => by cases same) (fun _ same => by cases same) ?_
      exact t.settled_trackedTopics peer (TagName.mesh topic) rfl _ _
  | prune peer topic =>
      refine still (fun _ same => by cases same) (fun _ same => by cases same) ?_
      exact t.settled_trackedTopics peer (TagName.mesh topic) rfl _ _
  | deliver message =>
      refine still (fun _ same => by cases same) (fun _ same => by cases same) ?_
      rw [react, deliver_tally holds]
      rfl
  | _ => exact still (fun _ same => by cases same) (fun _ same => by cases same) rfl

end Tagger

namespace Session

/-- The topics that an observer tracks. -/
def Observer.trackedTopics : Observer → List String
  | .silent => []
  | .tagger _ t => t.trackedTopics

namespace World

/-- How many topics are tracked, each once for every tagger that tracks it. -/
def trackedTotal (w : World) : Nat := (w.observers.map fun o => o.trackedTopics.length).sum

/-- The tally has the number of topics that are tracked. -/
structure Gauged (w : World) : Prop where
  sound : w.Sound
  tallies : w.Tallies
  exact : w.counted.trackedTopics = w.trackedTotal

theorem Gauged.notify {w : World} (h : w.Gauged) (event : Event) (k : Nat) : (w.notify event k).1.Gauged where
  sound := notify_sound h.sound event k
  tallies := h.sound.notify_tallies h.tallies event k
  exact := by
    rcases h.sound.turn event k with ⟨j, t, m, found, _, holds, alike, after⟩ | ⟨_, same⟩
    · have own := Tagger.react_trackedTopics holds alike event
      have total : (w.reacted k j (t.react m event)).trackedTotal + t.trackedTopics.length =
          w.trackedTotal + (t.react m event).tagger.trackedTopics.length :=
        sum_map_set found (fun o => o.trackedTopics.length) (.tagger j (t.react m event).tagger)
      have counted : (w.counted + (t.react m event).tally).trackedTopics =
          w.counted.trackedTopics + (t.react m event).tally.trackedTopics := rfl
      simp only [after, h.tallies.counted_reacted found, counted, h.exact]
      omega
    · rw [same]
      exact h.exact

theorem Gauged.quiet {w : World} (h : w.Gauged) {s : Step} (quiet : ∀ target event, s ≠ .event target event) :
    (w.step s).world.Gauged where
  sound := step_sound h.sound s
  tallies := step_tallies h.tallies quiet
  exact := by
    rw [step_counted w quiet, trackedTotal, step_observers w quiet]
    exact h.exact

theorem opened_gauged (kinds : List Kind) (openings : List Opening) : (opened kinds openings).Gauged where
  sound := opened_sound kinds openings
  tallies := (opened_counted kinds openings).1
  exact := by
    have none (o : Observer) (member : o ∈ (opened kinds openings).observers) : o.trackedTopics.length = 0 := by
      obtain ⟨k, found⟩ := List.getElem?_of_mem member
      cases o with
      | silent => rfl
      | tagger j t =>
          rw [Observer.trackedTopics, Tagger.trackedTopics, opened_untracked found]
          rfl
    rw [(opened_counted kinds openings).2, trackedTotal, List.sum_eq_zero fun n member => ?_]
    · rfl
    · obtain ⟨o, listed, rfl⟩ := List.mem_map.mp member
      exact none o listed

/-- In every state of every session the number of tracked topics that the tally has is that of
the topics which the taggers track, each counted once for every tagger that tracks it. So it is
never negative. -/
theorem run_counts_tracked_topics (kinds : List Kind) (openings : List Opening) (steps : List Step) :
    let w := (opened kinds openings).run steps
    w.counted.trackedTopics = ((w.observers.map fun o => o.trackedTopics.length).sum : Nat) ∧
      0 ≤ w.counted.trackedTopics := by
  intro w
  have gauged : w.Gauged := run_induction (fun _ event k h => h.notify event k) (fun _ _ quiet h => h.quiet quiet)
    (opened_gauged kinds openings) steps
  refine ⟨gauged.exact, ?_⟩
  rw [gauged.exact]
  exact Int.natCast_nonneg _

/-- Joined again after its decaying tag was closed, a topic gets a new one and still counts once. -/
example :
    let w := (opened [.decaying] [.tagger 0 .default []]).run
      [.event (.one 0) (.join "a"), .useHandle 0 .close, .event (.one 0) (.join "a")]
    w.handles = [(0, 0), (0, 1)] ∧ w.counted.trackedTopics = 1 := by
  decide +kernel

end World
end Session
end PeerTags
