import PeerTags.Proofs.Manager.Footprint
/-! Whether a tag that was removed stays removed. The table forgets it, an open decaying tag of the
name does not: what that has for the peer it writes again when it decays. So a removal lasts
just when nothing would be left of that value after an interval. -/
namespace PeerTags
namespace Manager

/-- The action sets the tag: directly, or as a bump of a decaying tag of the name. -/
def Sets (m : Manager) (peer : Peer) (name : String) : Action → Prop
  | .tag p n _ => p = peer ∧ n = name
  | .bump number p _ => p = peer ∧ ∃ d, m.issued[number]? = some d ∧ d.name = name
  | _ => False

/-- No action of the run sets the tag when it is taken. -/
def Unset (m : Manager) (peer : Peer) (name : String) : List Action → Prop
  | [] => True
  | a :: rest => ¬ m.Sets peer name a ∧ (m.act a).Unset peer name rest

/-- Nothing that an open decaying tag of the name has for the peer survives an interval. -/
def Fading (m : Manager) (peer : Peer) (name : String) : Prop :=
  ∀ (number : Nat) (d : DecayingTag) (v : Amount), m.openTag number = .ok d → d.name = name →
    d.values.get? peer = some v → d.decay.next 0 v = none

/-- The peer does not have the tag and does not get it back by decay. -/
structure Cleared (m : Manager) (peer : Peer) (name : String) : Prop where
  shown : m.tagValue peer name = none
  fading : m.Fading peer name

section

variable {m m' : Manager} {peer : Peer} {name : String}

theorem Fading.of_issued (h : m.Fading peer name) (issued : m'.issued = m.issued) : m'.Fading peer name := by
  intro number d v found
  refine h number d v (openTag_eq_ok_iff.mpr ?_)
  rw [← issued]
  exact openTag_eq_ok_iff.mp found

/-- An open decaying tag takes new values, and those of the name have nothing new for the peer. -/
theorem Fading.setValues (h : m.Fading peer name) {number : Nat} {d : DecayingTag} (found : m.openTag number = .ok d)
    {values : Table Peer Amount} (issued : m'.issued = (m.setValues number values).issued)
    (kept : d.name = name → ∀ v, values.get? peer = some v → d.values.get? peer = some v) : m'.Fading peer name := by
  intro k e v opened named has
  obtain ⟨place, isOpen⟩ := openTag_eq_ok_iff.mp opened
  rw [issued, issued_setValues] at place
  split at place
  · rename_i own
    subst own
    rw [(openTag_eq_ok_iff.mp found).1, Option.map_some] at place
    cases place
    exact h k d v found named (kept named v has)
  · exact h k e v (openTag_eq_ok_iff.mpr ⟨place, isOpen⟩) named has

theorem Fading.register (h : m.Fading peer name) (n : String) (interval : Duration) (decay : Decay) (bump : Bump) :
    (m.register n interval decay bump).1.Fading peer name := by
  rcases register_cases m n interval decay bump with ⟨_, issued⟩ | ⟨e, refused⟩
  · rw [issued]
    intro number d v opened named has
    obtain ⟨place, isOpen⟩ := openTag_eq_ok_iff.mp opened
    rcases getElem?_concat_eq_some_iff.mp place with before | ⟨_, rfl⟩
    · exact h number d v (openTag_eq_ok_iff.mpr ⟨before, isOpen⟩) named has
    · cases has
  · rw [refused]
    exact h

theorem Cleared.bump (h : m.Cleared peer name) {number : Nat} {p : Peer} {delta : Amount}
    (other : ¬ m.Sets peer name (.bump number p delta)) : (m.bump number p delta).1.Cleared peer name := by
  cases found : m.openTag number with
  | error e =>
      rw [bump_of_error found]
      exact h
  | ok d =>
      have away : ¬ (p = peer ∧ d.name = name) := fun both => other ⟨both.1, d, (openTag_eq_ok_iff.mp found).1, both.2⟩
      have outside : ¬ (peer = p ∧ m.OpenAs number name) := fun both =>
        away ⟨both.1.symm, (openAs_of_openTag found).name_unique both.2⟩
      refine ⟨(bump_sameAt delta outside).shown.trans h.shown, ?_⟩
      have kept (value : Amount) (named : d.name = name) (v : Amount)
          (has : (d.values.insert p value).get? peer = some v) : d.values.get? peer = some v := by
        rwa [Table.get?_insert, if_neg fun same => away ⟨same.symm, named⟩] at has
      cases value : d.bump.apply ((d.values.get? p).getD 0) delta with
      | none =>
          rw [bump_of_crossed found value]
          exact h.fading.setValues found rfl (kept _)
      | some new => exact h.fading.setValues found (bump_rewrites found value).issued (kept new)

theorem Cleared.remove (h : m.Cleared peer name) (number : Nat) (p : Peer) :
    (m.remove number p).1.Cleared peer name := by
  cases found : m.openTag number with
  | error e =>
      rw [remove_of_error found]
      exact h
  | ok d =>
      refine ⟨?_, h.fading.setValues found (remove_rewrites found p).issued fun _ v has => ?_⟩
      · simp only [Manager.remove, found, tagValue_clearTag, tagValue_setValues, h.shown, ite_self]
      · rw [Table.get?_erase] at has
        split at has
        · cases has
        · exact has

theorem Cleared.close (h : m.Cleared peer name) (number : Nat) : (m.close number).1.Cleared peer name := by
  cases found : m.openTag number with
  | error e =>
      rw [close_of_error found]
      exact h
  | ok d =>
      refine ⟨by rw [tagValue_close found, h.shown, ite_self], fun k e v opened named has => ?_⟩
      obtain ⟨place, isOpen⟩ := openTag_eq_ok_iff.mp opened
      obtain ⟨tags, closed⟩ := close_of_ok found
      rw [closed, List.getElem?_set] at place
      split at place
      · split at place
        · cases place
          cases isOpen
        · cases place
      · exact h.fading k e v (openTag_eq_ok_iff.mpr ⟨place, isOpen⟩) named has

/-- An interval drops what fades, from the decaying tag and from the table. -/
theorem Cleared.decayStep (h : m.Cleared peer name) (number : Nat) : (m.decayStep number).1.Cleared peer name := by
  cases found : m.openTag number with
  | error e =>
      rw [decayStep_of_error found]
      exact h
  | ok d =>
      have gone (named : d.name = name) : (d.values.get? peer).bind (d.decay.next 0) = none :=
        Option.bind_eq_none_iff.mpr fun v has => h.fading number d v found named has
      refine ⟨?_, h.fading.setValues found (decayStep_rewrites found).issued fun named v has => ?_⟩
      · simp only [Manager.decayStep, found, tagValue_setValues]
        cases value : d.values.get? peer with
        | none =>
            refine (tagValue_foldl_settle_of_ne (fun _ e member same => ?_) m).trans h.shown
            have listed : (peer, e.2) ∈ d.values.entries := by
              rw [← same]
              exact member
            cases (Table.get?_eq_some_iff.mpr listed).symm.trans value
        | some v =>
            by_cases named : d.name = name
            · rw [← named, tagValue_foldl_settle_of_mem d.values.ordered (Table.get?_eq_some_iff.mp value)]
              exact h.fading number d v found named value
            · exact (tagValue_foldl_settle_of_ne (fun same => absurd same.symm named) m).trans h.shown
      · rw [decayed, Table.get?_filterMap, gone named] at has
        cases has

/-- What does not set the tag does not bring it back. -/
theorem act_cleared (h : m.Cleared peer name) {a : Action} (other : ¬ m.Sets peer name a) :
    (m.act a).Cleared peer name := by
  cases a with
  | tag p n value =>
      have outside : ¬ (peer = p ∧ name = n) := fun both => other ⟨both.1.symm, both.2.symm⟩
      exact ⟨(tag_sameAt value outside).shown.trans h.shown, h.fading.of_issued (act_issued_of_direct m rfl)⟩
  | untag p n =>
      refine ⟨?_, h.fading.of_issued (act_issued_of_direct m rfl)⟩
      simp only [act, tagValue_untag, h.shown, ite_self]
  | register n interval decay bump =>
      exact ⟨(register_sameAt n interval decay bump).shown.trans h.shown, h.fading.register n interval decay bump⟩
  | bump number p delta => exact h.bump other
  | remove number p => exact h.remove number p
  | close number => exact h.close number
  | advance intervals =>
      exact advance_induction (P := fun n => n.Cleared peer name) (fun n number cleared => cleared.decayStep number)
        h intervals
  | rejectTags on => exact ⟨h.shown, h.fading⟩
  | rejectRegistrations on => exact ⟨h.shown, h.fading⟩
  | clearCalls => exact ⟨h.shown, h.fading⟩

theorem run_cleared (h : m.Cleared peer name) {later : List Action} (unset : m.Unset peer name later) :
    (m.run later).Cleared peer name := by
  induction later generalizing m with
  | nil => exact h
  | cons a later ih => exact ih (act_cleared h unset.1) unset.2

/-! The other way about: what is left of a value after an interval is shown again. -/

theorem tagValue_decayStep_of_has {number : Nat} {d : DecayingTag} (found : m.openTag number = .ok d) {v : Amount}
    (has : d.values.get? peer = some v) : (m.decayStep number).1.tagValue peer d.name = d.decay.next 0 v := by
  simp only [Manager.decayStep, found, tagValue_setValues]
  exact tagValue_foldl_settle_of_mem d.values.ordered (Table.get?_eq_some_iff.mp has) m

theorem openTag_decayStep_of_ne {number k : Nat} (other : k ≠ number) :
    (m.decayStep number).1.openTag k = m.openTag k := by
  cases found : m.openTag number with
  | error e => rw [decayStep_of_error found]
  | ok d =>
      have place : (m.decayStep number).1.issued[k]? = m.issued[k]? := by
        rw [(decayStep_rewrites found).issued, issued_setValues, if_neg other]
      rw [openTag, place]
      rfl

/-- Intervals of other decaying tags leave the name alone. -/
theorem tagValue_foldl_decayStep_of_notMem (c : m.Consistent) {number : Nat} (isOpen : m.OpenAs number name)
    (handles : m.SameHandles m') {numbers : List Nat} (away : number ∉ numbers) :
    (numbers.foldl (fun m number => (m.decayStep number).1) m').tagValue peer name = m'.tagValue peer name := by
  induction numbers generalizing m' with
  | nil => rfl
  | cons k numbers ih =>
      have apart : ¬ m'.OpenAs k name := by
        intro open'
        cases c.number_unique (handles.openAs_iff.mp open') isOpen
        exact away List.mem_cons_self
      rw [List.foldl_cons, ih (handles.trans (decayStep_sameHandles m' k)) fun later => away (List.mem_cons_of_mem k later),
        tagValue_decayStep_other apart]

/-- An interval shows what is left of each value that an open decaying tag has, whatever the table
showed before. -/
theorem tagValue_decayAll_of_has (c : m.Consistent) {number : Nat} {d : DecayingTag} (found : m.openTag number = .ok d)
    {v : Amount} (has : d.values.get? peer = some v) {numbers : List Nat} (once : numbers.Nodup)
    (listed : number ∈ numbers) : (m.decayAll numbers).1.tagValue peer d.name = d.decay.next 0 v := by
  rw [decayAll_fst]
  induction numbers generalizing m with
  | nil => cases listed
  | cons k numbers ih =>
      obtain ⟨notLater, once⟩ := List.nodup_cons.mp once
      have same := decayStep_sameHandles m k
      rw [List.foldl_cons]
      by_cases first : k = number
      · subst first
        rw [tagValue_foldl_decayStep_of_notMem c (openAs_of_openTag found) same notLater,
          tagValue_decayStep_of_has found has]
      · have later : number ∈ numbers := (List.mem_cons.mp listed).resolve_left (Ne.symm first)
        exact ih (same.consistent c) ((openTag_decayStep_of_ne (Ne.symm first)).trans found) once later

theorem Consistent.tagValue_advance_one (c : m.Consistent) {number : Nat} {d : DecayingTag}
    (found : m.openTag number = .ok d) {v : Amount} (has : d.values.get? peer = some v) :
    (m.advance 1).1.tagValue peer d.name = d.decay.next 0 v :=
  tagValue_decayAll_of_has c found has c.nodup_openNumbers (c.mem_openNumbers (openAs_of_openTag found))

end

/-- A tag that was removed from a peer is gone, and an interval brings back what is left of the value
that an open decaying tag of the name has for the peer. So it stays away, until somebody sets
it, just when nothing is left of such a value. -/
theorem untag_lasts_iff (supportsDecay : Bool) (past : List Action) (peer : Peer) (name : String)
    (ok : (((new supportsDecay).run past).untag peer name).2 = .ok ()) :
    let m := (new supportsDecay).run past
    let after := (m.untag peer name).1
    after.tagValue peer name = none ∧
      (∀ number d v, m.openTag number = .ok d → d.name = name → d.values.get? peer = some v →
        (after.act (.advance 1)).tagValue peer name = d.decay.next 0 v) ∧
      ((∀ later, after.Unset peer name later → (after.run later).tagValue peer name = none) ↔ m.Fading peer name) := by
  intro m after
  have accepts : m.rejectsTags = false := by
    refine Bool.eq_false_iff.mpr fun rejects => ?_
    rw [untag_eq, if_pos rejects] at ok
    cases ok
  have gone : after.tagValue peer name = none := by
    simp only [after, tagValue_untag, accepts, Bool.false_eq_true, if_false, and_self, if_true]
  have issued : after.issued = m.issued := act_issued_of_direct m (a := .untag peer name) rfl
  have consistent : after.Consistent := (untag_sameHandles m peer name).consistent
    (run_consistent (new_consistent supportsDecay) past)
  have returns (number : Nat) (d : DecayingTag) (v : Amount) (found : m.openTag number = .ok d) (named : d.name = name)
      (has : d.values.get? peer = some v) : (after.act (.advance 1)).tagValue peer name = d.decay.next 0 v := by
    subst named
    have opened : after.openTag number = .ok d := by
      rw [openTag_eq_ok_iff, issued]
      exact openTag_eq_ok_iff.mp found
    exact consistent.tagValue_advance_one opened has
  refine ⟨gone, returns, fun lasts number d v found named has => ?_, fun fading later unset => ?_⟩
  · rw [← returns number d v found named has]
    exact lasts [.advance 1] ⟨id, trivial⟩
  · exact (run_cleared ⟨gone, fading.of_issued issued⟩ unset).shown

/-- A score of one does not survive an interval of a tag that decays by one, so a removal lasts. -/
theorem untagged_last_point_stays_away :
    let p : Peer := ⟨.identity, [], by decide⟩
    let m := (new true).run [.register "x" (.ofSecs 1) (.fixed 1) .sum, .bump 0 p 1]
    (m.untag p "x").2 = .ok () ∧
      ∀ later, (m.untag p "x").1.Unset p "x" later → ((m.untag p "x").1.run later).tagValue p "x" = none := by
  intro p m
  have ok : (m.untag p "x").2 = .ok () := rfl
  have spent : (m.issued.all fun d => (d.values.get? p).all fun v => (d.decay.next 0 v).isNone) = true := by
    decide +kernel
  have fading : m.Fading p "x" := by
    intro number d v found _ has
    have listed := List.mem_of_getElem? (openTag_eq_ok_iff.mp found).1
    simpa [has] using List.all_eq_true.mp spent d listed
  exact ⟨ok, (untag_lasts_iff true _ p "x" ok).2.2.mpr fading⟩

/-- A score of five does: after an interval the tag is back with four. -/
theorem untagged_score_returns : ¬ ∀ (past : List Action) (peer : Peer) (name : String) (later : List Action),
    let m := (new true).run past
    (m.untag peer name).2 = .ok () → (m.untag peer name).1.Unset peer name later →
      ((m.untag peer name).1.run later).tagValue peer name = none := by
  intro stays
  let p : Peer := ⟨.identity, [], by decide⟩
  have gone := stays [.register "x" (.ofSecs 1) (.fixed 1) .sum, .bump 0 p 5] p "x" [.advance 1] rfl ⟨id, trivial⟩
  have back : ((((new true).run [.register "x" (.ofSecs 1) (.fixed 1) .sum, .bump 0 p 5]).untag p "x").1.run
      [.advance 1]).tagValue p "x" = some 4 := by decide +kernel
  rw [back] at gone
  cases gone

end Manager
end PeerTags
