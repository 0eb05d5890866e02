import Mathlib.Logic.Function.Iterate
import PeerTags.Proofs.Manager.Registry
/-! The table against the values of the decaying tags. Both are written by each
bump, removal, interval and close, and they stay equal under every name that is
not also tagged directly, as long as no bump breaks off halfway. -/
namespace PeerTags
namespace Manager

/-- The value that the open decaying tag of a name has for a peer. -/
def held (m : Manager) (name : String) (peer : Peer) : Option Amount :=
  (m.registry.get? name).bind fun number => (m.issued[number]?).bind fun d => d.values.get? peer

/-- The table shows under this name what the open decaying tag of the name has, or nothing. -/
def Mirrors (m : Manager) (name : String) : Prop := ∀ peer, m.tagValue peer name = m.held name peer

theorem Consistent.held_eq {m : Manager} (c : m.Consistent) {number : Nat} {d : DecayingTag}
    (found : m.openTag number = .ok d) (peer : Peer) : m.held d.name peer = d.values.get? peer := by
  rw [held, (c d.name number).mpr (openAs_of_openTag found), Option.bind_some, (openTag_eq_ok_iff.mp found).1,
    Option.bind_some]

theorem Consistent.held_eq_none {m : Manager} (c : m.Consistent) {name : String}
    (free : ∀ number, ¬ m.OpenAs number name) (peer : Peer) : m.held name peer = none := by
  rw [held, c.get?_eq_none_iff.mpr fun ⟨number, isOpen⟩ => free number isOpen, Option.bind_none]

/-- Under a mirrored name the table agrees with every open tag, and is empty if there is none. -/
theorem Mirrors.agrees {m : Manager} {name : String} (h : m.Mirrors name) (c : m.Consistent) (peer : Peer) :
    (∀ (number : Nat) (d : DecayingTag), m.issued[number]? = some d → d.name = name → d.closed = false →
      m.tagValue peer name = d.values.get? peer) ∧
    ((∀ number, ¬ m.OpenAs number name) → m.tagValue peer name = none) := by
  constructor
  · rintro number d found rfl isOpen
    rw [h peer, c.held_eq (openTag_eq_ok_iff.mpr ⟨found, isOpen⟩)]
  · intro free
    rw [h peer, c.held_eq_none free]

theorem SameHandles.openTag {m m' : Manager} (h : m.SameHandles m') {number : Nat} {d : DecayingTag}
    (found : m.openTag number = .ok d) :
    ∃ d', m'.openTag number = .ok d' ∧ d'.name = d.name ∧ d'.decay = d.decay ∧ d'.bump = d.bump := by
  obtain ⟨inside, isOpen⟩ := openTag_eq_ok_iff.mp found
  obtain ⟨d', inside', later⟩ := h.continues inside
  obtain ⟨e, inside'', _, isOpen'⟩ := h.openAs_iff.mpr ⟨d, inside, rfl, isOpen⟩
  cases Option.some.inj (inside'.symm.trans inside'')
  exact ⟨d', openTag_eq_ok_iff.mpr ⟨inside', isOpen'⟩, later.name, later.decay, later.bump⟩

/-! The pair of a tag's values and its places in the table is written together. -/

theorem Rewrites.held_own {m m' : Manager} {number : Nat} {d : DecayingTag} {values : Table Peer Amount}
    (h : m.Rewrites number d values m') (c : m.Consistent) (peer : Peer) :
    m'.held d.name peer = values.get? peer := by
  have inside := (openTag_eq_ok_iff.mp h.found).1
  rw [held, h.registry, (c d.name number).mpr (openAs_of_openTag h.found), Option.bind_some, h.issued,
    issued_setValues, if_pos rfl, inside]
  rfl

theorem Rewrites.held_other {m m' : Manager} {number : Nat} {d : DecayingTag} {values : Table Peer Amount}
    (h : m.Rewrites number d values m') (c : m.Consistent) {name : String} (other : name ≠ d.name) (peer : Peer) :
    m'.held name peer = m.held name peer := by
  simp only [held, h.registry, h.issued, issued_setValues]
  cases named : m.registry.get? name with
  | none => rfl
  | some k =>
      have away : k ≠ number := by
        rintro rfl
        exact other (((c name k).mp named).name_unique (openAs_of_openTag h.found))
      rw [Option.bind_some, Option.bind_some, if_neg away]

theorem Rewrites.mirrors {m m' : Manager} {number : Nat} {d : DecayingTag} {values : Table Peer Amount}
    (h : m.Rewrites number d values m') (c : m.Consistent) {name : String} (mirrored : m.Mirrors name) :
    m'.Mirrors name := by
  intro peer
  by_cases own : name = d.name
  · subst own
    rw [h.held_own c]
    exact h.own peer ((mirrored peer).trans (c.held_eq h.found peer))
  · rw [h.others peer name own, h.held_other c own]
    exact mirrored peer

theorem tagValue_act_eq_of_not_tagged {m : Manager} {a : Action} (direct : a.tagged?.isSome) {name : String}
    (apart : a.tagged? ≠ some name) (peer : Peer) : (m.act a).tagValue peer name = m.tagValue peer name := by
  cases a with
  | tag peer' name' value =>
      have other : name ≠ name' := fun same => apart (congrArg some same.symm)
      simp only [act, tagValue_tag, other, and_false, if_false, ite_self]
  | untag peer' name' =>
      have other : name ≠ name' := fun same => apart (congrArg some same.symm)
      simp only [act, tagValue_untag, other, and_false, if_false, ite_self]
  | _ => cases direct

theorem register_mirrors {m : Manager} (c : m.Consistent) {name : String} (mirrored : m.Mirrors name)
    (name' : String) (interval : Duration) (decay : Decay) (bump : Bump) :
    (m.register name' interval decay bump).1.Mirrors name := by
  rcases register_cases m name' interval decay bump with ⟨free, issued⟩ | ⟨e, refused⟩
  · rw [issued]
    intro peer
    refine (mirrored peer).trans ?_
    simp only [held, Table.get?_insert]
    by_cases same : name = name'
    · -- the fresh tag has no values, and the table had none under a free name
      subst same
      simp [free]
    · rw [if_neg same]
      cases named : m.registry.get? name with
      | none => rfl
      | some k =>
          obtain ⟨d, inside, _⟩ := (c name k).mp named
          rw [Option.bind_some, Option.bind_some, inside, getElem?_concat_eq_some_iff.mpr (.inl inside)]
  · rw [refused]
    exact mirrored

theorem tagValue_close {m : Manager} {number : Nat} {d : DecayingTag} (found : m.openTag number = .ok d)
    (peer : Peer) (name : String) : (m.close number).1.tagValue peer name =
      if peer ∈ d.values.keys ∧ name = d.name then none else m.tagValue peer name := by
  simp only [close, found, tagValue_foldl_clearTag]
  rfl

theorem close_mirrors {m : Manager} (c : m.Consistent) {name : String} (mirrored : m.Mirrors name) (number : Nat) :
    (m.close number).1.Mirrors name := by
  cases found : m.openTag number with
  | error e => rw [close_of_error found]; exact mirrored
  | ok d =>
      intro peer
      obtain ⟨tags, closed⟩ := close_of_ok found
      rw [tagValue_close found, closed]
      simp only [held, Table.get?_erase]
      by_cases own : name = d.name
      · subst own
        rw [if_pos rfl, Option.bind_none]
        by_cases valued : peer ∈ d.values.keys
        · rw [if_pos ⟨valued, rfl⟩]
        · rw [if_neg fun both => valued both.1, mirrored peer, c.held_eq found]
          exact Option.eq_none_iff_forall_ne_some.mpr fun v has => valued (Table.mem_keys_iff.mpr ⟨v, has⟩)
      · rw [if_neg fun both => own both.2, if_neg own, mirrored peer, held]
        cases named : m.registry.get? name with
        | none => rfl
        | some k =>
            have away : number ≠ k := by
              rintro rfl
              exact own (((c name number).mp named).name_unique (openAs_of_openTag found))
            rw [Option.bind_some, Option.bind_some, List.getElem?_set_ne away]

theorem decayStep_mirrors {m : Manager} (c : m.Consistent) {name : String} (mirrored : m.Mirrors name)
    (number : Nat) : (m.decayStep number).1.Mirrors name := by
  cases found : m.openTag number with
  | error e => rw [decayStep_of_error found]; exact mirrored
  | ok d => exact (decayStep_rewrites found).mirrors c mirrored

theorem bump_mirrors {m : Manager} (c : m.Consistent) {name : String} (mirrored : m.Mirrors name) {number : Nat}
    {peer : Peer} {delta : Amount} (calm : (m.bump number peer delta).2 ≠ .error .crossedBounds) :
    (m.bump number peer delta).1.Mirrors name := by
  cases found : m.openTag number with
  | error e => rw [bump_of_error found]; exact mirrored
  | ok d =>
      cases value : d.bump.apply ((d.values.get? peer).getD 0) delta with
      | none => exact absurd (congrArg Prod.snd (bump_of_crossed found value)) calm
      | some new => exact (bump_rewrites found value).mirrors c mirrored

theorem remove_mirrors {m : Manager} (c : m.Consistent) {name : String} (mirrored : m.Mirrors name) (number : Nat)
    (peer : Peer) : (m.remove number peer).1.Mirrors name := by
  cases found : m.openTag number with
  | error e => rw [remove_of_error found]; exact mirrored
  | ok d => exact (remove_rewrites found peer).mirrors c mirrored

theorem act_mirrors {m : Manager} (c : m.Consistent) {name : String} (mirrored : m.Mirrors name) {a : Action}
    (apart : a.tagged? ≠ some name) (calm : ¬ m.Crosses a) : (m.act a).Mirrors name := by
  cases a with
  | tag peer name' value =>
      intro p
      rw [tagValue_act_eq_of_not_tagged rfl apart, mirrored p]
      simp only [held, act, tag_eq]
      split <;> rfl
  | untag peer name' =>
      intro p
      rw [tagValue_act_eq_of_not_tagged rfl apart, mirrored p]
      simp only [held, act, untag_eq]
      split <;> rfl
  | register name' interval decay bump => exact register_mirrors c mirrored name' interval decay bump
  | bump number peer delta => exact bump_mirrors c mirrored calm
  | remove number peer => exact remove_mirrors c mirrored number peer
  | close number => exact close_mirrors c mirrored number
  | advance intervals =>
      exact (advance_induction (P := fun n => n.Consistent ∧ n.Mirrors name)
        (fun n number both => ⟨(decayStep_sameHandles n number).consistent both.1,
          decayStep_mirrors both.1 both.2 number⟩) ⟨c, mirrored⟩ intervals).2
  | rejectTags on => exact mirrored
  | rejectRegistrations on => exact mirrored
  | clearCalls => exact mirrored

theorem new_mirrors (supportsDecay : Bool) (name : String) : (new supportsDecay).Mirrors name := fun _ => rfl

theorem run_mirrors {m : Manager} (c : m.Consistent) {name : String} (mirrored : m.Mirrors name)
    {actions : List Action} (apart : ∀ a ∈ actions, a.tagged? ≠ some name) (calm : m.Calm actions) :
    (m.run actions).Mirrors name := by
  induction actions generalizing m with
  | nil => exact mirrored
  | cons a actions ih =>
      exact ih (act_consistent c a) (act_mirrors c mirrored (apart a List.mem_cons_self) calm.1)
        (fun b later => apart b (List.mem_cons_of_mem a later)) calm.2

/-! Intervals. Each visits every open tag once, so a mirrored place decays once. -/

theorem tagValue_decayStep_own {m : Manager} (c : m.Consistent) {number : Nat} {d : DecayingTag}
    (found : m.openTag number = .ok d) (mirrored : m.Mirrors d.name) (peer : Peer) :
    (m.decayStep number).1.tagValue peer d.name = (m.tagValue peer d.name).bind (d.decay.next 0) := by
  have before : m.tagValue peer d.name = d.values.get? peer := (mirrored peer).trans (c.held_eq found peer)
  rw [(decayStep_rewrites found).own peer before, before, decayed, Table.get?_filterMap]

theorem tagValue_decayStep_other {m : Manager} {number : Nat} {name : String} (other : ¬ m.OpenAs number name)
    (peer : Peer) : (m.decayStep number).1.tagValue peer name = m.tagValue peer name := by
  cases found : m.openTag number with
  | error e => rw [decayStep_of_error found]
  | ok d => exact (decayStep_rewrites found).others peer name fun own => other (own ▸ openAs_of_openTag found)

theorem tagValue_decayAll {m : Manager} (c : m.Consistent) {number : Nat} {d : DecayingTag}
    (found : m.openTag number = .ok d) (mirrored : m.Mirrors d.name) {numbers : List Nat} (once : numbers.Nodup)
    (peer : Peer) : (m.decayAll numbers).1.tagValue peer d.name =
      if number ∈ numbers then (m.tagValue peer d.name).bind (d.decay.next 0) else m.tagValue peer d.name := by
  rw [decayAll_fst]
  induction numbers generalizing m d with
  | nil => simp
  | cons k numbers ih =>
      obtain ⟨notLater, once⟩ := List.nodup_cons.mp once
      have same := decayStep_sameHandles m k
      obtain ⟨d', found', named, decays, _⟩ := same.openTag found
      have rest := ih (same.consistent c) found' (named ▸ decayStep_mirrors c mirrored k) once
      rw [named, decays] at rest
      rw [List.foldl_cons, rest]
      by_cases first : k = number
      · subst first
        rw [if_neg notLater, if_pos List.mem_cons_self, tagValue_decayStep_own c found mirrored]
      · have other : ¬ m.OpenAs k d.name := fun isOpen => first (c.number_unique isOpen (openAs_of_openTag found))
        simp only [tagValue_decayStep_other other, List.mem_cons, Ne.symm first, false_or]

theorem Consistent.nodup_openNumbers {m : Manager} (c : m.Consistent) : m.openNumbers.Nodup := by
  rw [openNumbers, List.Nodup, List.pairwise_map]
  refine m.registry.ordered.imp_of_mem fun {a b} ha hb less same => ?_
  have first := (c a.1 a.2).mp (Table.get?_eq_some_iff.mpr ha)
  have second := (c b.1 b.2).mp (Table.get?_eq_some_iff.mpr hb)
  rw [first.name_unique (same ▸ second)] at less
  exact absurd less (by simp [Std.ReflCmp.compare_self])

theorem Consistent.mem_openNumbers {m : Manager} (c : m.Consistent) {number : Nat} {name : String}
    (isOpen : m.OpenAs number name) : number ∈ m.openNumbers :=
  List.mem_map.mpr ⟨(name, number), Table.get?_eq_some_iff.mp ((c name number).mpr isOpen), rfl⟩

theorem decayAll_sameHandles (m : Manager) (numbers : List Nat) : m.SameHandles (m.decayAll numbers).1 := by
  rw [decayAll_fst]
  induction numbers generalizing m with
  | nil => exact .refl m
  | cons k numbers ih => exact (decayStep_sameHandles m k).trans (ih _)

theorem decayAll_mirrors {m : Manager} (c : m.Consistent) {name : String} (mirrored : m.Mirrors name)
    (numbers : List Nat) : (m.decayAll numbers).1.Mirrors name := by
  rw [decayAll_fst]
  induction numbers generalizing m with
  | nil => exact mirrored
  | cons k numbers ih =>
      exact ih ((decayStep_sameHandles m k).consistent c) (decayStep_mirrors c mirrored k)

/-- So many intervals are so many decays of each mirrored place of an open tag. -/
theorem tagValue_advance {m : Manager} (c : m.Consistent) {number : Nat} {d : DecayingTag}
    (found : m.openTag number = .ok d) (mirrored : m.Mirrors d.name) (intervals : Nat) (peer : Peer) :
    (m.advance intervals).1.tagValue peer d.name =
      (fun v => v.bind (d.decay.next 0))^[intervals] (m.tagValue peer d.name) := by
  induction intervals generalizing m d with
  | zero => rfl
  | succ n ih =>
      have same := decayAll_sameHandles m m.openNumbers
      obtain ⟨d', found', named, decays, _⟩ := same.openTag found
      have rest := ih (same.consistent c) found' (named ▸ decayAll_mirrors c mirrored _)
      rw [named, decays] at rest
      have first := tagValue_decayAll c found mirrored c.nodup_openNumbers peer
      rw [if_pos (c.mem_openNumbers (openAs_of_openTag found))] at first
      rw [Function.iterate_succ_apply, ← first]
      exact rest

/-- Names without an open tag do not decay. -/
theorem tagValue_advance_of_free {m : Manager} {name : String} (free : ∀ number, ¬ m.OpenAs number name)
    (intervals : Nat) (peer : Peer) : (m.advance intervals).1.tagValue peer name = m.tagValue peer name := by
  refine (advance_induction (P := fun n => m.SameHandles n ∧ n.tagValue peer name = m.tagValue peer name)
    (fun n number both => ⟨both.1.trans (decayStep_sameHandles n number), ?_⟩) ⟨.refl m, rfl⟩ intervals).2
  rw [tagValue_decayStep_other fun isOpen => free number (both.1.openAs_iff.mp isOpen)]
  exact both.2

/-! Names that no open tag has. Without being set or cleared directly they stay as they are. -/

/-- What is done with a decaying tag is seen under its own name only. -/
theorem tagValue_act_use {m : Manager} {a : Action} {number : Nat} (uses : a.number? = some number) {name : String}
    (other : ∀ d, m.openTag number = .ok d → name ≠ d.name) (peer : Peer) :
    (m.act a).tagValue peer name = m.tagValue peer name := by
  cases found : m.openTag number with
  | error e =>
      cases a with
      | bump k peer' delta => cases uses; rw [act, bump_of_error found]
      | remove k peer' => cases uses; rw [act, remove_of_error found]
      | close k => cases uses; rw [act, close_of_error found]
      | _ => cases uses
  | ok d =>
      have apart : name ≠ d.name := other d found
      cases a with
      | bump k peer' delta =>
          cases uses
          cases value : d.bump.apply ((d.values.get? peer').getD 0) delta with
          | none =>
              rw [act, bump_of_crossed found value]
              rfl
          | some new => exact (bump_rewrites found value).others peer name apart
      | remove k peer' =>
          cases uses
          exact (remove_rewrites found peer').others peer name apart
      | close k =>
          cases uses
          rw [act, tagValue_close found, if_neg fun both => apart both.2]
      | _ => cases uses

theorem tagValue_act_of_free {m : Manager} {name : String} (free : ∀ number, ¬ m.OpenAs number name) {a : Action}
    (indirect : a.tagged? = none) (peer : Peer) : (m.act a).tagValue peer name = m.tagValue peer name := by
  have other {number : Nat} (d : DecayingTag) (found : m.openTag number = .ok d) : name ≠ d.name := by
    rintro rfl
    exact free number (openAs_of_openTag found)
  cases a with
  | tag peer' name' value => cases indirect
  | untag peer' name' => cases indirect
  | register name' interval decay bump =>
      rcases register_cases m name' interval decay bump with ⟨_, issued⟩ | ⟨e, refused⟩
      · rw [act, issued]
        rfl
      · rw [act, refused]
  | bump number peer' delta => exact tagValue_act_use rfl other peer
  | remove number peer' => exact tagValue_act_use rfl other peer
  | close number => exact tagValue_act_use rfl other peer
  | advance intervals => exact tagValue_advance_of_free free intervals peer
  | rejectTags on => rfl
  | rejectRegistrations on => rfl
  | clearCalls => rfl

theorem Consistent.act_free {m : Manager} (c : m.Consistent) {name : String} (free : ∀ number, ¬ m.OpenAs number name)
    {a : Action} (new : a.registered? ≠ some name) : ∀ number, ¬ (m.act a).OpenAs number name := by
  have unnamed : m.registry.get? name = none := c.get?_eq_none_iff.mpr fun ⟨number, isOpen⟩ => free number isOpen
  suffices (m.act a).registry.get? name = none from
    fun number isOpen => (act_consistent c a).get?_eq_none_iff.mp this ⟨number, isOpen⟩
  cases a with
  | register name' interval decay bump =>
      have other : name ≠ name' := fun same => new (congrArg some same.symm)
      rcases register_cases m name' interval decay bump with ⟨_, issued⟩ | ⟨e, refused⟩
      · rw [act, issued]
        exact (Table.get?_insert m.registry name' name m.issued.length).trans ((if_neg other).trans unnamed)
      · rw [act, refused]
        exact unnamed
  | close number =>
      cases found : m.openTag number with
      | error e =>
          rw [act, close_of_error found]
          exact unnamed
      | ok d =>
          obtain ⟨tags, closed⟩ := close_of_ok found
          simp only [act, closed, Table.get?_erase, unnamed, ite_self]
  | _ =>
      rw [(act_sameHandles m rfl fun _ h => by cases h).registry]
      exact unnamed

theorem tagValue_run_of_free {m : Manager} (c : m.Consistent) {name : String}
    (free : ∀ number, ¬ m.OpenAs number name) {actions : List Action}
    (others : ∀ a ∈ actions, a.tagged? = none ∧ a.registered? ≠ some name) (peer : Peer) :
    (m.run actions).tagValue peer name = m.tagValue peer name := by
  induction actions generalizing m with
  | nil => rfl
  | cons a actions ih =>
      obtain ⟨indirect, new⟩ := others a List.mem_cons_self
      rw [run_cons, ih (act_consistent c a) (c.act_free free new)
        fun b later => others b (List.mem_cons_of_mem a later)]
      exact tagValue_act_of_free free indirect peer

/-! Decaying tags that are closed have no values left. -/

def ClosedEmpty (m : Manager) : Prop :=
  ∀ (number : Nat) (d : DecayingTag), m.issued[number]? = some d → d.closed = true → d.values = ∅

theorem ClosedEmpty.setValues {m m' : Manager} (h : m.ClosedEmpty) {number : Nat} {d : DecayingTag}
    (found : m.openTag number = .ok d) {values : Table Peer Amount}
    (issued : m'.issued = (m.setValues number values).issued) : m'.ClosedEmpty := by
  intro k e place shut
  rw [issued, issued_setValues] at place
  split at place
  · rename_i own
    subst own
    obtain ⟨inside, isOpen⟩ := openTag_eq_ok_iff.mp found
    rw [inside] at place
    cases place
    rw [isOpen] at shut
    cases shut
  · exact h k e place shut

theorem act_closedEmpty {m : Manager} (h : m.ClosedEmpty) (a : Action) : (m.act a).ClosedEmpty := by
  cases a with
  | tag peer name value =>
      rw [act, tag_eq]
      split <;> exact h
  | untag peer name =>
      rw [act, untag_eq]
      split <;> exact h
  | register name interval decay bump =>
      rcases register_cases m name interval decay bump with ⟨_, issued⟩ | ⟨e, refused⟩
      · rw [act, issued]
        intro number d place shut
        rcases getElem?_concat_eq_some_iff.mp place with before | ⟨_, fresh⟩
        · exact h number d before shut
        · subst fresh
          rfl
      · rw [act, refused]
        exact h
  | bump number peer delta =>
      cases found : m.openTag number with
      | error e =>
          rw [act, bump_of_error found]
          exact h
      | ok d =>
          cases value : d.bump.apply ((d.values.get? peer).getD 0) delta with
          | none =>
              rw [act, bump_of_crossed found value]
              exact h.setValues found rfl
          | some new => exact h.setValues found (bump_rewrites found value).issued
  | remove number peer =>
      cases found : m.openTag number with
      | error e =>
          rw [act, remove_of_error found]
          exact h
      | ok d => exact h.setValues found (remove_rewrites found peer).issued
  | close number =>
      cases found : m.openTag number with
      | error e =>
          rw [act, close_of_error found]
          exact h
      | ok d =>
          obtain ⟨tags, closed⟩ := close_of_ok found
          rw [act, closed]
          intro k e place shut
          rw [List.getElem?_set] at place
          split at place
          · split at place
            · cases place
              rfl
            · cases place
          · exact h k e place shut
  | advance intervals =>
      refine advance_induction (P := ClosedEmpty) (fun n number kept => ?_) h intervals
      cases found : n.openTag number with
      | error e =>
          rw [decayStep_of_error found]
          exact kept
      | ok d => exact kept.setValues found (decayStep_rewrites found).issued
  | _ => exact h

theorem run_closedEmpty {m : Manager} (h : m.ClosedEmpty) (actions : List Action) : (m.run actions).ClosedEmpty := by
  induction actions generalizing m with
  | nil => exact h
  | cons a actions ih => exact ih (act_closedEmpty h a)

end Manager
end PeerTags
