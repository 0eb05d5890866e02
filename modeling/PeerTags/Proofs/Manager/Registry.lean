import PeerTags.Proofs.Manager.Action
/-! The registry against the decaying tags that were issued. `Consistent` holds
after every run: the registry names exactly the open tags. A tag that is closed
stays closed and is out of reach, also when its name is taken again. -/
namespace PeerTags

/-- A decaying tag with its values left out. -/
def DecayingTag.bare (d : DecayingTag) : DecayingTag := { d with values := ∅ }

theorem DecayingTag.continues_of_bare {d d' : DecayingTag} (h : d'.bare = d.bare) : d.Continues d' := by
  cases d
  cases d'
  cases h
  exact ⟨rfl, rfl, rfl, rfl, id⟩

namespace Manager

/-- The number is that of an open decaying tag of this name. -/
def OpenAs (m : Manager) (number : Nat) (name : String) : Prop :=
  ∃ d, m.issued[number]? = some d ∧ d.name = name ∧ d.closed = false

/-- The number is that of a decaying tag that has been closed. -/
def Closed (m : Manager) (number : Nat) : Prop := ∃ d, m.issued[number]? = some d ∧ d.closed = true

/-- The registry names the open decaying tags, each by its own name, and no others. -/
def Consistent (m : Manager) : Prop := ∀ name number, m.registry.get? name = some number ↔ m.OpenAs number name

theorem openAs_of_openTag {m : Manager} {number : Nat} {d : DecayingTag} (h : m.openTag number = .ok d) :
    m.OpenAs number d.name :=
  ⟨d, (openTag_eq_ok_iff.mp h).1, rfl, (openTag_eq_ok_iff.mp h).2⟩

theorem OpenAs.name_unique {m : Manager} {number : Nat} {name name' : String} (h : m.OpenAs number name)
    (h' : m.OpenAs number name') : name = name' := by
  obtain ⟨d, found, rfl, _⟩ := h
  obtain ⟨d', found', rfl, _⟩ := h'
  exact congrArg DecayingTag.name (Option.some.inj (found.symm.trans found'))

theorem Consistent.number_unique {m : Manager} (c : m.Consistent) {i j : Nat} {name : String}
    (hi : m.OpenAs i name) (hj : m.OpenAs j name) : i = j :=
  Option.some.inj (((c name i).mpr hi).symm.trans ((c name j).mpr hj))

theorem Consistent.get?_eq_none_iff {m : Manager} (c : m.Consistent) {name : String} :
    m.registry.get? name = none ↔ ¬ ∃ number, m.OpenAs number name := by
  rw [Option.eq_none_iff_forall_ne_some]
  simp only [ne_eq, c name, not_exists]

/-! Most of what is done leaves the registry alone, and of the issued tags changes values only. -/

structure SameHandles (m m' : Manager) : Prop where
  registry : m'.registry = m.registry
  issued : m'.issued.map DecayingTag.bare = m.issued.map DecayingTag.bare

theorem SameHandles.refl (m : Manager) : m.SameHandles m := ⟨rfl, rfl⟩

theorem SameHandles.trans {m n k : Manager} (h : m.SameHandles n) (h' : n.SameHandles k) : m.SameHandles k :=
  ⟨h'.registry.trans h.registry, h'.issued.trans h.issued⟩

theorem SameHandles.bare_eq {m m' : Manager} (h : m.SameHandles m') (number : Nat) :
    (m'.issued[number]?).map DecayingTag.bare = (m.issued[number]?).map DecayingTag.bare := by
  simpa only [List.getElem?_map] using congrArg (·[number]?) h.issued

theorem SameHandles.length_issued {m m' : Manager} (h : m.SameHandles m') : m'.issued.length = m.issued.length := by
  simpa only [List.length_map] using congrArg List.length h.issued

theorem SameHandles.continues {m m' : Manager} (h : m.SameHandles m') {number : Nat} {d : DecayingTag}
    (found : m.issued[number]? = some d) : ∃ d', m'.issued[number]? = some d' ∧ d.Continues d' := by
  have same := h.bare_eq number
  rw [found, Option.map_some] at same
  obtain ⟨d', found', bare⟩ := Option.map_eq_some_iff.mp same
  exact ⟨d', found', DecayingTag.continues_of_bare bare⟩

theorem SameHandles.symm {m m' : Manager} (h : m.SameHandles m') : m'.SameHandles m :=
  ⟨h.registry.symm, h.issued.symm⟩

theorem SameHandles.openAs_iff {m m' : Manager} (h : m.SameHandles m') {number : Nat} {name : String} :
    m'.OpenAs number name ↔ m.OpenAs number name := by
  have forward {m m' : Manager} (h : m.SameHandles m') : m.OpenAs number name → m'.OpenAs number name := by
    rintro ⟨d, found, rfl, isOpen⟩
    obtain ⟨d', found', later⟩ := h.continues found
    obtain ⟨_, found'', earlier⟩ := h.symm.continues found'
    cases Option.some.inj (found.symm.trans found'')
    refine ⟨d', found', later.name, ?_⟩
    cases shut : d'.closed with
    | false => rfl
    | true => exact absurd (earlier.closed shut) (by simp [isOpen])
  exact ⟨forward h.symm, forward h⟩

theorem SameHandles.consistent {m m' : Manager} (h : m.SameHandles m') (c : m.Consistent) : m'.Consistent := by
  intro name number
  rw [h.registry, h.openAs_iff]
  exact c name number

theorem setValues_sameHandles (m : Manager) (number : Nat) (values : Table Peer Amount) :
    m.SameHandles (m.setValues number values) := by
  refine ⟨rfl, List.ext_getElem? fun k => ?_⟩
  rw [List.getElem?_map, List.getElem?_map, issued_setValues]
  split
  · cases m.issued[k]? <;> rfl
  · rfl

theorem Rewrites.sameHandles {m m' : Manager} {number : Nat} {d : DecayingTag} {values : Table Peer Amount}
    (h : m.Rewrites number d values m') : m.SameHandles m' :=
  ⟨h.registry, by rw [h.issued]; exact (setValues_sameHandles m number values).issued⟩

theorem tag_sameHandles (m : Manager) (peer : Peer) (name : String) (value : Amount) :
    m.SameHandles (m.tag peer name value).1 := by
  rw [tag_eq]
  split <;> exact ⟨rfl, rfl⟩

theorem untag_sameHandles (m : Manager) (peer : Peer) (name : String) : m.SameHandles (m.untag peer name).1 := by
  rw [untag_eq]
  split <;> exact ⟨rfl, rfl⟩

theorem bump_sameHandles (m : Manager) (number : Nat) (peer : Peer) (delta : Amount) :
    m.SameHandles (m.bump number peer delta).1 := by
  cases found : m.openTag number with
  | error e => rw [bump_of_error found]; exact .refl m
  | ok d =>
      cases value : d.bump.apply ((d.values.get? peer).getD 0) delta with
      | none =>
          rw [bump_of_crossed found value]
          exact ⟨rfl, (setValues_sameHandles m number _).issued⟩
      | some new => exact (bump_rewrites found value).sameHandles

theorem remove_sameHandles (m : Manager) (number : Nat) (peer : Peer) :
    m.SameHandles (m.remove number peer).1 := by
  cases found : m.openTag number with
  | error e => rw [remove_of_error found]; exact .refl m
  | ok d => exact (remove_rewrites found peer).sameHandles

theorem decayStep_sameHandles (m : Manager) (number : Nat) : m.SameHandles (m.decayStep number).1 := by
  cases found : m.openTag number with
  | error e => rw [decayStep_of_error found]; exact .refl m
  | ok d => exact (decayStep_rewrites found).sameHandles

/-- A fold that keeps a log beside its state, the log left out. -/
theorem foldl_logged_fst {σ τ α : Type} (f : σ → α → σ × List τ) (l : List α) (s : σ) (log : List τ) :
    (l.foldl (fun p a => ((f p.1 a).1, p.2 ++ (f p.1 a).2)) (s, log)).1 = l.foldl (fun s a => (f s a).1) s := by
  induction l generalizing s log with
  | nil => rfl
  | cons a l ih => exact ih _ _

theorem decayAll_fst (m : Manager) (numbers : List Nat) :
    (m.decayAll numbers).1 = numbers.foldl (fun m number => (m.decayStep number).1) m :=
  foldl_logged_fst decayStep numbers m []

/-- What every interval of every decaying tag keeps, an advance keeps. -/
theorem advance_induction {P : Manager → Prop} (step : ∀ m number, P m → P (m.decayStep number).1)
    {m : Manager} (h : P m) (intervals : Nat) : P (m.advance intervals).1 := by
  have all (numbers : List Nat) : ∀ {m : Manager}, P m → P (m.decayAll numbers).1 := by
    intro m h
    rw [decayAll_fst]
    induction numbers generalizing m with
    | nil => exact h
    | cons number numbers ih => exact ih (step m number h)
  induction intervals generalizing m with
  | zero => exact h
  | succ n ih => exact ih (all _ h)

theorem advance_sameHandles (m : Manager) (intervals : Nat) : m.SameHandles (m.advance intervals).1 :=
  advance_induction (P := m.SameHandles) (fun n number h => h.trans (decayStep_sameHandles n number))
    (.refl m) intervals

/-! Registration and closing. -/

theorem register_of_free {m : Manager} {name : String} (supports : m.supportsDecay = true)
    (accepts : m.rejectsRegistrations = false) (free : m.registry.get? name = none) (interval : Duration)
    (decay : Decay) (bump : Bump) : m.register name interval decay bump =
      ({ m with
          issued := m.issued ++ [⟨name, interval, decay, bump, ∅, false⟩]
          registry := m.registry.insert name m.issued.length
          calls := m.calls ++ [.register name interval] }, .ok m.issued.length) := by
  simp [register, supports, accepts, Table.contains, free, note]

theorem register_of_refused {m : Manager} {name : String} (refused : ¬ (m.supportsDecay = true ∧
    m.rejectsRegistrations = false ∧ m.registry.get? name = none)) (interval : Duration) (decay : Decay)
    (bump : Bump) : ∃ e, m.register name interval decay bump = (m, .error e) := by
  unfold register
  split
  · exact ⟨_, rfl⟩
  · split
    · exact ⟨_, rfl⟩
    · split
      · exact ⟨_, rfl⟩
      · rename_i supports accepts free
        exact absurd ⟨by simpa using supports, by simpa using accepts, by simpa [Table.contains] using free⟩ refused

theorem register_cases (m : Manager) (name : String) (interval : Duration) (decay : Decay) (bump : Bump) :
    (m.registry.get? name = none ∧ m.register name interval decay bump =
      ({ m with
          issued := m.issued ++ [⟨name, interval, decay, bump, ∅, false⟩]
          registry := m.registry.insert name m.issued.length
          calls := m.calls ++ [.register name interval] }, .ok m.issued.length)) ∨
    ∃ e, m.register name interval decay bump = (m, .error e) := by
  by_cases admitted : m.supportsDecay = true ∧ m.rejectsRegistrations = false ∧ m.registry.get? name = none
  · obtain ⟨supports, accepts, free⟩ := admitted
    exact .inl ⟨free, register_of_free supports accepts free interval decay bump⟩
  · exact .inr (register_of_refused admitted interval decay bump)

/-- A registration under this name would go through. -/
def admits (m : Manager) (name : String) : Bool :=
  m.supportsDecay && !m.rejectsRegistrations && !m.registry.contains name

theorem admits_eq_true_iff {m : Manager} {name : String} : m.admits name = true ↔
    m.supportsDecay = true ∧ m.rejectsRegistrations = false ∧ m.registry.get? name = none := by
  simp [admits, Table.contains, and_assoc]

theorem register_of_admitted {m : Manager} {name : String} (admitted : m.admits name = true) (interval : Duration)
    (decay : Decay) (bump : Bump) : m.register name interval decay bump =
      ({ m with
          issued := m.issued ++ [⟨name, interval, decay, bump, ∅, false⟩]
          registry := m.registry.insert name m.issued.length
          calls := m.calls ++ [.register name interval] }, .ok m.issued.length) := by
  obtain ⟨supports, accepts, free⟩ := admits_eq_true_iff.mp admitted
  exact register_of_free supports accepts free interval decay bump

theorem register_of_not_admitted {m : Manager} {name : String} (refused : m.admits name = false)
    (interval : Duration) (decay : Decay) (bump : Bump) :
    ∃ e, m.register name interval decay bump = (m, .error e) := by
  refine register_of_refused (fun admitted => ?_) interval decay bump
  rw [admits_eq_true_iff.mpr admitted] at refused
  cases refused

/-- A registration that is admitted takes the name, and no other name is taken or set free. -/
theorem register_contains (m : Manager) (name : String) (interval : Duration) (decay : Decay) (bump : Bump)
    (name' : String) : (m.register name interval decay bump).1.registry.contains name' =
      (decide (name' = name) && m.admits name || m.registry.contains name') := by
  cases admitted : m.admits name with
  | true =>
      rw [register_of_admitted admitted]
      by_cases same : name' = name <;> simp [Table.contains, Table.get?_insert, same]
  | false =>
      obtain ⟨e, refused⟩ := register_of_not_admitted admitted interval decay bump
      rw [refused, Bool.and_false, Bool.false_or]

theorem getElem?_concat_eq_some_iff {α : Type} {l : List α} {x y : α} {k : Nat} :
    (l ++ [x])[k]? = some y ↔ l[k]? = some y ∨ k = l.length ∧ x = y := by
  rw [List.getElem?_append]
  split
  · rename_i inside
    simp [Nat.ne_of_lt inside]
  · rename_i outside
    have beyond : l[k]? = none := List.getElem?_eq_none (Nat.le_of_not_lt outside)
    have last : k - l.length = 0 ↔ k = l.length := by omega
    simp [beyond, List.getElem?_singleton, last]

theorem register_consistent {m : Manager} (c : m.Consistent) (name : String) (interval : Duration) (decay : Decay)
    (bump : Bump) : (m.register name interval decay bump).1.Consistent := by
  rcases register_cases m name interval decay bump with ⟨free, issued⟩ | ⟨e, refused⟩
  · rw [issued]
    intro name' number
    have old : m.OpenAs number name' → name' ≠ name := by
      rintro isOpen rfl
      exact c.get?_eq_none_iff.mp free ⟨number, isOpen⟩
    have after : (∃ d, (m.issued ++ [⟨name, interval, decay, bump, ∅, false⟩])[number]? = some d ∧
        d.name = name' ∧ d.closed = false) ↔ m.OpenAs number name' ∨ number = m.issued.length ∧ name = name' := by
      simp only [getElem?_concat_eq_some_iff, OpenAs]
      constructor
      · rintro ⟨d, found | ⟨last, rfl⟩, named, isOpen⟩
        · exact .inl ⟨d, found, named, isOpen⟩
        · exact .inr ⟨last, named⟩
      · rintro (⟨d, found, named, isOpen⟩ | ⟨last, named⟩)
        · exact ⟨d, .inl found, named, isOpen⟩
        · exact ⟨_, .inr ⟨last, rfl⟩, named, rfl⟩
    rw [OpenAs, after, Table.get?_insert]
    by_cases same : name' = name
    · simp only [same, if_true, Option.some.injEq, and_true]
      have := same ▸ old
      constructor
      · exact fun last => .inr last.symm
      · rintro (isOpen | last)
        · exact absurd rfl (this isOpen)
        · exact last.symm
    · simp only [same, if_false, c name' number, Ne.symm same, and_false, or_false]
  · rw [refused]
    exact c

theorem close_of_ok {m : Manager} {number : Nat} {d : DecayingTag} (h : m.openTag number = .ok d) :
    ∃ tags, m.close number =
      ({ m with
          tags
          issued := m.issued.set number { d with values := ∅, closed := true }
          registry := m.registry.erase d.name }, .ok ()) := by
  obtain ⟨tags, only⟩ := foldl_only_tags (f := fun m peer => m.clearTag peer d.name)
    (fun m peer => ⟨_, rfl⟩) d.values.keys
    { m with
      issued := m.issued.set number { d with values := ∅, closed := true }
      registry := m.registry.erase d.name }
  exact ⟨tags, by simp only [close, h, only]⟩

theorem close_consistent {m : Manager} (c : m.Consistent) (number : Nat) : (m.close number).1.Consistent := by
  cases found : m.openTag number with
  | error e => rw [close_of_error found]; exact c
  | ok d =>
      obtain ⟨tags, closed⟩ := close_of_ok found
      rw [closed]
      intro name k
      have own := openAs_of_openTag found
      have after : (∃ e, (m.issued.set number { d with values := ∅, closed := true })[k]? = some e ∧
          e.name = name ∧ e.closed = false) ↔ k ≠ number ∧ m.OpenAs k name := by
        rw [List.getElem?_set]
        by_cases same : number = k
        · subst same
          simp
        · simp [same, OpenAs, Ne.symm same]
      rw [OpenAs, after, Table.get?_erase]
      by_cases same : name = d.name
      · subst same
        simp only [if_true, reduceCtorEq, false_iff, not_and, ne_eq]
        exact fun other isOpen => other (c.number_unique isOpen own)
      · simp only [same, if_false, c name k]
        constructor
        · exact fun isOpen => ⟨fun here => same (isOpen.name_unique (here ▸ own)), isOpen⟩
        · exact And.right

theorem act_sameHandles (m : Manager) {a : Action} (new : a.registered? = none) (kept : ∀ number, a ≠ .close number) :
    m.SameHandles (m.act a) := by
  cases a with
  | tag peer name value => exact tag_sameHandles m peer name value
  | untag peer name => exact untag_sameHandles m peer name
  | register name interval decay bump => cases new
  | bump number peer delta => exact bump_sameHandles m number peer delta
  | remove number peer => exact remove_sameHandles m number peer
  | close number => exact absurd rfl (kept number)
  | advance intervals => exact advance_sameHandles m intervals
  | rejectTags on => exact ⟨rfl, rfl⟩
  | rejectRegistrations on => exact ⟨rfl, rfl⟩
  | clearCalls => exact ⟨rfl, rfl⟩

theorem run_sameHandles (m : Manager) {actions : List Action}
    (plain : ∀ a ∈ actions, a.registered? = none ∧ ∀ number, a ≠ .close number) : m.SameHandles (m.run actions) := by
  induction actions generalizing m with
  | nil => exact .refl m
  | cons a actions ih =>
      obtain ⟨new, kept⟩ := plain a List.mem_cons_self
      exact (act_sameHandles m new kept).trans (ih (m.act a) fun b later => plain b (List.mem_cons_of_mem a later))

/-- Only registrations issue anything. -/
theorem act_length_issued (m : Manager) {a : Action} (new : a.registered? = none) :
    (m.act a).issued.length = m.issued.length := by
  by_cases closes : ∃ number, a = .close number
  · obtain ⟨number, rfl⟩ := closes
    cases found : m.openTag number with
    | error e => rw [act, close_of_error found]
    | ok d =>
        obtain ⟨tags, closed⟩ := close_of_ok found
        simp only [act, closed, List.length_set]
  · exact (act_sameHandles m new fun number same => closes ⟨number, same⟩).length_issued

theorem run_length_issued (m : Manager) {actions : List Action} (new : ∀ a ∈ actions, a.registered? = none) :
    (m.run actions).issued.length = m.issued.length := by
  induction actions generalizing m with
  | nil => rfl
  | cons a actions ih =>
      rw [run_cons, ih (m.act a) fun b later => new b (List.mem_cons_of_mem a later),
        act_length_issued m (new a List.mem_cons_self)]

theorem act_consistent {m : Manager} (c : m.Consistent) (a : Action) : (m.act a).Consistent := by
  cases a with
  | register name interval decay bump => exact register_consistent c name interval decay bump
  | close number => exact close_consistent c number
  | _ => exact (act_sameHandles m rfl fun _ h => by cases h).consistent c

theorem new_consistent (supportsDecay : Bool) : (new supportsDecay).Consistent := by
  intro name number
  constructor
  · intro h; cases h
  · rintro ⟨d, found, _⟩; cases found

theorem run_consistent {m : Manager} (c : m.Consistent) (actions : List Action) : (m.run actions).Consistent := by
  induction actions generalizing m with
  | nil => exact c
  | cons a actions ih => exact ih (act_consistent c a)

/-- A decaying tag keeps its number, its name and its rules, and stays closed once it is. -/
theorem act_continues {m : Manager} (a : Action) {number : Nat} {d : DecayingTag}
    (found : m.issued[number]? = some d) : ∃ d', (m.act a).issued[number]? = some d' ∧ d.Continues d' := by
  cases a with
  | register name interval decay bump =>
      rcases register_cases m name interval decay bump with ⟨free, issued⟩ | ⟨e, refused⟩
      · rw [act, issued]
        exact ⟨d, getElem?_concat_eq_some_iff.mpr (.inl found), .refl d⟩
      · rw [act, refused]
        exact ⟨d, found, .refl d⟩
  | close k =>
      cases opened : m.openTag k with
      | error e =>
          rw [act, close_of_error opened]
          exact ⟨d, found, .refl d⟩
      | ok e =>
          obtain ⟨tags, closed⟩ := close_of_ok opened
          rw [act, closed]
          by_cases same : k = number
          · subst same
            cases Option.some.inj (found.symm.trans (openTag_eq_ok_iff.mp opened).1)
            have inside := (List.getElem?_eq_some_iff.mp found).1
            exact ⟨{ d with values := ∅, closed := true }, List.getElem?_set_self inside,
              ⟨rfl, rfl, rfl, rfl, fun _ => rfl⟩⟩
          · exact ⟨d, by simp only [List.getElem?_set_ne same, found], .refl d⟩
  | _ => exact (act_sameHandles m rfl fun _ h => by cases h).continues found

theorem run_continues {m : Manager} (actions : List Action) {number : Nat} {d : DecayingTag}
    (found : m.issued[number]? = some d) : ∃ d', (m.run actions).issued[number]? = some d' ∧ d.Continues d' := by
  induction actions generalizing m d with
  | nil => exact ⟨d, found, .refl d⟩
  | cons a actions ih =>
      obtain ⟨e, next, first⟩ := act_continues a found
      obtain ⟨f, last, later⟩ := ih next
      exact ⟨f, last, first.trans later⟩

theorem Closed.run {m : Manager} {number : Nat} (h : m.Closed number) (actions : List Action) :
    (m.run actions).Closed number := by
  obtain ⟨d, found, shut⟩ := h
  obtain ⟨d', found', later⟩ := run_continues actions found
  exact ⟨d', found', later.closed shut⟩

/-- A closed decaying tag is out of reach: what is done with it changes nothing at all. -/
theorem Closed.act_eq {m : Manager} {number : Nat} (h : m.Closed number) {a : Action}
    (on : a.number? = some number) : m.act a = m := by
  obtain ⟨d, found, shut⟩ := h
  have refused := openTag_of_closed found shut
  cases a with
  | bump k peer delta => cases on; rw [act, bump_of_error refused]
  | remove k peer => cases on; rw [act, remove_of_error refused]
  | close k => cases on; rw [act, close_of_error refused]
  | _ => cases on

/-- What is open after a run was open before it. -/
theorem openTag_of_open_later {m : Manager} {number : Nat} {d : DecayingTag} (found : m.issued[number]? = some d)
    {actions : List Action} {name : String} (still : (m.run actions).OpenAs number name) :
    m.openTag number = .ok d := by
  refine openTag_eq_ok_iff.mpr ⟨found, Bool.eq_false_iff.mpr fun shut => ?_⟩
  obtain ⟨e, later, _, isOpen⟩ := still
  obtain ⟨e', later', closed⟩ := Closed.run ⟨d, found, shut⟩ actions
  cases later.symm.trans later'
  rw [closed] at isOpen
  cases isOpen

theorem openTag_act_close (m : Manager) (number : Nat) (d : DecayingTag) :
    (m.act (.close number)).openTag number ≠ .ok d := by
  intro opened
  cases found : m.openTag number with
  | error e =>
      rw [act, close_of_error found, found] at opened
      cases opened
  | ok d' =>
      obtain ⟨tags, closed⟩ := close_of_ok found
      obtain ⟨place, isOpen⟩ := openTag_eq_ok_iff.mp opened
      have inside := (List.getElem?_eq_some_iff.mp (openTag_eq_ok_iff.mp found).1).1
      simp only [act, closed] at place
      cases (List.getElem?_set_self inside).symm.trans place
      cases isOpen

/-- Only the two toggles turn a switch; support for decay is for good. -/
theorem act_switches (m : Manager) (a : Action) : (m.act a).switches =
    match a with
    | .rejectTags on => (m.supportsDecay, on, m.rejectsRegistrations)
    | .rejectRegistrations on => (m.supportsDecay, m.rejectsTags, on)
    | _ => m.switches := by
  cases a with
  | tag peer name value => simp only [act, tag_eq]; split <;> rfl
  | untag peer name => simp only [act, untag_eq]; split <;> rfl
  | register name interval decay bump =>
      rcases register_cases m name interval decay bump with ⟨_, issued⟩ | ⟨e, refused⟩
      · simp only [act, issued]
        rfl
      · simp only [act, refused]
  | bump number peer delta =>
      cases found : m.openTag number with
      | error e => simp only [act, bump_of_error found]
      | ok d =>
          cases value : d.bump.apply ((d.values.get? peer).getD 0) delta with
          | none => simp only [act, bump_of_crossed found value]; rfl
          | some new => exact (bump_rewrites found value).switches
  | remove number peer =>
      cases found : m.openTag number with
      | error e => simp only [act, remove_of_error found]
      | ok d => exact (remove_rewrites found peer).switches
  | close number =>
      cases found : m.openTag number with
      | error e => simp only [act, close_of_error found]
      | ok d =>
          obtain ⟨tags, closed⟩ := close_of_ok found
          simp only [act, closed]
          rfl
  | advance intervals =>
      refine advance_induction (P := fun n => n.switches = m.switches) (fun n number same => ?_) rfl intervals
      cases found : n.openTag number with
      | error e => rw [decayStep_of_error found]; exact same
      | ok d => exact (decayStep_rewrites found).switches.trans same
  | rejectTags on => rfl
  | rejectRegistrations on => rfl
  | clearCalls => rfl

theorem run_switches_of_still (m : Manager) {actions : List Action}
    (still : ∀ a ∈ actions, ∀ on, a ≠ .rejectTags on ∧ a ≠ .rejectRegistrations on) :
    (m.run actions).switches = m.switches := by
  induction actions generalizing m with
  | nil => rfl
  | cons a actions ih =>
      rw [run_cons, ih (m.act a) fun b later => still b (List.mem_cons_of_mem a later), act_switches]
      cases a with
      | rejectTags on => exact absurd rfl (still _ List.mem_cons_self on).1
      | rejectRegistrations on => exact absurd rfl (still _ List.mem_cons_self on).2
      | _ => rfl

theorem run_supportsDecay (m : Manager) (actions : List Action) : (m.run actions).supportsDecay = m.supportsDecay := by
  induction actions generalizing m with
  | nil => rfl
  | cons a actions ih =>
      rw [run_cons, ih]
      have first := congrArg Prod.fst (act_switches m a)
      cases a <;> exact first

/-! A capped bump never breaks off. -/

theorem not_crosses_of_capped {m : Manager} {number : Nat} {d : DecayingTag} (found : m.issued[number]? = some d)
    {greatest : Amount} (capped : d.bump = .capped greatest) (peer : Peer) (delta : Amount) :
    ¬ m.Crosses (.bump number peer delta) := by
  intro crosses
  simp only [Crosses] at crosses
  cases shut : d.closed with
  | true =>
      rw [bump_of_error (openTag_of_closed found shut)] at crosses
      cases crosses
  | false => simp [bump, openTag_eq_ok_iff.mpr ⟨found, shut⟩, capped, Bump.apply] at crosses

/-- A decaying tag that was issued as a capped one stays one. -/
theorem calm_of_capped {m : Manager} {actions : List Action}
    (capped : ∀ number peer delta, .bump number peer delta ∈ actions →
      ∃ d greatest, m.issued[number]? = some d ∧ d.bump = .capped greatest) : m.Calm actions := by
  induction actions generalizing m with
  | nil => exact trivial
  | cons a actions ih =>
      refine ⟨fun crosses => ?_, ih fun number peer delta later => ?_⟩
      · cases a with
        | bump number peer delta =>
            obtain ⟨d, greatest, found, cap⟩ := capped number peer delta List.mem_cons_self
            exact not_crosses_of_capped found cap peer delta crosses
        | _ => exact crosses
      · obtain ⟨d, greatest, found, cap⟩ := capped number peer delta (List.mem_cons_of_mem a later)
        obtain ⟨d', found', continues⟩ := act_continues a found
        exact ⟨d', greatest, found', continues.bump.trans cap⟩

theorem registered_pairwise (m : Manager) : m.registered.Pairwise (· < ·) := by
  rw [registered, Table.keys, List.pairwise_map]
  exact m.registry.ordered.imp compareOfLessAndEq_eq_lt.mp

theorem Consistent.mem_registered_iff {m : Manager} (c : m.Consistent) {name : String} :
    name ∈ m.registered ↔ ∃ number, m.OpenAs number name := by
  rw [registered, Table.mem_keys_iff]
  exact exists_congr fun number => c name number

theorem Consistent.register_eq_ok_iff {m : Manager} (c : m.Consistent) (supports : m.supportsDecay = true)
    (accepts : m.rejectsRegistrations = false) (name : String) (interval : Duration) (decay : Decay) (bump : Bump) :
    (∃ number, (m.register name interval decay bump).2 = .ok number) ↔ ¬ ∃ number, m.OpenAs number name := by
  rw [← c.get?_eq_none_iff]
  constructor
  · rintro ⟨number, ok⟩
    apply Classical.byContradiction
    intro taken
    obtain ⟨e, refused⟩ := register_of_refused (fun free => taken free.2.2) interval decay bump
    rw [refused] at ok
    cases ok
  · intro free
    exact ⟨_, congrArg Prod.snd (register_of_free supports accepts free interval decay bump)⟩

/-- After every run the registry is the list of the open decaying tags, a name is free
unless an open tag has it, and a closed tag is neither opened again nor a way to reach
the tag that has taken its name since. -/
theorem run_handle_lifecycle (supportsDecay : Bool) (actions : List Action) :
    let m := (new supportsDecay).run actions
    (∀ name number, m.registry.get? name = some number ↔ m.OpenAs number name) ∧
    (∀ name i j, m.OpenAs i name → m.OpenAs j name → i = j) ∧
    m.registered.Pairwise (· < ·) ∧
    (∀ name, name ∈ m.registered ↔ ∃ number, m.OpenAs number name) ∧
    (supportsDecay = true → m.rejectsRegistrations = false → ∀ name interval decay bump,
      (∃ number, (m.register name interval decay bump).2 = .ok number) ↔ ¬ ∃ number, m.OpenAs number name) ∧
    ∀ number, m.Closed number →
      (∀ later, (m.run later).Closed number) ∧ ∀ a : Action, a.number? = some number → m.act a = m := by
  intro m
  have c : m.Consistent := run_consistent (new_consistent supportsDecay) actions
  refine ⟨c, fun name i j => c.number_unique, registered_pairwise m, fun name => c.mem_registered_iff, ?_, ?_⟩
  · intro supports accepts name interval decay bump
    exact c.register_eq_ok_iff ((run_supportsDecay _ actions).trans supports) accepts name interval decay bump
  · intro number shut
    exact ⟨shut.run, fun a => shut.act_eq⟩

/-- Closing a tag a second time, after its name was taken again, leaves the newer tag its name. -/
theorem second_close_spares_newer :
    let m := (new true).run [.register "a" (.ofSecs 1) .never .sum, .close 0, .register "a" (.ofSecs 1) .never .sum]
    m.Closed 0 ∧ m.act (.close 0) = m ∧ m.OpenAs 1 "a" ∧ "a" ∈ m.registered ∧
      ¬ ∃ number, (m.register "a" (.ofSecs 1) .never .sum).2 = .ok number := by
  intro m
  obtain ⟨_, _, _, names, accepted, stale⟩ := run_handle_lifecycle true
    [.register "a" (.ofSecs 1) .never .sum, .close 0, .register "a" (.ofSecs 1) .never .sum]
  have shut : m.Closed 0 := ⟨_, rfl, rfl⟩
  have newer : m.OpenAs 1 "a" := ⟨_, rfl, rfl, rfl⟩
  refine ⟨shut, (stale 0 shut).2 (.close 0) rfl, newer, (names "a").mpr ⟨1, newer⟩, ?_⟩
  rw [accepted rfl rfl]
  exact fun free => free ⟨1, newer⟩

end Manager
end PeerTags
