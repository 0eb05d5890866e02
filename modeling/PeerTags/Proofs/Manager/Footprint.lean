import PeerTags.Proofs.Manager.Mirror
/-! What an action leaves alone. A place is a peer and a name: the table has a value there,
and so has a decaying tag of that name. An action changes at most the places that it
`Writes`, wherever the table and the decaying tags stand to each other. -/
namespace PeerTags
namespace Manager

/-- The action is not about decaying tags. -/
def Action.isDirect : Action → Bool
  | tag .. | untag .. | rejectTags _ | rejectRegistrations _ | clearCalls => true
  | register .. | bump .. | remove .. | close _ | advance _ => false

/-- An open decaying tag of this number and name has a value for the peer. -/
def HasValue (m : Manager) (number : Nat) (peer : Peer) (name : String) : Prop :=
  ∃ d, m.openTag number = .ok d ∧ d.name = name ∧ d.values.contains peer = true

/-- The places that an action may change. What is done with an open decaying tag stays under its
name: with the peer that it is done to, or, when the tag is closed or decays, with the peers
that it has a value for. -/
def Writes (m : Manager) (peer : Peer) (name : String) : Action → Prop
  | .tag p n _ | .untag p n => peer = p ∧ name = n
  | .bump number p _ | .remove number p => peer = p ∧ m.OpenAs number name
  | .close number => m.HasValue number peer name
  | .advance _ => ∃ number, m.HasValue number peer name
  | .register .. | .rejectTags _ | .rejectRegistrations _ | .clearCalls => False

/-- The names that an action may take or set free. -/
def Renames (m : Manager) (name : String) : Action → Prop
  | .register n .. => name = n
  | .close number => m.OpenAs number name
  | _ => False

/-- Two states of a manager agree at a place: in the table, and in the decaying tags that the
earlier one has issued. -/
structure SameAt (m m' : Manager) (peer : Peer) (name : String) : Prop where
  shown : m'.tagValue peer name = m.tagValue peer name
  kept : ∀ (number : Nat) (d : DecayingTag), m.issued[number]? = some d → d.name = name →
    ∃ d', m'.issued[number]? = some d' ∧ d'.name = name ∧ d'.values.get? peer = d.values.get? peer

section

variable {m m' : Manager} {peer : Peer} {name : String}

theorem SameAt.refl (m : Manager) (peer : Peer) (name : String) : m.SameAt m peer name :=
  ⟨rfl, fun _ d found named => ⟨d, found, named, rfl⟩⟩

theorem SameAt.trans {m'' : Manager} (h : m.SameAt m' peer name) (h' : m'.SameAt m'' peer name) :
    m.SameAt m'' peer name := by
  refine ⟨h'.shown.trans h.shown, fun number d found named => ?_⟩
  obtain ⟨d', found', named', first⟩ := h.kept number d found named
  obtain ⟨d'', found'', named'', later⟩ := h'.kept number d' found' named'
  exact ⟨d'', found'', named'', later.trans first⟩

/-- Agreement is a matter of the table when the decaying tags are as they were. -/
theorem sameAt_of_issued (issued : m'.issued = m.issued) (shown : m'.tagValue peer name = m.tagValue peer name) :
    m.SameAt m' peer name :=
  ⟨shown, fun _ d found named => ⟨d, issued ▸ found, named, rfl⟩⟩

theorem setTag_sameAt {p : Peer} {n : String} (value : Amount) (outside : ¬ (peer = p ∧ name = n)) :
    m.SameAt (m.setTag p n value) peer name :=
  sameAt_of_issued rfl ((tagValue_setTag m p n value peer name).trans (if_neg outside))

theorem clearTag_sameAt {p : Peer} {n : String} (outside : ¬ (peer = p ∧ name = n)) :
    m.SameAt (m.clearTag p n) peer name :=
  sameAt_of_issued rfl ((tagValue_clearTag m p n peer name).trans (if_neg outside))

/-- A decaying tag takes new values that have the old one at the place. -/
theorem setValues_sameAt {number : Nat} {d : DecayingTag} (found : m.openTag number = .ok d)
    {values : Table Peer Amount} (same : d.name = name → values.get? peer = d.values.get? peer) :
    m.SameAt (m.setValues number values) peer name := by
  refine ⟨rfl, fun k e place named => ?_⟩
  rw [issued_setValues]
  by_cases own : k = number
  · subst own
    cases place.symm.trans (openTag_eq_ok_iff.mp found).1
    exact ⟨{ d with values }, by rw [if_pos rfl, place, Option.map_some], named, same named⟩
  · exact ⟨e, (if_neg own).trans place, named, rfl⟩

theorem tag_sameAt {p : Peer} {n : String} (value : Amount) (outside : ¬ (peer = p ∧ name = n)) :
    m.SameAt (m.tag p n value).1 peer name := by
  rw [tag_eq]
  split
  · exact sameAt_of_issued rfl rfl
  · have noted : m.SameAt (m.note (.tag p n value)) peer name := sameAt_of_issued rfl (tagValue_note ..)
    exact noted.trans (setTag_sameAt value outside)

theorem untag_sameAt {p : Peer} {n : String} (outside : ¬ (peer = p ∧ name = n)) :
    m.SameAt (m.untag p n).1 peer name := by
  rw [untag_eq]
  split
  · exact sameAt_of_issued rfl rfl
  · have noted : m.SameAt (m.note (.untag p n)) peer name := sameAt_of_issued rfl (tagValue_note ..)
    exact noted.trans (clearTag_sameAt outside)

theorem register_sameAt (name' : String) (interval : Duration) (decay : Decay) (bump : Bump) :
    m.SameAt (m.register name' interval decay bump).1 peer name := by
  rcases register_cases m name' interval decay bump with ⟨_, issued⟩ | ⟨e, refused⟩
  · rw [issued]
    exact ⟨rfl, fun number d found named => ⟨d, getElem?_concat_eq_some_iff.mpr (.inl found), named, rfl⟩⟩
  · rw [refused]
    exact .refl m peer name

theorem bump_sameAt {number : Nat} {p : Peer} (delta : Amount) (outside : ¬ (peer = p ∧ m.OpenAs number name)) :
    m.SameAt (m.bump number p delta).1 peer name := by
  cases found : m.openTag number with
  | error e =>
      rw [bump_of_error found]
      exact .refl m peer name
  | ok d =>
      have away : ¬ (peer = p ∧ name = d.name) := fun both =>
        outside ⟨both.1, both.2 ▸ openAs_of_openTag found⟩
      have values (value : Amount) : d.name = name → (d.values.insert p value).get? peer = d.values.get? peer :=
        fun named => (Table.get?_insert ..).trans (if_neg fun same => away ⟨same, named.symm⟩)
      have noted : m.SameAt (m.note (.bump p d.name delta)) peer name := sameAt_of_issued rfl (tagValue_note ..)
      have opened : (m.note (.bump p d.name delta)).openTag number = .ok d := found
      cases value : d.bump.apply ((d.values.get? p).getD 0) delta with
      | none =>
          rw [bump_of_crossed found value]
          exact noted.trans (setValues_sameAt opened (values _))
      | some new =>
          rw [bump_of_ok found value]
          exact (noted.trans (setValues_sameAt opened (values new))).trans (setTag_sameAt new away)

theorem remove_sameAt {number : Nat} {p : Peer} (outside : ¬ (peer = p ∧ m.OpenAs number name)) :
    m.SameAt (m.remove number p).1 peer name := by
  cases found : m.openTag number with
  | error e =>
      rw [remove_of_error found]
      exact .refl m peer name
  | ok d =>
      have away : ¬ (peer = p ∧ name = d.name) := fun both =>
        outside ⟨both.1, both.2 ▸ openAs_of_openTag found⟩
      have values : d.name = name → (d.values.erase p).get? peer = d.values.get? peer :=
        fun named => (Table.get?_erase ..).trans (if_neg fun same => away ⟨same, named.symm⟩)
      simp only [remove, found]
      exact (setValues_sameAt found values).trans (clearTag_sameAt away)

theorem get?_eq_none_of_not_hasValue {number : Nat} {d : DecayingTag} (found : m.openTag number = .ok d)
    (outside : ¬ m.HasValue number peer d.name) : d.values.get? peer = none := by
  cases value : d.values.get? peer with
  | none => rfl
  | some v => exact absurd ⟨d, found, rfl, by rw [Table.contains, value]; rfl⟩ outside

theorem close_sameAt {number : Nat} (outside : ¬ m.HasValue number peer name) :
    m.SameAt (m.close number).1 peer name := by
  cases found : m.openTag number with
  | error e =>
      rw [close_of_error found]
      exact .refl m peer name
  | ok d =>
      have none (named : d.name = name) : d.values.get? peer = none :=
        get?_eq_none_of_not_hasValue found (named ▸ outside)
      constructor
      · rw [tagValue_close found, if_neg]
        rintro ⟨listed, rfl⟩
        obtain ⟨v, value⟩ := Table.mem_keys_iff.mp listed
        cases value.symm.trans (none rfl)
      · intro k e place named
        obtain ⟨tags, closed⟩ := close_of_ok found
        rw [closed]
        by_cases own : number = k
        · subst own
          cases place.symm.trans (openTag_eq_ok_iff.mp found).1
          exact ⟨_, List.getElem?_set_self (List.getElem?_eq_some_iff.mp place).1, named, (none named).symm⟩
        · exact ⟨e, (List.getElem?_set_ne own).trans place, named, rfl⟩

theorem decayStep_sameAt {number : Nat} (outside : ¬ m.HasValue number peer name) :
    m.SameAt (m.decayStep number).1 peer name := by
  cases found : m.openTag number with
  | error e =>
      rw [decayStep_of_error found]
      exact .refl m peer name
  | ok d =>
      have none (named : d.name = name) : d.values.get? peer = none :=
        get?_eq_none_of_not_hasValue found (named ▸ outside)
      obtain ⟨tags, only⟩ := foldl_only_tags (settle_only_tags d) d.values.entries m
      have settled : m.SameAt (d.values.entries.foldl (settle d) m) peer name := by
        refine sameAt_of_issued (by rw [only]) (tagValue_foldl_settle_of_ne (fun named e member same => ?_) m)
        have member : (peer, e.2) ∈ d.values.entries := by
          rw [← same]
          exact member
        cases (Table.get?_eq_some_iff.mpr member).symm.trans (none named.symm)
      have opened : (d.values.entries.foldl (settle d) m).openTag number = .ok d := by
        rw [only]
        exact found
      simp only [decayStep, found]
      refine settled.trans (setValues_sameAt opened fun named => ?_)
      rw [decayed, Table.get?_filterMap, none named, Option.bind_none]

/-- Agreement at a place is also about who has a value there. -/
theorem SameAt.hasValue (h : m.SameAt m' peer name) (handles : m.SameHandles m') {number : Nat}
    (has : m'.HasValue number peer name) : m.HasValue number peer name := by
  obtain ⟨d', found', named', listed⟩ := has
  obtain ⟨d, found, named, _⟩ := handles.symm.openTag found'
  have named : d.name = name := named.trans named'
  obtain ⟨e, place, _, value⟩ := h.kept number d (openTag_eq_ok_iff.mp found).1 named
  cases place.symm.trans (openTag_eq_ok_iff.mp found').1
  rw [Table.contains, value] at listed
  exact ⟨d, found, named, listed⟩

theorem advance_sameAt (intervals : Nat) (outside : ∀ number, ¬ m.HasValue number peer name) :
    m.SameAt (m.advance intervals).1 peer name := by
  refine (advance_induction (P := fun n => m.SameHandles n ∧ m.SameAt n peer name) (fun n number both => ?_)
    ⟨.refl m, .refl m peer name⟩ intervals).2
  have still : ¬ n.HasValue number peer name := fun has => outside number (both.2.hasValue both.1 has)
  exact ⟨both.1.trans (decayStep_sameHandles n number), both.2.trans (decayStep_sameAt still)⟩

/-- An action changes nothing outside the places that it may change. -/
theorem act_sameAt {a : Action} (outside : ¬ m.Writes peer name a) : m.SameAt (m.act a) peer name := by
  cases a with
  | tag p n value => exact tag_sameAt value outside
  | untag p n => exact untag_sameAt outside
  | register n interval decay bump => exact register_sameAt n interval decay bump
  | bump number p delta => exact bump_sameAt delta outside
  | remove number p => exact remove_sameAt outside
  | close number => exact close_sameAt outside
  | advance intervals => exact advance_sameAt intervals fun number has => outside ⟨number, has⟩
  | rejectTags on => exact sameAt_of_issued rfl rfl
  | rejectRegistrations on => exact sameAt_of_issued rfl rfl
  | clearCalls => exact sameAt_of_issued rfl rfl

/-- A run changes nothing outside the places that its actions may change whenever they come. -/
theorem run_sameAt {actions : List Action} (outside : ∀ a ∈ actions, ∀ past, ¬ (m.run past).Writes peer name a) :
    m.SameAt (m.run actions) peer name := by
  induction actions generalizing m with
  | nil => exact .refl m peer name
  | cons a actions ih =>
      have first : m.SameAt (m.act a) peer name := act_sameAt (outside a List.mem_cons_self [])
      exact first.trans (ih fun b later past => outside b (List.mem_cons_of_mem a later) (a :: past))

end

/-- An action leaves the registry alone, the names aside that it may take or set free. -/
theorem act_registry_get? (m : Manager) {name : String} {a : Action} (outside : ¬ m.Renames name a) :
    (m.act a).registry.get? name = m.registry.get? name := by
  cases a with
  | register n interval decay bump =>
      rcases register_cases m n interval decay bump with ⟨_, issued⟩ | ⟨e, refused⟩
      · rw [act, issued]
        exact (Table.get?_insert ..).trans (if_neg outside)
      · rw [act, refused]
  | close number =>
      cases found : m.openTag number with
      | error e => rw [act, close_of_error found]
      | ok d =>
          obtain ⟨tags, closed⟩ := close_of_ok found
          rw [act, closed]
          refine (Table.get?_erase ..).trans (if_neg fun same => outside ?_)
          exact same ▸ openAs_of_openTag found
  | _ => rw [(act_sameHandles m rfl fun _ h => by cases h).registry]

theorem run_registry_get? (m : Manager) {name : String} {actions : List Action}
    (outside : ∀ a ∈ actions, ∀ past, ¬ (m.run past).Renames name a) :
    (m.run actions).registry.get? name = m.registry.get? name := by
  induction actions generalizing m with
  | nil => rfl
  | cons a actions ih =>
      rw [run_cons, ih (m.act a) fun b later past => outside b (List.mem_cons_of_mem a later) (a :: past),
        act_registry_get? m (outside a List.mem_cons_self [])]

/-- Actions that are not about decaying tags leave them all as they are. -/
theorem act_issued_of_direct (m : Manager) {a : Action} (direct : a.isDirect = true) :
    (m.act a).issued = m.issued := by
  cases a with
  | tag p n value =>
      rw [act, tag_eq]
      split <;> rfl
  | untag p n =>
      rw [act, untag_eq]
      split <;> rfl
  | rejectTags on => rfl
  | rejectRegistrations on => rfl
  | clearCalls => rfl
  | _ => cases direct

theorem run_issued_of_direct (m : Manager) {actions : List Action} (direct : ∀ a ∈ actions, a.isDirect = true) :
    (m.run actions).issued = m.issued := by
  induction actions generalizing m with
  | nil => rfl
  | cons a actions ih =>
      rw [run_cons, ih (m.act a) fun b later => direct b (List.mem_cons_of_mem a later),
        act_issued_of_direct m (direct a List.mem_cons_self)]

end Manager
end PeerTags
