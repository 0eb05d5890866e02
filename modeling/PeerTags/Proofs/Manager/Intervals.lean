import PeerTags.Proofs.Manager.Footprint
/-! Intervals, told without an order. In an interval every open decaying tag takes a turn, and
in its turn it visits each of its peers: nothing says which tag comes first, nor which peer.
`Elapsed` says what an interval leaves at each place, for every order alike, because no two
visits of an interval are to the same place. So every order leaves the same state
(`advance_in_any_order`). What is left of a value after several intervals, and what the table
shows then, is read off the same way. -/
namespace PeerTags

/-- What is left of a value after so many intervals. -/
def Decay.left (d : Decay) : (intervals : Nat) → (value : Amount) → Option Amount
  | 0, v => some v
  | n + 1, v => (d.next 0 v).bind (d.left n)

namespace Manager

/-- A decaying tag visits a peer: what it has for the peer falls, and the table takes it on. -/
def visit (number : Nat) (m : Manager) (peer : Peer) : Manager :=
  match m.openTag number with
  | .error _ => m
  | .ok d =>
    match d.values.get? peer with
    | none => m
    | some v =>
      match d.decay.next 0 v with
      | some next => (m.setValues number (d.values.insert peer next)).setTag peer d.name next
      | none => (m.setValues number (d.values.erase peer)).clearTag peer d.name

/-- A decaying tag visits every peer that it has a value for, in some order. A closed one stands still. -/
def Turn (m : Manager) (number : Nat) (m' : Manager) : Prop :=
  match m.openTag number with
  | .error _ => m' = m
  | .ok d => ∃ peers : List Peer, peers.Perm d.values.keys ∧ m' = peers.foldl (visit number) m

/-- One turn after another. -/
inductive Turns : Manager → List Nat → Manager → Prop
  | nil (m : Manager) : Turns m [] m
  | cons {m m' m'' : Manager} {number : Nat} {numbers : List Nat} (first : m.Turn number m')
      (later : Turns m' numbers m'') : Turns m (number :: numbers) m''

/-- So many intervals, in each of which the given decaying tags take their turns in some order. -/
inductive Rounds (numbers : List Nat) : Manager → Nat → Manager → Prop
  | zero (m : Manager) : Rounds numbers m 0 m
  | succ {m m' m'' : Manager} {intervals : Nat} {order : List Nat} (all : order.Perm numbers)
      (first : Turns m order m') (later : Rounds numbers m' intervals m'') : Rounds numbers m (intervals + 1) m''

/-- So many intervals of the decaying tags that are open at their beginning, in any order. -/
def Advances (m : Manager) (intervals : Nat) (m' : Manager) : Prop := Rounds m.openNumbers m intervals m'

/-- What an interval of some of the decaying tags leaves. Each of them that is open has what remains
of its values, the table shows it wherever there was a value, and nothing else is different. -/
structure Elapsed (m : Manager) (numbers : List Nat) (m' : Manager) : Prop where
  only : ∃ tags issued, m' = { m with tags, issued }
  issued : ∀ k : Nat, m'.issued[k]? = (m.issued[k]?).map fun d =>
    if k ∈ numbers ∧ d.closed = false then { d with values := decayed d } else d
  own : ∀ number ∈ numbers, ∀ (d : DecayingTag) (peer : Peer) (v : Amount), m.openTag number = .ok d →
    d.values.get? peer = some v → m'.tagValue peer d.name = d.decay.next 0 v
  others : ∀ (peer : Peer) (name : String), (∀ number ∈ numbers, ¬ m.HasValue number peer name) →
    m'.tagValue peer name = m.tagValue peer name

section

variable {m m' m'' : Manager} {number : Nat} {d : DecayingTag} {numbers : List Nat}

theorem hasValue_iff {peer : Peer} {name : String} : m.HasValue number peer name ↔
    ∃ d v, m.openTag number = .ok d ∧ d.name = name ∧ d.values.get? peer = some v := by
  simp only [HasValue, Table.contains, Option.isSome_iff_exists, exists_and_left]

/-- The places tell everything, so that the order of the tags is no matter. -/
theorem Elapsed.unique {a b : Manager} {others : List Nat} (ha : m.Elapsed numbers a) (hb : m.Elapsed others b)
    (same : ∀ k, k ∈ numbers ↔ k ∈ others) : a = b := by
  have issued : a.issued = b.issued := List.ext_getElem? fun k => by simp only [ha.issued, hb.issued, same]
  have tags : a.tags = b.tags := by
    refine Table.ext fun ⟨peer, name⟩ => ?_
    show a.tagValue peer name = b.tagValue peer name
    by_cases written : ∃ number ∈ numbers, m.HasValue number peer name
    · obtain ⟨number, listed, has⟩ := written
      obtain ⟨d, v, found, rfl, value⟩ := hasValue_iff.mp has
      rw [ha.own number listed d peer v found value, hb.own number ((same number).mp listed) d peer v found value]
    · rw [ha.others peer name fun number listed has => written ⟨number, listed, has⟩,
        hb.others peer name fun number listed has => written ⟨number, (same number).mpr listed, has⟩]
  obtain ⟨_, _, rfl⟩ := ha.only
  obtain ⟨_, _, rfl⟩ := hb.only
  cases issued
  cases tags
  rfl

theorem Elapsed.sameHandles (h : m.Elapsed numbers m') : m.SameHandles m' := by
  constructor
  · obtain ⟨_, _, rfl⟩ := h.only
    rfl
  · refine List.ext_getElem? fun k => ?_
    rw [List.getElem?_map, List.getElem?_map, h.issued]
    cases m.issued[k]? with
    | none => rfl
    | some e =>
        simp only [Option.map_some, Option.some.injEq]
        split <;> rfl

theorem Elapsed.openTag_of_mem (h : m.Elapsed numbers m') (listed : number ∈ numbers)
    (found : m.openTag number = .ok d) : m'.openTag number = .ok { d with values := decayed d } := by
  obtain ⟨place, isOpen⟩ := openTag_eq_ok_iff.mp found
  refine openTag_eq_ok_iff.mpr ⟨?_, isOpen⟩
  rw [h.issued, place, Option.map_some, if_pos ⟨listed, isOpen⟩]

theorem Elapsed.openTag_of_notMem (h : m.Elapsed numbers m') (away : number ∉ numbers) :
    m'.openTag number = m.openTag number := by
  have place : m'.issued[number]? = m.issued[number]? := by
    rw [h.issued]
    simp only [away, false_and, if_false, Option.map_id']
  rw [openTag, place]
  rfl

theorem Elapsed.hasValue_of_notMem (h : m.Elapsed numbers m') (away : number ∉ numbers) {peer : Peer} {name : String} :
    m'.HasValue number peer name ↔ m.HasValue number peer name := by
  rw [HasValue, h.openTag_of_notMem away]
  rfl

theorem Elapsed.nil (m : Manager) : m.Elapsed [] m :=
  ⟨⟨m.tags, m.issued, rfl⟩, fun k => by simp, fun number listed => absurd listed List.not_mem_nil, fun _ _ _ => rfl⟩

/-- A turn and an interval of other tags are one interval: names keep their places apart. -/
theorem Elapsed.cons (c : m.Consistent) (new : number ∉ numbers) (first : m.Elapsed [number] m')
    (later : m'.Elapsed numbers m'') : m.Elapsed (number :: numbers) m'' := by
  have away {k : Nat} (listed : k ∈ numbers) : k ∉ [number] := fun same => by
    cases List.mem_singleton.mp same
    exact new listed
  -- no later tag has the first one's name
  have apart {k : Nat} {peer : Peer} {name : String} (listed : k ∈ numbers) (named : m.OpenAs number name) :
      ¬ m'.HasValue k peer name := by
    rintro ⟨e, found, rfl, _⟩
    have opened := openAs_of_openTag ((first.openTag_of_notMem (away listed)).symm.trans found)
    cases c.number_unique opened named
    exact new listed
  refine ⟨?_, fun k => ?_, fun k listed e peer v found value => ?_, fun peer name outside => ?_⟩
  · obtain ⟨_, _, rfl⟩ := first.only
    obtain ⟨tags, issued, rfl⟩ := later.only
    exact ⟨tags, issued, rfl⟩
  · rw [later.issued, first.issued, Option.map_map]
    congr 1
    funext e
    by_cases own : k = number
    · subst own
      by_cases isOpen : e.closed = false <;> simp [new, isOpen]
    · simp [own]
  · rcases List.mem_cons.mp listed with rfl | listed
    · rw [later.others peer e.name fun j member => apart member (openAs_of_openTag found)]
      exact first.own k (List.mem_singleton.mpr rfl) e peer v found value
    · exact later.own k listed e peer v ((first.openTag_of_notMem (away listed)).trans found) value
  · rw [later.others peer name fun j member has =>
      outside j (List.mem_cons_of_mem number member) ((first.hasValue_of_notMem (away member)).mp has)]
    exact first.others peer name fun j member => by
      cases List.mem_singleton.mp member
      exact outside number List.mem_cons_self

theorem elapsed_of_error {e : Error} (refused : m.openTag number = .error e) : m.Elapsed [number] m := by
  refine ⟨⟨m.tags, m.issued, rfl⟩, fun k => ?_, fun k listed e peer v found => ?_, fun _ _ _ => rfl⟩
  · cases place : m.issued[k]? with
    | none => rfl
    | some e =>
        have still : ¬ (k ∈ [number] ∧ e.closed = false) := by
          rintro ⟨listed, isOpen⟩
          cases List.mem_singleton.mp listed
          cases (openTag_eq_ok_iff.mpr ⟨place, isOpen⟩).symm.trans refused
        rw [Option.map_some, if_neg still]
  · cases List.mem_singleton.mp listed
    cases found.symm.trans refused

/-- The interval of a single tag. -/
theorem elapsed_of_setValues (found : m.openTag number = .ok d) (only : ∃ tags issued, m' = { m with tags, issued })
    (issued : ∀ k : Nat, m'.issued[k]? = (m.setValues number (decayed d)).issued[k]?)
    (own : ∀ peer v, d.values.get? peer = some v → m'.tagValue peer d.name = d.decay.next 0 v)
    (others : ∀ peer name, (name = d.name → d.values.get? peer = none) → m'.tagValue peer name = m.tagValue peer name) :
    m.Elapsed [number] m' := by
  refine ⟨only, fun k => ?_, fun k listed e peer v opened value => ?_, fun peer name outside => ?_⟩
  · rw [issued, issued_setValues]
    by_cases here : k = number
    · subst here
      obtain ⟨place, isOpen⟩ := openTag_eq_ok_iff.mp found
      simp [place, isOpen]
    · simp [here]
  · cases List.mem_singleton.mp listed
    cases found.symm.trans opened
    exact own peer v value
  · refine others peer name fun named => ?_
    subst named
    exact get?_eq_none_of_not_hasValue found (outside number (List.mem_singleton.mpr rfl))

theorem decayStep_elapsed (m : Manager) (number : Nat) : m.Elapsed [number] (m.decayStep number).1 := by
  cases found : m.openTag number with
  | error e =>
      rw [decayStep_of_error found]
      exact elapsed_of_error found
  | ok d =>
      obtain ⟨tags, only⟩ := foldl_only_tags (settle_only_tags d) d.values.entries m
      refine elapsed_of_setValues found ?_ (fun k => ?_) (fun peer v value => ?_) fun peer name none => ?_
      · simp only [decayStep, found, only]
        exact ⟨_, _, rfl⟩
      · simp only [decayStep, found, only]
        rfl
      · simp only [decayStep, found, tagValue_setValues]
        exact tagValue_foldl_settle_of_mem d.values.ordered (Table.get?_eq_some_iff.mp value) m
      · simp only [decayStep, found, tagValue_setValues]
        refine tagValue_foldl_settle_of_ne (fun named e member same => ?_) m
        have listed : (peer, e.2) ∈ d.values.entries := by
          rw [← same]
          exact member
        cases (Table.get?_eq_some_iff.mpr listed).symm.trans (none named)

/-! Visits. Those to other peers leave a peer alone, so each visit finds the value of the beginning. -/

/-- What a decaying tag has after visits to some peers. -/
def visited (d : DecayingTag) (peers : List Peer) : Table Peer Amount :=
  d.values.filterMap fun p v => if p ∈ peers then d.decay.next 0 v else some v

theorem get?_visited (d : DecayingTag) (peers : List Peer) (peer : Peer) : (visited d peers).get? peer =
    if peer ∈ peers then (d.values.get? peer).bind (d.decay.next 0) else d.values.get? peer := by
  rw [visited, Table.get?_filterMap]
  split
  · rfl
  · exact Option.bind_fun_some _

theorem visited_of_perm {peers : List Peer} (all : peers.Perm d.values.keys) : visited d peers = decayed d := by
  refine Table.ext fun peer => ?_
  rw [get?_visited, decayed, Table.get?_filterMap]
  split
  · rfl
  · rename_i away
    have none : d.values.get? peer = none := Option.eq_none_iff_forall_ne_some.mpr fun v has =>
      away (all.mem_iff.mpr (Table.mem_keys_iff.mpr ⟨v, has⟩))
    rw [none, Option.bind_none]

/-- What visits to some of the peers leave. -/
structure Visited (m : Manager) (number : Nat) (d : DecayingTag) (peers : List Peer) (m' : Manager) : Prop where
  only : ∃ tags issued, m' = { m with tags, issued }
  issued : ∀ k : Nat, m'.issued[k]? = (m.setValues number (visited d peers)).issued[k]?
  shown : ∀ peer name, m'.tagValue peer name = if peer ∈ peers ∧ name = d.name then
    (d.values.get? peer).elim (m.tagValue peer name) (d.decay.next 0) else m.tagValue peer name

theorem visit_visited (found : m.openTag number = .ok d) (peer : Peer) :
    m.Visited number d [peer] (visit number m peer) := by
  cases value : d.values.get? peer with
  | none =>
      have same : visited d [peer] = d.values := by
        refine Table.ext fun p => ?_
        rw [get?_visited]
        split
        · rename_i here
          cases List.mem_singleton.mp here
          rw [value, Option.bind_none]
        · rfl
      simp only [visit, found, value]
      refine ⟨⟨m.tags, m.issued, rfl⟩, fun k => ?_, fun p name => ?_⟩
      · rw [same, issued_setValues]
        split
        · rename_i here
          rw [here, (openTag_eq_ok_iff.mp found).1, Option.map_some]
        · rfl
      · split
        · rename_i here
          cases List.mem_singleton.mp here.1
          rw [value, Option.elim_none]
        · rfl
  | some v =>
      cases left : d.decay.next 0 v with
      | some next =>
          have same : visited d [peer] = d.values.insert peer next := by
            refine Table.ext fun p => ?_
            rw [get?_visited, Table.get?_insert]
            by_cases here : p = peer <;> simp [here, value, left]
          simp only [visit, found, value, left]
          refine ⟨⟨_, _, rfl⟩, fun k => ?_, fun p name => ?_⟩
          · rw [same]
            rfl
          · rw [tagValue_setTag, tagValue_setValues]
            by_cases here : p = peer <;> simp [here, value, left]
      | none =>
          have same : visited d [peer] = d.values.erase peer := by
            refine Table.ext fun p => ?_
            rw [get?_visited, Table.get?_erase]
            by_cases here : p = peer <;> simp [here, value, left]
          simp only [visit, found, value, left]
          refine ⟨⟨_, _, rfl⟩, fun k => ?_, fun p name => ?_⟩
          · rw [same]
            rfl
          · rw [tagValue_clearTag, tagValue_setValues]
            by_cases here : p = peer <;> simp [here, value, left]

theorem Visited.openTag {peers : List Peer} (h : m.Visited number d peers m') (found : m.openTag number = .ok d) :
    m'.openTag number = .ok { d with values := visited d peers } := by
  obtain ⟨place, isOpen⟩ := openTag_eq_ok_iff.mp found
  refine openTag_eq_ok_iff.mpr ⟨?_, isOpen⟩
  rw [h.issued, issued_setValues, if_pos rfl, place, Option.map_some]

theorem Visited.cons {peer : Peer} {peers : List Peer} (new : peer ∉ peers) (first : m.Visited number d [peer] m')
    (later : m'.Visited number { d with values := visited d [peer] } peers m'') :
    m.Visited number d (peer :: peers) m'' := by
  have other {p : Peer} (listed : p ∈ peers) : p ∉ [peer] := fun same => by
    cases List.mem_singleton.mp same
    exact new listed
  have value {p : Peer} (listed : p ∈ peers) : (visited d [peer]).get? p = d.values.get? p := by
    rw [get?_visited, if_neg (other listed)]
  have both : visited { d with values := visited d [peer] } peers = visited d (peer :: peers) := by
    refine Table.ext fun p => ?_
    rw [get?_visited, get?_visited d (peer :: peers)]
    by_cases listed : p ∈ peers
    · rw [if_pos listed, if_pos (List.mem_cons_of_mem peer listed), value listed]
    · rw [if_neg listed, get?_visited]
      simp [listed]
  refine ⟨?_, fun k => ?_, fun p name => ?_⟩
  · obtain ⟨_, _, rfl⟩ := first.only
    obtain ⟨tags, issued, rfl⟩ := later.only
    exact ⟨tags, issued, rfl⟩
  · rw [later.issued, both, issued_setValues, issued_setValues, first.issued, issued_setValues]
    by_cases here : k = number
    · simp only [here, if_true, Option.map_map]
      rfl
    · simp only [here, if_false]
  · rw [later.shown, first.shown]
    by_cases listed : p ∈ peers
    · simp [listed, value listed, other listed]
    · simp [listed]

theorem foldl_visit_visited (found : m.openTag number = .ok d) {peers : List Peer} (once : peers.Nodup) :
    m.Visited number d peers (peers.foldl (visit number) m) := by
  induction peers generalizing m d with
  | nil =>
      refine ⟨⟨m.tags, m.issued, rfl⟩, fun k => ?_, fun _ _ => by simp⟩
      have same : visited d [] = d.values := Table.ext fun p => by simp [get?_visited]
      rw [same, issued_setValues]
      split
      · rename_i here
        rw [List.foldl_nil, here, (openTag_eq_ok_iff.mp found).1, Option.map_some]
      · rfl
  | cons peer peers ih =>
      obtain ⟨new, once⟩ := List.nodup_cons.mp once
      have first := visit_visited found peer
      exact first.cons new (ih (first.openTag found) once)

/-! Turns and rounds. -/

theorem Turn.elapsed (h : m.Turn number m') : m.Elapsed [number] m' := by
  unfold Turn at h
  cases found : m.openTag number with
  | error e =>
      rw [found] at h
      subst h
      exact elapsed_of_error found
  | ok d =>
      rw [found] at h
      obtain ⟨peers, all, rfl⟩ := h
      have once : peers.Nodup := all.nodup_iff.mpr d.values.nodup_keys
      have left := foldl_visit_visited found once
      have listed {peer : Peer} {v : Amount} (value : d.values.get? peer = some v) : peer ∈ peers :=
        all.mem_iff.mpr (Table.mem_keys_iff.mpr ⟨v, value⟩)
      refine elapsed_of_setValues found left.only (fun k => ?_) (fun peer v value => ?_) fun peer name none => ?_
      · rw [left.issued, visited_of_perm all]
      · rw [left.shown, if_pos ⟨listed value, rfl⟩, value, Option.elim_some]
      · rw [left.shown]
        split
        · rename_i here
          rw [none here.2, Option.elim_none]
        · rfl

theorem Turns.elapsed (c : m.Consistent) (once : numbers.Nodup) (h : Turns m numbers m') : m.Elapsed numbers m' := by
  induction h with
  | nil m => exact .nil m
  | cons first later ih =>
      obtain ⟨new, once⟩ := List.nodup_cons.mp once
      exact first.elapsed.cons c new (ih (first.elapsed.sameHandles.consistent c) once)

/-- The tags and their peers in the order of the tables are one order of many. -/
theorem decayStep_turn (m : Manager) (number : Nat) : m.Turn number (m.decayStep number).1 := by
  cases found : m.openTag number with
  | error e =>
      rw [Turn, found, decayStep_of_error found]
  | ok d =>
      have visits : m.Turn number (d.values.keys.foldl (visit number) m) := by
        rw [Turn, found]
        exact ⟨d.values.keys, .refl _, rfl⟩
      rw [(decayStep_elapsed m number).unique visits.elapsed fun k => .rfl]
      exact visits

theorem decayAll_turns (m : Manager) (numbers : List Nat) : Turns m numbers (m.decayAll numbers).1 := by
  rw [decayAll_fst]
  induction numbers generalizing m with
  | nil => exact .nil m
  | cons number numbers ih => exact .cons (decayStep_turn m number) (ih _)

theorem Consistent.decayAll_elapsed (c : m.Consistent) (once : numbers.Nodup) :
    m.Elapsed numbers (m.decayAll numbers).1 :=
  (decayAll_turns m numbers).elapsed c once

theorem SameHandles.openNumbers_eq (h : m.SameHandles m') : m'.openNumbers = m.openNumbers := by
  rw [openNumbers, h.registry]
  rfl

theorem advance_rounds (m : Manager) (intervals : Nat) : m.Advances intervals (m.advance intervals).1 := by
  rw [Advances]
  induction intervals generalizing m with
  | zero => exact .zero m
  | succ n ih =>
      have later := ih (m.decayAll m.openNumbers).1
      rw [(decayAll_sameHandles m m.openNumbers).openNumbers_eq] at later
      exact .succ (.refl _) (decayAll_turns m m.openNumbers) later

/-- Whatever the order, an advance comes out the same. -/
theorem Rounds.eq_advance {intervals : Nat} (h : Rounds numbers m intervals m') (c : m.Consistent)
    (all : numbers = m.openNumbers) : m' = (m.advance intervals).1 := by
  induction h with
  | zero m => rfl
  | @succ m m' m'' n order perm first later ih =>
      subst all
      have once : order.Nodup := perm.nodup_iff.mpr c.nodup_openNumbers
      have same : m' = (m.decayAll m.openNumbers).1 :=
        (first.elapsed c once).unique (c.decayAll_elapsed c.nodup_openNumbers) fun k => perm.mem_iff
      subst same
      have handles := decayAll_sameHandles m m.openNumbers
      exact ih (handles.consistent c) handles.openNumbers_eq.symm

theorem Consistent.advances_iff (c : m.Consistent) {intervals : Nat} :
    m.Advances intervals m' ↔ m' = (m.advance intervals).1 :=
  ⟨fun h => h.eq_advance c rfl, fun same => same ▸ advance_rounds m intervals⟩

theorem advance_add (m : Manager) (j k : Nat) : (m.advance (j + k)).1 = ((m.advance j).1.advance k).1 := by
  induction j generalizing m with
  | zero => rw [Nat.zero_add]; rfl
  | succ j ih =>
      rw [Nat.succ_add]
      exact ih (m.decayAll m.openNumbers).1

/-! Several intervals. -/

/-- An open decaying tag of the name, which decays in this way, has the value for the peer. -/
def Keeps (m : Manager) (peer : Peer) (name : String) (decay : Decay) (v : Amount) : Prop :=
  ∃ number d, m.openTag number = .ok d ∧ d.name = name ∧ d.decay = decay ∧ d.values.get? peer = some v

theorem not_hasValue_of_not_keeps {peer : Peer} {name : String} (none : ∀ decay v, ¬ m.Keeps peer name decay v)
    (number : Nat) : ¬ m.HasValue number peer name := by
  intro has
  obtain ⟨d, v, found, named, value⟩ := hasValue_iff.mp has
  exact none d.decay v ⟨number, d, found, named, rfl, value⟩

/-- Where no tag has a value, the table stays. -/
theorem tagValue_advance_of_not_keeps {peer : Peer} {name : String} (none : ∀ decay v, ¬ m.Keeps peer name decay v)
    (intervals : Nat) : (m.advance intervals).1.tagValue peer name = m.tagValue peer name :=
  (advance_sameAt intervals (not_hasValue_of_not_keeps none)).shown

theorem Consistent.keeps_iff (c : m.Consistent) (found : m.openTag number = .ok d) {peer : Peer} {decay : Decay}
    {v : Amount} : m.Keeps peer d.name decay v ↔ d.decay = decay ∧ d.values.get? peer = some v := by
  constructor
  · rintro ⟨k, e, found', named, decays, value⟩
    cases c.number_unique (openAs_of_openTag found) (named ▸ openAs_of_openTag found')
    cases found.symm.trans found'
    exact ⟨decays, value⟩
  · rintro ⟨decays, value⟩
    exact ⟨number, d, found, rfl, decays, value⟩

/-- Where a tag has a value, the table shows what is left of it, whatever it showed before. -/
theorem Consistent.tagValue_advance_of_keeps (c : m.Consistent) {peer : Peer} {name : String} {decay : Decay}
    {v : Amount} (keeps : m.Keeps peer name decay v) (intervals : Nat) :
    (m.advance (intervals + 1)).1.tagValue peer name = decay.left (intervals + 1) v := by
  obtain ⟨number, d, found, rfl, rfl, value⟩ := keeps
  have listed := c.mem_openNumbers (openAs_of_openTag found)
  have first := c.decayAll_elapsed c.nodup_openNumbers
  have shown := first.own number listed d peer v found value
  induction intervals generalizing m d v with
  | zero =>
      refine shown.trans ?_
      rw [Decay.left]
      exact (Option.bind_fun_some _).symm
  | succ n ih =>
      have c' := first.sameHandles.consistent c
      have found' := first.openTag_of_mem listed found
      have value' : (decayed d).get? peer = d.decay.next 0 v := by
        rw [decayed, Table.get?_filterMap, value, Option.bind_some]
      rw [Decay.left]
      cases left : d.decay.next 0 v with
      | none =>
          refine (tagValue_advance_of_not_keeps (fun decay w keeps => ?_) (n + 1)).trans (shown.trans left)
          cases ((c'.keeps_iff found').mp keeps).2.symm.trans (value'.trans left)
      | some w =>
          have listed' := c'.mem_openNumbers (openAs_of_openTag found')
          have next := c'.decayAll_elapsed c'.nodup_openNumbers
          have value'' := value'.trans left
          exact ih c' { d with values := decayed d } found' value'' listed' next
            (next.own number listed' { d with values := decayed d } peer w found' value'')

/-- Two states that agree at a place, in the table and in what is kept there, agree there for good. -/
theorem Consistent.tagValue_advance_congr (c : m.Consistent) (c' : m'.Consistent) {peer : Peer} {name : String}
    (shown : m'.tagValue peer name = m.tagValue peer name)
    (kept : ∀ decay v, m'.Keeps peer name decay v ↔ m.Keeps peer name decay v) (intervals : Nat) :
    (m'.advance intervals).1.tagValue peer name = (m.advance intervals).1.tagValue peer name := by
  cases intervals with
  | zero => exact shown
  | succ n =>
      by_cases keeps : ∃ decay v, m.Keeps peer name decay v
      · obtain ⟨decay, v, keeps⟩ := keeps
        rw [c.tagValue_advance_of_keeps keeps, c'.tagValue_advance_of_keeps ((kept decay v).mpr keeps)]
      · have none (decay : Decay) (v : Amount) : ¬ m.Keeps peer name decay v := fun has => keeps ⟨decay, v, has⟩
        rw [tagValue_advance_of_not_keeps none,
          tagValue_advance_of_not_keeps fun decay v has => none decay v ((kept decay v).mp has), shown]

end

/-- After every run, so many intervals leave the same state whatever the order in which the tags take
their turns and visit their peers, and intervals in two goes are intervals in one. -/
theorem advance_in_any_order (supportsDecay : Bool) (past : List Action) :
    let m := (new supportsDecay).run past
    (∀ intervals m', m.Advances intervals m' ↔ m' = (m.advance intervals).1) ∧
    (∀ j k m'', (∃ m', m.Advances j m' ∧ m'.Advances k m'') ↔ m.Advances (j + k) m'') ∧
    ∀ j k, ((m.advance j).1.advance k).1 = (m.advance (j + k)).1 := by
  intro m
  have c : m.Consistent := run_consistent (new_consistent supportsDecay) past
  have later (j : Nat) : (m.advance j).1.Consistent := (advance_sameHandles m j).consistent c
  refine ⟨fun intervals m' => c.advances_iff, fun j k m'' => ?_, fun j k => (advance_add m j k).symm⟩
  rw [c.advances_iff, advance_add]
  constructor
  · rintro ⟨m', first, second⟩
    cases c.advances_iff.mp first
    exact (later j).advances_iff.mp second
  · intro same
    exact ⟨_, c.advances_iff.mpr rfl, (later j).advances_iff.mpr same⟩

end Manager
end PeerTags
