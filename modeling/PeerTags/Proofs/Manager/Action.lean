import PeerTags.Manager.Basic
/-! Everything that is done to a manager, as data, and what each thing comes to:
which places of the table it writes, and what it leaves of the decaying tags. An
open tag that is bumped, cleared for a peer or decayed takes new values and the
table takes them with it; this is one relation, `Rewrites`. -/
namespace PeerTags

/-- A value is written over. -/
theorem Table.insert_insert {κ ν : Type} [Ord κ] [Std.TransOrd κ] [Std.LawfulEqOrd κ] (t : Table κ ν) (k : κ)
    (v w : ν) : (t.insert k v).insert k w = t.insert k w := by
  classical
  apply Table.ext
  intro k'
  simp only [Table.get?_insert]
  split <;> rfl

/-- A later state of the same decaying tag: what it was issued with stays. -/
structure DecayingTag.Continues (d d' : DecayingTag) : Prop where
  name : d'.name = d.name
  interval : d'.interval = d.interval
  decay : d'.decay = d.decay
  bump : d'.bump = d.bump
  closed : d.closed = true → d'.closed = true

theorem DecayingTag.Continues.refl (d : DecayingTag) : d.Continues d := ⟨rfl, rfl, rfl, rfl, id⟩

theorem DecayingTag.Continues.trans {d e f : DecayingTag} (h : d.Continues e) (h' : e.Continues f) :
    d.Continues f :=
  ⟨h'.name.trans h.name, h'.interval.trans h.interval, h'.decay.trans h.decay, h'.bump.trans h.bump,
    fun shut => h'.closed (h.closed shut)⟩

namespace Manager

/-- One thing done to a manager. A decaying tag is meant by its number, open or not. -/
inductive Action where
  | tag (peer : Peer) (tag : String) (value : Amount)
  | untag (peer : Peer) (tag : String)
  | register (name : String) (interval : Duration) (decay : Decay) (bump : Bump)
  | bump (number : Nat) (peer : Peer) (delta : Amount)
  | remove (number : Nat) (peer : Peer)
  | close (number : Nat)
  | advance (intervals : Nat)
  | rejectTags (on : Bool)
  | rejectRegistrations (on : Bool)
  | clearCalls

namespace Action

/-- The tag that is set or cleared directly. -/
def tagged? : Action → Option String
  | tag _ name _ | untag _ name => some name
  | _ => none

/-- The name that is to be registered. -/
def registered? : Action → Option String
  | register name .. => some name
  | _ => none

/-- The decaying tag that is used. -/
def number? : Action → Option Nat
  | bump number .. | remove number _ | close number => some number
  | _ => none

end Action

def act (m : Manager) : Action → Manager
  | .tag peer name value => (m.tag peer name value).1
  | .untag peer name => (m.untag peer name).1
  | .register name interval decay bump => (m.register name interval decay bump).1
  | .bump number peer delta => (m.bump number peer delta).1
  | .remove number peer => (m.remove number peer).1
  | .close number => (m.close number).1
  | .advance intervals => (m.advance intervals).1
  | .rejectTags on => { m with rejectsTags := on }
  | .rejectRegistrations on => { m with rejectsRegistrations := on }
  | .clearCalls => { m with calls := [] }

def run (m : Manager) (actions : List Action) : Manager := actions.foldl act m

@[simp] theorem run_nil (m : Manager) : m.run [] = m := rfl

@[simp] theorem run_cons (m : Manager) (a : Action) (rest : List Action) :
    m.run (a :: rest) = (m.act a).run rest := rfl

theorem run_append (m : Manager) (first later : List Action) :
    m.run (first ++ later) = (m.run first).run later := List.foldl_append

/-- The action breaks off because a bump's bounds are crossed. -/
def Crosses (m : Manager) : Action → Prop
  | .bump number peer delta => (m.bump number peer delta).2 = .error .crossedBounds
  | _ => False

/-- No action of the run breaks off. -/
def Calm (m : Manager) : List Action → Prop
  | [] => True
  | a :: rest => ¬ m.Crosses a ∧ (m.act a).Calm rest

theorem calm_append {m : Manager} {first later : List Action} :
    m.Calm (first ++ later) ↔ m.Calm first ∧ (m.run first).Calm later := by
  induction first generalizing m with
  | nil => simp [Calm]
  | cons a first ih => simp [Calm, ih, and_assoc]

/-- What an operation may be refused for, the names of open decaying tags aside. -/
def switches (m : Manager) : Bool × Bool × Bool := (m.supportsDecay, m.rejectsTags, m.rejectsRegistrations)

theorem switches_eq_iff {m m' : Manager} : m'.switches = m.switches ↔ m'.supportsDecay = m.supportsDecay ∧
    m'.rejectsTags = m.rejectsTags ∧ m'.rejectsRegistrations = m.rejectsRegistrations := by
  rw [switches, switches, Prod.mk.injEq, Prod.mk.injEq]

/-! Places of the table. -/

@[simp] theorem tagValue_note (m : Manager) (c : Call) (peer : Peer) (name : String) :
    (m.note c).tagValue peer name = m.tagValue peer name := rfl

@[simp] theorem tagValue_setValues (m : Manager) (number : Nat) (values : Table Peer Amount) (peer : Peer)
    (name : String) : (m.setValues number values).tagValue peer name = m.tagValue peer name := rfl

theorem tagValue_setTag (m : Manager) (peer : Peer) (name : String) (value : Amount) (peer' : Peer)
    (name' : String) : (m.setTag peer name value).tagValue peer' name' =
      if peer' = peer ∧ name' = name then some value else m.tagValue peer' name' := by
  simp only [tagValue, setTag, Table.get?_insert, Slot.mk.injEq]

theorem tagValue_clearTag (m : Manager) (peer : Peer) (name : String) (peer' : Peer) (name' : String) :
    (m.clearTag peer name).tagValue peer' name' =
      if peer' = peer ∧ name' = name then none else m.tagValue peer' name' := by
  simp only [tagValue, clearTag, Table.get?_erase, Slot.mk.injEq]

theorem mem_peerTags_iff {m : Manager} {peer : Peer} {name : String} {value : Amount} :
    (name, value) ∈ m.peerTags peer ↔ m.tagValue peer name = some value := by
  rw [tagValue, Table.get?_eq_some_iff, peerTags, List.mem_filterMap]
  constructor
  · rintro ⟨⟨⟨p, n⟩, v⟩, member, shown⟩
    split at shown
    · rename_i same
      cases same
      cases shown
      exact member
    · cases shown
  · intro member
    exact ⟨_, member, if_pos rfl⟩

theorem mem_map_peerTags_iff {m : Manager} {peer : Peer} {e : String × Int} :
    e ∈ (m.peerTags peer).map (fun e => (e.1, e.2.toInt)) ↔ ∃ v, m.tagValue peer e.1 = some v ∧ v.toInt = e.2 := by
  simp only [List.mem_map, Prod.exists]
  constructor
  · rintro ⟨n, v, member, rfl⟩
    exact ⟨v, mem_peerTags_iff.mp member, rfl⟩
  · rintro ⟨v, shows, same⟩
    exact ⟨e.1, v, mem_peerTags_iff.mpr shows, Prod.ext rfl same⟩

theorem peerTags_pairwise (m : Manager) (peer : Peer) : (m.peerTags peer).Pairwise fun a b => a.1 < b.1 := by
  refine m.tags.ordered.filterMap _ fun a b less c hc d hd => ?_
  split at hc
  · rename_i first
    split at hd
    · rename_i second
      cases hc
      cases hd
      have both : (compare a.1.peer b.1.peer).then (compare a.1.tag b.1.tag) = .lt := less
      have same : compare peer peer = .eq := Std.ReflCmp.compare_self
      rw [first, second, same] at both
      exact compareOfLessAndEq_eq_lt.mp both
    · cases hd
  · cases hc

theorem tag_eq (m : Manager) (peer : Peer) (name : String) (value : Amount) : m.tag peer name value =
    if m.rejectsTags then (m.note (.tag peer name value), .error (refusal peer name))
    else ((m.note (.tag peer name value)).setTag peer name value, .ok ()) := rfl

theorem untag_eq (m : Manager) (peer : Peer) (name : String) : m.untag peer name =
    if m.rejectsTags then (m.note (.untag peer name), .error (refusal peer name))
    else ((m.note (.untag peer name)).clearTag peer name, .ok ()) := rfl

theorem tagValue_tag (m : Manager) (peer : Peer) (name : String) (value : Amount) (peer' : Peer) (name' : String) :
    (m.tag peer name value).1.tagValue peer' name' =
      if m.rejectsTags then m.tagValue peer' name'
      else if peer' = peer ∧ name' = name then some value else m.tagValue peer' name' := by
  rw [tag_eq]
  split
  · rfl
  · exact tagValue_setTag ..

theorem tagValue_untag (m : Manager) (peer : Peer) (name : String) (peer' : Peer) (name' : String) :
    (m.untag peer name).1.tagValue peer' name' =
      if m.rejectsTags then m.tagValue peer' name'
      else if peer' = peer ∧ name' = name then none else m.tagValue peer' name' := by
  rw [untag_eq]
  split
  · rfl
  · exact tagValue_clearTag ..

/-- Steps that write nothing but the table, one after another, write nothing but the table. -/
theorem foldl_only_tags {α : Type} {f : Manager → α → Manager}
    (only : ∀ m a, ∃ tags, f m a = { m with tags }) (l : List α) (m : Manager) :
    ∃ tags, l.foldl f m = { m with tags } := by
  induction l generalizing m with
  | nil => exact ⟨m.tags, rfl⟩
  | cons a l ih =>
      obtain ⟨tags, first⟩ := only m a
      obtain ⟨tags', later⟩ := ih (f m a)
      exact ⟨tags', by rw [List.foldl_cons, later, first]⟩

theorem settle_only_tags (d : DecayingTag) (m : Manager) (e : Peer × Amount) :
    ∃ tags, settle d m e = { m with tags } := by
  unfold settle
  split <;> exact ⟨_, rfl⟩

theorem tagValue_settle (d : DecayingTag) (m : Manager) (e : Peer × Amount) (peer : Peer) (name : String) :
    (settle d m e).tagValue peer name =
      if peer = e.1 ∧ name = d.name then d.decay.next 0 e.2 else m.tagValue peer name := by
  unfold settle
  split <;> rename_i next <;> simp only [tagValue_setTag, tagValue_clearTag, next]

theorem tagValue_foldl_settle_of_ne {d : DecayingTag} {l : List (Peer × Amount)} {peer : Peer} {name : String}
    (away : name = d.name → ∀ e ∈ l, e.1 ≠ peer) (m : Manager) :
    (l.foldl (settle d) m).tagValue peer name = m.tagValue peer name := by
  induction l generalizing m with
  | nil => rfl
  | cons e l ih =>
      rw [List.foldl_cons, ih fun own e he => away own e (List.mem_cons_of_mem _ he), tagValue_settle,
        if_neg fun at_e => away at_e.2 e List.mem_cons_self at_e.1.symm]

theorem tagValue_foldl_settle_of_mem {d : DecayingTag} {l : List (Peer × Amount)}
    (ordered : l.Pairwise fun a b => compare a.1 b.1 = .lt) {peer : Peer} {value : Amount}
    (member : (peer, value) ∈ l) (m : Manager) :
    (l.foldl (settle d) m).tagValue peer d.name = d.decay.next 0 value := by
  induction l generalizing m with
  | nil => cases member
  | cons e l ih =>
      obtain ⟨head, tail⟩ := List.pairwise_cons.mp ordered
      rw [List.foldl_cons]
      rcases List.mem_cons.mp member with rfl | later
      · have away : ∀ e ∈ l, e.1 ≠ peer := by
          rintro e he rfl
          exact absurd (head e he) (by simp [Std.ReflCmp.compare_self])
        rw [tagValue_foldl_settle_of_ne fun _ => away, tagValue_settle, if_pos ⟨rfl, rfl⟩]
      · exact ih tail later _

theorem tagValue_foldl_clearTag (m : Manager) (name : String) (peers : List Peer) (peer : Peer) (name' : String) :
    (peers.foldl (fun m peer => m.clearTag peer name) m).tagValue peer name' =
      if peer ∈ peers ∧ name' = name then none else m.tagValue peer name' := by
  induction peers generalizing m with
  | nil => simp
  | cons p peers ih =>
      rw [List.foldl_cons, ih, tagValue_clearTag]
      by_cases same : name' = name <;> by_cases first : peer = p <;> simp [same, first]

/-! Decaying tags by number. -/

theorem openTag_eq_ok_iff {m : Manager} {number : Nat} {d : DecayingTag} :
    m.openTag number = .ok d ↔ m.issued[number]? = some d ∧ d.closed = false := by
  unfold openTag
  cases m.issued[number]? with
  | none => simp
  | some e =>
      simp only [Option.some.injEq]
      split
      · rename_i shut
        simp only [reduceCtorEq, false_iff, not_and]
        rintro rfl still
        exact absurd shut (by simp [still])
      · rename_i still
        simp only [Except.ok.injEq]
        exact ⟨fun same => ⟨same, same ▸ Bool.eq_false_iff.mpr still⟩, And.left⟩

theorem openTag_of_closed {m : Manager} {number : Nat} {d : DecayingTag}
    (found : m.issued[number]? = some d) (shut : d.closed = true) :
    m.openTag number = .error (.closed d.name) := by
  simp [openTag, found, shut]

theorem issued_setValues (m : Manager) (number : Nat) (values : Table Peer Amount) (k : Nat) :
    (m.setValues number values).issued[k]? =
      if k = number then (m.issued[k]?).map fun d => { d with values } else m.issued[k]? := by
  simp only [setValues, List.getElem?_modify, eq_comm (a := number)]
  split <;> simp

theorem openTag_setValues_self {m : Manager} {number : Nat} {d : DecayingTag}
    (found : m.openTag number = .ok d) (values : Table Peer Amount) :
    (m.setValues number values).openTag number = .ok { d with values } := by
  obtain ⟨inside, isOpen⟩ := openTag_eq_ok_iff.mp found
  apply openTag_eq_ok_iff.mpr
  rw [issued_setValues, if_pos rfl, inside]
  exact ⟨rfl, isOpen⟩

/-- An open decaying tag takes new values and the table takes them with it. -/
structure Rewrites (m : Manager) (number : Nat) (d : DecayingTag) (values : Table Peer Amount) (m' : Manager) :
    Prop where
  found : m.openTag number = .ok d
  registry : m'.registry = m.registry
  issued : m'.issued = (m.setValues number values).issued
  switches : m'.switches = m.switches
  own : ∀ peer, m.tagValue peer d.name = d.values.get? peer → m'.tagValue peer d.name = values.get? peer
  others : ∀ peer name, name ≠ d.name → m'.tagValue peer name = m.tagValue peer name

theorem bump_of_error {m : Manager} {number : Nat} {e : Error} (h : m.openTag number = .error e) (peer : Peer)
    (delta : Amount) : m.bump number peer delta = (m, .error e) := by
  simp [bump, h]

theorem remove_of_error {m : Manager} {number : Nat} {e : Error} (h : m.openTag number = .error e) (peer : Peer) :
    m.remove number peer = (m, .error e) := by
  simp [remove, h]

theorem close_of_error {m : Manager} {number : Nat} {e : Error} (h : m.openTag number = .error e) :
    m.close number = (m, .error e) := by
  simp [close, h]

theorem decayStep_of_error {m : Manager} {number : Nat} {e : Error} (h : m.openTag number = .error e) :
    m.decayStep number = (m, []) := by
  simp [decayStep, h]

theorem bump_of_crossed {m : Manager} {number : Nat} {d : DecayingTag} (h : m.openTag number = .ok d) {peer : Peer}
    {delta : Amount} (crossed : d.bump.apply ((d.values.get? peer).getD 0) delta = none) :
    m.bump number peer delta =
      ((m.note (.bump peer d.name delta)).setValues number (d.values.insert peer ((d.values.get? peer).getD 0)),
        .error .crossedBounds) := by
  simp [bump, h, crossed]

theorem bump_of_ok {m : Manager} {number : Nat} {d : DecayingTag} (h : m.openTag number = .ok d) {peer : Peer}
    {delta new : Amount} (value : d.bump.apply ((d.values.get? peer).getD 0) delta = some new) :
    m.bump number peer delta =
      (((m.note (.bump peer d.name delta)).setValues number (d.values.insert peer new)).setTag peer d.name new,
        .ok ()) := by
  simp [bump, h, value]

theorem bump_rewrites {m : Manager} {number : Nat} {d : DecayingTag} (h : m.openTag number = .ok d) {peer : Peer}
    {delta new : Amount} (value : d.bump.apply ((d.values.get? peer).getD 0) delta = some new) :
    m.Rewrites number d (d.values.insert peer new) (m.bump number peer delta).1 := by
  rw [bump_of_ok h value]
  refine ⟨h, rfl, rfl, rfl, fun peer' agree => ?_, fun peer' name other => ?_⟩
  · simp only [tagValue_setTag, tagValue_setValues, tagValue_note, and_true, Table.get?_insert, agree]
  · simp only [tagValue_setTag, other, and_false, if_false, tagValue_setValues, tagValue_note]

theorem remove_rewrites {m : Manager} {number : Nat} {d : DecayingTag} (h : m.openTag number = .ok d) (peer : Peer) :
    m.Rewrites number d (d.values.erase peer) (m.remove number peer).1 := by
  simp only [remove, h]
  refine ⟨h, rfl, rfl, rfl, fun peer' agree => ?_, fun peer' name other => ?_⟩
  · simp only [tagValue_clearTag, tagValue_setValues, and_true, Table.get?_erase, agree]
  · simp only [tagValue_clearTag, other, and_false, if_false, tagValue_setValues]

theorem decayStep_rewrites {m : Manager} {number : Nat} {d : DecayingTag} (h : m.openTag number = .ok d) :
    m.Rewrites number d (decayed d) (m.decayStep number).1 := by
  obtain ⟨tags, only⟩ := foldl_only_tags (settle_only_tags d) d.values.entries m
  have same (name : String) (peer : Peer) : (m.decayStep number).1.tagValue peer name =
      (d.values.entries.foldl (settle d) m).tagValue peer name := by
    simp only [decayStep, h, tagValue_setValues]
  refine ⟨h, ?_, ?_, ?_, fun peer agree => ?_, fun peer name other => ?_⟩
  · simp [decayStep, h, only, setValues]
  · simp [decayStep, h, only, setValues]
  · simp [decayStep, h, only, setValues, switches]
  · rw [same, decayed, Table.get?_filterMap]
    cases value : d.values.get? peer with
    | none =>
        have away : ∀ e ∈ d.values.entries, e.1 ≠ peer := by
          rintro ⟨_, v⟩ he rfl
          exact absurd (Table.get?_eq_some_iff.mpr he) (by simp [value])
        rw [tagValue_foldl_settle_of_ne fun _ => away, agree, value, Option.bind_none]
    | some v =>
        rw [tagValue_foldl_settle_of_mem d.values.ordered (Table.get?_eq_some_iff.mp value), Option.bind_some]
  · rw [same, tagValue_foldl_settle_of_ne fun own => absurd own other]

end Manager
end PeerTags
