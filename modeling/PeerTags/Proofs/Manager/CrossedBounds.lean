import PeerTags.Proofs.Manager.Intervals
/-! Bumps that break off. When a bump's bounds are crossed no value lies between them, and the
bump stops after the peer has its starting value and before the table is reached. So the
table is as before, but a peer without a value is left with a zero that nobody gave it, and
the next interval shows what is left of that zero. -/
namespace PeerTags

theorem Binary64.round_zero (negative : Bool) (exponent : Int) :
    ∃ e, Binary64.round negative 0 exponent = .finite negative 0 e := by
  unfold Binary64.round
  simp only
  split
  · exact ⟨exponent, rfl⟩
  · have positive : 0 < Nat.pow 2 (max (exponent + (Nat.log2 0 : Int) - 52) (-1074) - exponent).toNat :=
      Nat.pow_pos (by decide)
    have zero : nearest 0 (Nat.pow 2 (max (exponent + (Nat.log2 0 : Int) - 52) (-1074) - exponent).toNat) = 0 := by
      simp only [nearest, Nat.zero_mod, Nat.zero_div, Nat.mul_zero, positive, if_true]
    rw [zero]
    exact ⟨_, rfl⟩

theorem Binary64.floorAmount_zero_mul (x : Binary64) : ((Binary64.ofInt 0).mul x).floorAmount = 0 := by
  have zero : Binary64.ofInt 0 = .finite false 0 0 := by decide
  rw [zero]
  cases x with
  | nan => rfl
  | infinite negative => rfl
  | finite negative mantissa exponent =>
      obtain ⟨e, rounded⟩ := Binary64.round_zero (false != negative) (0 + exponent)
      rw [Binary64.mul, Nat.zero_mul, rounded]
      simp [Binary64.floorAmount, Binary64.floor]
      rfl

/-- Zero falls away at once, unless the value never falls, is raised, or may wait. What any other
function makes of zero is its own affair. -/
def Decay.DropsZero : Decay → Prop
  | never => False
  | fixed amount => 0 ≤ amount.toInt
  | linear _ => True
  | expiring after => after = 0
  | custom next => next 0 0 = none

theorem Decay.next_zero_eq_none_iff (d : Decay) : d.next 0 0 = none ↔ d.DropsZero := by
  cases d with
  | never => simp [Decay.next, DropsZero]
  | fixed amount =>
      have zero : (0 : Amount).toInt = 0 := rfl
      simp only [Decay.next, Decay.positive?, Amount.toInt_sub, zero, DropsZero]
      have := amount.least_le
      split
      · simp only [reduceCtorEq, false_iff]; omega
      · simp only [true_iff]; omega
  | linear coefficient =>
      have zero : (0 : Amount).toInt = 0 := rfl
      simp [Decay.next, zero, Binary64.floorAmount_zero_mul, Decay.positive?, DropsZero]
  | expiring after => simp [Decay.next, DropsZero]
  | custom next => exact Iff.rfl

namespace Manager

/-- Interval by interval, every peer shows the same tags in both states. -/
def ShowsAlike (m m' : Manager) : Prop :=
  ∀ intervals peer, (m'.advance intervals).1.peerTags peer = (m.advance intervals).1.peerTags peer

theorem showsAlike_iff {m m' : Manager} : m.ShowsAlike m' ↔
    ∀ intervals peer name,
      (m'.advance intervals).1.tagValue peer name = (m.advance intervals).1.tagValue peer name := by
  constructor
  · intro alike n peer name
    ext v
    rw [← mem_peerTags_iff, ← mem_peerTags_iff, alike]
  · intro same n peer
    have tags : (m'.advance n).1.tags = (m.advance n).1.tags := Table.ext fun s => same n s.peer s.tag
    rw [peerTags, tags, peerTags]

section

variable {m : Manager} {number : Nat} {d : DecayingTag} {peer : Peer} {delta : Amount}

theorem crossed_of_bounded {least greatest : Amount} (bounded : d.bump = .bounded least greatest)
    (crossed : greatest < least) (old delta : Amount) : d.bump.apply old delta = none := by
  have apart : ¬ least ≤ greatest := by
    rw [Amount.le_iff]
    rw [Amount.lt_iff] at crossed
    omega
  rw [bounded, Bump.apply, if_neg apart]

/-- The values are those of before, with a zero for the peer if there was none. -/
theorem insert_started (d : DecayingTag) (peer : Peer) : d.values.insert peer ((d.values.get? peer).getD 0) =
    if d.values.contains peer then d.values else d.values.insert peer 0 := by
  cases value : d.values.get? peer with
  | none => simp [Table.contains, value]
  | some v =>
      rw [Table.contains, value, Option.isSome_some, if_pos rfl, Option.getD_some]
      ext p w
      rw [Table.get?_insert]
      split
      · rename_i here
        rw [here, value]
      · rfl

variable (found : m.openTag number = .ok d) (crossed : d.bump.apply ((d.values.get? peer).getD 0) delta = none)
include found crossed

theorem bump_of_crossed_tags : (m.bump number peer delta).1.tags = m.tags := by
  rw [bump_of_crossed found crossed]
  rfl

theorem tagValue_bump_of_crossed (p : Peer) (name : String) :
    (m.bump number peer delta).1.tagValue p name = m.tagValue p name := by
  rw [tagValue, bump_of_crossed_tags found crossed]
  rfl

theorem issued_bump_of_crossed (k : Nat) : (m.bump number peer delta).1.issued[k]? = if k = number then
    some { d with values := if d.values.contains peer then d.values else d.values.insert peer 0 }
    else m.issued[k]? := by
  rw [bump_of_crossed found crossed, issued_setValues, insert_started]
  split
  · rename_i here
    have place : (m.note (.bump peer d.name delta)).issued[k]? = some d := here ▸ (openTag_eq_ok_iff.mp found).1
    rw [place, Option.map_some]
  · rfl

theorem openTag_bump_of_crossed : (m.bump number peer delta).1.openTag number =
    .ok { d with values := if d.values.contains peer then d.values else d.values.insert peer 0 } := by
  apply openTag_eq_ok_iff.mpr
  rw [issued_bump_of_crossed found crossed, if_pos rfl]
  exact ⟨rfl, (openTag_eq_ok_iff.mp found).2⟩

theorem openTag_bump_of_crossed_of_ne {k : Nat} (other : k ≠ number) :
    (m.bump number peer delta).1.openTag k = m.openTag k := by
  rw [openTag, issued_bump_of_crossed found crossed, if_neg other]
  rfl

/-- What the tags keep is as it was, but for the zero. -/
theorem keeps_bump_of_crossed {p : Peer} {name : String}
    (other : (p = peer ∧ name = d.name) → d.values.contains peer = true) (decay : Decay) (v : Amount) :
    (m.bump number peer delta).1.Keeps p name decay v ↔ m.Keeps p name decay v := by
  have values (own : d.name = name) : (if d.values.contains peer then d.values else d.values.insert peer 0).get? p =
      d.values.get? p := by
    split
    · rfl
    · rename_i without
      rw [Table.get?_insert, if_neg]
      intro same
      exact without (other ⟨same, own.symm⟩)
  constructor
  · rintro ⟨k, e, opened, named, decays, value⟩
    by_cases here : k = number
    · subst here
      rw [openTag_bump_of_crossed found crossed] at opened
      cases opened
      exact ⟨k, d, found, named, decays, (values named).symm.trans value⟩
    · rw [openTag_bump_of_crossed_of_ne found crossed here] at opened
      exact ⟨k, e, opened, named, decays, value⟩
  · rintro ⟨k, e, opened, named, decays, value⟩
    by_cases here : k = number
    · subst here
      cases found.symm.trans opened
      exact ⟨k, _, openTag_bump_of_crossed found crossed, named, decays, (values named).trans value⟩
    · refine ⟨k, e, ?_, named, decays, value⟩
      rw [openTag_bump_of_crossed_of_ne found crossed here]
      exact opened

theorem keeps_zero_of_crossed (without : d.values.contains peer = false) :
    (m.bump number peer delta).1.Keeps peer d.name d.decay 0 := by
  refine ⟨number, _, openTag_bump_of_crossed found crossed, rfl, rfl, ?_⟩
  simp only [without, Bool.false_eq_true, if_false, Table.get?_insert, if_true]

/-- The zero is all that later intervals can tell from the state before. -/
theorem Consistent.tagValue_advance_bump_of_crossed (c : m.Consistent) (intervals : Nat) (p : Peer) (name : String) :
    ((m.bump number peer delta).1.advance (intervals + 1)).1.tagValue p name =
      if (p = peer ∧ name = d.name) ∧ d.values.contains peer = false then d.decay.left (intervals + 1) 0
      else (m.advance (intervals + 1)).1.tagValue p name := by
  have c' := (bump_sameHandles m number peer delta).consistent c
  split
  · rename_i started
    obtain ⟨⟨rfl, rfl⟩, without⟩ := started
    exact c'.tagValue_advance_of_keeps (keeps_zero_of_crossed found crossed without) intervals
  · rename_i not
    apply c.tagValue_advance_congr c' (tagValue_bump_of_crossed found crossed p name)
    · apply keeps_bump_of_crossed found crossed
      intro here
      apply Classical.byContradiction
      intro without
      exact not ⟨here, Bool.eq_false_iff.mpr without⟩

theorem Consistent.showsAlike_bump_of_crossed_iff (c : m.Consistent) :
    m.ShowsAlike (m.bump number peer delta).1 ↔
      d.values.contains peer = true ∨ ∀ intervals, d.decay.left (intervals + 1) 0 = m.tagValue peer d.name := by
  have later := c.tagValue_advance_bump_of_crossed found crossed
  have nothing (without : d.values.contains peer = false) (decay : Decay) (v : Amount) :
      ¬ m.Keeps peer d.name decay v := by
    intro keeps
    rw [Table.contains, ((c.keeps_iff found).mp keeps).2] at without
    cases without
  rw [showsAlike_iff]
  constructor
  · intro same
    cases without : d.values.contains peer with
    | true => exact .inl rfl
    | false =>
        apply Or.inr
        intro n
        have shown := same (n + 1) peer d.name
        rw [later, if_pos ⟨⟨rfl, rfl⟩, without⟩, tagValue_advance_of_not_keeps (nothing without)] at shown
        exact shown
  · intro known n p name
    cases n with
    | zero => exact tagValue_bump_of_crossed found crossed p name
    | succ n =>
        rw [later]
        split
        · rename_i started
          obtain ⟨⟨rfl, rfl⟩, without⟩ := started
          rw [tagValue_advance_of_not_keeps (nothing without)]
          rw [without] at known
          exact (known.resolve_left Bool.false_ne_true) n
        · rfl

end

/-- A bump under crossed bounds breaks off. The table, the registry and all other decaying tags are
as before, and so is this one unless the peer had no value: then it has a zero, and from the next
interval on the table shows what is left of that zero, all else as it would have been. So nothing
is ever seen of the bump just when the peer had a value, or what is left of zero is what the table
shows anyway; where it shows nothing, just when zero falls away at once. All this is so whatever the
decay is, and it is known of each of the stock ones whether they drop zero. -/
theorem crossed_bump_unseen_iff (supportsDecay : Bool) (past : List Action) (number : Nat) (d : DecayingTag)
    (least greatest : Amount) (peer : Peer) (delta : Amount)
    (found : ((new supportsDecay).run past).openTag number = .ok d) (bounded : d.bump = .bounded least greatest)
    (crossed : greatest < least) :
    let m := (new supportsDecay).run past
    let after := (m.bump number peer delta).1
    (m.bump number peer delta).2 = .error .crossedBounds ∧
    after.tags = m.tags ∧ after.registry = m.registry ∧
    (∀ k, k ≠ number → after.issued[k]? = m.issued[k]?) ∧
    after.openTag number =
      .ok { d with values := if d.values.contains peer then d.values else d.values.insert peer 0 } ∧
    (∀ intervals p name, (after.advance (intervals + 1)).1.tagValue p name =
      if (p = peer ∧ name = d.name) ∧ d.values.contains peer = false then d.decay.left (intervals + 1) 0
      else (m.advance (intervals + 1)).1.tagValue p name) ∧
    (m.ShowsAlike after ↔
      d.values.contains peer = true ∨ ∀ intervals, d.decay.left (intervals + 1) 0 = m.tagValue peer d.name) ∧
    (m.tagValue peer d.name = none →
      (m.ShowsAlike after ↔ d.values.contains peer = true ∨ d.decay.next 0 0 = none)) ∧
    (d.decay.next 0 0 = none ↔ d.decay.DropsZero) := by
  intro m after
  have c : m.Consistent := run_consistent (new_consistent supportsDecay) past
  have broken := crossed_of_bounded bounded crossed ((d.values.get? peer).getD 0) delta
  have alike := c.showsAlike_bump_of_crossed_iff found broken
  refine ⟨congrArg Prod.snd (bump_of_crossed found broken), bump_of_crossed_tags found broken,
    (bump_sameHandles m number peer delta).registry, fun k other => ?_, openTag_bump_of_crossed found broken,
    c.tagValue_advance_bump_of_crossed found broken, alike, fun bare => ?_, d.decay.next_zero_eq_none_iff⟩
  · rw [issued_bump_of_crossed found broken, if_neg other]
  · rw [alike, bare]
    apply or_congr_right
    constructor
    · intro gone
      have first := gone 0
      rwa [Decay.left, show d.decay.left 0 = some from rfl, Option.bind_fun_some] at first
    · intro gone n
      rw [Decay.left, gone, Option.bind_none]

/-- A tag that loses one an interval drops the zero, and nothing is seen of the bump. -/
theorem crossed_bump_of_falling_tag_unseen :
    let p : Peer := ⟨.identity, [], by decide⟩
    let m := (new true).run [.register "x" (.ofSecs 1) (.fixed 1) (.bounded 1 0)]
    (m.bump 0 p 1).2 = .error .crossedBounds ∧ m.ShowsAlike (m.bump 0 p 1).1 := by
  intro p m
  obtain ⟨broken, _, _, _, _, _, _, alike, drops⟩ := crossed_bump_unseen_iff true
    [.register "x" (.ofSecs 1) (.fixed 1) (.bounded 1 0)] 0 ⟨"x", .ofSecs 1, .fixed 1, .bounded 1 0, ∅, false⟩ 1 0 p 1
    rfl rfl (by decide)
  have one : (Decay.fixed 1).DropsZero := by
    rw [Decay.DropsZero]
    decide
  exact ⟨broken, (alike rfl).mpr (.inr (drops.mpr one))⟩

/-- A tag that never falls keeps the zero, and shows it after an interval to a peer that was never
bumped. -/
theorem crossed_bump_of_lasting_tag_seen : ¬ ∀ (past : List Action) (number : Nat) (d : DecayingTag)
    (least greatest : Amount) (peer : Peer) (delta : Amount), ((new true).run past).openTag number = .ok d →
    d.bump = .bounded least greatest → greatest < least →
    let m := (new true).run past
    let after := (m.bump number peer delta).1
    (m.bump number peer delta).2 = .error .crossedBounds →
      after.issued = m.issued ∧ after.tags = m.tags ∧ m.ShowsAlike after := by
  intro traceless
  let p : Peer := ⟨.identity, [], by decide⟩
  obtain ⟨_, _, alike⟩ := traceless [.register "x" (.ofSecs 1) .never (.bounded 1 0)] 0
    ⟨"x", .ofSecs 1, .never, .bounded 1 0, ∅, false⟩ 1 0 p 1 rfl rfl (by decide) rfl
  have shown := alike 1 p
  let m := (new true).run [.register "x" (.ofSecs 1) .never (.bounded 1 0)]
  have zero : ((m.bump 0 p 1).1.advance 1).1.peerTags p = [("x", 0)] := by decide +kernel
  have bare : (m.advance 1).1.peerTags p = [] := by decide +kernel
  rw [zero, bare] at shown
  cases shown

end Manager
end PeerTags
