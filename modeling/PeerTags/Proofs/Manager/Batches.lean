import Mathlib.Algebra.Order.BigOperators.Group.List
import Mathlib.Algebra.Order.Ring.Int
import PeerTags.Proofs.Manager.Action
/-! Bumps in a row. As long as nothing is taken off, a bump that adds meets its ceiling once and
stays there, so many bumps come to one exact sum under the ceiling: it makes no difference in
which order they come, nor which of them are added up beforehand. -/
namespace PeerTags

namespace Bump

/-- Where a bump that adds stops. -/
def ceiling : Bump → Amount
  | sum | overwrite | custom _ => Amount.greatest
  | bounded _ greatest | capped greatest => greatest

/-- The bump adds, and the value lies within its bounds. -/
def Accumulates : Bump → Amount → Prop
  | sum, _ => True
  | bounded least greatest, v => least ≤ v ∧ v ≤ greatest
  | capped greatest, v => v ≤ greatest
  | overwrite, _ | custom _, _ => False

theorem Accumulates.le_ceiling {b : Bump} {v : Amount} (h : b.Accumulates v) : v.toInt ≤ b.ceiling.toInt := by
  cases b with
  | sum => exact v.le_greatest
  | bounded least greatest => exact h.2
  | capped greatest => exact h
  | overwrite | custom => exact h.elim

/-- What a bump between two bounds comes to is the exact sum, moved to the nearer bound. -/
theorem apply_bounded (least greatest v delta : Amount) :
    ((bounded least greatest).apply v delta).map Amount.toInt =
      if least ≤ greatest then some (max least.toInt (min (v.toInt + delta.toInt) greatest.toInt)) else none := by
  rw [apply]
  split
  · rename_i ordered
    -- the saturated sum differs from the exact one only beyond both bounds
    have low := least.least_le
    have high := greatest.le_greatest
    have within : least.toInt ≤ greatest.toInt := ordered
    rw [Option.map_some, Amount.toInt_max, Amount.toInt_min, Amount.toInt_add]
    exact congrArg some (by omega)
  · rfl

theorem Accumulates.apply {b : Bump} {v : Amount} (h : b.Accumulates v) {delta : Amount} (added : 0 ≤ delta.toInt) :
    ∃ w, b.apply v delta = some w ∧ w.toInt = min (v.toInt + delta.toInt) b.ceiling.toInt ∧ b.Accumulates w := by
  have low := v.least_le
  have sum := Amount.toInt_add v delta
  cases b with
  | sum =>
      have least := delta.least_le
      have stop : (ceiling .sum).toInt = 9223372036854775807 := rfl
      refine ⟨_, rfl, ?_, trivial⟩
      rw [sum, stop]
      omega
  | bounded least greatest =>
      obtain ⟨above, below⟩ : least.toInt ≤ v.toInt ∧ v.toInt ≤ greatest.toInt := h
      have ordered : least ≤ greatest := Int.le_trans above below
      have value := apply_bounded least greatest v delta
      rw [if_pos ordered] at value
      obtain ⟨w, applied, exactly⟩ := Option.map_eq_some_iff.mp value
      have equal : w.toInt = min (v.toInt + delta.toInt) greatest.toInt := by omega
      refine ⟨w, applied, equal, ?_, ?_⟩
      · rw [Amount.le_iff]
        omega
      · rw [Amount.le_iff]
        omega
  | capped greatest =>
      have high := greatest.le_greatest
      have equal : (min (v + delta) greatest).toInt = min (v.toInt + delta.toInt) greatest.toInt := by
        have below : v.toInt ≤ greatest.toInt := h
        rw [Amount.toInt_min, sum]
        omega
      refine ⟨_, rfl, equal, ?_⟩
      rw [Accumulates, Amount.le_iff, equal]
      omega
  | overwrite | custom => exact h.elim

/-- Many bumps come to the exact sum, up to the ceiling. -/
theorem Accumulates.foldlM {b : Bump} {v : Amount} (h : b.Accumulates v) {deltas : List Amount}
    (added : ∀ d ∈ deltas, 0 ≤ d.toInt) :
    ∃ w, deltas.foldlM b.apply v = some w ∧
      w.toInt = min (v.toInt + (deltas.map Amount.toInt).sum) b.ceiling.toInt ∧ b.Accumulates w := by
  induction deltas generalizing v with
  | nil =>
      have below := h.le_ceiling
      refine ⟨v, rfl, ?_, h⟩
      rw [List.map_nil, List.sum_nil]
      omega
  | cons d deltas ih =>
      obtain ⟨first, later⟩ := List.forall_mem_cons.mp added
      obtain ⟨u, applied, once, still⟩ := h.apply first
      obtain ⟨w, folded, equal, there⟩ := ih still later
      have rest : 0 ≤ (deltas.map Amount.toInt).sum := List.sum_nonneg (by simpa using later)
      refine ⟨w, ?_, ?_, there⟩
      · rw [List.foldlM_cons, applied]
        exact folded
      · -- either the ceiling was met already, and the rest is not negative, or the sum is still exact
        rw [equal, once, List.map_cons, List.sum_cons]
        omega

end Bump

namespace Manager

variable {m : Manager} {number : Nat} {d : DecayingTag} {peer : Peer} {w : Amount}

/-- Bumps in a row leave the peer with what they come to one by one, and the table shows it. -/
theorem run_bumps {deltas : List Amount} (nonempty : deltas ≠ []) (found : m.openTag number = .ok d)
    (value : deltas.foldlM d.bump.apply ((d.values.get? peer).getD 0) = some w) :
    (m.run (deltas.map fun delta => .bump number peer delta)).openTag number =
        .ok { d with values := d.values.insert peer w } ∧
      (m.run (deltas.map fun delta => .bump number peer delta)).tagValue peer d.name = some w := by
  induction deltas generalizing m d with
  | nil => contradiction
  | cons delta deltas ih =>
      obtain ⟨v, first, later⟩ := Option.bind_eq_some_iff.mp value
      have bumped := bump_of_ok found first
      have opened : (m.bump number peer delta).1.openTag number = .ok { d with values := d.values.insert peer v } := by
        rw [bumped]
        exact openTag_setValues_self (m := m.note (.bump peer d.name delta)) found _
      rw [List.map_cons, run_cons, act]
      by_cases last : deltas = []
      · subst last
        cases later
        refine ⟨opened, ?_⟩
        rw [List.map_nil, run_nil, bumped, tagValue_setTag, if_pos ⟨rfl, rfl⟩]
      · have next := ih last opened
        simp only [Table.get?_insert, if_pos, Option.getD_some, Table.insert_insert] at next
        exact next later

/-- Amounts that are not negative, given one after another, come to their exact sum up to the ceiling: the
greatest amount, the cap, or the upper bound. So it makes no difference in which order they come, nor
whether some are added up beforehand; and what a manager keeps and shows after so many bumps is the same
figure. Between two bounds one amount of either sign comes to the exact sum, moved to the nearer bound. -/
theorem bumps_batch (deltas : List Amount) (added : ∀ d ∈ deltas, 0 ≤ d.toInt) :
    let total := (deltas.map Amount.toInt).sum
    (∀ v, ∃ w, deltas.foldlM Bump.sum.apply v = some w ∧ w.toInt = min (v.toInt + total) Amount.greatest.toInt) ∧
    (∀ greatest v, v ≤ greatest → ∃ w, deltas.foldlM (Bump.capped greatest).apply v = some w ∧
      w.toInt = min (v.toInt + total) greatest.toInt) ∧
    (∀ least greatest v, least ≤ v → v ≤ greatest →
      ∃ w, deltas.foldlM (Bump.bounded least greatest).apply v = some w ∧
        w.toInt = min (v.toInt + total) greatest.toInt) ∧
    (∀ (b : Bump) v (others : List Amount), b.Accumulates v → (∀ d ∈ others, 0 ≤ d.toInt) →
      (others.map Amount.toInt).sum = total → others.foldlM b.apply v = deltas.foldlM b.apply v) ∧
    (∀ (m : Manager) number d peer, m.openTag number = .ok d →
      d.bump.Accumulates ((d.values.get? peer).getD 0) → deltas ≠ [] →
      ∃ w : Amount, w.toInt = min (((d.values.get? peer).getD 0).toInt + total) d.bump.ceiling.toInt ∧
        (m.run (deltas.map fun delta => .bump number peer delta)).openTag number =
          .ok { d with values := d.values.insert peer w } ∧
        (m.run (deltas.map fun delta => .bump number peer delta)).tagValue peer d.name = some w) ∧
    ∀ least greatest v delta, ((Bump.bounded least greatest).apply v delta).map Amount.toInt =
      if least ≤ greatest then some (max least.toInt (min (v.toInt + delta.toInt) greatest.toInt)) else none := by
  intro total
  have exactly {b : Bump} {v : Amount} (h : b.Accumulates v) :
      ∃ w, deltas.foldlM b.apply v = some w ∧ w.toInt = min (v.toInt + total) b.ceiling.toInt := by
    obtain ⟨w, folded, equal, _⟩ := h.foldlM added
    exact ⟨w, folded, equal⟩
  refine ⟨?_, ?_, ?_, ?_, ?_, Bump.apply_bounded⟩
  · intro v
    exact exactly (b := .sum) trivial
  · intro greatest v below
    exact exactly (b := .capped greatest) below
  · intro least greatest v above below
    exact exactly (b := .bounded least greatest) ⟨above, below⟩
  · intro b v others h added' same
    obtain ⟨w, folded, equal⟩ := exactly h
    obtain ⟨w', folded', equal', _⟩ := h.foldlM added'
    have alike : w' = w := Amount.ext (by rw [equal', equal, same])
    rw [folded, folded', alike]
  · intro m number d peer found h nonempty
    obtain ⟨w, folded, equal⟩ := exactly h
    exact ⟨w, equal, run_bumps nonempty found folded⟩

/-- Three bumps meet the end of the range, a cap and an upper bound on the way; one bump by their sum does
the same. -/
theorem twelve_in_three_bumps :
    let p : Peer := ⟨.identity, [], by decide⟩
    let deltas : List Amount := [7, 5, 0]
    let low : Amount := ⟨-3, by decide, by decide⟩
    let high : Amount := ⟨9223372036854775800, by decide, by decide⟩
    let m := (new true).run [.register "x" (.ofSecs 1) .never (.capped 8), .bump 0 p low]
    (∀ d ∈ deltas, 0 ≤ d.toInt) ∧
    deltas.foldlM Bump.sum.apply high = some Amount.greatest ∧
    deltas.foldlM (Bump.capped 8).apply low = some 8 ∧
    deltas.foldlM (Bump.bounded low 8).apply low = some 8 ∧
    [12].foldlM (Bump.bounded low 8).apply low = deltas.foldlM (Bump.bounded low 8).apply low ∧
    m.tagValue p "x" = some low ∧
    (m.run (deltas.map fun delta => .bump 0 p delta)).tagValue p "x" = some 8 ∧
    ((Bump.bounded low 8).apply 4 ⟨-9, by decide, by decide⟩).map Amount.toInt = some (-3) := by
  intro p deltas low high m
  have added : ∀ d ∈ deltas, 0 ≤ d.toInt := by
    intro d member
    simp only [deltas, List.mem_cons, List.not_mem_nil, or_false] at member
    obtain rfl | rfl | rfl := member <;> decide
  have below : low ≤ 8 := by decide
  obtain ⟨unbounded, capped, bounded, regrouped, shown, once⟩ := bumps_batch deltas added
  obtain ⟨u, summed, total⟩ := unbounded high
  obtain ⟨v, under, cap⟩ := capped 8 low below
  obtain ⟨w, between, bound⟩ := bounded low 8 low (by decide) below
  obtain ⟨x, kept, _, value⟩ :=
    shown m 0 ⟨"x", .ofSecs 1, .never, .capped 8, (∅ : Table Peer Amount).insert p low, false⟩ p rfl below
      (List.cons_ne_nil _ _)
  refine ⟨added, ?_, ?_, ?_, ?_, by decide +kernel, ?_, ?_⟩
  · rw [summed, show u = Amount.greatest from Amount.ext total]
  · rw [under, show v = 8 from Amount.ext cap]
  · rw [between, show w = 8 from Amount.ext bound]
  · exact regrouped (.bounded low 8) low [12] ⟨by decide, below⟩ (List.forall_mem_singleton.mpr (by decide)) rfl
  · rw [value, show x = 8 from Amount.ext kept]
  · rw [once]
    decide

end Manager
end PeerTags
