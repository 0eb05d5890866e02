import PeerTags.Proofs.Binary64
import PeerTags.Proofs.Manager.FixedDecay
/-! Decay by a coefficient below one. The product is rounded twice, but what is left of a value is
always less than the value, so the values of one entry fall until the entry goes, and it goes
after no more intervals than the value has points. -/
namespace PeerTags

namespace Decay

/-- What is left of a value is positive and less than the value. -/
def Falls (d : Decay) : Prop :=
  ∀ idle v w, d.next idle v = some w → 0 < w.toInt ∧ w.toInt < v.toInt

/-- The floor of the rounded product is below the amount, or it is not positive. -/
theorem floor_lt {v : Amount} {V c P : ℚ} (first : Binary64.Rounds v.toInt V) (second : Binary64.Rounds (V * c) P)
    (coefficient : Binary64.InFormat c) (nonneg : 0 ≤ c) (below : c < 1) (positive : 0 < ⌊P⌋) : ⌊P⌋ < v.toInt := by
  have above : 0 < P := by
    have one : (1 : ℚ) ≤ P := by exact_mod_cast Int.le_floor.mp positive
    linarith
  have present : 1 ≤ v.toInt := by
    by_contra absent
    have low : (v.toInt : ℚ) ≤ 0 := by exact_mod_cast (by omega : v.toInt ≤ 0)
    have factor : V ≤ 0 := first.le_of_le Binary64.inFormat_zero low
    have product : P ≤ 0 := second.le_of_le Binary64.inFormat_zero (mul_nonpos_of_nonpos_of_nonneg factor nonneg)
    linarith
  have large : 1 ≤ V := by
    apply first.ge_of_ge (by simpa using Binary64.inFormat_two_pow 0)
    exact_mod_cast present
  have less : P < V := second.mul_lt first.inFormat large coefficient below
  -- the product is in the format, so it would not be below the rounded amount if the amount were not above it
  have exactly : P < v.toInt := by
    by_contra beyond
    exact absurd (first.le_of_le second.inFormat (not_lt.mp beyond)) (not_le.mpr less)
  exact Int.floor_lt.mpr exactly

theorem next_linear {x : Binary64} {c : ℚ} (value : x.toRat? = some c) (small : |c| ≤ 1) (idle : Nat) (v : Amount) :
    ∃ V P : ℚ, Binary64.Rounds v.toInt V ∧ Binary64.Rounds (V * c) P ∧
      (linear x).next idle v = positive? (Amount.clamp ⌊P⌋) := by
  obtain ⟨V, P, first, second, equal⟩ := Binary64.floorAmount_mul v value small
  exact ⟨V, P, first, second, congrArg positive? equal⟩

theorem falls_linear {x : Binary64} {c : ℚ} (value : x.toRat? = some c) (coefficient : Binary64.InFormat c)
    (nonneg : 0 ≤ c) (below : c < 1) : (linear x).Falls := by
  intro idle v w next
  obtain ⟨V, P, first, second, equal⟩ := next_linear value (abs_le.mpr ⟨by linarith, below.le⟩) idle v
  rw [equal, positive?] at next
  split at next
  · rename_i positive
    cases next
    have clamped := Amount.toInt_clamp ⌊P⌋
    have less : 0 < ⌊P⌋ → ⌊P⌋ < v.toInt := floor_lt first second coefficient nonneg below
    omega
  · cases next

/-- Falling values end, after no more intervals than the first one has points. -/
theorem Falls.run {d : Decay} (falls : d.Falls) (idle : Nat) {intervals : Nat} {v : Amount}
    (enough : max 1 v.toInt ≤ intervals) :
    ∃ ws : List Amount, d.run idle intervals v = ws.map some ++ [none] ∧ ws.length + 1 ≤ max 1 v.toInt ∧
      (v :: ws).IsChain (fun a b => b.toInt < a.toInt) := by
  induction intervals generalizing v with
  | zero => omega
  | succ n ih =>
      rw [Decay.run]
      cases next : d.next idle v with
      | none => exact ⟨[], rfl, by simp, .singleton v⟩
      | some w =>
          obtain ⟨positive, less⟩ := falls idle v w next
          obtain ⟨ws, rest, short, chain⟩ := ih (v := w) (by omega)
          refine ⟨w :: ws, ?_, ?_, .cons_cons less chain⟩
          · simp only [rest, List.map_cons, List.cons_append]
          · rw [List.length_cons]
            omega

theorem Falls.left {d : Decay} (falls : d.Falls) {intervals : Nat} {v : Amount}
    (enough : max 1 v.toInt ≤ intervals) : d.left intervals v = none := by
  induction intervals generalizing v with
  | zero => omega
  | succ n ih =>
      rw [Decay.left]
      cases next : d.next 0 v with
      | none => rfl
      | some w =>
          obtain ⟨positive, less⟩ := falls 0 v w next
          exact ih (v := w) (by omega)

end Decay

namespace Manager

variable {m : Manager} {number : Nat} {d : DecayingTag} {peer : Peer} {v : Amount}

/-- The entry of a decaying tag whose values fall is gone after so many intervals, and the table shows nothing. -/
theorem Consistent.advance_falling (c : m.Consistent) (found : m.openTag number = .ok d) (falls : d.decay.Falls)
    (value : d.values.get? peer = some v) {intervals : Nat} (enough : max 1 v.toInt ≤ intervals) :
    ∃ values, (m.advance intervals).1.openTag number = .ok { d with values } ∧ values.get? peer = none ∧
      (m.advance intervals).1.tagValue peer d.name = none := by
  obtain ⟨n, rfl⟩ : ∃ n, intervals = n + 1 := ⟨intervals - 1, by omega⟩
  refine ⟨_, c.openTag_advance found (n + 1), ?_, ?_⟩
  · rw [Table.get?_filterMap, value, Option.bind_some, falls.left enough]
  · rw [c.tagValue_advance_of_keeps ⟨number, d, found, rfl, rfl, value⟩ n, falls.left enough]

/-- A coefficient that is a finite number from zero up to, but not including, one. The amount is rounded to the
nearest number, so is its product with the coefficient, and the floor of that is left if it is positive. What is
left is less than the amount, so the amounts of one entry fall until there is none, which takes at least one interval
and at most as many as the amount has points; and so long does a manager keep and show it. -/
theorem linear_decay_falls (bits : UInt64) (c : ℚ) (value : (Binary64.ofBits bits).toRat? = some c) (nonneg : 0 ≤ c)
    (below : c < 1) :
    let d := Decay.linear (.ofBits bits)
    (∀ idle (v : Amount), ∃ V P : ℚ, (∀ r, Binary64.Rounds v.toInt r ↔ r = V) ∧
      (∀ r, Binary64.Rounds (V * c) r ↔ r = P) ∧ d.next idle v = Decay.positive? (Amount.clamp ⌊P⌋)) ∧
    (∀ idle v w, d.next idle v = some w → 0 < w.toInt ∧ w.toInt < v.toInt) ∧
    (∀ idle (v : Amount) (intervals : Nat), max 1 v.toInt ≤ intervals → ∃ ws : List Amount,
      d.run idle intervals v = ws.map some ++ [none] ∧ ws.length + 1 ≤ max 1 v.toInt ∧
        (v :: ws).IsChain (fun a b => b.toInt < a.toInt)) ∧
    ∀ supportsDecay past number tag peer (v : Amount) (intervals : Nat),
      let m := (new supportsDecay).run past
      m.openTag number = .ok tag → tag.decay = d → tag.values.get? peer = some v → max 1 v.toInt ≤ intervals →
        ∃ values, (m.advance intervals).1.openTag number = .ok { tag with values } ∧ values.get? peer = none ∧
          (m.advance intervals).1.tagValue peer tag.name = none := by
  intro d
  have coefficient : Binary64.InFormat c := Binary64.inFormat_of_ofBits value
  have falls : d.Falls := Decay.falls_linear value coefficient nonneg below
  refine ⟨?_, falls, ?_, ?_⟩
  · intro idle v
    obtain ⟨V, P, first, second, equal⟩ := Decay.next_linear value (abs_le.mpr ⟨by linarith, below.le⟩) idle v
    exact ⟨V, P, fun r => first.eq_iff, fun r => second.eq_iff, equal⟩
  · intro idle v intervals enough
    exact falls.run idle enough
  · intro supportsDecay past number tag peer v intervals m found same kept enough
    have consistent : m.Consistent := run_consistent (new_consistent supportsDecay) past
    exact consistent.advance_falling found (same ▸ falls) kept enough

/-- The coefficient next to one. The greatest amount loses its last places when it is rounded, and falls; three
points take three intervals. -/
theorem last_coefficient_before_one :
    let bits : UInt64 := 0x3FEFFFFFFFFFFFFF
    let p : Peer := ⟨.identity, [], by decide⟩
    let m := (new true).run [.register "x" (.ofSecs 1) (.linear (.ofBits bits)) .sum, .bump 0 p 3]
    (Binary64.ofBits bits).toRat? = some (1 - 2 ^ (-53 : ℤ)) ∧ (0 : ℚ) ≤ 1 - 2 ^ (-53 : ℤ) ∧
    (1 : ℚ) - 2 ^ (-53 : ℤ) < 1 ∧
    (∃ w, (Decay.linear (.ofBits bits)).next 0 Amount.greatest = some w ∧ w.toInt = 9223372036854774784 ∧
      w.toInt < Amount.greatest.toInt) ∧
    (∃ ws : List Amount, (Decay.linear (.ofBits bits)).run 0 3 3 = ws.map some ++ [none] ∧ ws.length = 2) ∧
    m.tagValue p "x" = some 3 ∧ (m.advance 2).1.tagValue p "x" = some 1 ∧ (m.advance 3).1.tagValue p "x" = none := by
  intro bits p m
  have value : (Binary64.ofBits bits).toRat? = some (1 - 2 ^ (-53 : ℤ)) := by
    have decoded : Binary64.ofBits bits = .finite false 9007199254740991 (-53) := by decide +kernel
    rw [decoded]
    norm_num [Binary64.toRat?, Binary64.rational]
  have nonneg : (0 : ℚ) ≤ 1 - 2 ^ (-53 : ℤ) := by norm_num
  have below : (1 : ℚ) - 2 ^ (-53 : ℤ) < 1 := by norm_num
  obtain ⟨_, falls, ends, kept⟩ := linear_decay_falls bits _ value nonneg below
  have next : (Decay.linear (.ofBits bits)).next 0 Amount.greatest =
      some ⟨9223372036854774784, by decide, by decide⟩ := by
    decide +kernel
  obtain ⟨ws, all, _, _⟩ := ends 0 3 3 (by decide)
  obtain ⟨_, _, _, shown⟩ := kept true [.register "x" (.ofSecs 1) (.linear (.ofBits bits)) .sum, .bump 0 p 3] 0
    ⟨"x", .ofSecs 1, .linear (.ofBits bits), .sum, (∅ : Table Peer Amount).insert p 3, false⟩ p 3 3 rfl rfl rfl
    (by decide)
  refine ⟨value, nonneg, below, ⟨_, next, rfl, (falls 0 _ _ next).2⟩, ⟨ws, all, ?_⟩, ?_, ?_, shown⟩
  · have long : ((Decay.linear (.ofBits bits)).run 0 3 3).length = 3 := by decide +kernel
    rw [all, List.length_append, List.length_map] at long
    exact Nat.succ.inj long
  · decide +kernel
  · decide +kernel

end Manager
end PeerTags
