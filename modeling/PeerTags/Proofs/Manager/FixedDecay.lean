import PeerTags.Proofs.Manager.Intervals
/-! Decay by a constant, over several intervals at once. What is left of a value is the value less
the constant for each interval, in integers without bounds, as long as that is positive; once
an entry has gone, no interval brings it back. -/
namespace PeerTags

/-- What a decay takes off in each interval, if that is a constant. -/
def Decay.constant? : Decay → Option Amount
  | fixed amount => some amount
  | _ => none

theorem Decay.constant?_eq_some_iff {d : Decay} {amount : Amount} :
    d.constant? = some amount ↔ d = .fixed amount := by
  cases d <;> simp [constant?]

/-- An interval either leaves a positive difference, exactly, or nothing. -/
theorem Decay.next_fixed {amount : Amount} (positive : 1 ≤ amount.toInt) (idle : Nat) (v : Amount) :
    ((Decay.fixed amount).next idle v).map Amount.toInt =
      if 0 < v.toInt - amount.toInt then some (v.toInt - amount.toInt) else none := by
  have below := v.le_greatest
  have equal : (v - amount).toInt = max (-9223372036854775808) (v.toInt - amount.toInt) := by
    rw [Amount.toInt_sub]
    omega
  simp only [Decay.next, Decay.positive?]
  by_cases lasts : 0 < v.toInt - amount.toInt
  · rw [if_pos lasts, if_pos (by omega), Option.map_some, equal]
    exact congrArg some (by omega)
  · rw [if_neg lasts, if_neg (by omega), Option.map_none]

theorem Decay.left_fixed {amount : Amount} (positive : 1 ≤ amount.toInt) (intervals : Nat) (v : Amount) :
    ((Decay.fixed amount).left (intervals + 1) v).map Amount.toInt =
      if 0 < v.toInt - (intervals + 1 : Nat) * amount.toInt then some (v.toInt - (intervals + 1 : Nat) * amount.toInt)
      else none := by
  induction intervals generalizing v with
  | zero =>
      rw [Decay.left, Nat.zero_add, Int.natCast_one, Int.one_mul, ← Decay.next_fixed positive 0 v]
      exact congrArg (Option.map Amount.toInt) (Option.bind_fun_some _)
  | succ n ih =>
      have first := Decay.next_fixed positive 0 v
      have more : 0 ≤ (n : Int) * amount.toInt := Int.mul_nonneg (by omega) (by omega)
      have sum : ((n + 1 + 1 : Nat) : Int) * amount.toInt = amount.toInt + (n + 1 : Nat) * amount.toInt := by
        rw [Int.natCast_add _ 1, Int.add_mul, Int.add_comm, Int.natCast_one, Int.one_mul]
      have above : amount.toInt ≤ (n + 1 : Nat) * amount.toInt := by
        rw [Int.natCast_add, Int.add_mul, Int.natCast_one, Int.one_mul]
        omega
      rw [Decay.left, sum]
      cases next : (Decay.fixed amount).next 0 v with
      | none =>
          -- the difference was not positive after one interval, so it is not after more
          have gone : ¬ 0 < v.toInt - amount.toInt := by
            intro lasts
            rw [next, if_pos lasts] at first
            cases first
          rw [Option.bind_none, Option.map_none, if_neg (by omega)]
      | some w =>
          have left : w.toInt = v.toInt - amount.toInt := by
            rw [next, Option.map_some] at first
            split at first
            · exact Option.some.inj first
            · cases first
          rw [Option.bind_some, ih w, left, Int.sub_sub]

namespace Manager

variable {m : Manager} {number : Nat} {d : DecayingTag}

/-- What an open decaying tag has after so many intervals is what is left of each of its values,
whatever function the values fall by. -/
theorem Consistent.openTag_advance (c : m.Consistent) (found : m.openTag number = .ok d) (intervals : Nat) :
    (m.advance intervals).1.openTag number =
      .ok { d with values := d.values.filterMap fun _ v => d.decay.left intervals v } := by
  induction intervals generalizing m d with
  | zero =>
      have same : (d.values.filterMap fun _ v => d.decay.left 0 v) = d.values := by
        apply Table.ext
        intro peer
        rw [Table.get?_filterMap]
        exact Option.bind_fun_some _
      rw [same]
      exact found
  | succ n ih =>
      have first := c.decayAll_elapsed c.nodup_openNumbers
      have later := ih (first.sameHandles.consistent c)
        (first.openTag_of_mem (c.mem_openNumbers (openAs_of_openTag found)) found)
      have same : (d.values.filterMap fun _ v => d.decay.left (n + 1) v) =
          (decayed d).filterMap fun _ v => d.decay.left n v := by
        apply Table.ext
        intro peer
        rw [decayed, Table.get?_filterMap, Table.get?_filterMap, Table.get?_filterMap, Option.bind_assoc]
        rfl
      rw [same]
      exact later

/-- A decaying tag that falls by a constant, after at least one interval: it has for each peer the
difference if that is positive, and the table shows the same. The function by which it is bumped
has no part in this. -/
theorem Consistent.advance_fixed (c : m.Consistent) (found : m.openTag number = .ok d) {amount : Amount}
    (falls : d.decay = .fixed amount) (positive : 1 ≤ amount.toInt) {intervals : Nat} (passed : 1 ≤ intervals) :
    ∃ values, (m.advance intervals).1.openTag number = .ok { d with values } ∧
      (∀ peer, d.values.get? peer = none → values.get? peer = none) ∧
      ∀ peer v, d.values.get? peer = some v →
        ((values.get? peer).map Amount.toInt = if 0 < v.toInt - intervals * amount.toInt then
          some (v.toInt - intervals * amount.toInt) else none) ∧
        (m.advance intervals).1.tagValue peer d.name = values.get? peer := by
  obtain ⟨n, rfl⟩ := Nat.exists_eq_add_of_le' passed
  refine ⟨_, c.openTag_advance found (n + 1), ?_, ?_⟩
  · intro peer none
    rw [Table.get?_filterMap, none, Option.bind_none]
  · intro peer v value
    have shown := c.tagValue_advance_of_keeps ⟨number, d, found, rfl, rfl, value⟩ n
    rw [Table.get?_filterMap, value, Option.bind_some, falls]
    exact ⟨Decay.left_fixed positive n v, shown.trans (by rw [falls])⟩

end Manager
end PeerTags
