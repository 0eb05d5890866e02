import PeerTags.Text.Decimal
import PeerTags.Proofs.Radix
/-! Whole numbers are read as they were written. What is written has digits only, after a minus
sign if any, and starts with a zero only if that is all of it. -/
namespace PeerTags.Text.Decimal

theorem digit?_ofDigit {d : Nat} (small : d < 10) : digit? (ofDigit d) = some d := by
  revert d
  decide

theorem digit?_eq_some {c : Char} {d : Nat} (read : digit? c = some d) : d < 10 ∧ ofDigit d = c := by
  unfold digit? at read
  split at read
  · rename_i range
    cases read
    have least : 48 ≤ c.toNat := range.1
    have most : c.toNat ≤ 57 := range.2
    refine ⟨by omega, ?_⟩
    rw [ofDigit, Nat.add_sub_cancel' least, Char.ofNat_toNat]
  · cases read

theorem ofDigit_ne_minus {d : Nat} (small : d < 10) : ofDigit d ≠ '-' := by
  revert d
  decide

theorem ofDigit_ne_plus {d : Nat} (small : d < 10) : ofDigit d ≠ '+' := by
  revert d
  decide

/-- Zero is one digit, and any other number starts with a digit that is not a zero. -/
theorem ofNat_head (n : Nat) :
    ofNat n = ['0'] ∨ ∃ d rest, 0 < d ∧ d < 10 ∧ ofNat n = ofDigit d :: rest := by
  unfold ofNat
  split
  · exact .inl rfl
  · rename_i positive
    obtain ⟨d, rest, first, digits⟩ :=
      Radix.digitsBefore_head (by decide : 2 ≤ 10) (Nat.le_refl n) (Nat.pos_of_ne_zero positive) []
    have member : d ∈ Radix.digits 10 n := by
      rw [Radix.digits, digits]
      exact List.mem_cons_self
    refine .inr ⟨d, rest.map ofDigit, first, Radix.lt_of_mem_digits (by decide) member, ?_⟩
    rw [Radix.digits, digits, List.map_cons]

theorem ofNat_ne_nil (n : Nat) : ofNat n ≠ [] := by
  intro empty
  obtain zero | ⟨d, rest, _, _, positive⟩ := ofNat_head n
  · exact absurd (zero.symm.trans empty) (List.cons_ne_nil _ _)
  · exact absurd (positive.symm.trans empty) (List.cons_ne_nil _ _)

theorem mem_ofNat {n : Nat} {c : Char} (member : c ∈ ofNat n) : ∃ d, d < 10 ∧ c = ofDigit d := by
  unfold ofNat at member
  split at member
  · exact ⟨0, by decide, List.mem_singleton.mp member⟩
  · obtain ⟨d, digit, rfl⟩ := List.mem_map.mp member
    exact ⟨d, Radix.lt_of_mem_digits (by decide) digit, rfl⟩

theorem minus_notMem_ofNat (n : Nat) : '-' ∉ ofNat n := by
  intro member
  obtain ⟨d, small, same⟩ := mem_ofNat member
  exact ofDigit_ne_minus small same.symm

theorem plus_notMem_ofNat (n : Nat) : '+' ∉ ofNat n := by
  intro member
  obtain ⟨d, small, same⟩ := mem_ofNat member
  exact ofDigit_ne_plus small same.symm

theorem toNat?_ofNat (n : Nat) : toNat? (ofNat n) = some n := by
  rw [toNat?, if_neg (ofNat_ne_nil n)]
  unfold ofNat
  split
  · rename_i zero
    rw [zero]
    decide
  · have read : ∀ d ∈ Radix.digits 10 n, digit? (ofDigit d) = some d := by
      intro d member
      exact digit?_ofDigit (Radix.lt_of_mem_digits (by decide) member)
    rw [mapM_map_of_inverse read, Option.map_some, Radix.value_digits (by decide)]

/-- Digits without needless zeros in front are what their number is written as. -/
theorem ofNat_of_toNat? {s : List Char} {n : Nat} (read : toNat? s = some n) (first : s = ['0'] ∨ s.head? ≠ some '0') :
    s = ofNat n := by
  obtain rfl | nonzero := first
  · cases (by decide : toNat? ['0'] = some 0).symm.trans read
    rfl
  · unfold toNat? at read
    split at read
    · cases read
    · rename_i nonempty
      obtain ⟨ds, digits, rfl⟩ := Option.map_eq_some_iff.mp read
      obtain ⟨small, rfl⟩ := map_of_mapM (fun _ _ => digit?_eq_some) digits
      have canonical : Radix.Canonical 10 ds := by
        refine ⟨small, fun zero => nonzero ?_⟩
        rw [List.head?_map, zero]
        rfl
      have positive : Radix.value 10 ds ≠ 0 := by
        intro zero
        rw [canonical.eq_nil (by decide) zero] at nonempty
        exact nonempty rfl
      rw [ofNat, if_neg positive, canonical.digits_value (by decide)]

/-- Without a plus sign in front, reading is reading digits. -/
theorem toUnsigned?_ofNat (n : Nat) : toUnsigned? (ofNat n) = some n := by
  rw [← toNat?_ofNat n]
  unfold toUnsigned?
  split
  · rename_i s signed
    exact absurd (signed ▸ List.mem_cons_self) (plus_notMem_ofNat n)
  · rfl

theorem ofInt_natCast (n : Nat) : ofInt n = ofNat n := by
  rw [ofInt, if_neg (by omega), Int.natAbs_natCast]

/-- An integer is written as a natural number, or as a positive one after a minus sign. -/
theorem ofInt_cases (i : Int) :
    (∃ n : Nat, i = n ∧ ofInt i = ofNat n) ∨ ∃ n : Nat, 0 < n ∧ i = -(n : Int) ∧ ofInt i = '-' :: ofNat n := by
  by_cases negative : i < 0
  · exact .inr ⟨i.natAbs, by omega, by omega, if_pos negative⟩
  · exact .inl ⟨i.natAbs, by omega, if_neg negative⟩

theorem toSigned?_ofInt (i : Int) : toSigned? (ofInt i) = some i := by
  obtain ⟨n, value, text⟩ | ⟨n, _, value, text⟩ := ofInt_cases i
  · rw [text, value]
    unfold toSigned?
    split
    · rename_i s signed
      exact absurd (signed ▸ List.mem_cons_self) (minus_notMem_ofNat n)
    · rw [toUnsigned?_ofNat, Option.map_some]
      rfl
  · rw [text, value, toSigned?, toNat?_ofNat]
    rfl

end PeerTags.Text.Decimal
