import PeerTags.Radix
/-! Numbers in a base. What a number is written as has no zero in front (`Canonical`), and every
such row of digits is what its number is written as. -/
namespace PeerTags

/-! Rows of digits, or of anything else, as rows of characters. -/

/-- Items written one by one are read back one by one. -/
theorem mapM_map_of_inverse {α β : Type} {read : α → Option β} {write : β → α} {items : List β}
    (inverse : ∀ b ∈ items, read (write b) = some b) : (items.map write).mapM read = some items := by
  induction items with
  | nil => rfl
  | cons b items ih =>
      obtain ⟨first, others⟩ := List.forall_mem_cons.mp inverse
      simp [first, ih others]

/-- Items that were read one by one are written as what they were read from. -/
theorem map_of_mapM {α β : Type} {read : α → Option β} {write : β → α} {P : β → Prop}
    (inverse : ∀ a b, read a = some b → P b ∧ write b = a) {texts : List α} {items : List β}
    (all : texts.mapM read = some items) : (∀ b ∈ items, P b) ∧ items.map write = texts := by
  induction texts generalizing items with
  | nil =>
      cases all
      exact ⟨nofun, rfl⟩
  | cons a texts ih =>
      rw [List.mapM_cons] at all
      obtain ⟨b, first, all⟩ := Option.bind_eq_some_iff.mp all
      obtain ⟨rest, later, all⟩ := Option.bind_eq_some_iff.mp all
      cases all
      obtain ⟨property, rfl⟩ := inverse a b first
      obtain ⟨others, rfl⟩ := ih later
      exact ⟨List.forall_mem_cons.mpr ⟨property, others⟩, rfl⟩

namespace Radix

/-- What a number is written as: its digits are below the base, and the first is not a zero. -/
structure Canonical (base : Nat) (ds : List Nat) : Prop where
  small : ∀ d ∈ ds, d < base
  first : ds.head? ≠ some 0

/-- The first digit of a positive number is not a zero. -/
theorem digitsBefore_head {base bound n : Nat} (large : 2 ≤ base) (enough : n ≤ bound) (positive : 0 < n)
    (ds : List Nat) : ∃ d rest, 0 < d ∧ digitsBefore base bound n ds = d :: rest := by
  induction bound generalizing n ds with
  | zero => omega
  | succ bound ih =>
      rw [digitsBefore, if_neg (Nat.ne_of_gt positive)]
      have smaller : n / base < n := Nat.div_lt_self positive large
      by_cases last : n / base = 0
      · have whole : n % base = n := Nat.mod_eq_of_lt ((Nat.div_eq_zero_iff_lt (by omega)).mp last)
        refine ⟨n, ds, positive, ?_⟩
        rw [last, whole]
        cases bound <;> rfl
      · exact ih (by omega) (Nat.pos_of_ne_zero last) _

theorem canonical_digits {base : Nat} (large : 2 ≤ base) (n : Nat) : Canonical base (digits base n) := by
  refine ⟨fun d => lt_of_mem_digits large, ?_⟩
  cases n with
  | zero => exact nofun
  | succ n =>
      obtain ⟨d, rest, positive, written⟩ := digitsBefore_head large (Nat.le_refl (n + 1)) (Nat.succ_pos n) []
      rw [digits, written]
      intro zero
      cases zero
      exact Nat.lt_irrefl 0 positive

theorem value_append_singleton (base : Nat) (ds : List Nat) (d : Nat) :
    value base (ds ++ [d]) = value base ds * base + d := by
  rw [value, List.foldl_append]
  rfl

theorem le_foldl {base : Nat} (positive : 0 < base) (n : Nat) (ds : List Nat) :
    n ≤ ds.foldl (fun n d => n * base + d) n := by
  induction ds generalizing n with
  | nil => exact Nat.le_refl n
  | cons d ds ih =>
      calc n ≤ n * base := Nat.le_mul_of_pos_right n positive
        _ ≤ n * base + d := Nat.le_add_right _ _
        _ ≤ ds.foldl (fun n d => n * base + d) (n * base + d) := ih _

theorem Canonical.eq_nil {base : Nat} (positive : 0 < base) {ds : List Nat} (canonical : Canonical base ds)
    (zero : value base ds = 0) : ds = [] := by
  cases ds with
  | nil => rfl
  | cons d rest =>
      have bound : 0 * base + d ≤ value base (d :: rest) := le_foldl positive _ rest
      have first : d ≠ 0 := fun same => canonical.first (congrArg some same)
      omega

theorem Canonical.of_append {base : Nat} {ds : List Nat} {d : Nat} (canonical : Canonical base (ds ++ [d])) :
    Canonical base ds ∧ d < base := by
  refine ⟨⟨?_, ?_⟩, canonical.small d (List.mem_append_right ds List.mem_cons_self)⟩
  · intro e member
    exact canonical.small e (List.mem_append_left [d] member)
  · intro zero
    apply canonical.first
    rw [List.head?_append, zero]
    rfl

/-- Digits are recovered from the number, the last one first. -/
theorem Canonical.digitsBefore_value {base : Nat} (large : 2 ≤ base) {ds : List Nat} (canonical : Canonical base ds)
    {bound : Nat} (enough : value base ds ≤ bound) (later : List Nat) :
    digitsBefore base bound (value base ds) later = ds ++ later := by
  have positive : 0 < base := by omega
  induction bound generalizing ds later with
  | zero =>
      cases canonical.eq_nil positive (Nat.le_zero.mp enough)
      rfl
  | succ bound ih =>
      by_cases zero : value base ds = 0
      · cases canonical.eq_nil positive zero
        rfl
      · -- the last digit is the remainder, and the quotient is the number of the digits before it
        obtain rfl | ⟨init, d, concat⟩ := List.eq_nil_or_concat ds
        · exact absurd rfl zero
        · rw [List.concat_eq_append] at concat
          subst concat
          obtain ⟨shorter, small⟩ := canonical.of_append
          have written := value_append_singleton base init d
          have last : value base (init ++ [d]) % base = d := by
            rw [written, Nat.mul_add_mod_of_lt small]
          have others : value base (init ++ [d]) / base = value base init := by
            rw [written, Nat.add_comm, Nat.add_mul_div_right _ _ positive, Nat.div_eq_of_lt small, Nat.zero_add]
          have smaller := Nat.div_lt_self (Nat.pos_of_ne_zero zero) large
          rw [digitsBefore, if_neg zero, last, others, ih shorter (by omega), List.append_assoc]
          rfl

/-- A number has one writing. -/
theorem Canonical.digits_value {base : Nat} (large : 2 ≤ base) {ds : List Nat} (canonical : Canonical base ds) :
    digits base (value base ds) = ds := by
  rw [digits, canonical.digitsBefore_value large (Nat.le_refl _), List.append_nil]

end Radix
end PeerTags
