/-! Numbers written in a base. Digits come most significant first and zero has
none, so that a number has one writing (`value_digits`). -/
namespace PeerTags.Radix

/-- The number that a row of digits stands for. -/
def value (base : Nat) (ds : List Nat) : Nat := ds.foldl (fun n d => n * base + d) 0

/-- Put the digits of `n` in front of `ds`. Every digit but a leading zero
lowers `n`, so `n` itself bounds their number. -/
def digitsBefore (base : Nat) : (bound n : Nat) → (ds : List Nat) → List Nat
  | 0, _, ds => ds
  | bound + 1, n, ds => if n = 0 then ds else digitsBefore base bound (n / base) (n % base :: ds)

def digits (base n : Nat) : List Nat := digitsBefore base n n []

theorem foldl_digitsBefore {base : Nat} (large : 2 ≤ base) {bound n : Nat} (enough : n ≤ bound) (ds : List Nat) :
    (digitsBefore base bound n ds).foldl (fun n d => n * base + d) 0 =
      ds.foldl (fun n d => n * base + d) n := by
  induction bound generalizing n ds with
  | zero => simp [digitsBefore, Nat.le_zero.mp enough]
  | succ bound ih =>
    unfold digitsBefore
    split
    · rename_i zero; rw [zero]
    · rename_i positive
      have smaller : n / base < n := Nat.div_lt_self (Nat.pos_of_ne_zero positive) large
      rw [ih (by omega), List.foldl_cons, Nat.mul_comm, Nat.div_add_mod]

theorem value_digits {base : Nat} (large : 2 ≤ base) (n : Nat) : value base (digits base n) = n :=
  foldl_digitsBefore large (Nat.le_refl n) []

theorem lt_of_mem_digitsBefore {base : Nat} (large : 2 ≤ base) {bound n d : Nat} {ds : List Nat}
    (small : ∀ e ∈ ds, e < base) (h : d ∈ digitsBefore base bound n ds) : d < base := by
  induction bound generalizing n ds with
  | zero => exact small d h
  | succ bound ih =>
    unfold digitsBefore at h
    split at h
    · exact small d h
    · refine ih (fun e he => ?_) h
      rcases List.mem_cons.mp he with rfl | he
      · exact Nat.mod_lt _ (by omega)
      · exact small e he

theorem lt_of_mem_digits {base : Nat} (large : 2 ≤ base) {n d : Nat} (h : d ∈ digits base n) : d < base :=
  lt_of_mem_digitsBefore large (by simp) h

end PeerTags.Radix
