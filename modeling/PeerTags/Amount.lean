/-! Tag values. An amount is an integer that fits in 64 bits with a sign; sums
and differences that leave the range stop at its nearer end, a total that leaves
it is none. -/
namespace PeerTags

/-- An integer between -2^63 and 2^63 - 1. -/
structure Amount where
  toInt : Int
  least_le : -9223372036854775808 ≤ toInt
  le_greatest : toInt ≤ 9223372036854775807
deriving DecidableEq

namespace Amount

@[ext] theorem ext {a b : Amount} (h : a.toInt = b.toInt) : a = b := by
  cases a; cases b; simp only at h; subst h; rfl

def least : Amount := ⟨-9223372036854775808, by decide, by decide⟩
def greatest : Amount := ⟨9223372036854775807, by decide, by decide⟩

/-- The amount closest to an integer. -/
def clamp (i : Int) : Amount :=
  if _ : i < -9223372036854775808 then least
  else if _ : 9223372036854775807 < i then greatest
  else ⟨i, by omega, by omega⟩

/-- The amount equal to an integer, if there is one. -/
def ofInt? (i : Int) : Option Amount :=
  if h : -9223372036854775808 ≤ i ∧ i ≤ 9223372036854775807 then some ⟨i, h.1, h.2⟩ else none

instance (n : Nat) : OfNat Amount n := ⟨clamp n⟩
instance : Inhabited Amount := ⟨0⟩

/-- Amounts are ordered as integers. -/
instance : LE Amount := ⟨fun a b => a.toInt ≤ b.toInt⟩
instance : LT Amount := ⟨fun a b => a.toInt < b.toInt⟩
instance (a b : Amount) : Decidable (a ≤ b) := inferInstanceAs (Decidable (a.toInt ≤ b.toInt))
instance (a b : Amount) : Decidable (a < b) := inferInstanceAs (Decidable (a.toInt < b.toInt))
instance : Min Amount := ⟨fun a b => if a ≤ b then a else b⟩
instance : Max Amount := ⟨fun a b => if a ≤ b then b else a⟩

/-- Sum, stopping at the ends of the range. -/
def add (a b : Amount) : Amount := clamp (a.toInt + b.toInt)

/-- Difference, stopping at the ends of the range. -/
def sub (a b : Amount) : Amount := clamp (a.toInt - b.toInt)

instance : Add Amount := ⟨add⟩
instance : Sub Amount := ⟨sub⟩

/-- The exact sum, if it is in the range. -/
def add? (a b : Amount) : Option Amount := ofInt? (a.toInt + b.toInt)

/-- The amounts added up in their order. None as soon as a sum leaves the range,
also where later ones would lead back. -/
def total? (amounts : List Amount) : Option Amount := amounts.foldlM add? 0

instance : ToString Amount := ⟨fun a => toString a.toInt⟩

theorem le_iff {a b : Amount} : a ≤ b ↔ a.toInt ≤ b.toInt := .rfl
theorem lt_iff {a b : Amount} : a < b ↔ a.toInt < b.toInt := .rfl

theorem toInt_clamp (i : Int) :
    (clamp i).toInt = max (-9223372036854775808) (min i 9223372036854775807) := by
  unfold clamp
  split
  · simp only [least]; omega
  · split <;> simp only [greatest] <;> omega

theorem toInt_add (a b : Amount) :
    (a + b).toInt = max (-9223372036854775808) (min (a.toInt + b.toInt) 9223372036854775807) :=
  toInt_clamp _

theorem toInt_sub (a b : Amount) :
    (a - b).toInt = max (-9223372036854775808) (min (a.toInt - b.toInt) 9223372036854775807) :=
  toInt_clamp _

theorem toInt_min (a b : Amount) : (min a b).toInt = min a.toInt b.toInt := by
  show (if a ≤ b then a else b).toInt = _
  simp only [le_iff]
  split <;> omega

theorem toInt_max (a b : Amount) : (max a b).toInt = max a.toInt b.toInt := by
  show (if a ≤ b then b else a).toInt = _
  simp only [le_iff]
  split <;> omega

theorem ofInt?_eq_some_iff {i : Int} {a : Amount} : ofInt? i = some a ↔ i = a.toInt := by
  unfold ofInt?
  split
  · simp only [Option.some.injEq]
    exact ⟨fun h => h ▸ rfl, fun h => ext h⟩
  · rename_i out
    simp only [reduceCtorEq, false_iff]
    intro h
    exact out (h ▸ ⟨a.least_le, a.le_greatest⟩)

theorem add?_eq_some_iff {a b sum : Amount} : a.add? b = some sum ↔ a.toInt + b.toInt = sum.toInt :=
  ofInt?_eq_some_iff

end Amount
end PeerTags
