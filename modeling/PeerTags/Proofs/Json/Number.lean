import PeerTags.Json.Token
import PeerTags.Proofs.Text.Decimal
/-! How a number may be written. There is one way to write an integer; what has a fraction or an
exponent is read as a number that is none. A number is read for as long as it goes on, so that it
says something of what comes after it. -/
namespace PeerTags.Json

def Digits (ds : List Char) : Prop := ds ≠ [] ∧ ∀ c ∈ ds, isDigit c = true

inductive Fraction : List Char → Prop
  | absent : Fraction []
  | present {ds : List Char} : Digits ds → Fraction ('.' :: ds)

inductive Sign : List Char → Prop
  | absent : Sign []
  | plus : Sign ['+']
  | minus : Sign ['-']

inductive Exponent : List Char → Prop
  | absent : Exponent []
  | present {e : Char} {sign ds : List Char} : e = 'e' ∨ e = 'E' → Sign sign → Digits ds → Exponent (e :: (sign ++ ds))

/-- How a number may be written, and which integer it is if it is written as one. Minus zero is none, nor is what
has a fraction or an exponent. -/
inductive Numeral : List Char → Option Int → Prop
  | integer (i : Int) : Numeral (Text.Decimal.ofInt i) (some i)
  | minusZero : Numeral ['-', '0'] none
  | natural {n : Nat} {fraction exponent : List Char} : Fraction fraction → Exponent exponent →
      fraction ++ exponent ≠ [] → Numeral (Text.Decimal.ofNat n ++ (fraction ++ exponent)) none
  | negative {n : Nat} {fraction exponent : List Char} : Fraction fraction → Exponent exponent →
      fraction ++ exponent ≠ [] → Numeral ('-' :: (Text.Decimal.ofNat n ++ (fraction ++ exponent))) none

/-! Reading. -/

/-- No digits go on with this text. -/
def EndsDigits (rest : List Char) : Prop := ∀ c ∈ rest.head?, isDigit c = false

/-- No number goes on with this text. -/
def EndsNumber (rest : List Char) : Prop :=
  ∀ c ∈ rest.head?, isDigit c = false ∧ c ≠ '.' ∧ c ≠ 'e' ∧ c ≠ 'E'

theorem EndsNumber.cons {c : Char} (h : isDigit c = false ∧ c ≠ '.' ∧ c ≠ 'e' ∧ c ≠ 'E') (rest : List Char) :
    EndsNumber (c :: rest) := by
  intro d member
  cases member
  exact h

theorem EndsNumber.append {text rest : List Char} (ht : EndsNumber text) (hr : EndsNumber rest) :
    EndsNumber (text ++ rest) := by
  cases text with
  | nil => exact hr
  | cons c text => exact .cons (ht c rfl) (text ++ rest)

theorem EndsNumber.endsDigits {rest : List Char} (ends : EndsNumber rest) : EndsDigits rest :=
  fun c member => (ends c member).1

theorem EndsDigits.cons {c : Char} (h : isDigit c = false) (rest : List Char) : EndsDigits (c :: rest) := by
  intro d member
  cases member
  exact h

theorem EndsDigits.takeWhile_isDigit {rest : List Char} (ends : EndsDigits rest) : rest.takeWhile isDigit = [] := by
  cases rest with
  | nil => rfl
  | cons c rest => simp [ends c rfl]

theorem EndsDigits.dropWhile_isDigit {rest : List Char} (ends : EndsDigits rest) : rest.dropWhile isDigit = rest := by
  cases rest with
  | nil => rfl
  | cons c rest => simp [ends c rfl]

section Run

variable {ds rest : List Char} (digits : ∀ c ∈ ds, isDigit c = true) (ends : EndsDigits rest)
include digits ends

theorem takeWhile_digits : (ds ++ rest).takeWhile isDigit = ds := by
  rw [List.takeWhile_append_of_pos digits, ends.takeWhile_isDigit, List.append_nil]

theorem dropWhile_digits : (ds ++ rest).dropWhile isDigit = rest := by
  rw [List.dropWhile_append_of_pos digits, ends.dropWhile_isDigit]

end Run

theorem isDigit_of_mem_ofNat {n : Nat} {c : Char} (member : c ∈ Text.Decimal.ofNat n) : isDigit c = true := by
  have digits : ∀ d < 10, isDigit (Text.Decimal.ofDigit d) = true := by decide
  obtain ⟨d, small, rfl⟩ := Text.Decimal.mem_ofNat member
  exact digits d small

theorem wholePart_ofNat (n : Nat) {rest : List Char} (ends : EndsDigits rest) :
    wholePart (Text.Decimal.ofNat n ++ rest) = some (n, rest) := by
  have digits : ∀ c ∈ Text.Decimal.ofNat n, isDigit c = true := fun c member => isDigit_of_mem_ofNat member
  rw [wholePart, takeWhile_digits digits ends, dropWhile_digits digits ends]
  split
  · rename_i c tail leading
    obtain zero | ⟨d, ds, positive, small, digits⟩ := Text.Decimal.ofNat_head n
    · rw [zero] at leading
      cases leading
    · rw [digits] at leading
      have same : Text.Decimal.digit? '0' = some d := by
        rw [← (List.cons.inj leading).1, Text.Decimal.digit?_ofDigit small]
      exact absurd (Option.some.inj same) (Nat.ne_of_lt positive)
  · rw [Text.Decimal.toNat?_ofNat, Option.map_some]

theorem Digits.skip {ds rest : List Char} (h : Digits ds) (ends : EndsDigits rest) :
    skipDigits (ds ++ rest) = some rest := by
  rw [skipDigits, takeWhile_digits h.2 ends, dropWhile_digits h.2 ends, if_neg h.1]

theorem Sign.skip {sign ds rest : List Char} (h : Sign sign) (digits : Digits ds) :
    skipSign (sign ++ ds ++ rest) = ds ++ rest := by
  cases h with
  | absent =>
      obtain ⟨c, tail, rfl⟩ := List.exists_cons_of_ne_nil digits.1
      have digit : isDigit c = true := digits.2 c List.mem_cons_self
      show skipSign (c :: (tail ++ rest)) = _
      unfold skipSign
      split
      · rename_i plus
        cases plus
        cases digit
      · rename_i minus
        cases minus
        cases digit
      · rfl
  | plus => rfl
  | minus => rfl

theorem Fraction.skip {text rest : List Char} (h : Fraction text) (ends : EndsDigits rest)
    (point : text = [] → '.' ∉ rest.head?) : fraction (text ++ rest) = some (!text.isEmpty, rest) := by
  cases h with
  | absent =>
      rw [List.nil_append]
      unfold fraction
      split
      · exact absurd rfl (point rfl)
      · rfl
  | present digits =>
      rw [List.cons_append, fraction, digits.skip ends]
      rfl

theorem Exponent.skip {text rest : List Char} (h : Exponent text) (ends : EndsNumber rest) :
    exponent (text ++ rest) = some (!text.isEmpty, rest) := by
  cases h with
  | absent =>
      rw [List.nil_append]
      unfold exponent
      split
      · exact absurd rfl (ends _ rfl).2.2.1
      · exact absurd rfl (ends _ rfl).2.2.2
      · rfl
  | present letter sign digits =>
      obtain rfl | rfl := letter
      all_goals
        rw [List.cons_append, exponent, sign.skip digits, digits.skip ends.endsDigits]
        rfl

/-- Which integer a number is, by its parts. -/
def integer? (negative : Bool) (n : Nat) (point power : List Char) : Option Int :=
  if !point.isEmpty || !power.isEmpty || (negative && n == 0) then none
  else some (if negative then -(n : Int) else n)

theorem integer?_eq_none {negative : Bool} {n : Nat} {point power : List Char} (broken : point ++ power ≠ []) :
    integer? negative n point power = none := by
  cases point <;> cases power <;> simp_all [integer?]

/-- The parts of a number after its sign. -/
theorem numberAfterSign_parts (negative : Bool) (n : Nat) {point power rest : List Char} (hf : Fraction point)
    (he : Exponent power) (ends : EndsNumber rest) :
    numberAfterSign negative (Text.Decimal.ofNat n ++ (point ++ (power ++ rest))) =
      some (.number (integer? negative n point power), rest) := by
  have afterPoint : EndsDigits (power ++ rest) := by
    cases he with
    | absent => exact ends.endsDigits
    | present letter sign digits => exact .cons (by obtain rfl | rfl := letter <;> decide) _
  have afterWhole : EndsDigits (point ++ (power ++ rest)) := by
    cases hf with
    | absent => exact afterPoint
    | present digits => exact .cons (by decide) _
  have noPoint : '.' ∉ (power ++ rest).head? := by
    cases he with
    | absent => exact fun member => (ends '.' member).2.1 rfl
    | present letter sign digits =>
        intro member
        cases member
        obtain wrong | wrong := letter <;> cases wrong
  simp only [numberAfterSign, wholePart_ofNat n afterWhole, hf.skip afterPoint fun _ => noPoint, he.skip ends,
    Option.bind_some, Option.map_some]
  rfl

/-! Nothing else is read as a number. -/

/-- A whole number is written as it is printed. -/
theorem eq_of_wholePart {s rest : List Char} {n : Nat} (read : wholePart s = some (n, rest)) :
    s = Text.Decimal.ofNat n ++ rest := by
  unfold wholePart at read
  split at read
  · cases read
  · rename_i nonzero
    obtain ⟨_, value, same⟩ := Option.map_eq_some_iff.mp read
    cases same
    have first : s.takeWhile isDigit = ['0'] ∨ (s.takeWhile isDigit).head? ≠ some '0' := by
      cases digits : s.takeWhile isDigit with
      | nil => exact .inr nofun
      | cons c ds =>
          by_cases zero : c = '0'
          · cases ds with
            | nil => exact .inl (by rw [zero])
            | cons d ds => exact absurd (zero ▸ digits) (nonzero d ds)
          · exact .inr (by simpa using zero)
    rw [← Text.Decimal.ofNat_of_toNat? value first, List.takeWhile_append_dropWhile]

theorem exists_digits_of_skip {s rest : List Char} (read : skipDigits s = some rest) :
    ∃ ds, Digits ds ∧ s = ds ++ rest := by
  unfold skipDigits at read
  split at read
  · cases read
  · rename_i nonempty
    cases read
    exact ⟨_, ⟨nonempty, List.all_eq_true.mp List.all_takeWhile⟩, List.takeWhile_append_dropWhile.symm⟩

theorem exists_sign (s : List Char) : ∃ sign, Sign sign ∧ s = sign ++ skipSign s := by
  unfold skipSign
  split
  · exact ⟨_, .plus, rfl⟩
  · exact ⟨_, .minus, rfl⟩
  · exact ⟨_, .absent, rfl⟩

theorem exists_fraction {s rest : List Char} {there : Bool} (read : fraction s = some (there, rest)) :
    ∃ point, Fraction point ∧ s = point ++ rest ∧ there = !point.isEmpty := by
  unfold fraction at read
  split at read
  · obtain ⟨_, skipped, same⟩ := Option.map_eq_some_iff.mp read
    cases same
    obtain ⟨ds, digits, rfl⟩ := exists_digits_of_skip skipped
    exact ⟨_, .present digits, rfl, rfl⟩
  · cases read
    exact ⟨[], .absent, rfl, rfl⟩

theorem exists_exponent {s rest : List Char} {there : Bool} (read : exponent s = some (there, rest)) :
    ∃ power, Exponent power ∧ s = power ++ rest ∧ there = !power.isEmpty := by
  have marked {e : Char} {tail : List Char} (letter : e = 'e' ∨ e = 'E')
      (read : (skipDigits (skipSign tail)).map (true, ·) = some (there, rest)) :
      ∃ power, Exponent power ∧ e :: tail = power ++ rest ∧ there = !power.isEmpty := by
    obtain ⟨_, skipped, same⟩ := Option.map_eq_some_iff.mp read
    cases same
    obtain ⟨sign, signed, split⟩ := exists_sign tail
    obtain ⟨ds, digits, unsigned⟩ := exists_digits_of_skip skipped
    refine ⟨_, .present letter signed digits, ?_, rfl⟩
    rw [List.cons_append, List.append_assoc, ← unsigned, ← split]
  unfold exponent at read
  split at read
  · exact marked (.inl rfl) read
  · exact marked (.inr rfl) read
  · cases read
    exact ⟨[], .absent, rfl, rfl⟩

/-- What is read as a number has these parts. -/
theorem parts_of_numberAfterSign {negative : Bool} {s rest : List Char} {t : Token}
    (read : numberAfterSign negative s = some (t, rest)) :
    ∃ (n : Nat) (point power : List Char), Fraction point ∧ Exponent power ∧
      s = Text.Decimal.ofNat n ++ (point ++ (power ++ rest)) ∧ t = .number (integer? negative n point power) := by
  simp only [numberAfterSign, Option.bind_eq_some_iff, Option.map_eq_some_iff] at read
  obtain ⟨⟨n, _⟩, whole, ⟨_, _⟩, frac, ⟨_, _⟩, exp, same⟩ := read
  obtain ⟨point, hf, split, rfl⟩ := exists_fraction frac
  obtain ⟨power, he, rfl, rfl⟩ := exists_exponent exp
  cases same
  refine ⟨n, point, power, hf, he, ?_, rfl⟩
  rw [eq_of_wholePart whole]
  exact congrArg _ split

/-! Numerals by their parts. -/

/-- A numeral is a minus sign or none, a whole number, and what comes after it. -/
theorem Numeral.parts {text : List Char} {i : Option Int} (h : Numeral text i) :
    ∃ (negative : Bool) (n : Nat) (point power : List Char), Fraction point ∧ Exponent power ∧
      text = (if negative then ['-'] else []) ++ (Text.Decimal.ofNat n ++ (point ++ power)) ∧
      i = integer? negative n point power := by
  cases h with
  | integer i =>
      obtain ⟨n, value, written⟩ | ⟨n, positive, value, written⟩ := Text.Decimal.ofInt_cases i
      · exact ⟨false, n, [], [], .absent, .absent, by simp [written], by simp [integer?, value]⟩
      · exact ⟨true, n, [], [], .absent, .absent, by simp [written], by simp [integer?, value, Nat.ne_of_gt positive]⟩
  | minusZero => exact ⟨true, 0, [], [], .absent, .absent, rfl, rfl⟩
  | natural hf he broken => exact ⟨false, _, _, _, hf, he, rfl, (integer?_eq_none broken).symm⟩
  | negative hf he broken => exact ⟨true, _, _, _, hf, he, rfl, (integer?_eq_none broken).symm⟩

theorem numeral_of_parts (negative : Bool) (n : Nat) {point power : List Char} (hf : Fraction point)
    (he : Exponent power) :
    Numeral ((if negative then ['-'] else []) ++ (Text.Decimal.ofNat n ++ (point ++ power)))
      (integer? negative n point power) := by
  by_cases whole : point ++ power = []
  · obtain ⟨rfl, rfl⟩ := List.append_eq_nil_iff.mp whole
    rw [List.append_nil, List.append_nil]
    cases negative with
    | false =>
        have written := Numeral.integer n
        rw [Text.Decimal.ofInt_natCast] at written
        exact written
    | true =>
        obtain rfl | positive := Nat.eq_zero_or_pos n
        · exact .minusZero
        · have written := Numeral.integer (-n)
          rw [Text.Decimal.ofInt, if_pos (by omega), Int.natAbs_neg, Int.natAbs_natCast] at written
          rw [integer?, beq_false_of_ne (Nat.ne_of_gt positive)]
          exact written
  · rw [integer?_eq_none whole]
    cases negative with
    | false => exact .natural hf he whole
    | true => exact .negative hf he whole

end PeerTags.Json
