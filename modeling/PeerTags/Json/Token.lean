import PeerTags.Text.Decimal
/-! The tokens of a JSON text. A number says which integer it is, if it is
written as one; a string says its characters, if its escapes name whole ones. -/
namespace PeerTags.Json

inductive Token where
  | leftBracket
  | rightBracket
  | leftBrace
  | rightBrace
  | comma
  | colon
  | null
  | bool (value : Bool)
  /-- No integer for a fraction, an exponent, or minus zero. -/
  | number (integer : Option Int)
  /-- No content if an escape names a lone half of a surrogate pair. -/
  | string (content : Option String)
deriving DecidableEq

def isSpace (c : Char) : Bool := c == ' ' || c == '\t' || c == '\n' || c == '\r'
def isDigit (c : Char) : Bool := '0' ≤ c && c ≤ '9'

/-! Strings. -/

/-- A character, or one half of a surrogate pair. -/
inductive Piece where
  | char (c : Char)
  | half (code : Nat)
deriving DecidableEq

def Piece.ofCode (n : Nat) : Piece := if 0xD800 ≤ n ∧ n ≤ 0xDFFF then .half n else .char (Char.ofNat n)

def hexDigit? (c : Char) : Option Nat :=
  if '0' ≤ c ∧ c ≤ '9' then some (c.toNat - 48)
  else if 'a' ≤ c ∧ c ≤ 'f' then some (c.toNat - 87)
  else if 'A' ≤ c ∧ c ≤ 'F' then some (c.toNat - 55)
  else none

/-- The number that four hexadecimal digits stand for. -/
def hexCode? (a b c d : Char) : Option Nat := ([a, b, c, d].mapM hexDigit?).map (Radix.value 16)

/-- The character that a one-letter escape stands for. -/
def escaped? : Char → Option Char
  | '"' => some '"'
  | '\\' => some '\\'
  | '/' => some '/'
  | 'b' => some '\x08'
  | 'f' => some '\x0c'
  | 'n' => some '\n'
  | 'r' => some '\r'
  | 't' => some '\t'
  | _ => none

/-- What stands before the closing quote, and what follows it. -/
def stringBody : List Char → Option (List Piece × List Char)
  | [] => none
  | '"' :: rest => some ([], rest)
  | '\\' :: 'u' :: a :: b :: c :: d :: rest =>
    (hexCode? a b c d).bind fun code =>
      (stringBody rest).map fun (pieces, rest) => (Piece.ofCode code :: pieces, rest)
  | '\\' :: e :: rest =>
    (escaped? e).bind fun c => (stringBody rest).map fun (pieces, rest) => (.char c :: pieces, rest)
  | c :: rest =>
    if c < ' ' ∨ c = '\\' then none
    else (stringBody rest).map fun (pieces, rest) => (.char c :: pieces, rest)

/-- Two halves in a row are one character; a lone half is none. -/
def join : List Piece → Option (List Char)
  | [] => some []
  | .char c :: rest => (join rest).map (c :: ·)
  | .half high :: .half low :: rest =>
    if high < 0xDC00 ∧ 0xDC00 ≤ low then
      (join rest).map (Char.ofNat (0x10000 + (high - 0xD800) * 0x400 + (low - 0xDC00)) :: ·)
    else none
  | .half _ :: _ => none

/-! Numbers. -/

/-- One or more digits, the first not a zero unless it is the only one. -/
def wholePart (s : List Char) : Option (Nat × List Char) :=
  match s.takeWhile isDigit with
  | '0' :: _ :: _ => none
  | ds => (Text.Decimal.toNat? ds).map (·, s.dropWhile isDigit)

/-- The rest after one or more digits. -/
def skipDigits (s : List Char) : Option (List Char) :=
  if s.takeWhile isDigit = [] then none else some (s.dropWhile isDigit)

/-- Whether there is a fraction, and the rest. -/
def fraction : List Char → Option (Bool × List Char)
  | '.' :: s => (skipDigits s).map (true, ·)
  | s => some (false, s)

def skipSign : List Char → List Char
  | '+' :: s | '-' :: s => s
  | s => s

/-- Whether there is an exponent, and the rest. -/
def exponent : List Char → Option (Bool × List Char)
  | 'e' :: s | 'E' :: s => (skipDigits (skipSign s)).map (true, ·)
  | s => some (false, s)

/-- The number that follows its sign. Minus zero is no integer. -/
def numberAfterSign (negative : Bool) (s : List Char) : Option (Token × List Char) :=
  (wholePart s).bind fun (n, s) =>
  (fraction s).bind fun (hasFraction, s) =>
  (exponent s).map fun (hasExponent, s) =>
    let integer : Option Int :=
      if hasFraction || hasExponent || (negative && n == 0) then none
      else some (if negative then -(n : Int) else n)
    (.number integer, s)

/-! All tokens. -/

/-- The token at the front of a text that does not start with a space. -/
def Token.read? : List Char → Option (Token × List Char)
  | [] => none
  | '[' :: s => some (leftBracket, s)
  | ']' :: s => some (rightBracket, s)
  | '\x7b' :: s => some (leftBrace, s)
  | '\x7d' :: s => some (rightBrace, s)
  | ',' :: s => some (comma, s)
  | ':' :: s => some (colon, s)
  | '"' :: s => (stringBody s).map fun (pieces, s) => (string ((join pieces).map String.ofList), s)
  | 'n' :: 'u' :: 'l' :: 'l' :: s => some (null, s)
  | 't' :: 'r' :: 'u' :: 'e' :: s => some (bool true, s)
  | 'f' :: 'a' :: 'l' :: 's' :: 'e' :: s => some (bool false, s)
  | '-' :: s => numberAfterSign true s
  | s => numberAfterSign false s

/-! Every token is taken from the front, so that a text has no more tokens than
characters. -/

theorem length_stringBody {s rest : List Char} {pieces : List Piece} (h : stringBody s = some (pieces, rest)) :
    rest.length < s.length := by
  fun_induction stringBody s generalizing pieces rest with
  | case1 => simp at h
  | case2 => simp_all
  | case3 a b c d tail ih =>
    simp only [Option.bind_eq_some_iff, Option.map_eq_some_iff, Prod.mk.injEq] at h
    obtain ⟨_, _, ⟨ps, r⟩, inner, _, rfl⟩ := h
    have := ih inner
    simp only [List.length_cons]; omega
  | case4 e tail _ ih =>
    simp only [Option.bind_eq_some_iff, Option.map_eq_some_iff, Prod.mk.injEq] at h
    obtain ⟨_, _, ⟨ps, r⟩, inner, _, rfl⟩ := h
    have := ih inner
    simp only [List.length_cons]; omega
  | case5 => simp at h
  | case6 c tail _ _ _ _ ih =>
    simp only [Option.map_eq_some_iff, Prod.mk.injEq] at h
    obtain ⟨⟨ps, r⟩, inner, _, rfl⟩ := h
    have := ih inner
    simp only [List.length_cons]; omega

theorem length_dropWhile_lt {s : List Char} (h : s.takeWhile isDigit ≠ []) :
    (s.dropWhile isDigit).length < s.length := by
  have both := congrArg List.length (List.takeWhile_append_dropWhile (p := isDigit) (l := s))
  have some_digit := List.length_pos_iff.mpr h
  rw [List.length_append] at both
  omega

theorem length_skipDigits {s rest : List Char} (h : skipDigits s = some rest) : rest.length < s.length := by
  unfold skipDigits at h
  split at h
  · simp at h
  · rename_i some_digit
    exact Option.some.inj h ▸ length_dropWhile_lt some_digit

theorem length_wholePart {s rest : List Char} {n : Nat} (h : wholePart s = some (n, rest)) :
    rest.length < s.length := by
  unfold wholePart at h
  split at h
  · simp at h
  · obtain ⟨_, value, same⟩ := Option.map_eq_some_iff.mp h
    cases same
    refine length_dropWhile_lt fun empty => ?_
    simp [empty, Text.Decimal.toNat?] at value

theorem length_fraction {s rest : List Char} {b : Bool} (h : fraction s = some (b, rest)) :
    rest.length ≤ s.length := by
  unfold fraction at h
  split at h
  · obtain ⟨_, skipped, same⟩ := Option.map_eq_some_iff.mp h
    cases same
    have := length_skipDigits skipped
    simp only [List.length_cons]; omega
  · cases h; exact Nat.le_refl _

theorem length_skipSign (s : List Char) : (skipSign s).length ≤ s.length := by
  unfold skipSign
  split <;> simp

theorem length_exponent {s rest : List Char} {b : Bool} (h : exponent s = some (b, rest)) :
    rest.length ≤ s.length := by
  unfold exponent at h
  split at h
  iterate 2
    · rename_i tail
      obtain ⟨_, skipped, same⟩ := Option.map_eq_some_iff.mp h
      cases same
      have := length_skipDigits skipped
      have := length_skipSign tail
      simp only [List.length_cons]; omega
  · cases h; exact Nat.le_refl _

theorem length_numberAfterSign {negative : Bool} {s rest : List Char} {t : Token}
    (h : numberAfterSign negative s = some (t, rest)) : rest.length < s.length := by
  simp only [numberAfterSign, Option.bind_eq_some_iff, Option.map_eq_some_iff] at h
  obtain ⟨⟨_, s1⟩, whole, ⟨_, s2⟩, frac, ⟨_, s3⟩, exp, same⟩ := h
  cases same
  have := length_wholePart whole
  have := length_fraction frac
  have := length_exponent exp
  simp only at *
  omega

theorem length_read? {s rest : List Char} {t : Token} (h : Token.read? s = some (t, rest)) :
    rest.length < s.length := by
  unfold Token.read? at h
  split at h
  case h_8 =>
    obtain ⟨⟨_, _⟩, body, same⟩ := Option.map_eq_some_iff.mp h
    cases same
    have := length_stringBody body
    simp only [List.length_cons]; omega
  case h_12 =>
    have := length_numberAfterSign h
    simp only [List.length_cons]; omega
  case h_13 => exact length_numberAfterSign h
  case h_1 => simp at h
  all_goals
    cases h
    simp only [List.length_cons]
    omega

/-- The tokens of a text, spaces between them left out. -/
def tokens? (s : List Char) : Option (List Token) :=
  match s with
  | [] => some []
  | c :: rest =>
    if isSpace c then tokens? rest
    else
      match _read : Token.read? (c :: rest) with
      | none => none
      | some (t, rest) => (tokens? rest).map (t :: ·)
termination_by s.length
decreasing_by
  · simp
  · exact length_read? _read

end PeerTags.Json
