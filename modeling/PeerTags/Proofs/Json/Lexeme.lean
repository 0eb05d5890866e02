import PeerTags.Proofs.Json.Number
import PeerTags.Proofs.Json.Quoted
/-! How one token may be written: the marks and words as they are, numbers and strings in their
grammars. Whatever is written as a token is read as that token, whatever comes after it, and
nothing else is read as one. -/
namespace PeerTags.Json

/-- The character of a token that is a mark. -/
def Token.mark? : Token → Option Char
  | leftBracket => some '['
  | rightBracket => some ']'
  | leftBrace => some '\x7b'
  | rightBrace => some '\x7d'
  | comma => some ','
  | colon => some ':'
  | _ => none

/-- How a token may be written. A string of which no whole characters can be made is a token as well. -/
inductive Lexeme : Token → List Char → Prop
  | mark {t : Token} {c : Char} : t.mark? = some c → Lexeme t [c]
  | null : Lexeme .null ['n', 'u', 'l', 'l']
  | true : Lexeme (.bool true) ['t', 'r', 'u', 'e']
  | false : Lexeme (.bool false) ['f', 'a', 'l', 's', 'e']
  | number {text : List Char} {i : Option Int} : Numeral text i → Lexeme (.number i) text
  | string {text : List Char} {s : String} : Says text s.toList → Lexeme (.string (some s)) ('"' :: (text ++ ['"']))
  | halves {text : List Char} {ps : List Piece} : Spelt text ps → (∀ s, ¬ Says text s) →
      Lexeme (.string none) ('"' :: (text ++ ['"']))

theorem lexeme_quote (s : String) : Lexeme (.string (some s)) (quote s.toList) :=
  .string (says_flatMap_escape s.toList)

/-- A text is read as a token, and no further. -/
def Reads (text : List Char) (t : Token) : Prop :=
  ∀ rest, EndsNumber rest → Token.read? (text ++ rest) = some (t, rest)

theorem read?_mark {t : Token} {c : Char} (mark : t.mark? = some c) (rest : List Char) :
    Token.read? (c :: rest) = some (t, rest) := by
  cases t <;> cases mark <;> rfl

theorem read?_digit {c : Char} (digit : isDigit c = true) (rest : List Char) :
    Token.read? (c :: rest) = numberAfterSign false (c :: rest) := by
  unfold Token.read?
  split
  case h_1 none => cases none
  case h_13 => rfl
  all_goals
    rename_i text
    obtain ⟨rfl, -⟩ := List.cons.inj text
    exact absurd digit (by decide)

/-- A number without a sign starts with a digit. -/
theorem read?_ofNat (n : Nat) (rest : List Char) :
    Token.read? (Text.Decimal.ofNat n ++ rest) = numberAfterSign false (Text.Decimal.ofNat n ++ rest) := by
  obtain ⟨c, tail, digits⟩ := List.exists_cons_of_ne_nil (Text.Decimal.ofNat_ne_nil n)
  have digit : isDigit c = true := isDigit_of_mem_ofNat (digits ▸ List.mem_cons_self)
  rw [digits, List.cons_append, read?_digit digit]

theorem Numeral.reads {text : List Char} {i : Option Int} (h : Numeral text i) : Reads text (.number i) := by
  intro rest ends
  obtain ⟨negative, n, point, power, hf, he, rfl, rfl⟩ := h.parts
  have read := numberAfterSign_parts negative n hf he ends
  simp only [List.append_assoc]
  cases negative with
  | false => exact (read?_ofNat n _).trans read
  | true => exact read

/-- A string's text is read up to its closing quote, and what it says is what its pieces make up. -/
theorem Spelt.reads {text : List Char} {ps : List Piece} (h : Spelt text ps) :
    Reads ('"' :: (text ++ ['"'])) (.string ((join ps).map String.ofList)) := by
  intro rest _
  rw [List.cons_append, List.append_assoc, List.singleton_append, Token.read?, h.stringBody, Option.map_some]

/-- A string between its quotes is one token, whole characters or not. -/
theorem Spelt.lexeme {text : List Char} {ps : List Piece} (h : Spelt text ps) :
    Lexeme (.string ((join ps).map String.ofList)) ('"' :: (text ++ ['"'])) := by
  cases joined : join ps with
  | some s =>
      apply Lexeme.string
      rw [String.toList_ofList]
      exact h.says_of_join joined
  | none =>
      refine .halves h fun s saying => ?_
      obtain ⟨ps', spelt, whole⟩ := saying.spelt
      rw [spelt.unique h, joined] at whole
      cases whole

theorem Lexeme.reads {t : Token} {text : List Char} (h : Lexeme t text) : Reads text t := by
  cases h with
  | mark mark => exact fun rest _ => read?_mark mark rest
  | null => exact fun _ _ => rfl
  | true => exact fun _ _ => rfl
  | false => exact fun _ _ => rfl
  | number numeral => exact numeral.reads
  | @string text s saying =>
      obtain ⟨ps, spelt, joined⟩ := saying.spelt
      have reads := spelt.reads
      rwa [joined, Option.map_some, String.ofList_toList] at reads
  | @halves text ps spelt nothing =>
      have alone : join ps = none := by
        cases joined : join ps with
        | none => rfl
        | some s => exact absurd (spelt.says_of_join joined) (nothing s)
      have reads := spelt.reads
      rwa [alone] at reads

/-- Whatever is read as a token is written as one. -/
theorem lexeme_of_read? {s rest : List Char} {t : Token} (read : Token.read? s = some (t, rest)) :
    ∃ text, Lexeme t text ∧ s = text ++ rest := by
  have number {negative : Bool} {s : List Char} (read : numberAfterSign negative s = some (t, rest)) :
      ∃ text, Lexeme t text ∧ (if negative then ['-'] else []) ++ s = text ++ rest := by
    obtain ⟨n, point, power, hf, he, rfl, rfl⟩ := parts_of_numberAfterSign read
    exact ⟨_, .number (numeral_of_parts negative n hf he), by simp only [List.append_assoc]⟩
  unfold Token.read? at read
  split at read
  case h_1 => cases read
  case h_8 s =>
    obtain ⟨⟨ps, _⟩, body, same⟩ := Option.map_eq_some_iff.mp read
    cases same
    obtain ⟨text, spelt, rfl⟩ := spelt_of_stringBody body
    exact ⟨_, spelt.lexeme, by simp⟩
  case h_9 =>
    cases read
    exact ⟨_, .null, rfl⟩
  case h_10 =>
    cases read
    exact ⟨_, .true, rfl⟩
  case h_11 =>
    cases read
    exact ⟨_, .false, rfl⟩
  case h_12 => exact number read
  case h_13 => exact number read
  all_goals
    cases read
    exact ⟨_, .mark rfl, rfl⟩

end PeerTags.Json
