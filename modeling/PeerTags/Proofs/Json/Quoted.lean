import PeerTags.Json.Quoted
import PeerTags.Json.Token
/-! How a string may be written between its quotes: any character may be escaped by its number, some
by a letter, and those that are neither quotes, backslashes nor controls stand for themselves. All
that is read as a string is written so, and is read up to its closing quote. -/
namespace PeerTags.Json

/-- A character that stands for itself. -/
def Plain (c : Char) : Prop := ¬ c < ' ' ∧ c ≠ '"' ∧ c ≠ '\\'

/-- The letters of the short escapes, with the characters that they stand for. -/
def shortEscapes : List (Char × Char) :=
  [('"', '"'), ('\\', '\\'), ('/', '/'), ('b', '\x08'), ('f', '\x0c'), ('n', '\n'), ('r', '\r'), ('t', '\t')]

/-- A hexadecimal digit, in either case. -/
def Hex (c : Char) (d : Nat) : Prop := d < 16 ∧ (c = hexDigit d ∨ c = (hexDigit d).toUpper)

/-- An escape by the four digits of a number. -/
inductive Coded : List Char → Nat → Prop
  | intro {a b c d : Char} {i j k l : Nat} : Hex a i → Hex b j → Hex c k → Hex d l →
      Coded ['\\', 'u', a, b, c, d] (Radix.value 16 [i, j, k, l])

/-- A character, or one half of a surrogate pair, as it may be written in a string. -/
inductive PieceText : List Char → Piece → Prop
  | plain {c : Char} : Plain c → PieceText [c] (.char c)
  | short {e c : Char} : (e, c) ∈ shortEscapes → PieceText ['\\', e] (.char c)
  | code {text : List Char} {c : Char} : Coded text c.toNat → PieceText text (.char c)
  | half {text : List Char} {code : Nat} : Coded text code → 0xD800 ≤ code → code ≤ 0xDFFF →
      PieceText text (.half code)

/-- What may stand between the quotes of a string, piece by piece. -/
inductive Spelt : List Char → List Piece → Prop
  | nil : Spelt [] []
  | cons {first text : List Char} {p : Piece} {ps : List Piece} : PieceText first p → Spelt text ps →
      Spelt (first ++ text) (p :: ps)

/-- What stands between the quotes of a string that says these characters. Those above the first 65536 may be
written as a pair of halves, the high one first. -/
inductive Says : List Char → List Char → Prop
  | nil : Says [] []
  | char {first text : List Char} {c : Char} {s : List Char} : PieceText first (.char c) → Says text s →
      Says (first ++ text) (c :: s)
  | pair {first second text : List Char} {high low : Nat} {c : Char} {s : List Char} :
      PieceText first (.half high) → PieceText second (.half low) → high < 0xDC00 → 0xDC00 ≤ low →
      c.toNat = 0x10000 + (high - 0xD800) * 0x400 + (low - 0xDC00) → Says text s →
      Says (first ++ (second ++ text)) (c :: s)

theorem hexDigit?_eq_some_iff {c : Char} {d : Nat} : hexDigit? c = some d ↔ Hex c d := by
  have digits : ∀ d < 16, hexDigit? (hexDigit d) = some d ∧ hexDigit? (hexDigit d).toUpper = some d := by decide
  constructor
  · intro read
    unfold hexDigit? at read
    split at read
    · rename_i range
      cases read
      have least : 48 ≤ c.toNat := range.1
      have most : c.toNat ≤ 57 := range.2
      refine ⟨by omega, .inl ?_⟩
      rw [hexDigit, if_pos (by omega), Nat.add_sub_cancel' least, Char.ofNat_toNat]
    · split at read
      · rename_i range
        cases read
        have least : 97 ≤ c.toNat := range.1
        have most : c.toNat ≤ 102 := range.2
        refine ⟨by omega, .inl ?_⟩
        rw [hexDigit, if_neg (by omega), Nat.add_sub_cancel' (by omega), Char.ofNat_toNat]
      · split at read
        · rename_i range
          cases read
          have least : 65 ≤ c.toNat := range.1
          have most : c.toNat ≤ 70 := range.2
          have upper : ∀ d < 16, 10 ≤ d → (hexDigit d).toUpper = Char.ofNat (55 + d) := by decide
          refine ⟨by omega, .inr ?_⟩
          rw [upper _ (by omega) (by omega), Nat.add_sub_cancel' (by omega), Char.ofNat_toNat]
        · cases read
  · rintro ⟨small, rfl | rfl⟩
    · exact (digits d small).1
    · exact (digits d small).2

theorem toNat_ofNat {n : Nat} (valid : n.isValidChar) : (Char.ofNat n).toNat = n := by
  rw [Char.ofNat, dif_pos valid]
  rfl

theorem Coded.lt {text : List Char} {n : Nat} (h : Coded text n) : n < 0x10000 := by
  obtain ⟨⟨_, _⟩, ⟨_, _⟩, ⟨_, _⟩, ⟨_, _⟩⟩ := h
  simp only [Radix.value, List.foldl_cons, List.foldl_nil]
  omega

theorem Piece.ofCode_toNat (c : Char) : ofCode c.toNat = .char c := by
  have valid : c.toNat < 0xD800 ∨ 0xDFFF < c.toNat ∧ c.toNat < 0x110000 := c.valid
  rw [ofCode, if_neg (by omega), Char.ofNat_toNat]

theorem Piece.ofCode_half {n : Nat} (least : 0xD800 ≤ n) (most : n ≤ 0xDFFF) : ofCode n = .half n :=
  if_pos ⟨least, most⟩

theorem hexCode?_eq {a b c d : Char} {i j k l : Nat} (ha : Hex a i) (hb : Hex b j) (hc : Hex c k) (hd : Hex d l) :
    hexCode? a b c d = some (Radix.value 16 [i, j, k, l]) := by
  simp [hexCode?, hexDigit?_eq_some_iff.mpr ha, hexDigit?_eq_some_iff.mpr hb, hexDigit?_eq_some_iff.mpr hc,
    hexDigit?_eq_some_iff.mpr hd]

theorem coded_of_hexCode? {a b c d : Char} {n : Nat} (read : hexCode? a b c d = some n) :
    Coded ['\\', 'u', a, b, c, d] n := by
  simp only [hexCode?, List.mapM_cons, List.mapM_nil, Option.map_eq_some_iff, Option.bind_eq_bind,
    Option.bind_eq_some_iff, Option.pure_def, Option.some.injEq] at read
  obtain ⟨_, ⟨i, ha, _, ⟨j, hb, _, ⟨k, hc, _, ⟨l, hd, _, rfl, rfl⟩, rfl⟩, rfl⟩, rfl⟩, rfl⟩ := read
  exact .intro (hexDigit?_eq_some_iff.mp ha) (hexDigit?_eq_some_iff.mp hb) (hexDigit?_eq_some_iff.mp hc)
    (hexDigit?_eq_some_iff.mp hd)

/-- What an escape by a number stands for. -/
theorem Coded.pieceText {text : List Char} {n : Nat} (h : Coded text n) : PieceText text (Piece.ofCode n) := by
  have small := h.lt
  unfold Piece.ofCode
  split
  · rename_i range
    exact .half h range.1 range.2
  · have valid : n.isValidChar := by
      obtain low | high : n < 0xD800 ∨ 0xDFFF < n := by omega
      · exact .inl low
      · exact .inr ⟨high, by omega⟩
    apply PieceText.code
    rwa [toNat_ofNat valid]

theorem Coded.stringBody {text : List Char} {n : Nat} (h : Coded text n) (rest : List Char) :
    stringBody (text ++ rest) = (stringBody rest).map fun (pieces, rest) => (Piece.ofCode n :: pieces, rest) := by
  obtain ⟨ha, hb, hc, hd⟩ := h
  simp only [List.cons_append, List.nil_append, Json.stringBody, hexCode?_eq ha hb hc hd, Option.bind_some]

theorem stringBody_plain {c : Char} (plain : Plain c) (rest : List Char) :
    stringBody (c :: rest) = (stringBody rest).map fun (pieces, rest) => (.char c :: pieces, rest) := by
  obtain ⟨printable, quote, backslash⟩ := plain
  rw [stringBody]
  · rw [if_neg (not_or.mpr ⟨printable, backslash⟩)]
  all_goals simp_all

theorem escaped?_eq_some_iff {e c : Char} : escaped? e = some c ↔ (e, c) ∈ shortEscapes := by
  constructor
  · intro read
    unfold escaped? at read
    split at read <;> cases read <;> decide
  · intro short
    simp only [shortEscapes, List.mem_cons, Prod.mk.injEq, List.not_mem_nil, or_false] at short
    obtain h | h | h | h | h | h | h | h := short <;> simp only [h] <;> decide

theorem stringBody_short {e c : Char} (short : (e, c) ∈ shortEscapes) (rest : List Char) :
    stringBody ('\\' :: e :: rest) = (stringBody rest).map fun (pieces, rest) => (.char c :: pieces, rest) := by
  have letter : escaped? e = some c := escaped?_eq_some_iff.mpr short
  rw [stringBody, letter, Option.bind_some]
  rintro _ _ _ _ _ rfl
  cases letter

theorem PieceText.stringBody {first : List Char} {p : Piece} (h : PieceText first p) (rest : List Char) :
    stringBody (first ++ rest) = (stringBody rest).map fun (pieces, rest) => (p :: pieces, rest) := by
  cases h with
  | plain plain => exact stringBody_plain plain rest
  | short short => exact stringBody_short short rest
  | @code _ c coded => rw [coded.stringBody, Piece.ofCode_toNat]
  | half coded least most => rw [coded.stringBody, Piece.ofCode_half least most]

/-- A string is read up to its closing quote. -/
theorem Spelt.stringBody {text : List Char} {ps : List Piece} (h : Spelt text ps) (rest : List Char) :
    stringBody (text ++ '"' :: rest) = some (ps, rest) := by
  induction h with
  | nil => rfl
  | cons piece _ ih => rw [List.append_assoc, piece.stringBody, ih, Option.map_some]

theorem Spelt.unique {text : List Char} {ps qs : List Piece} (hp : Spelt text ps) (hq : Spelt text qs) : ps = qs := by
  cases (hp.stringBody []).symm.trans (hq.stringBody [])
  rfl

/-- Whatever is read as a string is written as one, piece by piece. -/
theorem spelt_of_stringBody {s rest : List Char} {ps : List Piece} (read : stringBody s = some (ps, rest)) :
    ∃ text, Spelt text ps ∧ s = text ++ '"' :: rest := by
  have step {first tail : List Char} {p : Piece} {qs : List Piece} (piece : PieceText first p)
      (inner : ∃ text, Spelt text qs ∧ tail = text ++ '"' :: rest) :
      ∃ text, Spelt text (p :: qs) ∧ first ++ tail = text ++ '"' :: rest := by
    obtain ⟨text, spelt, rfl⟩ := inner
    exact ⟨first ++ text, .cons piece spelt, (List.append_assoc first text _).symm⟩
  fun_induction stringBody s generalizing ps with
  | case1 => cases read
  | case2 =>
      cases read
      exact ⟨[], .nil, rfl⟩
  | case3 a b c d tail ih =>
      obtain ⟨n, code, read⟩ := Option.bind_eq_some_iff.mp read
      obtain ⟨⟨qs, _⟩, inner, same⟩ := Option.map_eq_some_iff.mp read
      cases same
      exact step (coded_of_hexCode? code).pieceText (ih inner)
  | case4 e tail _ ih =>
      obtain ⟨c, letter, read⟩ := Option.bind_eq_some_iff.mp read
      obtain ⟨⟨qs, _⟩, inner, same⟩ := Option.map_eq_some_iff.mp read
      cases same
      exact step (.short (escaped?_eq_some_iff.mp letter)) (ih inner)
  | case5 => cases read
  | case6 c tail quote _ _ plain ih =>
      obtain ⟨⟨qs, _⟩, inner, same⟩ := Option.map_eq_some_iff.mp read
      cases same
      obtain ⟨printable, backslash⟩ := not_or.mp plain
      exact step (.plain ⟨printable, quote, backslash⟩) (ih inner)

/-- The two halves of a character above the first 65536 make it up again. -/
theorem join_pair {high low : Nat} (high_lt : high < 0xDC00) (le_low : 0xDC00 ≤ low) {c : Char}
    (value : c.toNat = 0x10000 + (high - 0xD800) * 0x400 + (low - 0xDC00)) (ps : List Piece) :
    join (.half high :: .half low :: ps) = (join ps).map (c :: ·) := by
  rw [join, if_pos ⟨high_lt, le_low⟩, ← value, Char.ofNat_toNat]

theorem Says.spelt {text s : List Char} (h : Says text s) : ∃ ps, Spelt text ps ∧ join ps = some s := by
  induction h with
  | nil => exact ⟨[], .nil, rfl⟩
  | @char first text c s piece _ ih =>
      obtain ⟨ps, spelt, joined⟩ := ih
      exact ⟨_, .cons piece spelt, by rw [join, joined, Option.map_some]⟩
  | pair first second high_lt le_low value _ ih =>
      obtain ⟨ps, spelt, joined⟩ := ih
      exact ⟨_, .cons first (.cons second spelt), by rw [join_pair high_lt le_low value, joined, Option.map_some]⟩

theorem Spelt.says_of_join {text s : List Char} {ps : List Piece} (h : Spelt text ps) (joined : join ps = some s) :
    Says text s := by
  induction ps using join.induct generalizing text s with
  | case1 =>
      cases h
      cases joined
      exact .nil
  | case2 c ps ih =>
      cases h with
      | cons piece rest =>
          rw [join] at joined
          obtain ⟨t, inner, rfl⟩ := Option.map_eq_some_iff.mp joined
          exact .char piece (ih rest inner)
  | case3 high low ps fits ih =>
      cases h with
      | cons first rest =>
          cases rest with
          | cons second rest =>
              rw [join, if_pos fits] at joined
              obtain ⟨t, inner, rfl⟩ := Option.map_eq_some_iff.mp joined
              refine .pair first second fits.1 fits.2 ?_ (ih rest inner)
              cases first with
              | half _ least _ =>
                  cases second with
                  | half _ _ most =>
                      have valid : Nat.isValidChar (0x10000 + (high - 0xD800) * 0x400 + (low - 0xDC00)) :=
                        .inr ⟨by omega, by omega⟩
                      exact toNat_ofNat valid
  | case4 high low ps fits =>
      rw [join, if_neg fits] at joined
      cases joined
  | case5 half ps alone =>
      rw [join] at joined
      · cases joined
      · exact alone

/-- What is printed for a character is one way to write it. -/
theorem pieceText_escape (c : Char) : PieceText (escape c) (.char c) := by
  unfold escape
  split
  case h_8 quote backslash _ _ _ _ _ =>
    split
    · rename_i control
      have small : c.toNat < 32 := control
      have value : Radix.value 16 [0, 0, c.toNat / 16, c.toNat % 16] = c.toNat := by
        simp only [Radix.value, List.foldl_cons, List.foldl_nil]
        omega
      apply PieceText.code
      rw [← value]
      have zero : Hex '0' 0 := ⟨by decide, .inl rfl⟩
      exact .intro zero zero ⟨by omega, .inl (by rw [value])⟩ ⟨by omega, .inl (by rw [value])⟩
    · rename_i printable
      exact .plain ⟨printable, quote, backslash⟩
  all_goals exact .short (by decide)

theorem says_flatMap_escape (s : List Char) : Says (s.flatMap escape) s := by
  induction s with
  | nil => exact .nil
  | cons c s ih => exact .char (pieceText_escape c) ih

end PeerTags.Json
