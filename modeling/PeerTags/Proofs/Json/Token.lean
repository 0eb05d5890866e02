import PeerTags.Proofs.Json.Lexeme
/-! A text as a row of tokens, however each is written and with any white space before, between and
after them. A row is read back from every such text, as long as there is a mark between any two tokens
that are no marks themselves. -/
namespace PeerTags.Json

def Space (s : List Char) : Prop := ∀ c ∈ s, isSpace c = true

theorem Space.nil : Space [] := nofun

/-- Tokens with white space around them. -/
inductive Spaced : List Token → List Char → Prop
  | nil {space : List Char} : Space space → Spaced [] space
  | cons {space lexeme text : List Char} {t : Token} {ts : List Token} : Space space → Lexeme t lexeme →
      Spaced ts text → Spaced (t :: ts) (space ++ (lexeme ++ text))

namespace Spaced

variable {ts us : List Token} {a b : List Char}

theorem empty : Spaced [] [] := .nil Space.nil

/-- White space may be added in front. -/
theorem space {s : List Char} (hs : Space s) (h : Spaced ts a) : Spaced ts (s ++ a) := by
  have both {s' : List Char} (hs' : Space s') : Space (s ++ s') := fun c member =>
    (List.mem_append.mp member).elim (hs c) (hs' c)
  cases h with
  | nil hs' => exact .nil (both hs')
  | cons hs' lexeme rest =>
      rw [← List.append_assoc]
      exact .cons (both hs') lexeme rest

theorem append (ha : Spaced ts a) (hb : Spaced us b) : Spaced (ts ++ us) (a ++ b) := by
  induction ha with
  | nil hs => exact hb.space hs
  | cons hs lexeme _ ih =>
      rw [List.append_assoc, List.append_assoc]
      exact .cons hs lexeme ih

theorem lexeme {t : Token} (h : Lexeme t a) (rest : Spaced us b) : Spaced (t :: us) (a ++ b) :=
  .cons Space.nil h rest

theorem mark {t : Token} {c : Char} (h : t.mark? = some c) (rest : Spaced us b) : Spaced (t :: us) (c :: b) :=
  .lexeme (.mark h) rest

/-- Texts between commas. -/
theorem intercalate {α : Type} {text : α → List Char} {row : α → List Token} {xs : List α}
    (h : ∀ x ∈ xs, Spaced (row x) (text x)) :
    Spaced ([.comma].intercalate (xs.map row)) ([','].intercalate (xs.map text)) := by
  induction xs with
  | nil => exact .empty
  | cons x xs ih =>
      have first : Spaced (row x) (text x) := h x List.mem_cons_self
      have later := ih fun y member => h y (List.mem_cons_of_mem x member)
      cases xs with
      | nil => simpa using first
      | cons y ys =>
          simp only [List.map_cons, List.intercalate_cons_cons, List.append_assoc, List.singleton_append] at later ⊢
          exact first.append (.mark rfl later)

end Spaced

/-! Reading. -/

/-- There is a mark between any two tokens that are no marks. -/
inductive Apart : List Token → Prop
  | nil : Apart []
  | last (t : Token) : Apart [t]
  | mark {t : Token} {c : Char} {ts : List Token} : t.mark? = some c → Apart ts → Apart (t :: ts)
  | between (t : Token) {u : Token} {c : Char} {ts : List Token} : u.mark? = some c → Apart ts → Apart (t :: u :: ts)

theorem Apart.append {t : Token} {c : Char} (mark : t.mark? = some c) {ts us : List Token} (ht : Apart ts)
    (hu : Apart us) : Apart (ts ++ t :: us) := by
  induction ht with
  | nil => exact .mark mark hu
  | last v => exact .between v mark hu
  | mark first _ ih => exact .mark first ih
  | between v first _ ih => exact .between v first ih

theorem Apart.intercalate {α : Type} {row : α → List Token} {xs : List α} (h : ∀ x ∈ xs, Apart (row x)) :
    Apart ([.comma].intercalate (xs.map row)) := by
  induction xs with
  | nil => exact .nil
  | cons x xs ih =>
      have first : Apart (row x) := h x List.mem_cons_self
      have later := ih fun y member => h y (List.mem_cons_of_mem x member)
      cases xs with
      | nil => simpa using first
      | cons y ys =>
          simp only [List.map_cons, List.intercalate_cons_cons, List.append_assoc, List.singleton_append] at later ⊢
          exact first.append rfl later

theorem read?_space {c : Char} (space : isSpace c = true) (rest : List Char) : Token.read? (c :: rest) = none := by
  have blank : isDigit c = false := by
    simp only [isSpace, Bool.or_eq_true, beq_iff_eq] at space
    obtain ((rfl | rfl) | rfl) | rfl := space <;> decide
  unfold Token.read?
  split
  case h_1 => rfl
  case h_13 => simp [numberAfterSign, wholePart, blank, Text.Decimal.toNat?]
  all_goals
    rename_i text
    obtain ⟨rfl, -⟩ := List.cons.inj text
    exact absurd space (by decide)

theorem tokens?_of_read {s rest : List Char} {t : Token} (read : Token.read? s = some (t, rest)) :
    tokens? s = (tokens? rest).map (t :: ·) := by
  cases s with
  | nil => cases read
  | cons c s =>
      cases space : isSpace c with
      | true =>
          rw [read?_space space] at read
          cases read
      | false =>
          rw [tokens?, space]
          split
          · contradiction
          · split
            · rename_i none
              rw [read] at none
              cases none
            · rename_i same
              rw [read] at same
              cases same
              rfl

theorem tokens?_space {space : List Char} (h : Space space) (rest : List Char) :
    tokens? (space ++ rest) = tokens? rest := by
  induction space with
  | nil => rfl
  | cons c space ih =>
      obtain ⟨first, later⟩ := List.forall_mem_cons.mp h
      rw [List.cons_append, tokens?, if_pos first]
      exact ih later

theorem Space.endsNumber {space : List Char} (h : Space space) : EndsNumber space := by
  intro c member
  have blank := h c (List.mem_of_head? member)
  simp only [isSpace, Bool.or_eq_true, beq_iff_eq] at blank
  obtain ((rfl | rfl) | rfl) | rfl := blank <;> decide

theorem Lexeme.eq_mark {t : Token} {c : Char} (mark : t.mark? = some c) {text : List Char} (h : Lexeme t text) :
    text = [c] := by
  cases h with
  | mark other =>
      rw [mark] at other
      cases other
      rfl
  | _ => cases mark

/-- A mark, with or without white space before it, ends a number. -/
theorem Spaced.endsNumber {t : Token} {c : Char} (mark : t.mark? = some c) {ts : List Token} {text : List Char}
    (h : Spaced (t :: ts) text) : EndsNumber text := by
  cases h with
  | cons space lexeme _ =>
      cases lexeme.eq_mark mark
      apply space.endsNumber.append (.cons _ _)
      cases t <;> cases mark <;> decide

/-- A token in front of a text that has been read. -/
theorem tokens?_cons {space lexeme text : List Char} {t : Token} {ts : List Token} (hs : Space space)
    (h : Lexeme t lexeme) (ends : (∃ c, t.mark? = some c) ∨ EndsNumber text) (rest : tokens? text = some ts) :
    tokens? (space ++ (lexeme ++ text)) = some (t :: ts) := by
  have read : Token.read? (lexeme ++ text) = some (t, text) := by
    obtain ⟨c, mark⟩ | ends := ends
    · rw [h.eq_mark mark]
      exact read?_mark mark text
    · exact h.reads text ends
  rw [tokens?_space hs, tokens?_of_read read, rest, Option.map_some]

theorem Spaced.tokens?_eq {ts : List Token} {text : List Char} (h : Spaced ts text) (apart : Apart ts) :
    tokens? text = some ts := by
  have blank {space : List Char} (hs : Space space) : tokens? space = some [] := by
    have read := tokens?_space hs []
    rwa [List.append_nil, tokens?] at read
  induction apart generalizing text with
  | nil =>
      cases h with
      | nil hs => exact blank hs
  | last t =>
      cases h with
      | cons hs lexeme rest =>
          cases rest with
          | nil hs' => exact tokens?_cons hs lexeme (.inr hs'.endsNumber) (blank hs')
  | mark mark _ ih =>
      cases h with
      | cons hs lexeme rest => exact tokens?_cons hs lexeme (.inl ⟨_, mark⟩) (ih rest)
  | between t mark _ ih =>
      cases h with
      | cons hs lexeme rest =>
          have ends := rest.endsNumber mark
          cases rest with
          | cons hs' lexeme' rest' =>
              exact tokens?_cons hs lexeme (.inr ends) (tokens?_cons hs' lexeme' (.inl ⟨_, mark⟩) (ih rest'))

/-- Whatever is read as a row of tokens is written as one. -/
theorem spaced_of_tokens? {s : List Char} {ts : List Token} (read : tokens? s = some ts) : Spaced ts s := by
  fun_induction tokens? s generalizing ts with
  | case1 =>
      cases read
      exact .empty
  | case2 c rest space ih => exact Spaced.space (List.forall_mem_singleton.mpr space) (ih read)
  | case3 => cases read
  | case4 c tail _ t rest first ih =>
      obtain ⟨us, later, rfl⟩ := Option.map_eq_some_iff.mp read
      obtain ⟨text, lexeme, split⟩ := lexeme_of_read? first
      rw [split]
      exact .lexeme lexeme (ih later)

end PeerTags.Json
