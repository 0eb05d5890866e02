import PeerTags.Base58
import PeerTags.Proofs.Radix
/-! Base 58. A text and the bytes that it stands for are two writings of one number, after as many
leading ones as there are leading zeros (`Base58.Spells`). A number has one writing in a base, so
that of the two each determines the other. -/
namespace PeerTags

namespace Base58

open Radix (Canonical)

/-! Single digits. -/

theorem length_alphabet : alphabet.length = 58 := by decide

theorem nodup_alphabet : alphabet.Nodup := by decide

theorem ofDigit_eq_getElem {d : Nat} (inside : d < alphabet.length) : ofDigit d = alphabet[d] := by
  rw [ofDigit, List.getD_eq_getElem?_getD, List.getElem?_eq_getElem inside, Option.getD_some]

theorem ofDigit_mem_alphabet {d : Nat} (small : d < 58) : ofDigit d ∈ alphabet := by
  rw [ofDigit_eq_getElem (length_alphabet ▸ small)]
  exact List.getElem_mem _

theorem digit?_ofDigit {d : Nat} (small : d < 58) : digit? (ofDigit d) = some d := by
  have inside : d < alphabet.length := length_alphabet ▸ small
  rw [ofDigit_eq_getElem inside]
  refine List.findIdx?_eq_some_iff_getElem.mpr ⟨inside, beq_self_eq_true _, ?_⟩
  intro e earlier same
  exact Nat.ne_of_lt earlier ((List.getElem_inj nodup_alphabet).mp (eq_of_beq same))

theorem digit?_eq_some {c : Char} {d : Nat} (found : digit? c = some d) : d < 58 ∧ ofDigit d = c := by
  obtain ⟨inside, same, _⟩ := List.findIdx?_eq_some_iff_getElem.mp found
  refine ⟨length_alphabet ▸ inside, ?_⟩
  rw [ofDigit_eq_getElem inside]
  exact eq_of_beq same

theorem ofDigit_eq_one {d : Nat} (small : d < 58) (one : ofDigit d = '1') : d = 0 := by
  have read := digit?_ofDigit small
  rw [one] at read
  cases read
  rfl

theorem mapM_digit?_eq_some {cs : List Char} {ds : List Nat} (read : cs.mapM digit? = some ds) :
    (∀ d ∈ ds, d < 58) ∧ ds.map ofDigit = cs :=
  map_of_mapM (fun _ _ => digit?_eq_some) read

/-! The run of one character, or byte, that a list starts with. -/

section Run

variable {α : Type} [DecidableEq α] {a : α} {rest : List α}

theorem takeWhile_run (k : Nat) (other : rest.head? ≠ some a) :
    (List.replicate k a ++ rest).takeWhile (· = a) = List.replicate k a := by
  have alike : ∀ b ∈ List.replicate k a, decide (b = a) = true := by
    intro b member
    exact decide_eq_true (List.eq_of_mem_replicate member)
  rw [List.takeWhile_append_of_pos alike]
  cases rest with
  | nil => exact List.append_nil _
  | cons b rest =>
      have different : ¬ b = a := fun same => other (congrArg some same)
      simp [different]

theorem dropWhile_run (k : Nat) (other : rest.head? ≠ some a) :
    (List.replicate k a ++ rest).dropWhile (· = a) = rest := by
  have split := List.takeWhile_append_dropWhile (p := (decide <| · = a)) (l := List.replicate k a ++ rest)
  rw [takeWhile_run k other] at split
  exact List.append_cancel_left split

/-- Every list starts with such a run, if only an empty one. -/
theorem exists_run (a : α) (l : List α) : ∃ k rest, rest.head? ≠ some a ∧ l = List.replicate k a ++ rest := by
  have alike : ∀ b ∈ l.takeWhile (· = a), b = a := by
    intro b member
    exact of_decide_eq_true (List.all_eq_true.mp List.all_takeWhile b member)
  refine ⟨(l.takeWhile (· = a)).length, l.dropWhile (· = a), ?_, ?_⟩
  · intro head
    have stopped := List.head?_dropWhile_not (· = a) l
    rw [head] at stopped
    simp at stopped
  · rw [← List.eq_replicate_of_mem alike, List.takeWhile_append_dropWhile]

end Run

/-! Texts and bytes. -/

/-- A text stands for bytes: ones for the leading zeros, and then the number of the other bytes. -/
inductive Spells : List Char → List UInt8 → Prop
  | intro (zeros : Nat) {ds : List Nat} {tail : List UInt8} (left : Canonical 58 ds)
      (right : Canonical 256 (tail.map UInt8.toNat)) (same : Radix.value 58 ds = Radix.value 256 (tail.map UInt8.toNat)) :
      Spells (List.replicate zeros '1' ++ ds.map ofDigit) (List.replicate zeros 0 ++ tail)

theorem head?_map_ofDigit {ds : List Nat} (canonical : Canonical 58 ds) : (ds.map ofDigit).head? ≠ some '1' := by
  intro one
  cases ds with
  | nil => cases one
  | cons d ds =>
      have zero := ofDigit_eq_one (canonical.small d List.mem_cons_self) (Option.some.inj one)
      exact canonical.first (congrArg some zero)

theorem canonical_bytes {tail : List UInt8} : Canonical 256 (tail.map UInt8.toNat) ↔ tail.head? ≠ some 0 := by
  have head : (tail.map UInt8.toNat).head? = some 0 ↔ tail.head? = some 0 := by
    cases tail with
    | nil => exact ⟨nofun, nofun⟩
    | cons b tail => simp [← UInt8.toNat_inj]
  constructor
  · intro canonical zero
    exact canonical.first (head.mpr zero)
  · intro nonzero
    refine ⟨?_, fun zero => nonzero (head.mp zero)⟩
    intro d member
    obtain ⟨b, _, rfl⟩ := List.mem_map.mp member
    exact b.toNat_lt

theorem map_toNat_ofNat {ds : List Nat} (small : ∀ d ∈ ds, d < 256) : (ds.map UInt8.ofNat).map UInt8.toNat = ds := by
  have same : ∀ d ∈ ds, (UInt8.toNat ∘ UInt8.ofNat) d = id d := by
    intro d member
    exact UInt8.toNat_ofNat_of_lt' (small d member)
  rw [List.map_map, List.map_congr_left same, List.map_id]

theorem map_ofNat_toNat (tail : List UInt8) : (tail.map UInt8.toNat).map UInt8.ofNat = tail := by
  have same : UInt8.ofNat ∘ UInt8.toNat = id := by
    funext b
    exact UInt8.ofNat_toNat
  rw [List.map_map, same, List.map_id]

theorem encode_run (zeros : Nat) {tail : List UInt8} (nonzero : tail.head? ≠ some 0) :
    encode (List.replicate zeros 0 ++ tail) =
      List.replicate zeros '1' ++ (Radix.digits 58 (Radix.value 256 (tail.map UInt8.toNat))).map ofDigit := by
  rw [encode, takeWhile_run zeros nonzero, dropWhile_run zeros nonzero, List.length_replicate]

theorem decode_run (ones : Nat) {core : List Char} (other : core.head? ≠ some '1') :
    decode (List.replicate ones '1' ++ core) = (core.mapM digit?).map fun ds =>
      List.replicate ones 0 ++ (Radix.digits 256 (Radix.value 58 ds)).map UInt8.ofNat := by
  rw [decode, takeWhile_run ones other, dropWhile_run ones other, List.length_replicate]

theorem Spells.encode_eq {text : List Char} {bytes : List UInt8} (spells : Spells text bytes) :
    encode bytes = text := by
  obtain ⟨zeros, left, right, same⟩ := spells
  rw [encode_run zeros (canonical_bytes.mp right), ← same, left.digits_value (by decide)]

theorem Spells.decode_eq {text : List Char} {bytes : List UInt8} (spells : Spells text bytes) :
    decode text = some bytes := by
  obtain @⟨zeros, ds, tail, left, right, same⟩ := spells
  have read : ∀ d ∈ ds, digit? (ofDigit d) = some d := by
    intro d member
    exact digit?_ofDigit (left.small d member)
  rw [decode_run zeros (head?_map_ofDigit left), mapM_map_of_inverse read, Option.map_some, same,
    right.digits_value (by decide), map_ofNat_toNat]

theorem spells_encode (bytes : List UInt8) : Spells (encode bytes) bytes := by
  obtain ⟨zeros, tail, nonzero, rfl⟩ := exists_run 0 bytes
  rw [encode_run zeros nonzero]
  apply Spells.intro zeros (Radix.canonical_digits (by decide) _) (canonical_bytes.mpr nonzero)
  exact Radix.value_digits (by decide) _

theorem spells_of_decode {text : List Char} {bytes : List UInt8} (read : decode text = some bytes) :
    Spells text bytes := by
  obtain ⟨ones, core, other, rfl⟩ := exists_run '1' text
  rw [decode_run ones other] at read
  obtain ⟨ds, digits, rfl⟩ := Option.map_eq_some_iff.mp read
  obtain ⟨small, rfl⟩ := mapM_digit?_eq_some digits
  have first : ds.head? ≠ some 0 := by
    intro zero
    rw [List.head?_map, zero] at other
    exact other rfl
  have bytes := Radix.canonical_digits (by decide : 2 ≤ 256) (Radix.value 58 ds)
  have numbers := map_toNat_ofNat bytes.small
  apply Spells.intro ones ⟨small, first⟩
  · rw [numbers]
    exact bytes
  · rw [numbers, Radix.value_digits (by decide)]

/-- Reading finds the bytes that a text stands for. -/
theorem decode_eq_some_iff {text : List Char} {bytes : List UInt8} :
    decode text = some bytes ↔ Spells text bytes := ⟨spells_of_decode, Spells.decode_eq⟩

/-- Bytes have one text, which is what they are written as. -/
theorem spells_iff_encode {text : List Char} {bytes : List UInt8} : Spells text bytes ↔ encode bytes = text := by
  constructor
  · exact Spells.encode_eq
  · rintro rfl
    exact spells_encode bytes

theorem Spells.mem_alphabet {text : List Char} {bytes : List UInt8} (spells : Spells text bytes) {c : Char}
    (member : c ∈ text) : c ∈ alphabet := by
  obtain ⟨_, left, _, _⟩ := spells
  obtain one | digit := List.mem_append.mp member
  · rw [List.eq_of_mem_replicate one]
    exact ofDigit_mem_alphabet (by decide : 0 < 58)
  · obtain ⟨d, listed, rfl⟩ := List.mem_map.mp digit
    exact ofDigit_mem_alphabet (left.small d listed)

end Base58
end PeerTags
