import PeerTags.Peer
import PeerTags.Proofs.Base58
/-! The bytes and the text of a peer. The bytes are a multihash: a code and a size, both written as
`Varint`, and a digest of that size. Those that name a peer have a known code and a size within its
limit (`PeerBytes`). -/
namespace PeerTags

/-- A number in groups of seven bits, the lowest group first. Each byte but the last has its high
bit set, and the last is not zero, unless it is the only one. -/
inductive Varint : Nat → List UInt8 → Prop
  | last {b : UInt8} (low : b.toNat < 128) : Varint b.toNat [b]
  | more {b : UInt8} {n : Nat} {rest : List UInt8} (high : 128 ≤ b.toNat) (needed : 0 < n) (later : Varint n rest) :
      Varint (b.toNat - 128 + 128 * n) (b :: rest)

/-- A code, the size of a digest and the digest, one after the other. -/
inductive Multihash : Nat → List UInt8 → List UInt8 → Prop
  | intro {code : Nat} {front middle digest : List UInt8} (kind : Varint code front)
      (size : Varint digest.length middle) : Multihash code digest (front ++ middle ++ digest)

/-- The bytes that name a peer: those of a SHA-256 multihash with up to 64 bytes of digest, or of an
identity multihash with up to 42. -/
def PeerBytes (bytes : List UInt8) : Prop :=
  ∃ code digest, Multihash code digest bytes ∧ (code = 0x12 ∧ digest.length ≤ 64 ∨ code = 0 ∧ digest.length ≤ 42)

/-- A number below 128 is a single byte. -/
theorem Varint.eq_singleton {n : Nat} {bytes : List UInt8} (written : Varint n bytes) (small : n < 128) :
    bytes = [UInt8.ofNat n] := by
  cases written with
  | last low => rw [UInt8.ofNat_toNat]
  | more high needed later => omega

theorem Varint.ofNat {n : Nat} (small : n < 128) : Varint n [UInt8.ofNat n] := by
  have value : (UInt8.ofNat n).toNat = n := UInt8.toNat_ofNat_of_lt' (Nat.lt_trans small (by decide))
  have written : Varint (UInt8.ofNat n).toNat [UInt8.ofNat n] := .last (by omega)
  rwa [value] at written

theorem HashCode.byte_of_ofByte? {b : UInt8} {code : HashCode} (known : ofByte? b = some code) : code.byte = b := by
  unfold ofByte? at known
  split at known
  · rename_i zero
    cases known
    exact zero.symm
  · split at known
    · rename_i sha
      cases known
      exact sha.symm
    · cases known

namespace Peer

theorem multihash_bytes (p : Peer) : Multihash p.code.byte.toNat p.digest p.bytes := by
  have size := Nat.le_trans p.size_le p.code.limit_le
  have kind : Varint p.code.byte.toNat [p.code.byte] := by
    cases p.code <;> exact .last (by decide)
  exact .intro kind (.ofNat (by omega))

theorem peerBytes_bytes (p : Peer) : PeerBytes p.bytes := by
  refine ⟨_, _, p.multihash_bytes, ?_⟩
  have size := p.size_le
  cases kind : p.code with
  | identity =>
      rw [kind] at size
      exact .inr ⟨rfl, size⟩
  | sha256 =>
      rw [kind] at size
      exact .inl ⟨rfl, size⟩

/-- Bytes that may name a peer do name one. -/
theorem peerBytes_iff {bytes : List UInt8} : PeerBytes bytes ↔ ∃ p : Peer, p.bytes = bytes := by
  constructor
  · rintro ⟨code, digest, ⟨kind, size⟩, admitted⟩
    obtain ⟨known, limit, rfl⟩ : ∃ known : HashCode, digest.length ≤ known.limit ∧ code = known.byte.toNat := by
      obtain ⟨rfl, limit⟩ | ⟨rfl, limit⟩ := admitted
      · exact ⟨.sha256, limit, rfl⟩
      · exact ⟨.identity, limit, rfl⟩
    have short := Nat.le_trans limit known.limit_le
    have low : known.byte.toNat < 128 := by
      cases known <;> decide
    refine ⟨⟨known, digest, limit⟩, ?_⟩
    rw [kind.eq_singleton low, size.eq_singleton (by omega), UInt8.ofNat_toNat]
    rfl
  · rintro ⟨p, rfl⟩
    exact p.peerBytes_bytes

theorem bytes_of_ofBytes? {bytes : List UInt8} {p : Peer} (read : ofBytes? bytes = some p) : p.bytes = bytes := by
  unfold ofBytes? at read
  split at read
  · rename_i code size digest
    obtain ⟨known, found, read⟩ := Option.bind_eq_some_iff.mp read
    split at read
    · rename_i fits
      cases read
      rw [bytes, HashCode.byte_of_ofByte? found, fits.1, UInt8.ofNat_toNat]
    · cases read
  · cases read

/-- Reading bytes finds the peer that they name. -/
theorem ofBytes?_eq_some_iff {bytes : List UInt8} {p : Peer} : ofBytes? bytes = some p ↔ p.bytes = bytes := by
  constructor
  · exact bytes_of_ofBytes?
  · rintro rfl
    exact ofBytes?_bytes p

/-- Reading a text finds the peer whose bytes it stands for. -/
theorem ofText?_eq_some_iff {s : List Char} {p : Peer} : ofText? s = some p ↔ Base58.Spells s p.bytes := by
  rw [ofText?, Option.bind_eq_some_iff]
  constructor
  · rintro ⟨bytes, decoded, read⟩
    rw [ofBytes?_eq_some_iff.mp read]
    exact Base58.decode_eq_some_iff.mp decoded
  · intro spells
    exact ⟨_, spells.decode_eq, ofBytes?_bytes p⟩

theorem spells_text (p : Peer) : Base58.Spells p.text.toList p.bytes := by
  rw [text, String.toList_ofList]
  exact Base58.spells_encode p.bytes

/-- Reading a text finds the peer that is printed so. -/
theorem ofText?_iff_text {s : List Char} {p : Peer} : ofText? s = some p ↔ p.text.toList = s := by
  rw [ofText?_eq_some_iff, Base58.spells_iff_encode, text, String.toList_ofList]

/-- No two peers have the same text. -/
theorem text_inj {p q : Peer} (same : p.text = q.text) : p = q := by
  have left : ofText? p.text.toList = some p := ofText?_iff_text.mpr rfl
  have right : ofText? q.text.toList = some q := ofText?_iff_text.mpr rfl
  rw [same, right] at left
  exact (Option.some.inj left).symm

end Peer

namespace PeerSet

theorem contains_ofList (peers : List Peer) (p : Peer) :
    (ofList peers).contains p = decide (p ∈ peers) := by
  have from_set (s : PeerSet) : (peers.foldl (fun s p => s.insert p ()) s).contains p =
      (decide (p ∈ peers) || s.contains p) := by
    induction peers generalizing s with
    | nil => simp
    | cons q peers ih =>
        rw [List.foldl_cons, ih]
        by_cases same : p = q
        · simp [Table.contains, Table.get?_insert, same]
        · simp [Table.contains, Table.get?_insert, same]
  exact (from_set ∅).trans (Bool.or_false _)

theorem ext_contains {s t : PeerSet} (same : ∀ p, s.contains p ↔ t.contains p) : s = t := by
  apply Table.ext
  intro p
  have both := same p
  unfold Table.contains at both
  cases left : s.get? p <;> cases right : t.get? p <;> simp_all

end PeerSet
end PeerTags
