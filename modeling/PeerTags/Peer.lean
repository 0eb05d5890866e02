import PeerTags.Base58
import PeerTags.Table
/-! Peers. A peer is named by a hash: which hash function, and the digest. Its
bytes are the function's code, the digest's size and the digest; its text is
those bytes in base 58. -/
namespace PeerTags

/-- How a peer's digest was made from its public key: the key itself, if it is
short, or else its SHA-256 hash. -/
inductive HashCode where
  | identity
  | sha256
deriving DecidableEq

namespace HashCode

def byte : HashCode → UInt8
  | identity => 0x00
  | sha256 => 0x12

def ofByte? (b : UInt8) : Option HashCode :=
  if b = 0x00 then some identity else if b = 0x12 then some sha256 else none

/-- The longest digest that is admitted. -/
def limit : HashCode → Nat
  | identity => 42
  | sha256 => 64

theorem limit_le (c : HashCode) : c.limit ≤ 64 := by cases c <;> decide

@[simp] theorem ofByte?_byte (c : HashCode) : ofByte? c.byte = some c := by cases c <;> decide

end HashCode

structure Peer where
  code : HashCode
  digest : List UInt8
  size_le : digest.length ≤ code.limit
deriving DecidableEq

namespace Peer

/-- Codes and sizes are below 128, so each is written in a single byte. -/
def bytes (p : Peer) : List UInt8 := p.code.byte :: UInt8.ofNat p.digest.length :: p.digest

/-- The size byte has to count what follows it. -/
def ofBytes? : List UInt8 → Option Peer
  | code :: size :: digest => do
    let code ← HashCode.ofByte? code
    if fits : digest.length = size.toNat ∧ digest.length ≤ code.limit then some ⟨code, digest, fits.2⟩ else none
  | _ => none

theorem ofBytes?_bytes (p : Peer) : ofBytes? p.bytes = some p := by
  have size : p.digest.length % 256 = p.digest.length :=
    Nat.mod_eq_of_lt (by have := p.size_le; have := p.code.limit_le; omega)
  simp [ofBytes?, bytes, p.size_le, size]

theorem bytes_inj {p q : Peer} (h : p.bytes = q.bytes) : p = q :=
  Option.some.inj ((ofBytes?_bytes p).symm.trans ((congrArg ofBytes? h).trans (ofBytes?_bytes q)))

/-- The text of a peer. -/
def text (p : Peer) : String := String.ofList (Base58.encode p.bytes)

def ofText? (s : List Char) : Option Peer := (Base58.decode s).bind ofBytes?

instance : ToString Peer := ⟨text⟩

/-- Peers are kept in the order of their bytes. -/
instance : Ord Peer := ⟨compareOn Peer.bytes⟩
instance : Std.TransOrd Peer := inferInstanceAs (Std.TransCmp (compareOn Peer.bytes))

instance : Std.LawfulEqOrd Peer where
  compare_self := Std.ReflCmp.compare_self
  eq_of_compare {p q} h := bytes_inj (Std.LawfulEqCmp.eq_of_compare (show compare p.bytes q.bytes = .eq from h))

end Peer

/-- A finite set of peers. -/
abbrev PeerSet := Table Peer Unit

namespace PeerSet

def ofList (peers : List Peer) : PeerSet := peers.foldl (fun s p => s.insert p ()) ∅

/-- The texts of the members, in increasing order. -/
def texts (s : PeerSet) : List String := (s.keys.map Peer.text).mergeSort fun a b => (compare a b).isLE

end PeerSet
end PeerTags
