import PeerTags.Radix
/-! Bytes written with 58 letters and digits. Leading zero bytes are written as
leading ones; the bytes after them are one number, written in base 58. -/
namespace PeerTags.Base58

/-- The digits 0 to 57 in order: no zero, no capital O or I, no small l. -/
def alphabet : List Char := "123456789ABCDEFGHJKLMNPQRSTUVWXYZabcdefghijkmnopqrstuvwxyz".toList

def digit? (c : Char) : Option Nat := alphabet.idxOf? c

def ofDigit (d : Nat) : Char := alphabet.getD d '1'

def encode (bytes : List UInt8) : List Char :=
  let zeros := bytes.takeWhile (· = 0)
  let number := Radix.value 256 ((bytes.dropWhile (· = 0)).map UInt8.toNat)
  List.replicate zeros.length '1' ++ (Radix.digits 58 number).map ofDigit

/-- Fails on a character outside the alphabet, and on nothing else. -/
def decode (text : List Char) : Option (List UInt8) :=
  let ones := text.takeWhile (· = '1')
  ((text.dropWhile (· = '1')).mapM digit?).map fun ds =>
    List.replicate ones.length 0 ++ (Radix.digits 256 (Radix.value 58 ds)).map UInt8.ofNat

end PeerTags.Base58
