import PeerTags.Text.Decimal
/-! Spans of time to the nanosecond. -/
namespace PeerTags

structure Duration where
  secs : UInt64
  nanos : Nat
  nanos_lt : nanos < 1000000000
deriving DecidableEq

namespace Duration

def ofSecs (secs : UInt64) : Duration := ⟨secs, 0, by decide⟩

def isZero (d : Duration) : Bool := d.secs == 0 && d.nanos == 0

/-- A point and the digits of `part / 10^places`, trailing zeros left out; nothing for zero. -/
def fraction (part places : Nat) : List Char :=
  if part = 0 then []
  else
    let ds := Text.Decimal.ofNat part
    let padded := List.replicate (places - ds.length) '0' ++ ds
    '.' :: (padded.reverse.dropWhile (· = '0')).reverse

def decimal (whole part places : Nat) : String := String.ofList (Text.Decimal.ofNat whole ++ fraction part places)

/-- The span in the largest of the units s, ms, µs, ns that it fills at least once. -/
def text (d : Duration) : String :=
  if d.secs ≠ 0 then decimal d.secs.toNat d.nanos 9 ++ "s"
  else if 1000000 ≤ d.nanos then decimal (d.nanos / 1000000) (d.nanos % 1000000) 6 ++ "ms"
  else if 1000 ≤ d.nanos then decimal (d.nanos / 1000) (d.nanos % 1000) 3 ++ "µs"
  else decimal d.nanos 0 0 ++ "ns"

end Duration
end PeerTags
