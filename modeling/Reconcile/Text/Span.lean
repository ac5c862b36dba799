/-! Spans of time as text: the largest of the units s, ms, µs and ns that the span fills at least
once, with as many decimals as it takes to be exact. -/

namespace Reconcile.Span

/-- `places` decimals of `n`, without the zeros at their end. -/
def decimals (places n : Nat) : List Char :=
  let written := Nat.toDigits 10 n
  let padded := List.replicate (places - written.length) '0' ++ written
  (padded.reverse.dropWhile (· = '0')).reverse

/-- `n` counted in units of `10 ^ places`. -/
def inUnits (places n : Nat) (unit : String) : String :=
  let whole := n / Nat.pow 10 places
  let part := n % Nat.pow 10 places
  if part = 0 then toString whole ++ unit
  else toString whole ++ "." ++ String.ofList (decimals places part) ++ unit

def text (nanoseconds : Nat) : String :=
  if 1000000000 ≤ nanoseconds then inUnits 9 nanoseconds "s"
  else if 1000000 ≤ nanoseconds then inUnits 6 nanoseconds "ms"
  else if 1000 ≤ nanoseconds then inUnits 3 nanoseconds "µs"
  else inUnits 0 nanoseconds "ns"

end Reconcile.Span
