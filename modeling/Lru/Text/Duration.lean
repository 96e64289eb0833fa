import Lru.Time

/-! # Text of durations

A duration is written in the largest of the units s, ms, µs and ns of which it
holds at least one, with the exact fraction and no trailing zeros.
-/

namespace Lru.Text

/-- The digits behind the point of `count` parts, of which `10 ^ places` make a unit. -/
def fractionDigits (places count : Nat) : List Char :=
  let digits := (toString count).toList
  let padded := List.replicate (places - digits.length) '0' ++ digits
  (padded.reverse.dropWhile (· == '0')).reverse

/-- A number of units and a fraction in parts, of which `10 ^ places` make a unit. -/
def decimal (places units parts : Nat) : String :=
  match fractionDigits places parts with
  | [] => toString units
  | digits => toString units ++ "." ++ String.ofList digits

def duration (d : Duration) : String :=
  let inUnits (places : Nat) (unit : String) : String :=
    decimal places (d / Nat.pow 10 places) (d % Nat.pow 10 places) ++ unit
  if Nat.pow 10 9 ≤ d then inUnits 9 "s"
  else if Nat.pow 10 6 ≤ d then inUnits 6 "ms"
  else if Nat.pow 10 3 ≤ d then inUnits 3 "µs"
  else inUnits 0 "ns"

end Lru.Text
