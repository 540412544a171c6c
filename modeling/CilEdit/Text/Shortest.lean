/-!
The shortest decimal that still names a given binary number.

A binary number stands for every real that rounds to it. `shortest` searches the decimal grids
from the coarsest to the finest for one with a point in that interval; the first grid with a hit
has the fewest digits, of two hits the nearer one is taken, and a tie goes up.
-/

namespace CilEdit.Text.Shortest

/-- The reals that round to `value`, all in one unit; the ends belong to it iff `closed`. -/
structure Interval where
  low : Nat
  value : Nat
  high : Nat
  closed : Bool

def Interval.holds (i : Interval) (x : Nat) : Bool :=
  if i.closed then i.low ≤ x && x ≤ i.high else i.low < x && x < i.high

/-- The neighbour of the value on the grid of multiples of `unit` that lies in the interval, as a
multiple of `unit`. -/
def Interval.neighbour? (i : Interval) (unit : Nat) : Option Nat :=
  let down := i.value / unit
  match i.holds (down * unit), i.holds ((down + 1) * unit) with
  | true, true => some (if 2 * (i.value % unit) < unit then down else down + 1)
  | true, false => some down
  | false, true => some (down + 1)
  | false, false => none

/-- The coefficient and the power of ten of the shortest decimal in the interval whose grid is at
most `10 ^ power` wide. -/
def Interval.shortest (i : Interval) : (power : Nat) → Nat × Nat
  | 0 => (i.value, 0)
  | power + 1 =>
    match i.neighbour? (Nat.pow 10 (power + 1)) with
    | some coefficient => (coefficient, power + 1)
    | none => i.shortest power

def positional (coefficient power places : Nat) : String :=
  let digits := Nat.toDigits 10 coefficient
  if places ≤ power then
    String.ofList (digits ++ List.replicate (power - places) '0')
  else
    let fraction := places - power
    let padded := List.replicate (fraction + 1 - digits.length) '0' ++ digits
    let split := padded.length - fraction
    String.ofList (padded.take split ++ '.' :: padded.drop split)

end CilEdit.Text.Shortest
