/-!
# Sets of code points

A set of code points is given by its flips: the points, in increasing order,
where membership changes. A point is in the set when an odd number of flips
lie at or below it.
-/

namespace Wiring.Text

/-- Whether an odd number of the flips lie at or below `n`. -/
def withinFlips (flips : List Nat) (n : Nat) : Bool :=
  flips.countP (· ≤ n) % 2 == 1

end Wiring.Text
