/-!
Character classes given as ranges of code points.
-/

namespace RatScript.Text

def inRanges (ranges : List (Nat × Nat)) (c : Char) : Bool :=
  ranges.any fun (lo, hi) => lo ≤ c.toNat && c.toNat ≤ hi

end RatScript.Text
