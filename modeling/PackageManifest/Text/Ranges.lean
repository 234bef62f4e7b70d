/-!
# Sets of characters given by ranges

A character class is a list of code point ranges in increasing order, so that looking up a code
point stops at the first range that lies above it.
-/

namespace PackageManifest.Text

/-- Whether `n` lies in one of the ranges, which are in increasing order. -/
def inRanges (n : Nat) : List (Nat × Nat) → Bool
  | [] => false
  | (lo, hi) :: rest => lo ≤ n && (n ≤ hi || inRanges n rest)

end PackageManifest.Text
