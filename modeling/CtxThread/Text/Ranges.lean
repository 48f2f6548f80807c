/-!
# Sets of code points

A set of code points is a list of closed ranges in ascending order.
-/

namespace CtxThread.Text

/-- Whether `n` lies in one of the ascending ranges `rs`; the search stops at the first range
that ends at or after `n`. -/
def inRanges : List (Nat × Nat) → Nat → Bool
  | [], _ => false
  | (lo, hi) :: rs, n => if n ≤ hi then decide (lo ≤ n) else inRanges rs n

end CtxThread.Text
