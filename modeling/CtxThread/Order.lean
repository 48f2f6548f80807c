/-!
# Putting a list in order

Elements are put in order one by one, each before those that it does not come after. Elements of
the same rank keep the order in which they stood.

## Main definitions

- `Order.place`: puts one element in its place
- `Order.sort`: puts all elements in order
-/

namespace CtxThread.Order

variable {α : Type}

/-- Puts `a` into a list in order, before the first element that it does not come after. -/
def place (le : α → α → Bool) (a : α) : List α → List α
  | [] => [a]
  | b :: bs => if le a b then a :: b :: bs else b :: place le a bs

/-- The elements of a list in order. -/
def sort (le : α → α → Bool) : List α → List α
  | [] => []
  | a :: as => place le a (sort le as)

end CtxThread.Order
