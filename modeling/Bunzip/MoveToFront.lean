/-!
# Move to front

A recency list: the 256 numbers below 256, the one used last in front. Naming a number by its rank
moves it to the front and slides those before it back by one, so the order of the others never
changes.
-/

namespace Bunzip

/-- A recency list. -/
structure MoveToFront where
  order : List UInt8
  deriving DecidableEq, Repr

namespace MoveToFront

/-- The numbers in ascending order. -/
def start : MoveToFront := ⟨(List.range 256).map UInt8.ofNat⟩

/-- The number at `rank`, and the list with that number in front; nothing if the rank is too high. -/
def promote (list : MoveToFront) (rank : Nat) : Option (UInt8 × MoveToFront) :=
  match list.order[rank]? with
  | none => none
  | some value => some (value, ⟨value :: list.order.eraseIdx rank⟩)

/-- The number in front. -/
def front (list : MoveToFront) : Option UInt8 := list.order.head?

end MoveToFront

end Bunzip
