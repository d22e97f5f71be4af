/-!
Slices by signed bounds. A negative bound counts from the end, and a bound outside the list is cut
to the nearest end, so every pair of bounds names a slice.
-/
namespace FuzzFrontend.Text

/-- The index that a signed bound stands for in a sequence of the given length. -/
def boundIndex (length : Nat) (bound : Int) : Nat :=
  min (if bound < 0 then bound + length else bound).toNat length

/-- The elements from the first bound up to, and without, the second. -/
def slice {α : Type} (xs : List α) (start stop : Int) : List α :=
  (xs.take (boundIndex xs.length stop)).drop (boundIndex xs.length start)

/-- The element at a signed index, where negative indices count from the end. -/
def element? {α : Type} (xs : List α) (index : Int) : Option α :=
  let place := if index < 0 then index + xs.length else index
  if place < 0 then none else xs[place.toNat]?

end FuzzFrontend.Text
