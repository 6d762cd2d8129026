import Multiparty.Circuit.Basic
import Multiparty.Circuit.Future

/-!
# Folding lists in few rounds

A list is combined along a balanced tree: in each level neighbours are combined side by side, and a
last element without a neighbour moves up unchanged.

## Main definitions

* `Concurrent`: computations that can be sequenced and run side by side.
* `Concurrent.pairUp`: one level of combinations.
* `Concurrent.foldTree`: all levels.
* `Future.dotProduct`, `Future.product`: sums of products in one round, and products in
  logarithmically many.
-/

namespace Multiparty

/-- Computations that can be sequenced and run side by side. -/
class Concurrent (M : Type → Type u) where
  /-- The computation that is over from the start. -/
  ready {α : Type} : α → M α
  bind {α β : Type} : M α → (α → M β) → M β
  joinAll {α : Type} : List (M α) → M (List α)

namespace Concurrent

variable {M : Type → Type u} [Concurrent M] {α : Type}

/-- The combinations of neighbours; a last single element stays as it is. -/
def pairUp (combine : α → α → M α) : List α → List (M α)
  | a :: b :: rest => combine a b :: pairUp combine rest
  | [a] => [ready a]
  | [] => []

/-- Combines neighbours level by level, at most `fuel` times, until one element is left. -/
def foldLevels (combine : α → α → M α) (default : α) : (fuel : Nat) → List α → M α
  | fuel + 1, a :: b :: rest =>
    bind (joinAll (pairUp combine (a :: b :: rest))) (foldLevels combine default fuel)
  | _, elems => ready (elems.headD default)

/-- Combines all elements along a balanced tree, or gives the default if there are none. Every
level at least halves the number of elements, so as many levels as elements are enough. -/
def foldTree (combine : α → α → M α) (default : α) (elems : List α) : M α :=
  foldLevels combine default elems.length elems

end Concurrent

variable {S R : Type}

namespace Circuit

instance : Concurrent (Circuit S R) where
  ready := Circuit.pure
  bind c f := c.bind f
  joinAll := joinAll

/-- Combines all elements by circuits along a balanced tree. -/
protected def foldTree {α : Type} (combine : α → α → Circuit S R α) (default : α)
    (elems : List α) : Circuit S R α :=
  Concurrent.foldTree combine default elems

end Circuit

namespace Future

instance : Concurrent (Future S R) where
  ready := ready
  bind := Future.bind
  joinAll := joinAll

/-- The inner product of two lists of shares, as long as the shorter one, in one round. -/
def dotProduct [Zero S] [Add S] (xs ys : List S) : Future S R S :=
  (joinAll (List.zipWith (mul · · ready) xs ys)).bind fun products =>
    ready (products.foldl (· + ·) 0)

/-- The product of a list of shares, or `one` if it is empty. -/
def product [Zero S] (one : S) (elems : List S) : Future S R S :=
  Concurrent.foldTree (mul · · ready) one elems

end Future

end Multiparty
