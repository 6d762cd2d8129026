import Multiparty.Circuit.Fold

/-!
# Arithmetic expressions as circuits

An expression is built from shares named by its leaves, public constants, sums, multiples, products
and openings. It is computed by a circuit in which operands are evaluated side by side unless the
expression says otherwise.

## Main definitions

* `Expression`: the syntax.
* `Expression.leaves`: the names that occur.
* `Expression.future`: the circuit that computes an expression.
-/

namespace Multiparty

/-- An arithmetic expression over shares named by `ι` and clear values `R`. -/
inductive Expression (ι R : Type) where
  /-- A named share. -/
  | leaf (name : ι)
  /-- A public constant. -/
  | const (v : R)
  | add (a b : Expression ι R)
  | sub (a b : Expression ι R)
  | neg (a : Expression ι R)
  /-- A multiple by a public constant. -/
  | scale (a : Expression ι R) (v : R)
  | mul (a b : Expression ι R)
  /-- A product whose second factor is evaluated only after the first. -/
  | mulInOrder (a b : Expression ι R)
  /-- The second operand scaled by the opened first one. -/
  | scaleByOpened (a b : Expression ι R)
  /-- The inner product of two lists. -/
  | dot (as bs : List (Expression ι R))
  /-- The product of a list along a balanced tree. -/
  | product (as : List (Expression ι R))
  /-- The sum of a list along a balanced tree. -/
  | sum (as : List (Expression ι R))
  /-- Never finished. -/
  | stall
  /-- The second operand, after a first poll of the first one, which is then dropped. -/
  | abandon (a b : Expression ι R)

namespace Expression

variable {ι R S : Type}

/-- The names that occur, from left to right. -/
def leaves : Expression ι R → List ι
  | leaf name => [name]
  | const _ => []
  | add a b => a.leaves ++ b.leaves
  | sub a b => a.leaves ++ b.leaves
  | neg a => a.leaves
  | scale a _ => a.leaves
  | mul a b => a.leaves ++ b.leaves
  | mulInOrder a b => a.leaves ++ b.leaves
  | scaleByOpened a b => a.leaves ++ b.leaves
  | dot as bs => leavesOfAll as ++ leavesOfAll bs
  | product as => leavesOfAll as
  | sum as => leavesOfAll as
  | stall => []
  | abandon a b => a.leaves ++ b.leaves
where
  /-- The names that occur in a list of expressions. -/
  leavesOfAll : List (Expression ι R) → List ι
    | [] => []
    | a :: as => a.leaves ++ leavesOfAll as

variable {K : Type} [LinearShare S R K] [CodedRing R]

/-- The circuit that computes an expression, given the shares of names and of public
constants. -/
def future (share : ι → S) (constant : R → S) : Expression ι R → Future S R S
  | leaf name => .ready (share name)
  | const v => .ready (constant v)
  | add a b => .both (a.future share constant) (b.future share constant) fun x y => .ready (x + y)
  | sub a b => .both (a.future share constant) (b.future share constant) fun x y => .ready (x - y)
  | neg a => (a.future share constant).bind fun x => .ready (-x)
  | scale a v => (a.future share constant).bind fun x => .ready (LinearShare.scale x v)
  | mul a b => .both (a.future share constant) (b.future share constant) fun x y => .mul x y .ready
  | mulInOrder a b => (a.future share constant).bind fun x =>
      (b.future share constant).bind fun y => .mul x y .ready
  | scaleByOpened a b =>
    .both ((a.future share constant).bind (.reveal · .ready)) (b.future share constant)
      fun v y => .ready (LinearShare.scale y v)
  | dot as bs =>
    .both (futureOfAll share constant as) (futureOfAll share constant bs) Future.dotProduct
  | product as => (futureOfAll share constant as).bind (Future.product (constant 1))
  | sum as => (futureOfAll share constant as).bind
      (Concurrent.foldTree (fun x y => .ready (x + y)) 0)
  | stall => .stuck
  | abandon a b => .abandon (a.future share constant) (b.future share constant)
where
  /-- The circuits of a list of expressions side by side. -/
  futureOfAll (share : ι → S) (constant : R → S) :
      List (Expression ι R) → Future S R (List S)
    | [] => .ready []
    | a :: as => .both (a.future share constant) (futureOfAll share constant as)
        fun x xs => .ready (x :: xs)

end Expression

end Multiparty
