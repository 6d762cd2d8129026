import Mathlib
import Multiparty.Proofs.Joint.Sharing
import Multiparty.Proofs.Ring.Word

/-!
# Local arithmetic on shares

Parties add, subtract, negate and scale shares without a word to each other, and each of them puts
public constants in with its own number and its own key share. A local computation is the same for
all parties, whatever they hold under its names. If what they hold are valid sharings, so is what
they end with, of the values to which the same computation comes in the clear.

## Main definitions

* `LinearExpression`, `LinearStep`: expressions in named shares, and what is done with their values.
* `LinearStep.onShares`, `LinearStep.inClear`: a computation of one party, and the one in the clear.
* `KeepsSharings`: all local computations turn valid sharings into valid sharings.

## Main results

* `Sharing.valid_eval`, `Sharing.valid_run`: one expression, and one step.
* `Sharing.keepsSharings`: any number of steps.
* `local_arithmetic_valid`: the three schemes.
-/

namespace Multiparty

/-- An expression in named shares which a party evaluates by itself. -/
inductive LinearExpression (ι R : Type) where
  /-- A named share. -/
  | share (x : ι)
  | zero
  /-- A public constant. -/
  | const (v : R)
  | add (a b : LinearExpression ι R)
  | sub (a b : LinearExpression ι R)
  | neg (a : LinearExpression ι R)
  /-- A multiple by a clear value. -/
  | scale (a : LinearExpression ι R) (v : R)

/-- A step of a local computation. -/
inductive LinearStep (ι R : Type) where
  /-- Puts the value of an expression under a name. -/
  | assign (x : ι) (a : LinearExpression ι R)
  /-- Adds the value of an expression to what stands under a name. -/
  | addAssign (x : ι) (a : LinearExpression ι R)
  /-- Subtracts the value of an expression from what stands under a name. -/
  | subAssign (x : ι) (a : LinearExpression ι R)

section Evaluation

variable {ι R A : Type} [Zero A] [Add A] [Sub A] [Neg A] (scale : A → R → A) (constant : R → A)

/-- The value of an expression, in shares or in the clear. -/
def LinearExpression.eval (env : ι → A) : LinearExpression ι R → A
  | share x => env x
  | zero => 0
  | const v => constant v
  | add a b => a.eval env + b.eval env
  | sub a b => a.eval env - b.eval env
  | neg a => -a.eval env
  | LinearExpression.scale a v => scale (a.eval env) v

variable [DecidableEq ι]

namespace LinearStep

/-- What stands under the names after a step. -/
def run (env : ι → A) : LinearStep ι R → ι → A
  | assign x a => Function.update env x (a.eval scale constant env)
  | addAssign x a => Function.update env x (env x + a.eval scale constant env)
  | subAssign x a => Function.update env x (env x - a.eval scale constant env)

/-- What stands under the names after steps in sequence. -/
def runAll (steps : List (LinearStep ι R)) (env : ι → A) : ι → A :=
  steps.foldl (run scale constant) env

end LinearStep

end Evaluation

namespace LinearStep

variable {ι S R K : Type} [LinearShare S R K] [CodedRing R] [DecidableEq ι]

/-- The computation of the party with a number and key material, on its own shares. -/
def onShares (party : Nat) (key : K) (steps : List (LinearStep ι R)) (shares : ι → S) : ι → S :=
  runAll LinearShare.scale (LinearShare.constant · party key) steps shares

/-- The same computation on clear values. -/
def inClear (steps : List (LinearStep ι R)) (values : ι → R) : ι → R :=
  runAll (· * ·) id steps values

end LinearStep

/-- All local computations turn valid sharings, held by parties with the given key material, into
valid sharings of what they come to in the clear. -/
def KeepsSharings {S R K : Type} [LinearShare S R K] [CodedRing R] {n : Nat}
    (Valid : (Fin n → S) → R → Prop) (keys : Fin n → K) : Prop :=
  ∀ (ι : Type) [DecidableEq ι] (steps : List (LinearStep ι R)) (shares : Fin n → ι → S)
    (values : ι → R), (∀ x, Valid (fun i => shares i x) (values x)) →
      ∀ x, Valid (fun i => LinearStep.onShares i (keys i) steps (shares i) x)
        (LinearStep.inClear steps values x)

namespace Sharing

variable {ι S R K : Type} [LinearShare S R K] [CodedRing R] {n : Nat} {V : Sharing S n}
  {constant : Fin n → R → S} {shares : Fin n → ι → S} {values : ι → R}

/-- The parties hold valid sharings of the values of expressions. -/
theorem valid_eval (hconstant : ∀ v, V.Valid (fun i => constant i v) v)
    (h : ∀ x, V.Valid (fun i => shares i x) (values x)) (a : LinearExpression ι R) :
    V.Valid (fun i => a.eval LinearShare.scale (constant i) (shares i))
      (a.eval (· * ·) id values) := by
  induction a with
  | share x => exact h x
  | zero => exact V.zero
  | const v => exact hconstant v
  | add a b iha ihb => exact V.add iha ihb
  | sub a b iha ihb => exact V.sub iha ihb
  | neg a ih => exact V.neg ih
  | scale a v ih => exact V.scale ih v

variable [DecidableEq ι]

/-- One more valid sharing under a name. -/
private theorem valid_update (h : ∀ x, V.Valid (fun i => shares i x) (values x)) (x : ι)
    {y : Fin n → S} {v : R} (hy : V.Valid y v) (z : ι) :
    V.Valid (fun i => Function.update (shares i) x (y i) z) (Function.update values x v z) := by
  by_cases hz : z = x
  · subst hz
    simpa only [Function.update_self] using hy
  · simpa only [Function.update_of_ne hz] using h z

/-- A step leaves valid sharings under all names. -/
theorem valid_run (hconstant : ∀ v, V.Valid (fun i => constant i v) v)
    (h : ∀ x, V.Valid (fun i => shares i x) (values x)) (step : LinearStep ι R) (z : ι) :
    V.Valid (fun i => step.run LinearShare.scale (constant i) (shares i) z)
      (step.run (· * ·) id values z) := by
  cases step with
  | assign x a => exact valid_update h x (valid_eval hconstant h a) z
  | addAssign x a => exact valid_update h x (V.add (h x) (valid_eval hconstant h a)) z
  | subAssign x a => exact valid_update h x (V.sub (h x) (valid_eval hconstant h a)) z

omit [DecidableEq ι] in
/-- Local computations keep sharings valid if the parties hold valid sharings of public
constants. -/
theorem keepsSharings {keys : Fin n → K}
    (hconstant : ∀ v, V.Valid (fun i : Fin n => LinearShare.constant v i (keys i)) v) :
    KeepsSharings V.Valid keys := by
  intro ι _ steps shares values h
  induction steps generalizing shares values with
  | nil => exact h
  | cons step steps ih =>
    exact ih (fun i => step.run LinearShare.scale (LinearShare.constant · i (keys i)) (shares i))
      (step.run (· * ·) id values) (valid_run hconstant h step)

end Sharing

/-- **Local arithmetic.** Whatever all parties compute locally from valid sharings of some values,
with public constants put in by each of them with its own number and key share, they end with valid
sharings of what the same computation makes of the values: among any number of parties with any keys
for authenticated shares, among three parties for replicated ones, and for threshold shares of any
degree. -/
theorem local_arithmetic_valid :
    (∀ (R : Type) [CodedRing R] [LawfulRing R] (n : Nat) (keys : Fin n → R), 0 < n →
      KeepsSharings (MacShare.Valid (∑ i, keys i)) keys) ∧
    (∀ (R : Type) [CodedRing R] [LawfulRing R],
      KeepsSharings (ReplicatedShare.Valid (R := R)) fun _ => ()) ∧
    ∀ (F : Type) [CodedField F] [LawfulField F] (threshold n : Nat),
      KeepsSharings (ThresholdShare.Valid (F := F) (n := n) threshold) fun _ => () :=
  ⟨fun _ _ _ n keys hn => (MacShare.sharing (∑ i, keys i) n).keepsSharings
      (MacShare.valid_constant hn keys),
    fun _ _ _ => ReplicatedShare.sharing.keepsSharings ReplicatedShare.valid_constant,
    fun _ _ _ threshold n => (ThresholdShare.sharing threshold n).keepsSharings
      (ThresholdShare.valid_constant threshold)⟩

section Example

-- The names of shares and the parties below use this instance, whatever else is imported.
private theorem name_neZero : NeZero 3 := inferInstance

attribute [local instance] name_neZero

/-- Adds twice the first value, less three times the second one, to the third, and five more. -/
private def combination : List (LinearStep (Fin 3) Word64) :=
  [.addAssign 2 (.scale (.share 0) ⟨2⟩), .subAssign 2 (.scale (.share 1) ⟨3⟩),
    .assign 2 (.sub (.const ⟨5⟩) (.neg (.share 2)))]

/-- Three values. -/
private def combined (x : Fin 3) : Word64 := [⟨10⟩, ⟨20⟩, ⟨46⟩].get x

/-- The parts of a value, two of them the same for all values. -/
private def partsOf (x : Fin 3) : Fin 3 → Word64
  | 0 => combined x - ⟨12⟩
  | 1 => ⟨5⟩
  | 2 => ⟨7⟩

/-- Three parties combine replicated shares of 10, 20 and 46, and hold shares of 11. -/
theorem local_arithmetic_valid_combination :
    ReplicatedShare.Valid (fun i : Fin 3 => LinearStep.onShares i () combination
      (fun x => ⟨partsOf x i, partsOf x (i + 1)⟩) 2) (⟨11⟩ : Word64) := by
  have hparts (x : Fin 3) : ReplicatedShare.Valid (fun i => ⟨partsOf x i, partsOf x (i + 1)⟩)
      (combined x) := ⟨fun _ => rfl, by revert x; decide⟩
  have hvalue : LinearStep.inClear combination combined 2 = ⟨11⟩ := by decide
  rw [← hvalue]
  exact local_arithmetic_valid.2.1 Word64 (Fin 3) combination _ combined hparts 2

end Example

end Multiparty
