import Multiparty.Ring.Basic

/-!
# Dealers

A dealer knows every secret that it shares and hands out the shares of all parties at once. How it
shares is fixed by a *plan*: the number of parties, their key material, how many random elements
one sharing takes, and the shares as a function of the secret and those elements. A dealer is a
plan together with a generator, so that all of its randomness passes through one list of drawn
elements per sharing.

## Main definitions

* `DealingPlan`: the interface of a plan.
* `Dealer`: a plan and a generator, with `Dealer.share`, `Dealer.randomValue` and
  `Dealer.randomBit`.
-/

namespace Multiparty

/-- A plan `P` for dealing shares `S` of clear values `R` to parties with key material `K`. -/
class DealingPlan (P : Type) (S R K : outParam Type) where
  /-- Number of parties. -/
  parties : P → Nat
  /-- Key material of every party. -/
  keys : P → List K
  /-- Number of random elements that one sharing takes. -/
  demand : P → Nat
  /-- The shares of a secret, given the random elements. -/
  deal : P → (secret : R) → (randomness : List R) → List S

/-- A plan together with the generator from which its randomness is drawn. -/
structure Dealer (P G : Type) where
  plan : P
  source : G

namespace Dealer

variable {P G S R K : Type} [DealingPlan P S R K] [CodedRing R] [WordSource G]

/-- A uniformly random clear value. -/
def randomValue (d : Dealer P G) : R × Dealer P G :=
  let (v, g) := CodedRing.draw d.source
  (v, { d with source := g })

/-- A random bit, as zero or one: the top bit of a 32-bit word. -/
def randomBit (d : Dealer P G) : R × Dealer P G :=
  let (w, g) := WordSource.halfWord d.source
  (if w >>> 31 = 1 then 1 else 0, { d with source := g })

/-- The shares of a secret, one per party. -/
def share (secret : R) (d : Dealer P G) : List S × Dealer P G :=
  let (randomness, g) := WordSource.replicate CodedRing.draw (DealingPlan.demand d.plan) d.source
  (DealingPlan.deal d.plan secret randomness, { d with source := g })

/-- Dealing leaves the plan as it is. -/
@[simp] theorem plan_share (secret : R) (d : Dealer P G) : (d.share secret).2.plan = d.plan := rfl

@[simp] theorem plan_randomValue (d : Dealer P G) :
    (d.randomValue : R × Dealer P G).2.plan = d.plan := rfl

@[simp] theorem plan_randomBit (d : Dealer P G) :
    (d.randomBit : R × Dealer P G).2.plan = d.plan := rfl

end Dealer

end Multiparty
