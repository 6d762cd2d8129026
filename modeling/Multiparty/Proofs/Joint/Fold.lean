import Mathlib
import Multiparty.Proofs.Circuit.Fold
import Multiparty.Proofs.Joint.Refinement
import Multiparty.Proofs.Joint.Together

/-!
# Products and inner products of shared values

Honest parties fold valid sharings along a balanced tree. Whatever two sharings are combined by, the
results of a level are valid sharings again, so a product of shared values is a sharing of the product
of the values. It uses up a triple for each combination, and the combinations of a level share a round.

## Main definitions

* `Sharing.ValidAll`: the shares of all parties are valid sharings of the items of a list.
* `Suite.Compute`: what honest parties compute together, at which cost.

## Main results

* `Faithful.foldTree`: folds of valid sharings go on in step.
* `Suite.Together.compute`: circuits that go on in step are computed together.
* `Suite.Together.compute_folds`: folds, products and inner products.
-/

namespace Multiparty

open Concurrent (nextLevel foldNow level_induction)

section Faithful

variable {S R K : Type} [LinearShare S R K] [CodedRing R] {n : Nat}

/-- The shares of all parties are valid sharings of the items of a list. -/
def Sharing.ValidAll (V : Sharing S n) (shares : Fin n → List S) (vs : List R) : Prop :=
  ∃ xs : List V.Shared, xs.map (·.value) = vs ∧ shares = fun i => xs.map (·.shares i)

variable {V : Sharing S n}

/-- Sums of valid sharings are valid. -/
theorem Sharing.ValidAll.sum {shares : Fin n → List S} {vs : List R} (h : V.ValidAll shares vs) :
    V.Valid (fun i => (shares i).foldl (· + ·) 0) (vs.foldl (· + ·) 0) := by
  obtain ⟨xs, rfl, rfl⟩ := h
  have hfold (xs : List V.Shared) (a : Fin n → S) (v : R) (hv : V.Valid a v) :
      V.Valid (fun i => (xs.map (·.shares i)).foldl (· + ·) (a i))
        ((xs.map (·.value)).foldl (· + ·) v) := by
    induction xs generalizing a v with
    | nil => exact hv
    | cons x xs ih => exact ih _ _ (V.add hv x.valid)
  exact hfold xs _ 0 V.zero

namespace Faithful

variable {k l : Nat}

/-- A circuit for one sharing beside a circuit for the others. -/
private theorem cons {c : Fin n → Circuit S R S} {cs : Fin n → Circuit S R (List S)} {v : R}
    {vs : List R} (hc : Faithful V (fun a => V.Valid a v) c k)
    (hcs : Faithful V (fun as => V.ValidAll as vs) cs l) :
    Faithful V (fun as => V.ValidAll as (v :: vs))
      (fun i => (Circuit.both (c i) (cs i)).map fun p => p.1 :: p.2) (k + l) := by
  refine ((hc.both hcs).mono ?_).map fun _ p => p.1 :: p.2
  rintro ab ⟨hfirst, xs, hvalues, hshares⟩
  exact ⟨⟨_, v, hfirst⟩ :: xs, congrArg (v :: ·) hvalues,
    funext fun i => congrArg ((ab i).1 :: ·) (congrFun hshares i)⟩

private theorem joinAll_nil :
    Faithful V (fun as => V.ValidAll as []) (fun _ => Circuit.joinAll ([] : List (Circuit S R S))) 0 :=
  .pure ⟨[], rfl, rfl⟩

theorem valid_mul (x y : V.Shared) : Faithful V (fun a => V.Valid a (x.value * y.value))
    (fun i => Circuit.mul (x.shares i) (y.shares i)) 1 := by
  refine (Faithful.mul x y).mono ?_
  rintro _ ⟨z, hz, rfl⟩
  exact hz ▸ z.valid

section Fold

variable {combine : Fin n → S → S → Circuit S R S} {op : R → R → R}
  (hcombine : ∀ x y : V.Shared, Faithful V (fun a => V.Valid a (op x.value y.value))
    (fun i => combine i (x.shares i) (y.shares i)) k)

include hcombine

/-- The combinations of one level, side by side. -/
private theorem joinAll_pairUp : ∀ xs : List V.Shared,
    Faithful V (fun as => V.ValidAll as (nextLevel op (xs.map (·.value))))
      (fun i => Circuit.joinAll (Concurrent.pairUp (combine i) (xs.map (·.shares i))))
      (k * (xs.length / 2))
  | [] => by
    have hcount : k * (([] : List V.Shared).length / 2) = 0 := by simp
    rw [hcount]
    exact joinAll_nil
  | [x] => by
    have hcount : k * ([x].length / 2) = 0 + 0 := by simp
    rw [hcount]
    exact cons (.pure x.valid) joinAll_nil
  | x :: y :: rest => by
    have hcount : k * ((x :: y :: rest).length / 2) = k + k * (rest.length / 2) := by
      rw [List.length_cons, List.length_cons, Nat.add_div_right _ Nat.two_pos, Nat.mul_succ,
        Nat.add_comm]
    rw [hcount]
    exact cons (hcombine x y) (joinAll_pairUp rest)

private theorem foldLevels (one : V.Shared) (fuel : Nat) (xs : List V.Shared)
    (hfuel : xs.length ≤ fuel + 1) :
    Faithful V (fun a => V.Valid a (foldNow op one.value fuel (xs.map (·.value))))
      (fun i => Concurrent.foldLevels (combine i) (one.shares i) fuel (xs.map (·.shares i)))
      (k * (xs.length - 1)) := by
  induction fuel, xs, hfuel using level_induction with
  | short fuel xs hshort =>
    have hcount : k * (xs.length - 1) = 0 := by rw [Nat.sub_eq_zero_of_le hshort, Nat.mul_zero]
    have hvalues : (xs.map (·.value)).length ≤ 1 := by rwa [List.length_map]
    have hshares (i : Fin n) : (xs.map (·.shares i)).length ≤ 1 := by rwa [List.length_map]
    rw [hcount, Concurrent.foldNow_of_length_le_one _ _ _ hvalues]
    simp only [fun i => Concurrent.foldLevels_of_length_le_one (combine i) (one.shares i) fuel
      (hshares i)]
    refine .pure ?_
    cases xs with
    | nil => exact one.valid
    | cons x rest => exact x.valid
  | level fuel xs hlong _ ih =>
    -- one combination for every pair, and the rest for what is left, an odd element included
    have hcount : k * (xs.length - 1) = k * (xs.length / 2) + k * ((xs.length + 1) / 2 - 1) := by
      rw [← Nat.mul_add]
      congr 1
      omega
    have hvalues : 2 ≤ (xs.map (·.value)).length := by rwa [List.length_map]
    have hshares (i : Fin n) : 2 ≤ (xs.map (·.shares i)).length := by rwa [List.length_map]
    rw [hcount, Concurrent.foldNow_succ _ _ _ hvalues]
    simp only [fun i => Concurrent.foldLevels_succ (combine i) (one.shares i) fuel (hshares i)]
    refine (joinAll_pairUp hcombine xs).bind ?_
    rintro _ ⟨zs, hzs, rfl⟩
    have hlength : zs.length = (xs.length + 1) / 2 := by
      rw [← List.length_map, hzs, Concurrent.length_nextLevel, List.length_map]
    rw [← hzs, ← hlength]
    exact ih zs hlength

/-- A fold of valid sharings goes on in step, to a valid sharing of what the values are folded to. -/
theorem foldTree (one : V.Shared) (xs : List V.Shared) :
    Faithful V (fun a => V.Valid a (foldNow op one.value xs.length (xs.map (·.value))))
      (fun i => Concurrent.foldTree (combine i) (one.shares i) (xs.map (·.shares i)))
      (k * (xs.length - 1)) := by
  have hfold := foldLevels hcombine one xs.length xs (Nat.le_succ _)
  simpa only [Concurrent.foldTree, List.length_map] using hfold

end Fold

/-- Products of two lists of valid sharings, side by side. -/
private theorem joinAll_zipWith : ∀ xs ys : List V.Shared,
    Faithful V (fun as => V.ValidAll as
        (List.zipWith (· * ·) (xs.map (·.value)) (ys.map (·.value))))
      (fun i => Circuit.joinAll (List.zipWith Circuit.mul (xs.map (·.shares i)) (ys.map (·.shares i))))
      (min xs.length ys.length)
  | [], _ => by simpa using joinAll_nil
  | _ :: _, [] => by simpa using joinAll_nil
  | x :: xs, y :: ys => by
    rw [List.length_cons, List.length_cons, Nat.succ_min_succ, Nat.succ_eq_one_add]
    exact cons (valid_mul x y) (joinAll_zipWith xs ys)

/-- The inner product of two lists of valid sharings goes on in step, to a valid sharing of the inner
product of the values. -/
theorem dotProduct (xs ys : List V.Shared) :
    Faithful V (fun a => V.Valid a
        ((List.zipWith (· * ·) (xs.map (·.value)) (ys.map (·.value))).foldl (· + ·) 0))
      (fun i => (Circuit.joinAll (List.zipWith Circuit.mul (xs.map (·.shares i))
        (ys.map (·.shares i)))).map fun products => products.foldl (· + ·) 0)
      (min xs.length ys.length) :=
  ((joinAll_zipWith xs ys).mono fun _ h => h.sum).map fun _ (products : List S) =>
    products.foldl (· + ·) 0

end Faithful

end Faithful

/-! ### Trees of rounds -/

namespace Future

variable {S R : Type} [Zero S]

theorem unfolds_mul (x y : S) :
    (Future.mul x y .ready : Future S R S).Unfolds (Circuit.mul x y) := .mul fun z => .ready z

theorem unfolds_product (one : S) (elems : List S) :
    (product one elems : Future S R S).Unfolds (Concurrent.foldTree Circuit.mul one elems) :=
  .foldTree unfolds_mul one elems

theorem unfolds_dotProduct [Add S] (xs ys : List S) :
    (dotProduct xs ys : Future S R S).Unfolds
      ((Circuit.joinAll (List.zipWith Circuit.mul xs ys)).map fun products =>
        products.foldl (· + ·) 0) := by
  refine (Unfolds.joinAll ?_).map _
  induction xs generalizing ys with
  | nil => exact .nil
  | cons x xs ih =>
    cases ys with
    | nil => exact .nil
    | cons y ys => exact .cons (unfolds_mul x y) (ih ys)

end Future

/-! ### Computing together -/

section Together

variable {X : Suite} {n : Nat} {V : Sharing X.S n} {x : Fin n → Scheduler X.O X.S X.R X.K}
  {count : Nat}

/-- All parties that run these circuits, on any idle network that carries what they send and under any
schedule, come to their ends with a valid sharing of the value. So many triples are used up, and so many
rounds are taken. Afterwards the parties may go on together. If they open the sharing in the end, again
on any such network and under any schedule, the check passes and all of them get the value. -/
def Suite.Compute (V : Sharing X.S n) (x : Fin n → Scheduler X.O X.S X.R X.K)
    (cs : Fin n → Future X.S X.R X.S) (value : X.R) (triples rounds : Nat) : Prop :=
  ∃ (x' : Fin n → Scheduler X.O X.S X.R X.K) (shares : Fin n → X.S) (left : Nat),
    Network.AlwaysCarriesOut (fun i => Scheduler.run (cs i) ⟨i, n⟩ (x i)) x'
      (fun i => .ok (shares i)) ∧
    V.Valid shares value ∧ X.Together V x' left ∧
    (∀ i, (x i).processor.multiplier.supply.remainingTriples = left + triples ∧
      (x' i).processor.multiplier.supply.remainingTriples = left) ∧
    (∀ i, (x' i).rounds = (x i).rounds + rounds) ∧
    ∃ p : Fin n → X.Processor, Network.AlwaysCarriesOut
      (fun i => (Processor.reveal [shares i]).run ⟨i, n⟩ (x' i).processor) p fun _ => .ok [value]

namespace Suite.Together

/-- Circuits of honest parties that go on in step are computed together. -/
theorem compute {k rounds : Nat} {cs : Fin n → Future X.S X.R X.S} {trees : Fin n → Circuit X.S X.R X.S}
    {value : X.R} (h : X.Together V x (count + k)) (hplain : ∀ i, (cs i).Plain)
    (hunfolds : ∀ i, (cs i).Unfolds (trees i))
    (hfaithful : Faithful V (fun a => V.Valid a value) trees k)
    (hrounds : ∀ i t a, (cs i).Executes t a → t.schedule.length = rounds) :
    Compute V x cs value k rounds := by
  obtain ⟨hlawful, hO, J, rfl, hjoint⟩ := h.exists_joint
  have hremaining {x : Fin n → Scheduler X.O X.S X.R X.K} {count : Nat} (hx : Scheduler.Joint J x count)
      (i : Fin n) : (x i).processor.multiplier.supply.remainingTriples = count := by
    obtain ⟨triples, hlength, -, htriples⟩ := hx.processor.supply
    rw [Supply.remainingTriples, htriples, List.length_map, hlength]
  obtain ⟨x', _, hcarries, hjoint', shares, rfl, hvalid, hexecutes⟩ :=
    (hjoint.run hO hplain hunfolds hfaithful).alwaysCarriesOut
  refine ⟨x', shares, count, hcarries, hvalid,
    h.run hplain hunfolds hfaithful hcarries.carriesOut,
    fun i => ⟨hremaining hjoint i, hremaining hjoint' i⟩, fun i => ?_, ?_⟩
  · obtain ⟨t, ht, hsame⟩ := hexecutes i
    rw [hsame, hrounds i t _ ht]
  · obtain ⟨p, _, hreveal, _, rfl, rfl⟩ :=
      Lockstep.alwaysCarriesOut (hjoint'.processor.reveal [⟨shares, value, hvalid⟩])
    exact ⟨p, hreveal⟩

/-- **Folds along balanced trees.** Whatever the elements of a list are combined by, a fold combines all
of them in their order along a tree that is as low as can be, and gives the default if there are none;
so with an associative function it is a fold from the left. Honest parties with enough triples, whatever
they have done together before, multiply valid sharings in this way: the product of all of them takes a
triple for every multiplication and a round for every level. The inner product of two lists, as long as
the shorter one, takes a triple for every entry and one round, or none if there are no entries. -/
theorem compute_folds (h : X.Together V x count) :
    (∀ (S R : Type) {α : Type} (default : α),
      (∀ combine : α → α → Future S R α, Concurrent.foldTree combine default [] = .ready default) ∧
      ∀ a rest, ∃ c : Combination α, Future.FoldsTo S R default (a :: rest) c ∧
        ∀ f : α → α → α, Std.Associative f → c.eval f = rest.foldl f a) ∧
    (∀ xs : List V.Shared, xs.length - 1 ≤ count →
      Compute V x
        (fun i => Future.product (Opener.constant (x i).processor.opener 1) (xs.map (·.shares i)))
        ((xs.map (·.value)).foldl (· * ·) 1) (xs.length - 1) (Nat.clog 2 xs.length)) ∧
    ∀ xs ys : List V.Shared, min xs.length ys.length ≤ count →
      Compute V x (fun i => Future.dotProduct (xs.map (·.shares i)) (ys.map (·.shares i)))
        ((List.zipWith (· * ·) (xs.map (·.value)) (ys.map (·.value))).foldl (· + ·) 0)
        (min xs.length ys.length) (min 1 (min xs.length ys.length)) := by
  refine ⟨fun S R α default => ⟨fun _ => rfl, fun a rest => ?_⟩, fun xs hcount => ?_,
    fun xs ys hcount => ?_⟩
  · have hfolds := Future.foldsTo_balanced S R default (List.cons_ne_nil a rest)
    exact ⟨_, hfolds, fun f _ => Combination.eval_eq_foldl f _ hfolds.leaves⟩
  · obtain ⟨hlawful, -, J, rfl, hjoint⟩ := h.exists_joint
    obtain ⟨q, vs, hopeners⟩ := hjoint.processor.openers
    let one : J.Shared := ⟨_, 1, J.constant hopeners 1⟩
    have hfaithful := Faithful.foldTree Faithful.valid_mul one xs
    have hvalue := Concurrent.foldNow_eq_foldl (· * ·) one_mul (xs.map (·.value))
    rw [List.length_map] at hvalue
    rw [Nat.one_mul, hvalue] at hfaithful
    rw [← Nat.sub_add_cancel hcount] at h
    refine h.compute (fun i => Future.plain_product _ _) (fun i => Future.unfolds_product _ _) hfaithful
      fun i t a ht => ?_
    rw [ht.rounds_product, List.length_map]
  · rw [← Nat.sub_add_cancel hcount] at h
    refine h.compute (fun i => Future.plain_dotProduct _ _) (fun i => Future.unfolds_dotProduct _ _)
      (Faithful.dotProduct xs ys) fun i t a ht => ?_
    rw [ht.rounds_dotProduct, List.length_map, List.length_map]

section Example

/-- A public value as a shared one. -/
private def constantly (v : Word64) : (ReplicatedShare.sharing (R := Word64)).Shared :=
  ⟨fun i => ReplicatedShare.constant v i, v, ReplicatedShare.valid_constant v⟩

/-- Three parties who have done nothing yet, with four triples of zeros. -/
private def newcomers (i : Fin 3) :
    Scheduler (ReplicatedOpener Word64) (ReplicatedShare Word64) Word64 Unit :=
  .create (Processor.create (.create i .semiHonest)
    ⟨3, i, (), List.replicate 4 ⟨0, 0, 0⟩, [], [], []⟩)

/-- The product of five shared numbers takes three rounds. -/
theorem compute_folds_five :
    ∃ (x' : Fin 3 → Scheduler (ReplicatedOpener Word64) (ReplicatedShare Word64) Word64 Unit)
      (shares : Fin 3 → ReplicatedShare Word64) (net' : Network),
      (Suite.replicated Word64).Together (ReplicatedShare.sharing (R := Word64)) newcomers 4 ∧
      (Network.create 3 [] fun _ => true).run (List.ofFn fun i => (i.val, Scheduler.run
          (Future.product (Opener.constant (newcomers i).processor.opener (1 : Word64))
            ([⟨2⟩, ⟨3⟩, ⟨5⟩, ⟨7⟩, ⟨11⟩].map fun v => (constantly v).shares i)) ⟨i, 3⟩ (newcomers i))) =
        (List.ofFn fun i => ⟨i, .done (x' i) (.ok (shares i)), .over⟩, net') ∧
      ReplicatedShare.Valid shares ⟨2310⟩ ∧ ∀ i, (x' i).rounds = 3 := by
  have hstocked : (ReplicatedShare.sharing (R := Word64)).Stocked
      (fun i => (newcomers i).processor.multiplier.supply) 4 := by
    refine ⟨List.replicate 4 fun _ => ⟨0, 0, 0⟩, rfl, fun t ht => ?_, fun _ => rfl⟩
    obtain rfl := List.eq_of_mem_replicate ht
    exact ⟨0, 0, Sharing.zero _, Sharing.zero _, Sharing.zero _⟩
  have htogether : (Suite.replicated Word64).Together (ReplicatedShare.sharing (R := Word64))
      newcomers 4 := .create (.replicated Word64 .semiHonest) hstocked
  obtain ⟨-, hproduct, -⟩ := compute_folds htogether
  obtain ⟨x', shares, left, hcarries, hvalid, -, -, hrounds, -⟩ :=
    hproduct ([⟨2⟩, ⟨3⟩, ⟨5⟩, ⟨7⟩, ⟨11⟩].map constantly) (by decide)
  obtain ⟨⟨net', hrun, -⟩, -⟩ := hcarries _ (Network.idle_create 3 _) Network.admits_unlimited
  have hlevels : 0 + Nat.clog 2 5 = 3 := by decide
  exact ⟨x', shares, net', htogether, hrun, hvalid, fun i => (hrounds i).trans hlevels⟩

end Example

end Suite.Together

end Together

end Multiparty
