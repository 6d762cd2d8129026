import Mathlib
import Multiparty.Circuit.Fold
import Multiparty.Proofs.Circuit.Execution
import Multiparty.Proofs.Circuit.Unfolding

/-!
# Folds along balanced trees

A fold combines neighbours level by level, and an element without a neighbour moves up unchanged. In
terms of trees: the leaves are the elements in their order, there is one node less than there are
elements, and the tree is as low as a binary tree can be. Folded by circuits, the requests are those of
the nodes, and the nodes of one level share their rounds.

## Main definitions

* `Combination`: trees of combinations.
* `Combination.balanced`: the tree that a fold makes of a list.
* `Combination.Evaluates`: what a tree may come to if every combination may come to several results.
* `Trace.requests`: the requests of a trace, in any order.
* `Future.FoldsTo`: what a fold makes of a list, polled and run.

## Main results

* `Concurrent.level_induction`: induction along the levels of a fold.
* `Combination.leaves_balanced`, `Combination.depth_balanced`: the shape of the tree of a fold.
* `Future.Plain.foldTree`: folds by circuits of products and openings.
* `Future.poll_foldTree`: a fold of a function is over in one poll.
* `Future.Executes.evaluates_foldTree`: a fold by circuits evaluates its tree.
* `Future.Executes.rounds_foldTree`: it takes the rounds of one combination for every level.
* `Future.foldsTo_balanced`: the tree of a fold says what the fold makes of a list.
* `Future.Unfolds.foldTree`: a fold by circuits unfolds to the fold of their trees of rounds.
-/

namespace Multiparty

/-! ### Levels -/

namespace Concurrent

/-- Computations that are over at once. -/
instance : Concurrent Id where
  ready a := a
  bind a f := f a
  joinAll as := as

section Levels

variable {M : Type → Type u} [Concurrent M] {α : Type}

/-- Every level at least halves the number of elements, up to one. -/
theorem length_pairUp (combine : α → α → M α) (as : List α) :
    (pairUp combine as).length = (as.length + 1) / 2 := by
  fun_induction pairUp with
  | case1 a b rest ih =>
    simp only [List.length_cons, ih]
    omega
  | case2 a => simp
  | case3 => simp

/-- One element is left as it is. -/
theorem foldLevels_of_length_le_one (combine : α → α → M α) (default : α) (fuel : Nat) {as : List α}
    (h : as.length ≤ 1) : foldLevels combine default fuel as = ready (as.headD default) := by
  match fuel, as with
  | 0, _ => rfl
  | _ + 1, [] | _ + 1, [_] => rfl
  | _ + 1, _ :: _ :: _ => simp at h

/-- Several elements make up a level. -/
theorem foldLevels_succ (combine : α → α → M α) (default : α) (fuel : Nat) {as : List α}
    (h : 2 ≤ as.length) : foldLevels combine default (fuel + 1) as =
      bind (joinAll (pairUp combine as)) (foldLevels combine default fuel) := by
  match as with
  | [] | [_] => simp at h
  | _ :: _ :: _ => rfl

/-- Induction along the levels of a fold, as long as there may be enough of them: what holds of at
most one element, and of several elements if it holds of all lists as long as the next level, holds of
all elements. -/
@[elab_as_elim]
theorem level_induction {motive : (fuel : Nat) → (as : List α) → as.length ≤ fuel + 1 → Prop}
    (short : ∀ fuel as (h : as.length ≤ 1), motive fuel as (h.trans (Nat.le_add_left 1 fuel)))
    (level : ∀ fuel as (_ : 2 ≤ as.length) (h : as.length ≤ fuel + 2),
      (∀ (bs : List α) (hbs : bs.length = (as.length + 1) / 2), motive fuel bs (by omega)) →
      motive (fuel + 1) as h)
    (fuel : Nat) (as : List α) (h : as.length ≤ fuel + 1) : motive fuel as h := by
  induction fuel generalizing as with
  | zero => exact short 0 as h
  | succ fuel ih =>
    by_cases hshort : as.length ≤ 1
    · exact short _ as hshort
    · exact level fuel as (by omega) h fun bs _ => ih bs _

end Levels

section AtOnce

variable {α β : Type} (f : α → α → α)

/-- One level of a fold of a function. -/
def nextLevel (as : List α) : List α := pairUp (M := Id) f as

/-- A fold of a function, from some level on. -/
def foldNow (default : α) (fuel : Nat) (as : List α) : α := foldLevels (M := Id) f default fuel as

theorem nextLevel_cons_cons (a b : α) (rest : List α) :
    nextLevel f (a :: b :: rest) = f a b :: nextLevel f rest := rfl

theorem length_nextLevel (as : List α) : (nextLevel f as).length = (as.length + 1) / 2 :=
  length_pairUp (M := Id) f as

theorem foldNow_of_length_le_one (default : α) (fuel : Nat) {as : List α} (h : as.length ≤ 1) :
    foldNow f default fuel as = as.headD default :=
  foldLevels_of_length_le_one (M := Id) f default fuel h

theorem foldNow_succ (default : α) (fuel : Nat) {as : List α} (h : 2 ≤ as.length) :
    foldNow f default (fuel + 1) as = foldNow f default fuel (nextLevel f as) :=
  foldLevels_succ (M := Id) f default fuel h

variable {f} {g : β → β → β} {t : α → β}

theorem nextLevel_map (ht : ∀ a b, t (f a b) = g (t a) (t b)) :
    ∀ as : List α, nextLevel g (as.map t) = (nextLevel f as).map t
  | [] | [_] => rfl
  | a :: b :: rest => by
    rw [nextLevel_cons_cons, List.map_cons, List.map_cons, List.map_cons, nextLevel_cons_cons,
      nextLevel_map ht rest, ht]

/-- A fold in other terms. -/
theorem foldNow_map (ht : ∀ a b, t (f a b) = g (t a) (t b)) (default : α) (fuel : Nat) (as : List α)
    (hfuel : as.length ≤ fuel + 1) :
    foldNow g (t default) fuel (as.map t) = t (foldNow f default fuel as) := by
  induction fuel, as, hfuel using level_induction with
  | short fuel as h =>
    rw [foldNow_of_length_le_one _ _ _ h, foldNow_of_length_le_one _ _ _ (by rwa [List.length_map])]
    cases as <;> rfl
  | level fuel as h _ ih =>
    rw [foldNow_succ _ _ _ h, foldNow_succ _ _ _ (by rwa [List.length_map]), nextLevel_map ht]
    exact ih _ (length_nextLevel f as)

end AtOnce

end Concurrent

/-! ### The tree of a fold -/

/-- A tree of combinations of elements. -/
inductive Combination (α : Type) where
  | single (a : α)
  | pair (first second : Combination α)
  deriving DecidableEq

namespace Combination

variable {α : Type}

/-- The elements from left to right. -/
def leaves : Combination α → List α
  | single a => [a]
  | pair c d => c.leaves ++ d.leaves

/-- How often two things are combined. -/
def combines : Combination α → Nat
  | single _ => 0
  | pair c d => c.combines + d.combines + 1

/-- How many combinations are on a longest path. -/
def depth : Combination α → Nat
  | single _ => 0
  | pair c d => max c.depth d.depth + 1

/-- The result if things are combined by a function. -/
def eval (f : α → α → α) : Combination α → α
  | single a => a
  | pair c d => f (c.eval f) (d.eval f)

/-- What the tree may come to, and what this costs, if combining two elements may come to several
results. -/
inductive Evaluates {W : Type} [AddMonoid W] (P : α → α → W → α → Prop) :
    Combination α → W → α → Prop where
  | single (a : α) : Evaluates P (single a) 0 a
  | pair {c d : Combination α} {a b result : α} {v w cost : W} (hc : Evaluates P c v a)
      (hd : Evaluates P d w b) (h : P a b cost result) :
      Evaluates P (pair c d) (v + w + cost) result

theorem length_leaves (c : Combination α) : c.leaves.length = c.combines + 1 := by
  induction c with
  | single a => rfl
  | pair c d ihc ihd =>
    rw [leaves, List.length_append, ihc, ihd, combines]
    omega

/-- Combined by an associative function, all elements come to what they are folded to from the left. -/
theorem eval_eq_foldl (f : α → α → α) [Std.Associative f] (c : Combination α) {a : α} {rest : List α}
    (h : c.leaves = a :: rest) : c.eval f = rest.foldl f a := by
  induction c generalizing a rest with
  | single b =>
    obtain ⟨rfl, rfl⟩ := List.cons.inj h
    rfl
  | pair c d ihc ihd =>
    rw [leaves, List.append_eq_cons_iff] at h
    obtain ⟨hnil, -⟩ | ⟨cs, hc, rfl⟩ := h
    · exact absurd (congrArg List.length hnil) (by rw [length_leaves]; exact Nat.succ_ne_zero _)
    obtain ⟨b, ds, hd⟩ : ∃ b ds, d.leaves = b :: ds :=
      List.exists_cons_of_length_eq_add_one d.length_leaves
    rw [eval, ihc hc, ihd hd, hd, List.foldl_append, List.foldl_cons, List.foldl_assoc]

/-- If every combination makes the same number of requests, the tree makes as many for each of them. -/
theorem Evaluates.card_eq {T : Type} {P : α → α → Multiset T → α → Prop} {k : Nat}
    (hP : ∀ a b requests result, P a b requests result → requests.card = k) {c : Combination α}
    {requests : Multiset T} {a : α} (h : c.Evaluates P requests a) :
    requests.card = k * c.combines := by
  induction h with
  | single a => rfl
  | pair _ _ h ihc ihd =>
    rw [Multiset.card_add, Multiset.card_add, hP _ _ _ _ h, ihc, ihd, combines]
    ring

open Concurrent (nextLevel foldNow level_induction)

/-- The tree that a fold makes of a list. -/
def balanced (default : α) (as : List α) : Combination α :=
  foldNow pair (single default) as.length (as.map single)

private theorem leaves_nextLevel : ∀ cs : List (Combination α),
    (nextLevel pair cs).flatMap leaves = cs.flatMap leaves
  | [] | [_] => rfl
  | c :: d :: rest => by
    rw [Concurrent.nextLevel_cons_cons, List.flatMap_cons, leaves_nextLevel rest, leaves,
      List.append_assoc, List.flatMap_cons, List.flatMap_cons]

private theorem leaves_foldNow (c : Combination α) (fuel : Nat) (cs : List (Combination α))
    (hfuel : cs.length ≤ fuel + 1) (h : cs ≠ []) :
    (foldNow pair c fuel cs).leaves = cs.flatMap leaves := by
  induction fuel, cs, hfuel using level_induction with
  | short fuel cs hshort =>
    obtain ⟨d, rfl⟩ : ∃ d, cs = [d] :=
      List.length_eq_one_iff.1 (hshort.antisymm (List.length_pos_iff.2 h))
    rw [Concurrent.foldNow_of_length_le_one _ _ _ hshort]
    exact (List.append_nil _).symm
  | level fuel cs hlong _ ih =>
    have hlength := Concurrent.length_nextLevel pair cs
    rw [Concurrent.foldNow_succ _ _ _ hlong, ← leaves_nextLevel]
    exact ih _ hlength (List.ne_nil_of_length_pos (by rw [hlength]; omega))

/-- The leaves of the tree are the elements, in their order. -/
theorem leaves_balanced (default : α) {as : List α} (h : as ≠ []) :
    (balanced default as).leaves = as := by
  have hleaves := leaves_foldNow (single default) as.length (as.map single)
    (by rw [List.length_map]; exact Nat.le_succ _) (List.map_eq_nil_iff.not.2 h)
  rw [balanced, hleaves, List.flatMap_map]
  exact List.flatMap_singleton' as

/-- There is one combination less than there are elements. -/
theorem combines_balanced (default : α) {as : List α} (h : as ≠ []) :
    (balanced default as).combines = as.length - 1 := by
  have hlength := (balanced default as).length_leaves
  rw [leaves_balanced default h] at hlength
  rw [hlength, Nat.add_sub_cancel]

private theorem depth_nextLevel {k : Nat} : ∀ {cs : List (Combination α)}, (∀ c ∈ cs, c.depth ≤ k) →
    ∀ c ∈ nextLevel pair cs, c.depth ≤ k + 1
  | [], _ => nofun
  | [_], h => fun c hc => (h c hc).trans (Nat.le_succ k)
  | c :: d :: rest, h => by
    obtain ⟨hc, hd, hrest⟩ : c.depth ≤ k ∧ d.depth ≤ k ∧ ∀ c ∈ rest, c.depth ≤ k := by
      simpa only [List.forall_mem_cons] using h
    exact List.forall_mem_cons.2 ⟨Nat.succ_le_succ (max_le hc hd), depth_nextLevel hrest⟩

/-- The first one of several trees is paired in every level, and no other one gets deeper. -/
private theorem depth_foldNow (c : Combination α) (fuel : Nat) (cs : List (Combination α))
    (hfuel : cs.length ≤ fuel + 1) {k : Nat} (hfirst : (cs.headD c).depth = k)
    (hdepth : ∀ d ∈ cs, d.depth ≤ k) :
    (foldNow pair c fuel cs).depth = k + Nat.clog 2 cs.length := by
  induction fuel, cs, hfuel using level_induction generalizing k with
  | short fuel cs hshort =>
    rw [Concurrent.foldNow_of_length_le_one _ _ _ hshort, hfirst,
      Nat.clog_of_right_le_one hshort, Nat.add_zero]
  | level fuel cs hlong _ ih =>
    have hlength := Concurrent.length_nextLevel pair cs
    have hlevel : ((nextLevel pair cs).headD c).depth = k + 1 := by
      match cs with
      | [] | [_] => simp at hlong
      | d :: e :: rest =>
        have he : e.depth ≤ d.depth := hfirst ▸ hdepth e (by simp)
        exact congrArg Nat.succ ((max_eq_left he).trans hfirst)
    rw [Concurrent.foldNow_succ _ _ _ hlong, ih _ hlength hlevel (depth_nextLevel hdepth), hlength,
      Nat.clog_of_two_le one_lt_two hlong, Nat.add_assoc, Nat.add_comm 1]
    rfl

/-- Every level doubles how many elements a tree may have, so there are as few levels as there can
be. -/
theorem depth_balanced (default : α) (as : List α) :
    (balanced default as).depth = Nat.clog 2 as.length := by
  have hdepth := depth_foldNow (single default) as.length (as.map single)
    (by rw [List.length_map]; exact Nat.le_succ _) (k := 0) (by cases as <;> rfl)
    (List.forall_mem_map.2 fun _ _ => Nat.le_refl 0)
  rwa [Nat.zero_add, List.length_map] at hdepth

/-- The result of a fold of a function is that of the tree. -/
theorem eval_balanced (f : α → α → α) (default : α) (as : List α) :
    (balanced default as).eval f = foldNow f default as.length as := by
  have heval := Concurrent.foldNow_map (f := pair) (g := f) (t := eval f) (fun _ _ => rfl)
    (single default) as.length (as.map single) (by rw [List.length_map]; exact Nat.le_succ _)
  rw [balanced, ← heval, List.map_map]
  exact congrArg (foldNow f default as.length) (List.map_id as)

end Combination

/-- With an associative function that the default is neutral to, a fold is one from the left. -/
theorem Concurrent.foldNow_eq_foldl {α : Type} (f : α → α → α) [Std.Associative f] {default : α}
    (hdefault : ∀ a, f default a = a) (as : List α) :
    foldNow f default as.length as = as.foldl f default := by
  cases as with
  | nil => rfl
  | cons a rest =>
    have hleaves := Combination.leaves_balanced default (List.cons_ne_nil a rest)
    rw [← Combination.eval_balanced, Combination.eval_eq_foldl f _ hleaves, List.foldl_cons, hdefault]

/-! ### Folds by circuits -/

/-- The requests, in any order. -/
def Trace.requests {M V : Type} : Trace M V → Multiset (M ⊕ V)
  | done => 0
  | mul m rest => .inl m ::ₘ rest.requests
  | reveal v rest => .inr v ::ₘ rest.requests
  | join first second rest => first.requests + second.requests + rest.requests

/-- Requests with their answers, in any order. -/
abbrev AnsweredRequests (S R : Type) : Type := Multiset (((S × S) × S) ⊕ (S × R))

namespace Future

open Concurrent (pairUp foldLevels foldTree nextLevel foldNow level_induction)

variable {S R α β : Type}

/-! #### Products and openings in branches -/

namespace Plain

private theorem of_mem_pairUp {combine : α → α → Future S R α} (h : ∀ a b, (combine a b).Plain)
    (as : List α) : ∀ c ∈ pairUp combine as, c.Plain := by
  fun_induction pairUp with
  | case1 a b rest ih => exact List.forall_mem_cons.2 ⟨h a b, ih⟩
  | case2 a => exact List.forall_mem_singleton.2 trivial
  | case3 => exact nofun

private theorem foldLevels {combine : α → α → Future S R α} (h : ∀ a b, (combine a b).Plain)
    (default : α) (fuel : Nat) (as : List α) : (Concurrent.foldLevels combine default fuel as).Plain := by
  induction fuel generalizing as with
  | zero => exact trivial
  | succ fuel ih =>
    match as with
    | [] | [_] => exact trivial
    | a :: b :: rest => exact (Plain.joinAll (of_mem_pairUp h (a :: b :: rest))).bind ih

/-- Elements are combined along a balanced tree by circuits of this kind. -/
theorem foldTree {combine : α → α → Future S R α} (h : ∀ a b, (combine a b).Plain) (default : α)
    (as : List α) : (Concurrent.foldTree combine default as).Plain :=
  foldLevels h default _ as

end Plain

private theorem plain_mul (x y : S) : (mul x y ready : Future S R S).Plain := fun _ => trivial

theorem plain_dotProduct [Zero S] [Add S] (xs ys : List S) :
    (dotProduct xs ys : Future S R S).Plain := by
  rw [dotProduct, ← List.map_uncurry_zip_eq_zipWith]
  exact (Plain.joinAll (List.forall_mem_map.2 fun p _ => plain_mul p.1 p.2)).bind fun _ => trivial

theorem plain_product [Zero S] (one : S) (elems : List S) : (product one elems : Future S R S).Plain :=
  .foldTree plain_mul one elems

/-! #### Functions that make no requests -/

section AtOnce

variable (f : α → α → α)

private theorem poll_joinAll_ready (as : List α) (b : Buffers S R) :
    (joinAll (as.map ready)).poll b = (.ok (.ready as), b) := by
  induction as with
  | nil => rfl
  | cons a as ih => simp only [List.map_cons, joinAll, poll, ih]

/-- What comes after branches that are ready begins in the same poll. -/
private theorem poll_joinAll_bind (as : List α) (g : List α → Future S R β) (b : Buffers S R) :
    ((joinAll (as.map ready)).bind g).poll b = (g as).poll b := by
  cases as with
  | nil => rfl
  | cons a as => simp only [List.map_cons, joinAll, Future.bind, poll, poll_joinAll_ready]

private theorem pairUp_ready : ∀ as : List α,
    pairUp (M := Future S R) (fun x y => .ready (f x y)) as = (nextLevel f as).map ready
  | [] | [_] => rfl
  | a :: b :: rest => by
    rw [pairUp, pairUp_ready rest, Concurrent.nextLevel_cons_cons, List.map_cons]

private theorem poll_foldLevels (default : α) (fuel : Nat) (as : List α) (b : Buffers S R) :
    (foldLevels (fun x y => .ready (f x y)) default fuel as : Future S R α).poll b =
      (.ok (.ready (foldNow f default fuel as)), b) := by
  induction fuel generalizing as with
  | zero => rfl
  | succ fuel ih =>
    match as with
    | [] | [_] => rfl
    | a :: a' :: rest =>
      have hlong : 2 ≤ (a :: a' :: rest).length := by simp
      rw [Concurrent.foldLevels_succ _ _ _ hlong, Concurrent.foldNow_succ _ _ _ hlong, pairUp_ready]
      exact (poll_joinAll_bind _ _ b).trans (ih _)

/-- A fold of a function is over in one poll. -/
theorem poll_foldTree (default : α) (as : List α) (b : Buffers S R) :
    (foldTree (fun x y => .ready (f x y)) default as : Future S R α).poll b =
      (.ok (.ready ((Combination.balanced default as).eval f)), b) := by
  rw [Combination.eval_balanced]
  exact poll_foldLevels f default _ as b

end AtOnce

/-! #### Executions -/

namespace Executes

/-- An execution of circuits in sequence is one of each. -/
theorem of_bind {c : Future S R α} {f : α → Future S R β} {t : AnsweredTrace S R} {b : β}
    (h : (c.bind f).Executes t b) : ∃ first a rest, c.Executes first a ∧ (f a).Executes rest b ∧
      t.requests = first.requests + rest.requests ∧ t.schedule = first.schedule ++ rest.schedule := by
  induction c generalizing t with
  | ready a => exact ⟨.done, a, t, .ready a, h, (zero_add _).symm, rfl⟩
  | mul x y next ih =>
    cases h with
    | mul hrest =>
      obtain ⟨first, a, rest, hfirst, hrest, hrequests, hschedule⟩ := ih _ hrest
      refine ⟨_, a, rest, .mul hfirst, hrest, ?_, congrArg (_ :: ·) hschedule⟩
      rw [Trace.requests, hrequests, Trace.requests, Multiset.cons_add]
  | reveal x next ih =>
    cases h with
    | reveal hrest =>
      obtain ⟨first, a, rest, hfirst, hrest, hrequests, hschedule⟩ := ih _ hrest
      refine ⟨_, a, rest, .reveal hfirst, hrest, ?_, congrArg (_ :: ·) hschedule⟩
      rw [Trace.requests, hrequests, Trace.requests, Multiset.cons_add]
  | both c d next _ _ ih =>
    cases h with
    | both hc hd hrest =>
      obtain ⟨first, a, rest, hfirst, hrest, hrequests, hschedule⟩ := ih _ _ hrest
      refine ⟨_, a, rest, .both hc hd hfirst, hrest, ?_, ?_⟩
      · rw [Trace.requests, hrequests, Trace.requests, ← add_assoc]
      · rw [Trace.schedule, hschedule, Trace.schedule, List.append_assoc]
  | awaitProduct | awaitValue | abandon | stuck => cases h

/-- An execution of branches is one of the first branch beside one of the others. -/
theorem of_joinAll_cons {c : Future S R α} {cs : List (Future S R α)} {t : AnsweredTrace S R}
    {as : List α} (h : (joinAll (c :: cs)).Executes t as) : ∃ first a others bs,
      as = a :: bs ∧ c.Executes first a ∧ (joinAll cs).Executes others bs ∧
        t.requests = first.requests + others.requests ∧
        t.schedule = Batch.sideBySide first.schedule others.schedule := by
  cases h with
  | both hfirst hothers hrest =>
    cases hrest
    exact ⟨_, _, _, _, rfl, hfirst, hothers, add_zero _, List.append_nil _⟩

end Executes

/-- A combination of two elements may make these requests, with their answers, and have this result. -/
def Combines (combine : α → α → Future S R α) (a b : α)
    (requests : AnsweredRequests S R) (result : α) : Prop :=
  ∃ t, (combine a b).Executes t result ∧ t.requests = requests

namespace Executes

variable {combine : α → α → Future S R α} {default : α}

/-- The elements of a level are results of trees, which come with the requests that were made for
them. -/
private def Grown (combine : α → α → Future S R α)
    (trees : List (Combination α × AnsweredRequests S R)) (as : List α) : Prop :=
  List.Forall₂ (fun tree a => tree.1.Evaluates (Combines combine) tree.2 a) trees as

/-- Combining neighbours side by side makes trees of one more level. -/
private theorem grown_pairUp {trees : List (Combination α × AnsweredRequests S R)}
    {as as' : List α} {t : AnsweredTrace S R} (htrees : Grown combine trees as)
    (h : (joinAll (pairUp combine as)).Executes t as') :
    ∃ trees', Grown combine trees' as' ∧
      trees'.map (·.1) = nextLevel .pair (trees.map (·.1)) ∧
      (trees'.map (·.2)).sum = (trees.map (·.2)).sum + t.requests := by
  match htrees with
  | .nil =>
    cases h
    exact ⟨[], .nil, rfl, rfl⟩
  | .cons htree .nil =>
    obtain ⟨first, a, others, bs, rfl, hfirst, hothers, hrequests, -⟩ := of_joinAll_cons h
    cases hfirst
    cases hothers
    exact ⟨_, .cons htree .nil, rfl, by rw [hrequests]; exact (add_zero _).symm⟩
  | .cons hc (.cons hd hrest) =>
    obtain ⟨first, a, others, bs, rfl, hfirst, hothers, hrequests, -⟩ := of_joinAll_cons h
    obtain ⟨trees', htrees', hlevel, hsum⟩ := grown_pairUp hrest hothers
    refine ⟨(_, _) :: trees', .cons (.pair hc hd ⟨_, hfirst, rfl⟩) htrees',
      congrArg (List.cons _) hlevel, ?_⟩
    simp only [List.map_cons, List.sum_cons, hsum, hrequests]
    abel

private theorem evaluates_foldLevels (c : Combination α) (fuel : Nat) (as : List α)
    (hfuel : as.length ≤ fuel + 1) (hne : as ≠ [])
    {trees : List (Combination α × AnsweredRequests S R)} (htrees : Grown combine trees as)
    {t : AnsweredTrace S R} {a : α} (h : (foldLevels combine default fuel as).Executes t a) :
    (foldNow .pair c fuel (trees.map (·.1))).Evaluates (Combines combine)
      ((trees.map (·.2)).sum + t.requests) a := by
  induction fuel, as, hfuel using level_induction generalizing trees t with
  | short fuel as hshort =>
    obtain ⟨b, rfl⟩ : ∃ b, as = [b] :=
      List.length_eq_one_iff.1 (hshort.antisymm (List.length_pos_iff.2 hne))
    rw [Concurrent.foldLevels_of_length_le_one _ _ _ hshort] at h
    cases htrees with
    | cons htree hnil =>
      cases hnil
      cases h
      simpa [Concurrent.foldNow_of_length_le_one, Trace.requests] using htree
  | level fuel as hlong _ ih =>
    -- what was requested in this level moves from the trace into the trees of the next one
    rw [Concurrent.foldLevels_succ _ _ _ hlong] at h
    obtain ⟨first, as', rest, hfirst, hrest, hrequests, -⟩ := of_bind h
    obtain ⟨trees', htrees', hlevel, hsum⟩ := grown_pairUp htrees hfirst
    have hlength : as'.length = (as.length + 1) / 2 := by
      rw [← htrees'.length_eq, ← List.length_map, hlevel, Concurrent.length_nextLevel,
        List.length_map, htrees.length_eq]
    have hne' : as' ≠ [] := List.ne_nil_of_length_pos (by rw [hlength]; omega)
    have hresult := ih as' hlength hne' htrees' hrest
    rwa [hlevel, hsum, add_assoc, ← hrequests, ← Concurrent.foldNow_succ] at hresult
    rwa [List.length_map, htrees.length_eq]

/-- A fold by circuits evaluates its tree: every combination of the tree is made once, and nothing else
is requested. -/
theorem evaluates_foldTree {as : List α} (hne : as ≠ []) {t : AnsweredTrace S R} {a : α}
    (h : (foldTree combine default as).Executes t a) :
    (Combination.balanced default as).Evaluates (Combines combine) t.requests a := by
  have htrees : Grown combine (as.map fun a => (.single a, 0)) as :=
    List.forall₂_map_left_iff.2 (List.forall₂_same.2 fun a _ => .single a)
  have hresult := evaluates_foldLevels (.single default) as.length as (Nat.le_succ _) hne htrees h
  simpa [Combination.balanced, Function.comp_def] using hresult

/-- The combinations of one level take as many rounds as one of them. -/
private theorem rounds_pairUp {r : Nat}
    (hr : ∀ a b t result, (combine a b).Executes t result → t.schedule.length = r) :
    ∀ {as as' : List α} {t : AnsweredTrace S R}, (joinAll (pairUp combine as)).Executes t as' →
      as'.length = (as.length + 1) / 2 ∧ t.schedule.length = if as.length ≤ 1 then 0 else r
  | [], _, _, h => by
    cases h
    exact ⟨by simp, rfl⟩
  | [a], _, _, h => by
    obtain ⟨first, a, others, bs, rfl, hfirst, hothers, -, hschedule⟩ := of_joinAll_cons h
    cases hfirst
    cases hothers
    exact ⟨by simp, by rw [hschedule]; rfl⟩
  | a :: b :: rest, _, _, h => by
    obtain ⟨first, z, others, bs, rfl, hfirst, hothers, -, hschedule⟩ := of_joinAll_cons h
    obtain ⟨hlength, hrounds⟩ := rounds_pairUp hr hothers
    refine ⟨by simp only [List.length_cons, hlength]; omega, ?_⟩
    rw [hschedule, Batch.length_sideBySide, hr _ _ _ _ hfirst, hrounds]
    split <;> simp

private theorem rounds_foldLevels {r : Nat}
    (hr : ∀ a b t result, (combine a b).Executes t result → t.schedule.length = r) (fuel : Nat)
    (as : List α) (hfuel : as.length ≤ fuel + 1) {t : AnsweredTrace S R} {a : α}
    (h : (foldLevels combine default fuel as).Executes t a) :
    t.schedule.length = r * Nat.clog 2 as.length := by
  induction fuel, as, hfuel using level_induction generalizing t with
  | short fuel as hshort =>
    rw [Concurrent.foldLevels_of_length_le_one _ _ _ hshort] at h
    cases h
    rw [Nat.clog_of_right_le_one hshort]
    rfl
  | level fuel as hlong _ ih =>
    rw [Concurrent.foldLevels_succ _ _ _ hlong] at h
    obtain ⟨first, as', rest, hfirst, hrest, -, hschedule⟩ := of_bind h
    obtain ⟨hlength, hrounds⟩ := rounds_pairUp hr hfirst
    rw [if_neg (by omega)] at hrounds
    rw [hschedule, List.length_append, hrounds, ih as' hlength hrest, hlength,
      Nat.clog_of_two_le one_lt_two hlong, Nat.mul_succ, Nat.add_comm]
    rfl

/-- If every combination takes the same number of rounds, a fold takes as many for every level. -/
theorem rounds_foldTree {r : Nat}
    (hr : ∀ a b t result, (combine a b).Executes t result → t.schedule.length = r) {as : List α}
    {t : AnsweredTrace S R} {a : α} (h : (foldTree combine default as).Executes t a) :
    t.schedule.length = r * Nat.clog 2 as.length :=
  rounds_foldLevels hr as.length as (Nat.le_succ _) h

/-- Branches that take the same number of rounds take as many side by side. -/
theorem rounds_joinAll {r : Nat} {cs : List (Future S R α)}
    (hr : ∀ c ∈ cs, ∀ t a, c.Executes t a → t.schedule.length = r) {t : AnsweredTrace S R}
    {as : List α} (h : (joinAll cs).Executes t as) :
    t.schedule.length = if cs.isEmpty then 0 else r := by
  induction cs generalizing t as with
  | nil =>
    cases h
    rfl
  | cons c cs ih =>
    obtain ⟨first, a, others, bs, -, hfirst, hothers, -, hschedule⟩ := of_joinAll_cons h
    rw [hschedule, Batch.length_sideBySide, hr c List.mem_cons_self _ _ hfirst,
      ih (fun d hd => hr d (List.mem_cons_of_mem c hd)) hothers]
    cases cs <;> simp

theorem rounds_mul {x y : S} {t : AnsweredTrace S R} {z : S}
    (h : (Future.mul x y .ready).Executes t z) : t.schedule.length = 1 := by
  cases h with
  | mul hrest =>
    cases hrest
    rfl

/-- A product takes a round for every level. -/
theorem rounds_product [Zero S] {one : S} {elems : List S} {t : AnsweredTrace S R} {z : S}
    (h : (product one elems).Executes t z) : t.schedule.length = Nat.clog 2 elems.length :=
  (rounds_foldTree (fun _ _ _ _ => rounds_mul) h).trans (Nat.one_mul _)

/-- An inner product takes one round, or none if there is nothing to multiply. -/
theorem rounds_dotProduct [Zero S] [Add S] {xs ys : List S} {t : AnsweredTrace S R} {z : S}
    (h : (dotProduct xs ys).Executes t z) :
    t.schedule.length = min 1 (min xs.length ys.length) := by
  obtain ⟨first, products, rest, hfirst, hrest, -, hschedule⟩ := of_bind h
  cases hrest
  have hmul : ∀ c ∈ List.zipWith (fun x y => (Future.mul x y .ready : Future S R S)) xs ys,
      ∀ t a, c.Executes t a → t.schedule.length = 1 := by
    rw [← List.map_uncurry_zip_eq_zipWith]
    exact List.forall_mem_map.2 fun _ _ _ _ => rounds_mul
  rw [hschedule, Trace.schedule, List.append_nil, rounds_joinAll hmul hfirst]
  cases xs <;> cases ys <;> simp

end Executes

/-! #### Runs on schedulers -/

/-- What a fold makes of a list, whatever it combines the elements by: the tree has the elements as its
leaves, in their order, and is as low as can be. A function is applied as the tree tells, in one poll.
Circuits are run until the fold has its result, unless a round fails: then every combination of the
tree has made its requests, and nothing else is requested. If all combinations make the same number of
requests, the fold makes as many for every combination, and if all of them take the same number of
rounds, the fold takes as many for every level. -/
structure FoldsTo (S R : Type) {α : Type} (default : α) (as : List α) (c : Combination α) : Prop where
  leaves : c.leaves = as
  combines : c.combines = as.length - 1
  depth : c.depth = Nat.clog 2 as.length
  poll : ∀ (f : α → α → α) (b : Buffers S R),
    (foldTree (fun x y => .ready (f x y)) default as : Future S R α).poll b =
      (.ok (.ready (c.eval f)), b)
  run : ∀ combine : α → α → Future S R α, (∀ a b, (combine a b).Plain) →
    ∀ {O K : Type} [LinearShare S R K] [CodedRing R] [Opener O S R], Opener.NeverStalls O →
    ∀ {x : Scheduler O S R K}, x.Reachable → ∀ (seat : Seat) (answers : Answers), ∃ t a,
      Scheduler.Outcome seat x t a
        ((Scheduler.run (foldTree combine default as) seat x).transcript answers)
        ((Scheduler.run (foldTree combine default as) seat x).under answers).1
        ((Scheduler.run (foldTree combine default as) seat x).under answers).2 ∧
      c.Evaluates (Combines combine) t.requests a ∧
      (∀ k, (∀ a b t result, (combine a b).Executes t result → t.requests.card = k) →
        t.requests.card = k * c.combines) ∧
      ∀ r, (∀ a b t result, (combine a b).Executes t result → t.schedule.length = r) →
        t.schedule.length = r * c.depth

/-- The tree of a fold says what the fold makes of the list. -/
theorem foldsTo_balanced (S R : Type) (default : α) {as : List α} (hne : as ≠ []) :
    FoldsTo S R default as (.balanced default as) where
  leaves := Combination.leaves_balanced default hne
  combines := Combination.combines_balanced default hne
  depth := Combination.depth_balanced default as
  poll f b := poll_foldTree f default as b
  run combine hplain _ _ _ _ _ hO _ hx seat answers := by
    obtain ⟨t, a, hexecutes, houtcome, -⟩ :=
      Scheduler.run_outcome hO hx (Plain.foldTree hplain default as) seat answers
    have hevaluates := hexecutes.evaluates_foldTree hne
    refine ⟨t, a, houtcome, hevaluates, fun k hk => hevaluates.card_eq ?_, fun r hr => ?_⟩
    · rintro a b _ result ⟨t, ht, rfl⟩
      exact hk a b t result ht
    · rw [Combination.depth_balanced]
      exact hexecutes.rounds_foldTree hr

/-! #### Trees of rounds -/

namespace Unfolds

variable {combine : α → α → Future S R α} {combine' : α → α → Circuit S R α}
  (h : ∀ a b, (combine a b).Unfolds (combine' a b))

include h

private theorem pairUp : ∀ as : List α,
    List.Forall₂ Unfolds (Concurrent.pairUp combine as) (Concurrent.pairUp combine' as)
  | [] => .nil
  | [a] => .cons (.ready a) .nil
  | a :: b :: rest => .cons (h a b) (pairUp rest)

private theorem foldLevels (default : α) (fuel : Nat) (as : List α) :
    Unfolds (Concurrent.foldLevels combine default fuel as)
      (Concurrent.foldLevels combine' default fuel as) := by
  induction fuel generalizing as with
  | zero => exact .ready _
  | succ fuel ih =>
    match as with
    | [] | [_] => exact .ready _
    | a :: b :: rest => exact (Unfolds.joinAll (pairUp h (a :: b :: rest))).bind ih

/-- A fold by circuits unfolds to the fold by their trees. -/
theorem foldTree (default : α) (as : List α) :
    Unfolds (Concurrent.foldTree combine default as) (Concurrent.foldTree combine' default as) :=
  foldLevels h default _ as

end Unfolds

end Future

end Multiparty
