import Mathlib
import Multiparty.Opening.Basic
import Multiparty.Proofs.Joint.Sharing
import Multiparty.Proofs.Network.Lockstep
import Multiparty.Queue

/-!
# Opening by all parties together

What the openers of all parties have in common is described by the values that they have queued and
those that they have opened. Each operation of an opener, carried out by all parties, changes these
two lists in the same way whatever the scheme.

## Main definitions

* `JointOpening`: the contract of the openers of a scheme.
* `JointOpening.Idles`: openers that make no calls when there is nothing to do.

## Main results

* `JointOpening.openBatch`: opening a batch of valid sharings yields their values at all parties.
-/

namespace Multiparty

section Held

variable {α β : Type} {a : Array β} {l : List α} {f : α → β}

/-- What a party holds of the items of a list is as long as the list. -/
theorem size_of_toList_eq (h : a.toList = l.map f) : a.size = l.length := by
  rw [← Array.length_toList, h, List.length_map]

theorem isEmpty_of_toList_eq (h : a.toList = l.map f) : a.isEmpty = l.isEmpty := by
  rw [Array.isEmpty, size_of_toList_eq h, Bool.eq_iff_iff, decide_eq_true_eq,
    List.isEmpty_iff_length_eq_zero]

/-- Who holds something of the items of an empty list holds nothing. -/
theorem isEmpty_of_forall₂_nil {γ : Type} {P : α → γ → Prop} (hl : List.Forall₂ P l [])
    (h : a.toList = l.map f) : a.isEmpty = true := by
  cases hl
  exact isEmpty_of_toList_eq h

theorem toList_push_of_toList_eq (h : a.toList = l.map f) (x : α) :
    (a.push (f x)).toList = (l ++ [x]).map f := by
  rw [Array.toList_push, h, List.map_append, List.map_singleton]

/-- Taking the first of some items that stand in relation to given values. -/
theorem Queue.exists_dequeue?_of_forall₂ {P : β → α → Prop} {q : Queue β} {v : α} {vs : List α}
    (h : List.Forall₂ P q.toList (v :: vs)) :
    ∃ b rest, q.dequeue? = some (b, rest) ∧ P b v ∧ List.Forall₂ P rest.toList vs := by
  obtain ⟨b, bs, hb, hbs, hlist⟩ := List.forall₂_cons_right_iff.1 h
  obtain ⟨rest, hdequeue, rfl⟩ := Queue.exists_dequeue? hlist
  exact ⟨b, rest, hdequeue, hb, hbs⟩

end Held

/-- The contract of openers `O` of `n` parties: `Holds o queued opened` says that the openers have
queued valid sharings of the values `queued` and hold the opened values `opened`, and that nothing
they have opened so far is wrong. -/
structure JointOpening (O : Type) {S R K : Type} [Opener O S R] [LinearShare S R K] [CodedRing R]
    (n : Nat) extends Sharing S n where
  Holds : (Fin n → O) → (queued opened : List R) → Prop
  constant : ∀ {o q vs}, Holds o q vs → ∀ v, Valid (fun i => Opener.constant (o i) v) v
  init : ∀ {o q vs}, Holds o q vs → Holds (fun i => Opener.init (o i)) [] []
  prepare : ∀ {o q vs x v}, Holds o q vs → Valid x v →
    Holds (fun i => Opener.prepare (x i) (o i)) (q ++ [v]) vs
  exchange : ∀ {o q vs}, Holds o q vs →
    Action.Succeed (fun _ => Opener.exchange) o fun o' _ => Holds o' [] (vs ++ q)
  finalize : ∀ {o q v vs}, Holds o q (v :: vs) →
    ∃ o', (∀ i, Opener.finalize (o i) = (.ok v, o' i)) ∧ Holds o' q vs
  check : ∀ {o q vs}, Holds o q vs →
    Action.Succeed (fun _ => Opener.check) o fun o' _ => Holds o' q vs

/-- With nothing to exchange, to verify or to take, the openers make no calls and stay as they are.
Only whoever takes a value that is not there is told so. -/
structure JointOpening.Idles {O S R K : Type} [Opener O S R] [LinearShare S R K] [CodedRing R]
    {n : Nat} (J : JointOpening O n) : Prop where
  exchange : ∀ {o vs}, J.Holds o [] vs → ∀ i : Fin n,
    Opener.exchange.run ⟨i, n⟩ (o i) = .done (o i) (.ok ())
  check : ∀ {o q vs}, J.Holds o q vs → ∀ i : Fin n, Opener.pendingChecks (o i) = 0 →
    Opener.check.run ⟨i, n⟩ (o i) = .done (o i) (.ok ())
  finalize : ∀ {o q}, J.Holds o q [] → ∀ i,
    Opener.finalize (o i) = (.error (.misuse .nothingOpened), o i)

namespace Attempt

variable {σ α β γ : Type} {n : Nat}

/-- Attempts of all parties, one for every item of a list, that succeed one after another as long
as an invariant says so. `view` is what a party sees of an item, and `P` what is known of the
results. -/
theorem forEach_eq {f : α → Attempt σ β} (view : Fin n → γ → α) (P : (Fin n → β) → γ → Prop)
    (Inv : (Fin n → σ) → List γ → Prop)
    (hf : ∀ s g gs, Inv s (g :: gs) →
      ∃ s' b, (∀ i, f (view i g) (s i) = (.ok (b i), s' i)) ∧ P b g ∧ Inv s' gs)
    {s : Fin n → σ} (gs rest : List γ) (h : Inv s (gs ++ rest)) :
    ∃ s' bs, (∀ i, forEach f (gs.map (view i)) (s i) = (.ok (bs.map (· i)), s' i)) ∧
      List.Forall₂ P bs gs ∧ Inv s' rest := by
  have honto : ∀ (gs : List γ) (s : Fin n → σ), Inv s (gs ++ rest) →
      ∃ s' bs, (∀ i acc, forEachOnto f (gs.map (view i)) acc (s i) =
          (.ok (acc.reverse ++ bs.map (· i)), s' i)) ∧ List.Forall₂ P bs gs ∧ Inv s' rest := by
    intro gs
    induction gs with
    | nil =>
      intro s h
      refine ⟨s, [], fun i acc => ?_, .nil, h⟩
      rw [List.map_nil, List.map_nil, List.append_nil]
      rfl
    | cons g gs ih =>
      intro s h
      obtain ⟨s₁, b, hfirst, hb, h₁⟩ := hf s g _ h
      obtain ⟨s₂, bs, hrest, hbs, h₂⟩ := ih s₁ h₁
      refine ⟨s₂, b :: bs, fun i acc => ?_, .cons hb hbs, h₂⟩
      rw [List.map_cons, forEachOnto, hfirst]
      dsimp only
      rw [hrest, List.reverse_cons, List.append_assoc, List.singleton_append, List.map_cons]
  obtain ⟨s', bs, hs, hbs, h'⟩ := honto gs s h
  exact ⟨s', bs, fun i => hs i [], hbs, h'⟩

/-- The same for an attempt that is made a number of times. -/
theorem times_eq {f : Attempt σ α} (P : (Fin n → α) → γ → Prop) (Inv : (Fin n → σ) → List γ → Prop)
    (hf : ∀ s g gs, Inv s (g :: gs) →
      ∃ s' a, (∀ i, f (s i) = (.ok (a i), s' i)) ∧ P a g ∧ Inv s' gs)
    {s : Fin n → σ} (gs rest : List γ) (h : Inv s (gs ++ rest)) :
    ∃ s' as, (∀ i, times f gs.length (s i) = (.ok (as.map (· i)), s' i)) ∧
      List.Forall₂ P as gs ∧ Inv s' rest := by
  obtain ⟨s', as, heach, has, h'⟩ :=
    forEach_eq (f := fun _ : Unit => f) (fun _ _ => ()) P Inv hf gs rest h
  refine ⟨s', as, fun i => ?_, has, h'⟩
  rw [times_eq_forEach, ← heach i, List.map_const']

end Attempt

namespace JointOpening

variable {O S R K : Type} [Opener O S R] [LinearShare S R K] [CodedRing R] {n : Nat}
  (J : JointOpening O n) {o : Fin n → O} {q vs ws : List R} {items : List (Fin n → S)}

/-- Queueing sharings one after another queues their values. -/
theorem prepareAll (h : J.Holds o q vs) (hitems : List.Forall₂ J.Valid items ws) :
    J.Holds (fun i => Opener.prepareAll (items.map (· i)) (o i)) ws [] := by
  have hfrom {o : Fin n → O} {q : List R} (h : J.Holds o q []) :
      J.Holds (fun i => (items.map (· i)).foldl (fun o s => Opener.prepare s o) (o i))
        (q ++ ws) [] := by
    induction hitems generalizing o q with
    | nil =>
      rw [List.append_nil]
      exact h
    | cons hx _ ih =>
      rw [List.append_cons]
      exact ih (J.prepare h hx)
  exact hfrom (J.init h)

/-- All parties take the opened values one after another. -/
theorem finalizeAll (h : J.Holds o q (ws ++ vs)) :
    ∃ o', (∀ i, Attempt.times Opener.finalize ws.length (o i) = (.ok ws, o' i)) ∧
      J.Holds o' q vs := by
  obtain ⟨o', as, htimes, has, h'⟩ := Attempt.times_eq (fun a w => a = fun _ : Fin n => w)
    (fun o vs => J.Holds o q vs) (fun o w ws h => by
      obtain ⟨o', hfinalize, h'⟩ := J.finalize h
      exact ⟨o', fun _ => w, hfinalize, rfl, h'⟩) ws vs h
  refine ⟨o', fun i => ?_, h'⟩
  have hsame : as.map (· i) = ws :=
    List.forall₂_eq_eq_eq ▸ List.forall₂_map_left_iff.2 (has.imp fun a w ha => by rw [ha])
  rw [htimes, hsame]

/-- Opening a batch of valid sharings succeeds and yields their values at all parties. -/
theorem openBatch (h : J.Holds o q vs) (hitems : List.Forall₂ J.Valid items ws) :
    Action.Succeed (fun i => Opener.openBatch (items.map (· i))) o
      fun o' a => J.Holds o' [] [] ∧ a = fun _ => ws := by
  refine Action.Succeed.modify_bind (fun i (o : O) => Opener.prepareAll (items.map (· i)) o) ?_
  refine Action.Succeed.bind (J.exchange (J.prepareAll h hitems)) fun o₁ _ h₁ => ?_
  rw [List.nil_append, ← List.append_nil ws] at h₁
  obtain ⟨o₂, htimes, h₂⟩ := J.finalizeAll h₁
  refine Action.Succeed.ofAttempt (a := fun _ => ws) (fun i => ?_) ⟨h₂, rfl⟩
  rw [List.length_map, hitems.length_eq]
  exact htimes i

end JointOpening

end Multiparty
