import Mathlib
import Multiparty.Circuit.Basic
import Multiparty.Proofs.Joint.Sharing

/-!
# Circuits of all parties

The circuits of all parties go on in step: in every poll all of them issue the same requests, each
for its own shares of valid sharings, and somebody awaits every answer. When valid sharings of the
products and the opened values are answered, they go on in step. This is kept by sequencing and by
running branches side by side.

## Main definitions

* `Faithful`: circuits of all parties that go on in step, with the number of their multiplications
  and a property of their results.

## Main results

* `Faithful.bind`, `Faithful.both`, `Faithful.joinAll`: sequencing and branches side by side.
-/

namespace Multiparty

variable {S R K α β : Type} [LinearShare S R K] [CodedRing R] {n : Nat}

namespace Requests

/-- What one party asks for, when all parties ask for some products and openings. -/
def ofShared {V : Sharing S n} (muls : List (V.Shared × V.Shared)) (opens : List V.Shared)
    (i : Fin n) : Requests S :=
  ⟨muls.map fun m => ⟨(m.1.shares i, m.2.shares i), true⟩, opens.map fun x => ⟨x.shares i, true⟩⟩

variable {V : Sharing S n}

theorem ofShared_append (muls muls' : List (V.Shared × V.Shared)) (opens opens' : List V.Shared)
    (i : Fin n) :
    ofShared muls opens i ++ ofShared muls' opens' i = ofShared (muls ++ muls') (opens ++ opens') i := by
  simp only [ofShared, List.map_append]
  rfl

theorem awaited_muls {muls : List (V.Shared × V.Shared)} {opens : List V.Shared} (i : Fin n) :
    ∀ q ∈ (ofShared muls opens i).muls, q.awaited = true :=
  List.forall_mem_map.2 fun _ _ => rfl

theorem awaited_opens {muls : List (V.Shared × V.Shared)} {opens : List V.Shared} (i : Fin n) :
    ∀ q ∈ (ofShared muls opens i).opens, q.awaited = true :=
  List.forall_mem_map.2 fun _ _ => rfl

omit [LinearShare S R K] [CodedRing R] in
theorem none_append (r : Requests S) : Requests.none ++ r = r := rfl

omit [LinearShare S R K] [CodedRing R] in
theorem append_none (r : Requests S) : r ++ Requests.none = r :=
  congrArg₂ Requests.mk (List.append_nil r.muls) (List.append_nil r.opens)

end Requests

/-- The circuits of all parties go on in step. As long as they are not done they ask for products
and openings of valid sharings, and whatever sharings of the products they get, they go on in step.
They ask for `k` products in all, and their results have the property `Q`. -/
inductive Faithful (V : Sharing S n) (Q : (Fin n → α) → Prop) :
    (Fin n → Circuit S R α) → (k : Nat) → Prop where
  | done {a : Fin n → α} (h : Q a) : Faithful V Q (fun i => .done .none (a i)) 0
  | wait {muls : List (V.Shared × V.Shared)} {opens : List V.Shared}
      {resume : Fin n → List S → List R → Circuit S R α} {k : Nat}
      (hissued : muls ≠ [] ∨ opens ≠ [])
      (h : ∀ products : List V.Shared,
        products.map (·.value) = muls.map (fun m => m.1.value * m.2.value) →
        Faithful V Q
          (fun i => resume i (products.map (·.shares i)) (opens.map (·.value))) k) :
      Faithful V Q (fun i => .wait (Requests.ofShared muls opens i) (resume i)) (muls.length + k)

namespace Circuit

omit [LinearShare S R K] [CodedRing R] in
theorem after_none (c : Circuit S R α) : c.after .none = c := by
  cases c <;> rfl

end Circuit

namespace Faithful

variable {V : Sharing S n} {Q : (Fin n → α) → Prop} {cs : Fin n → Circuit S R α} {k l : Nat}

theorem mono {Q' : (Fin n → α) → Prop} (h : Faithful V Q cs k) (hQ : ∀ a, Q a → Q' a) :
    Faithful V Q' cs k := by
  induction h with
  | done hq => exact .done (hQ _ hq)
  | wait hissued _ ih => exact .wait hissued ih

theorem pure {a : Fin n → α} (h : Q a) : Faithful V Q (fun i => Circuit.pure (a i)) 0 := .done h

theorem map {Q' : (Fin n → β) → Prop} (f : Fin n → α → β)
    (h : Faithful V (fun a => Q' fun i => f i (a i)) cs k) :
    Faithful V Q' (fun i => (cs i).map (f i)) k := by
  induction h with
  | done hq => exact .done hq
  | wait hissued _ ih => exact .wait hissued ih

/-- Sequencing: the second circuits may depend on the results of the first ones. -/
theorem bind {Q' : (Fin n → β) → Prop} {f : Fin n → α → Circuit S R β} (h : Faithful V Q cs k)
    (hf : ∀ a, Q a → Faithful V Q' (fun i => f i (a i)) l) :
    Faithful V Q' (fun i => (cs i).bind (f i)) (k + l) := by
  induction h with
  | done hq =>
    simp only [Circuit.bind, Circuit.after_none, Nat.zero_add]
    exact hf _ hq
  | wait hissued _ ih =>
    rw [Nat.add_assoc]
    exact .wait hissued ih

/-- The answers to the requests of one poll are as many as the requests. -/
private theorem length_products {products : List V.Shared} {muls : List (V.Shared × V.Shared)}
    (h : products.map (·.value) = muls.map fun m => m.1.value * m.2.value) :
    products.length = muls.length := by
  rw [← List.length_map, h, List.length_map]

/-- Two circuits side by side. -/
theorem both {Q' : (Fin n → β) → Prop} {ds : Fin n → Circuit S R β} (hc : Faithful V Q cs k)
    (hd : Faithful V Q' ds l) :
    Faithful V (fun ab => Q (fun i => (ab i).1) ∧ Q' fun i => (ab i).2)
      (fun i => Circuit.both (cs i) (ds i)) (k + l) := by
  induction hc generalizing ds l with
  | @done a hq =>
    simp only [Circuit.both, Circuit.after_none, Nat.zero_add]
    exact (hd.mono fun b hb => ⟨hq, hb⟩).map fun i b => (a i, b)
  | @wait muls opens resume k hissued h ih =>
    cases hd with
    | @done b hq' =>
      simp only [Circuit.both, Requests.append_none, Nat.add_zero]
      refine .wait hissued fun products hproducts => ?_
      have hlen := length_products hproducts
      have htake (i : Fin n) : (products.map (·.shares i)).take muls.length =
          products.map (·.shares i) :=
        List.take_of_length_le (by rw [List.length_map, hlen])
      have htake' : (opens.map (·.value)).take opens.length = opens.map (·.value) :=
        List.take_of_length_le (by rw [List.length_map])
      simp only [Requests.ofShared, List.length_map, htake, htake']
      exact ((h products hproducts).mono fun a ha => ⟨ha, hq'⟩).map fun i a => (a, b i)
    | @wait muls' opens' resume' l hissued' h' =>
      simp only [Circuit.both, Requests.ofShared_append]
      have hcount : muls.length + k + (muls'.length + l) = (muls ++ muls').length + (k + l) := by
        rw [List.length_append]
        omega
      rw [hcount]
      refine .wait (hissued.imp (List.append_ne_nil_of_left_ne_nil · _)
        (List.append_ne_nil_of_left_ne_nil · _)) fun products hproducts => ?_
      rw [List.map_append] at hproducts
      obtain ⟨products, products', rfl, hfst, hsnd⟩ := List.map_eq_append_iff.1 hproducts
      have hlen := length_products hfst
      simp only [Requests.ofShared, List.map_append, List.length_map, hlen, List.take_left',
        List.drop_left']
      exact ih products hfst (h' products' hsnd)

/-- Any number of circuits side by side. -/
theorem joinAll {ι : Type} {P : ι → (Fin n → α) → Prop} {c : ι → Fin n → Circuit S R α}
    {count : ι → Nat} (js : List ι) (h : ∀ j ∈ js, Faithful V (P j) (c j) (count j)) :
    Faithful V (fun as => ∃ rs : List (Fin n → α), List.Forall₂ P js rs ∧ as = fun i => rs.map (· i))
      (fun i => Circuit.joinAll (js.map fun j => c j i)) (js.map count).sum := by
  induction js with
  | nil => exact .pure ⟨[], .nil, rfl⟩
  | cons j js ih =>
    have hjoin := (h j List.mem_cons_self).both
      (ih fun j' hj' => h j' (List.mem_cons_of_mem _ hj'))
    rw [List.map_cons, List.sum_cons]
    refine (hjoin.mono ?_).map fun _ p => p.1 :: p.2
    rintro ab ⟨hfst, rs, hrs, hsnd⟩
    exact ⟨_ :: rs, .cons hfst hrs, funext fun i => congrArg (_ :: ·) (congrFun hsnd i)⟩

/-- Asking for one product. -/
theorem mul (x y : V.Shared) :
    Faithful V (fun a => ∃ z : V.Shared, z.value = x.value * y.value ∧ a = z.shares)
      (fun i => Circuit.mul (x.shares i) (y.shares i)) 1 := by
  change Faithful V _ (fun i => .wait (Requests.ofShared [(x, y)] [] i)
    fun products _ => Circuit.pure (products.headD 0)) ([(x, y)].length + 0)
  refine .wait (.inl (List.cons_ne_nil _ _)) fun products hproducts => ?_
  obtain ⟨z, zs, rfl, hz, hzs⟩ := List.map_eq_cons_iff.1 hproducts
  exact .done ⟨z, hz, rfl⟩

/-- Asking for one value. -/
theorem reveal (x : V.Shared) :
    Faithful V (fun a => a = fun _ => x.value) (fun i => Circuit.reveal (x.shares i)) 0 := by
  change Faithful V _ (fun i => .wait (Requests.ofShared [] [x] i)
    fun _ values => Circuit.pure (values.headD 0)) (([] : List (V.Shared × V.Shared)).length + 0)
  exact .wait (.inr (List.cons_ne_nil _ _)) fun _ _ => .done rfl

end Faithful

end Multiparty
