import Mathlib
import Multiparty.Processor
import Multiparty.Proofs.Codec
import Multiparty.Proofs.Preprocessing.Lockstep

/-!
# Inputs of all parties

An owner masks an input by the next mask that is left to it, before anything is sent, and everybody
else takes a mask of that owner for each difference that it has broadcast, one owner after the
other. So the parties ask for the masks of different owners in different orders. But each of them
takes the masks of one owner in the order in which that owner has used them, and the sum of mask and
difference is a sharing of the input.

## Main definitions

* `Sharing.Stock.masksLeft`: the masks of an owner that have not been used.
* `Processor.serving`: a processor after its supply has served requests.
* `Processor.inputDifferences`, `Processor.inputSharings`: what an owner broadcasts, and the
  sharings that the parties obtain.
* `Processor.Provided`: processors of all parties that have taken equally many masks of every owner.

## Main results

* `Processor.forEach_takeMask`: masks are taken in the order in which they are left.
* `Processor.forEach_sharesOfOwner`: how a party goes through the owners.
* `Processor.Provided.input`, `Processor.Provided.inputAll`: one call of all parties, and any number
  of calls.
-/

namespace Multiparty

open Multiparty.Action (Succeed)

/-! ### Masks that are left -/

namespace Supply

variable {S R K : Type}

/-- What is served at a request is what the supply has given. -/
theorem inputMask_of_serve {s s' : Supply S R K} {owner : Nat} {x : S} {plain : Option R}
    (h : s.serve (.inputMask owner) = (.ok (.inputMask x plain), s')) :
    s.inputMask owner = (.ok (x, plain), s') := by
  rw [serve] at h
  obtain ⟨hserved, hleft⟩ := Prod.mk.inj h
  rcases hresult : s.inputMask owner with ⟨e | mask, s''⟩ <;> rw [hresult] at hserved hleft
  · cases hserved
  · cases hserved
    exact congrArg _ hleft

end Supply

namespace Sharing.Stock

variable {S R K : Type} [LinearShare S R K] [CodedRing R] {n : Nat} {V : Sharing S n}
  {stock : V.Stock} {requests : List MaterialRequest} {i : Fin n} {s : Supply S R K}

/-- The masks of an owner that are left when some have been used, the next one first. -/
def masksLeft (stock : V.Stock) (used owner : Nat) : List V.Shared :=
  (stock.masks.getD owner []).reverse.drop used

theorem masksLeft_succ {used owner : Nat} {x : V.Shared} {rest : List V.Shared}
    (h : stock.masksLeft used owner = x :: rest) : stock.masksLeft (used + 1) owner = rest := by
  rw [masksLeft] at h ⊢
  rw [← List.drop_drop, h]
  rfl

/-- There are as many masks of every owner as were asked for. -/
theorem Sound.length_masks_getD {counts : PreprocessingCounts} (h : stock.Sound counts)
    (owner : Fin n) : (stock.masks.getD owner []).length = counts.inputMasks := by
  have howner : (owner : Nat) < stock.masks.length := owner.isLt.trans_eq h.owners.symm
  rw [List.getD_eq_getElem _ _ howner, h.length_masks _ (List.getElem_mem howner)]

theorem Sound.length_masksLeft {counts : PreprocessingCounts} (h : stock.Sound counts) (used : Nat)
    (owner : Fin n) : (stock.masksLeft used owner).length = counts.inputMasks - used := by
  rw [masksLeft, List.length_drop, List.length_reverse, h.length_masks_getD]

/-- A mask that is left is served, with its plain value to the owner. -/
theorem Left.inputMask_eq (h : stock.Left requests i s) {owner : Nat} {x : V.Shared}
    {rest : List V.Shared}
    (hmasks : stock.masksLeft (requests.count (.inputMask owner)) owner = x :: rest) :
    s.inputMask owner = (.ok (x.shares i, if owner = i then some x.value else none),
      s.serveAll [.inputMask owner]) := by
  refine Supply.inputMask_of_serve (Prod.ext ?_ rfl)
  rw [masksLeft] at hmasks
  rw [(h.serve_inputMask owner).answer, answer]
  cases hrow : stock.masks[owner]? with
  | none =>
    rw [List.getD_eq_getElem?_getD, hrow] at hmasks
    simp at hmasks
  | some row =>
    rw [List.getD_eq_getElem?_getD, hrow, Option.getD_some] at hmasks
    have hnext : row.reverse[requests.count (.inputMask owner)]? = some x := by
      rw [← List.head?_drop, hmasks, List.head?_cons]
    dsimp only
    rw [hnext]

end Sharing.Stock

/-! ### The part of one party -/

namespace Processor

variable {O S R K : Type}

/-- The processor after its supply has served requests. -/
def serving (p : Processor O S R K) (requests : List MaterialRequest) : Processor O S R K :=
  { p with multiplier := { p.multiplier with
      supply := p.multiplier.supply.serveAll requests } }

@[simp] theorem opener_serving (p : Processor O S R K) (requests : List MaterialRequest) :
    (p.serving requests).opener = p.opener := rfl

@[simp] theorem supply_serving (p : Processor O S R K) (requests : List MaterialRequest) :
    (p.serving requests).multiplier.supply = p.multiplier.supply.serveAll requests := rfl

@[simp] theorem serving_nil (p : Processor O S R K) : p.serving [] = p := rfl

theorem serving_serving (p : Processor O S R K) (requests more : List MaterialRequest) :
    (p.serving requests).serving more = p.serving (requests ++ more) := by
  simp only [serving, Supply.serveAll_append]

section Masks

variable {α β : Type} [LinearShare S R K] [CodedRing R] {n : Nat} {V : Sharing S n}
  {stock : V.Stock} {i : Fin n} {owner : Nat} {f : α → Attempt (Processor O S R K) β}
  {g : O → V.Shared → α → β}

/-- Attempts that each take one mask of an owner take the masks in the order in which they are
left. -/
theorem forEach_takeMask
    (hf : ∀ a (p : Processor O S R K) (x : V.Shared) s, p.multiplier.supply.inputMask owner =
        (.ok (x.shares i, if owner = i then some x.value else none), s) →
      f a p = (.ok (g p.opener x a),
        { p with multiplier := { p.multiplier with supply := s } }))
    {requests : List MaterialRequest} {p : Processor O S R K}
    (h : stock.Left requests i p.multiplier.supply) (as : List α)
    (hleft : as.length ≤ (stock.masksLeft (requests.count (.inputMask owner)) owner).length) :
    Attempt.forEach f as p =
      (.ok (List.zipWith (g p.opener)
          (stock.masksLeft (requests.count (.inputMask owner)) owner) as),
        p.serving (List.replicate as.length (.inputMask owner))) := by
  induction as generalizing p requests with
  | nil => simp [Attempt.forEach, Attempt.forEachOnto]
  | cons a as ih =>
    obtain ⟨x, rest, hmasks⟩ := List.exists_cons_of_length_pos (Nat.zero_lt_of_lt hleft)
    have hfirst : f a p = (.ok (g p.opener x a), p.serving [.inputMask owner]) :=
      hf a p x _ (h.inputMask_eq hmasks)
    have hcount : (requests ++ [MaterialRequest.inputMask owner]).count (.inputMask owner) =
        requests.count (.inputMask owner) + 1 := by simp
    have hnext := Sharing.Stock.masksLeft_succ hmasks
    have hrest : as.length ≤ rest.length := by
      rw [hmasks] at hleft
      exact Nat.le_of_succ_le_succ hleft
    have hothers := ih (p := p.serving [.inputMask owner]) (h.serveAll_append [.inputMask owner])
    rw [hcount, hnext, serving_serving] at hothers
    replace hothers := hothers hrest
    rw [Attempt.forEach_cons_of_ok hfirst hothers, hmasks]
    rfl

end Masks

section Parties

variable [Opener O S R] [LinearShare S R K] [CodedRing R] {n : Nat} {V : Sharing S n}
  {stock : V.Stock} {i : Fin n} {requests : List MaterialRequest} {p : Processor O S R K}

/-- The owner masks its inputs by the masks that are left to it. -/
theorem forEach_maskInput (h : stock.Left requests i p.multiplier.supply) (values : List R)
    (hleft : values.length ≤ (stock.masksLeft (requests.count (.inputMask i)) i).length) :
    Attempt.forEach (maskInput i) values p =
      (.ok (List.zipWith
          (fun x v => (x.shares i + Opener.constant p.opener (v - x.value), v - x.value))
          (stock.masksLeft (requests.count (.inputMask i)) i) values),
        p.serving (List.replicate values.length (.inputMask i))) := by
  refine forEach_takeMask
    (g := fun o x v => (x.shares i + Opener.constant o (v - x.value), v - x.value))
    (fun v p x s hs => ?_) h values hleft
  rw [if_pos rfl] at hs
  simp only [maskInput, trySupply, tryMultiplier, Multiplier.ofSupply, Attempt.zoom, hs]

/-- The others take the same masks for the differences. -/
theorem forEach_unmaskInput {owner : Fin n} (hne : owner ≠ i)
    (h : stock.Left requests i p.multiplier.supply) (deltas : List R)
    (hleft : deltas.length ≤ (stock.masksLeft (requests.count (.inputMask owner)) owner).length) :
    Attempt.forEach (unmaskInput owner) deltas p =
      (.ok (List.zipWith (fun x delta => x.shares i + Opener.constant p.opener delta)
          (stock.masksLeft (requests.count (.inputMask owner)) owner) deltas),
        p.serving (List.replicate deltas.length (.inputMask owner))) := by
  refine forEach_takeMask (g := fun o x delta => x.shares i + Opener.constant o delta)
    (fun delta p x s hs => ?_) h deltas hleft
  rw [if_neg (Fin.val_ne_of_ne hne)] at hs
  simp only [unmaskInput, trySupply, tryMultiplier, Multiplier.ofSupply, Attempt.zoom, hs]

omit [Opener O S R] [LinearShare S R K] [CodedRing R] in
private theorem count_replicate_inputMask (k : Nat) (taken owner : Fin n) :
    (List.replicate k (MaterialRequest.inputMask taken)).count (.inputMask owner) =
      if owner = taken then k else 0 := by
  rw [List.count_replicate]
  refine if_congr ?_ rfl rfl
  rw [beq_iff_eq, MaterialRequest.inputMask.injEq, eq_comm, Fin.ext_iff]

/-- A party goes through the owners, keeps its own shares and takes the masks of the others. -/
theorem forEach_sharesOfOwner [LawfulRing R] {used : Fin n → Nat} {deltas : Fin n → List R}
    (results : Fin n → List S) {owners : List (Fin n)} (hnodup : owners.Nodup)
    (hresults : ∀ owner, owner ≠ i → results owner =
      List.zipWith (fun x delta => x.shares i + Opener.constant p.opener delta)
        (stock.masksLeft (used owner) owner) (deltas owner))
    (hleft : ∀ owner, (deltas owner).length ≤ (stock.masksLeft (used owner) owner).length)
    (h : stock.Left requests i p.multiplier.supply)
    (hused : ∀ owner ∈ owners, owner ≠ i → requests.count (.inputMask owner) = used owner) :
    ∃ more, Attempt.forEach (fun q : Bytes × Nat => sharesOfOwner i (results i) q.1 q.2)
        (owners.map fun owner => (encodeValues (deltas owner), (owner : Nat))) p =
          (.ok (owners.map results), p.serving more) ∧
      ∀ owner : Fin n, more.count (.inputMask owner) =
        if owner ∈ owners ∧ owner ≠ i then (deltas owner).length else 0 := by
  induction owners generalizing p requests with
  | nil => exact ⟨[], rfl, fun owner => by simp⟩
  | cons first owners ih =>
    obtain ⟨hfirst, hnodup⟩ := List.nodup_cons.1 hnodup
    by_cases hi : first = i
    · subst hi
      obtain ⟨more, hothers, hcount⟩ := ih hnodup hresults h fun owner ho =>
        hused owner (List.mem_cons_of_mem _ ho)
      have hstep : sharesOfOwner first (results first) (encodeValues (deltas first)) first p =
          (.ok (results first), p) := by
        rw [sharesOfOwner, if_pos rfl]
      refine ⟨more, Attempt.forEach_cons_of_ok hstep hothers,
        fun owner => (hcount owner).trans (if_congr ?_ rfl rfl)⟩
      · rw [List.mem_cons, or_and_right]
        exact ⟨.inr, fun hor => hor.resolve_left fun hand => hand.2 hand.1⟩
    · have hfirstUsed := hused first List.mem_cons_self hi
      have htaken := forEach_unmaskInput hi h (deltas first) (hfirstUsed ▸ hleft first)
      rw [hfirstUsed, ← hresults first hi] at htaken
      have hstep : sharesOfOwner i (results i) (encodeValues (deltas first)) first p =
          (.ok (results first),
            p.serving (List.replicate (deltas first).length (.inputMask first))) := by
        rw [sharesOfOwner, if_neg (Fin.val_ne_of_ne hi), decodeValues_encodeValues_none]
        exact htaken
      obtain ⟨more, hothers, hcount⟩ := ih (p := p.serving _) hnodup hresults
        (h.serveAll_append (List.replicate (deltas first).length (.inputMask first)))
        fun owner ho hne => by
          have hother : owner ≠ first := fun heq => hfirst (heq ▸ ho)
          rw [List.count_append, count_replicate_inputMask, if_neg hother, Nat.add_zero]
          exact hused owner (List.mem_cons_of_mem _ ho) hne
      rw [serving_serving] at hothers
      refine ⟨_, Attempt.forEach_cons_of_ok hstep hothers, fun owner => ?_⟩
      rw [List.count_append, count_replicate_inputMask, hcount]
      by_cases howner : owner = first
      · subst howner
        simp [hfirst, hi]
      · simp [howner]

end Parties

/-! ### All parties -/

section Joint

variable [Opener O S R] [LinearShare S R K] [CodedRing R] {n : Nat} {V : Sharing S n}
  {stock : V.Stock} {used : Fin n → Nat} {p : Fin n → Processor O S R K}

/-- The processors of all parties, which have taken the same number of masks of every owner. -/
structure Provided (stock : V.Stock) (used : Fin n → Nat) (p : Fin n → Processor O S R K) :
    Prop where
  constant : ∀ v, V.Valid (fun i => Opener.constant (p i).opener v) v
  left : ∀ i, ∃ requests, stock.Left requests i (p i).multiplier.supply ∧
    ∀ owner : Fin n, requests.count (.inputMask owner) = used owner

theorem Provided.serving (h : Provided stock used p) {more : Fin n → List MaterialRequest}
    {taken : Fin n → Nat}
    (hmore : ∀ i, ∀ owner : Fin n, (more i).count (.inputMask owner) = taken owner) :
    Provided stock (fun owner => used owner + taken owner) fun i => (p i).serving (more i) where
  constant := h.constant
  left i := by
    obtain ⟨requests, hleft, hused⟩ := h.left i
    refine ⟨requests ++ more i, hleft.serveAll_append _, fun owner => ?_⟩
    rw [List.count_append, hused, hmore]

/-- What an owner broadcasts: its inputs less the values of its masks. -/
def inputDifferences (masks : List V.Shared) (values : List R) : List R :=
  List.zipWith (fun x v => v - x.value) masks values

theorem length_inputDifferences {masks : List V.Shared} {values : List R}
    (hleft : values.length ≤ masks.length) :
    (inputDifferences masks values).length = values.length := by
  rw [inputDifferences, List.length_zipWith, Nat.min_eq_right hleft]

variable [LawfulRing R] (hconstant : ∀ v, V.Valid (fun i => Opener.constant (p i).opener v) v)

/-- The sharings of the inputs of an owner: the masks with the differences to them added. -/
def inputSharings (masks : List V.Shared) (values : List R) : List V.Shared :=
  List.zipWith (fun x v =>
    { shares := fun i => x.shares i + Opener.constant (p i).opener (v - x.value)
      value := v
      valid := by
        have hvalid := V.add x.valid (hconstant (v - x.value))
        rwa [add_sub_cancel] at hvalid }) masks values

theorem map_value_inputSharings {masks : List V.Shared} {values : List R}
    (hleft : values.length ≤ masks.length) :
    (inputSharings hconstant masks values).map (·.value) = values := by
  rw [inputSharings, List.map_zipWith]
  calc List.zipWith (fun _ v => v) masks values
      = (masks.zip values).map (·.2) := by rw [List.zip, List.map_zipWith]
    _ = values := List.map_snd_zip hleft

/-- A party that knows the differences has its shares of the inputs. -/
theorem map_shares_inputSharings (masks : List V.Shared) (values : List R) (i : Fin n) :
    (inputSharings hconstant masks values).map (·.shares i) =
      List.zipWith (fun x delta => x.shares i + Opener.constant (p i).opener delta) masks
        (inputDifferences masks values) := by
  induction masks generalizing values with
  | nil => rfl
  | cons x masks ih =>
    cases values with
    | nil => rfl
    | cons v values => exact congrArg _ (ih values)

/-- What an owner has masked: its own shares of its inputs, and the differences to broadcast. -/
private theorem exists_masked {i : Fin n} {requests : List MaterialRequest} {taken : Nat}
    (h : stock.Left requests i (p i).multiplier.supply)
    (htaken : requests.count (.inputMask i) = taken) (values : List R)
    (hleft : values.length ≤ (stock.masksLeft taken i).length) :
    ∃ masked, Attempt.forEach (maskInput i) values (p i) =
        (.ok masked, (p i).serving (List.replicate values.length (.inputMask i))) ∧
      masked.map (·.1) =
        (inputSharings hconstant (stock.masksLeft taken i) values).map (·.shares i) ∧
      masked.map (·.2) = inputDifferences (stock.masksLeft taken i) values := by
  subst htaken
  refine ⟨_, forEach_maskInput h values hleft, ?_, ?_⟩
  · rw [inputSharings, List.map_zipWith, List.map_zipWith]
  · rw [inputDifferences, List.map_zipWith]

/-- All parties share their inputs. They take the same masks, each in an order of its own, and end
with their shares of the inputs of all owners. -/
theorem Provided.input (h : Provided stock used p) (inputs : Fin n → List R)
    (hleft : ∀ owner, (inputs owner).length ≤ (stock.masksLeft (used owner) owner).length) :
    Succeed (fun i => (Processor.input (inputs i) : Action (Processor O S R K) _)) p fun p' a =>
      ∃ (more : Fin n → List MaterialRequest) (xs : Fin n → List V.Shared),
        p' = (fun i => (p i).serving (more i)) ∧
        (∀ i, ∀ owner : Fin n, (more i).count (.inputMask owner) = (inputs owner).length) ∧
        (∀ owner, (xs owner).map (·.value) = inputs owner) ∧
        a = fun i => List.ofFn fun owner => (xs owner).map (·.shares i) := by
  choose requests hrequests hused using h.left
  let masks (owner : Fin n) : List V.Shared := stock.masksLeft (used owner) owner
  let deltas (owner : Fin n) : List R := inputDifferences (masks owner) (inputs owner)
  let xs (owner : Fin n) : List V.Shared := inputSharings h.constant (masks owner) (inputs owner)
  have hdeltas (owner : Fin n) : (deltas owner).length = (inputs owner).length :=
    length_inputDifferences (hleft owner)
  -- before the broadcast every party takes its own masks
  have hmasked (i : Fin n) : ∃ masked, Attempt.forEach (maskInput i) (inputs i) (p i) =
        (.ok masked, (p i).serving (List.replicate (inputs i).length (.inputMask i))) ∧
      masked.map (·.1) = (xs i).map (·.shares i) ∧ masked.map (·.2) = deltas i :=
    exists_masked h.constant (hrequests i) (hused i i) (inputs i) (hleft i)
  choose masked hmasked hown hmaskedDeltas using hmasked
  have howners : (List.ofFn fun owner => encodeValues (deltas owner)).zipIdx =
      (List.finRange n).map fun owner => (encodeValues (deltas owner), (owner : Nat)) :=
    List.ext_getElem (by simp) (by simp)
  -- after it the masks of the others, of which it has not taken any yet
  have hcount (i owner : Fin n) (hne : owner ≠ i) : (requests i ++ List.replicate (inputs i).length
      (MaterialRequest.inputMask i)).count (.inputMask owner) = used owner := by
    rw [List.count_append, count_replicate_inputMask, if_neg hne, Nat.add_zero, hused]
  choose more hmore hmoreCount using fun i : Fin n => forEach_sharesOfOwner
    (p := (p i).serving (List.replicate (inputs i).length (.inputMask i)))
    (fun owner => (xs owner).map (·.shares i)) (List.nodup_finRange n)
    (fun owner _ => map_shares_inputSharings h.constant (masks owner) (inputs owner) i)
    (fun owner => (hdeltas owner).trans_le (hleft owner)) ((hrequests i).serveAll_append _)
    fun owner _ => hcount i owner
  refine Succeed.seat_bind (Succeed.ofAttempt_bind hmasked (Succeed.broadcast_bind _ ?_))
  simp only [hown, hmaskedDeltas, howners]
  refine Succeed.ofAttempt hmore
    ⟨fun i => List.replicate (inputs i).length (.inputMask i) ++ more i, xs,
      funext fun i => serving_serving .., fun i owner => ?_,
      fun owner => map_value_inputSharings h.constant (hleft owner), ?_⟩
  · rw [List.count_append, count_replicate_inputMask, hmoreCount, hdeltas]
    by_cases howner : owner = i
    · subst howner
      simp
    · simp [howner]
  · simp only [List.ofFn_eq_map]

/-- Shares private inputs in several calls, one after another. -/
def inputAll : List (List R) → Action (Processor O S R K) (List (List (List S)))
  | [] => pure []
  | values :: batches => do
    let shares ← Processor.input values
    let others ← inputAll batches
    pure (shares :: others)

/-- The number of inputs of an owner in calls in sequence. -/
def inputCount (batches : List (Fin n → List R)) (owner : Fin n) : Nat :=
  (batches.map fun inputs => (inputs owner).length).sum

omit [CodedRing R] [LawfulRing R] in
@[simp] theorem inputCount_cons (inputs : Fin n → List R) (batches : List (Fin n → List R))
    (owner : Fin n) :
    inputCount (inputs :: batches) owner = (inputs owner).length + inputCount batches owner := by
  rw [inputCount, List.map_cons, List.sum_cons, inputCount]

/-- The same for calls in sequence, as long as there are masks. -/
theorem Provided.inputAll (h : Provided stock used p) (batches : List (Fin n → List R))
    (hleft : ∀ owner : Fin n,
      used owner + inputCount batches owner ≤ (stock.masks.getD owner []).length) :
    Succeed (fun i => (Processor.inputAll (batches.map (· i)) : Action (Processor O S R K) _)) p
      fun p' a => ∃ (more : Fin n → List MaterialRequest) (xs : List (Fin n → List V.Shared)),
        p' = (fun i => (p i).serving (more i)) ∧
        (∀ i, ∀ owner : Fin n, (more i).count (.inputMask owner) = inputCount batches owner) ∧
        xs.map (fun x owner => (x owner).map (·.value)) = batches ∧
        a = fun i => xs.map fun x => List.ofFn fun owner => (x owner).map (·.shares i) := by
  induction batches generalizing used p with
  | nil => exact Succeed.pure ⟨fun _ => [], [], rfl, fun _ _ => rfl, rfl, rfl⟩
  | cons inputs batches ih =>
    simp only [inputCount_cons] at hleft
    refine Succeed.bind (h.input inputs fun owner => ?_) ?_
    · have howner := hleft owner
      rw [Sharing.Stock.masksLeft, List.length_drop, List.length_reverse]
      omega
    rintro _ _ ⟨more, x, rfl, hmore, hx, rfl⟩
    refine Succeed.bind (ih (h.serving hmore) fun owner => ?_) ?_
    · rw [Nat.add_assoc]
      exact hleft owner
    rintro _ _ ⟨more', xs, rfl, hmore', hxs, rfl⟩
    refine Succeed.pure ⟨fun i => more i ++ more' i, x :: xs, funext fun i => serving_serving ..,
      fun i owner => ?_, ?_, rfl⟩
    · rw [List.count_append, hmore, hmore', inputCount_cons]
    · rw [List.map_cons, hxs, funext hx]

end Joint

end Processor

end Multiparty
