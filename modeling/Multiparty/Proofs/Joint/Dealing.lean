import Mathlib
import Multiparty.Setup
import Multiparty.Proofs.Interpolation
import Multiparty.Proofs.Joint.Multiplication

/-!
# What a dealer hands out

A plan is sound if what it deals of a secret, whatever the random elements are, is a valid sharing of
the secret. Then so is everything that a dealer with this plan hands out, and the triples of the
bundles that it deals are valid at all parties in the same order.

## Main definitions

* `Sharing.Dealt`: the shares of all parties as a list.
* `Sharing.SoundPlan`: plans that deal valid sharings.
* `Sharing.Stock`: everything that is dealt, and what a party gets of it.

## Main results

* `Sharing.SoundPlan.share`: what a dealer shares is a valid sharing.
* `Sharing.SoundPlan.exists_stock`: the bundles of all parties are made of one stock.
* `Sharing.SoundPlan.stocked_of_deal`: the bundles of all parties hold valid triples.
-/

namespace Multiparty

namespace WordSource

variable {G α β : Type}

/-- Draws keep what every single one of them keeps. -/
theorem invariant_replicate (inv : G → Prop) {draw : G → α × G}
    (hdraw : ∀ g, inv g → inv (draw g).2) (k : Nat) {g : G} (hg : inv g) :
    inv (replicate draw k g).2 := by
  induction k generalizing g with
  | zero => exact hg
  | succ k ih =>
    rw [replicate_succ]
    exact ih (hdraw g hg)

/-- Draws in sequence yield what every single one of them yields. `view` is what is drawn of an
item. -/
theorem exists_replicate (inv : G → Prop) {draw : G → α × G} (view : β → α) (P : β → Prop)
    (hdraw : ∀ g, inv g → inv (draw g).2 ∧ ∃ b, (draw g).1 = view b ∧ P b) (k : Nat) {g : G}
    (hg : inv g) :
    ∃ bs : List β, (replicate draw k g).1 = bs.map view ∧ bs.length = k ∧ ∀ b ∈ bs, P b := by
  induction k generalizing g with
  | zero => exact ⟨[], rfl, rfl, fun _ hb => (by cases hb)⟩
  | succ k ih =>
    obtain ⟨hnext, b, hb, hP⟩ := hdraw g hg
    obtain ⟨bs, hbs, hlen, hall⟩ := ih hnext
    refine ⟨b :: bs, ?_, by rw [List.length_cons, hlen], List.forall_mem_cons.2 ⟨hP, hall⟩⟩
    rw [replicate_succ, hb, hbs, List.map_cons]

end WordSource

namespace Sharing

variable {P G S R K : Type} [DealingPlan P S R K] [LinearShare S R K] [CodedRing R]
  [WordSource G] {n : Nat}

/-- The shares of all parties, in order, are a sharing of the value. -/
def Dealt (V : Sharing S n) (row : List S) (v : R) : Prop :=
  ∃ x : Fin n → S, row = List.ofFn x ∧ V.Valid x v

omit [DealingPlan P S R K] [WordSource G] in
/-- Rows of shares, as values together with their sharings. -/
theorem exists_shared_of_dealt {V : Sharing S n} {rows : List (List S)} {vs : List R}
    (h : List.Forall₂ V.Dealt rows vs) :
    ∃ xs : List V.Shared, (∀ i : Fin n, Bundle.column i rows = xs.map (·.shares i)) ∧
      vs = xs.map (·.value) := by
  induction h with
  | nil => exact ⟨[], fun _ => rfl, rfl⟩
  | cons hrow _ ih =>
    obtain ⟨x, rfl, hx⟩ := hrow
    obtain ⟨xs, hcolumn, rfl⟩ := ih
    refine ⟨⟨x, _, hx⟩ :: xs, fun i => ?_, rfl⟩
    rw [List.map_cons, ← hcolumn, Bundle.column, Bundle.column]
    exact List.filterMap_cons_some (by simp)

/-- A plan for all parties that deals valid sharings, whatever the random elements are. -/
structure SoundPlan (V : Sharing S n) (plan : P) : Prop where
  parties : DealingPlan.parties plan = n
  keys : (DealingPlan.keys plan).length = n
  deal : ∀ secret random, random.length = DealingPlan.demand plan →
    V.Dealt (DealingPlan.deal plan secret random) secret

namespace SoundPlan

variable {V : Sharing S n} {d : Dealer P G}

/-- What a dealer shares is a valid sharing. -/
theorem share (h : V.SoundPlan d.plan) (v : R) : V.Dealt (d.share v).1 v :=
  h.deal v _ (WordSource.length_replicate ..)

/-- The triple that a dealer deals is valid. -/
theorem dealTriple (h : V.SoundPlan d.plan) :
    ∃ t : Fin n → Triple S, (Bundle.dealTriple d).1 = List.ofFn t ∧ V.ValidTriple t := by
  let a : R × Dealer P G := d.randomValue
  let b : R × Dealer P G := a.2.randomValue
  let d₁ : Dealer P G := (b.2.share a.1).2
  let d₂ : Dealer P G := (d₁.share b.1).2
  obtain ⟨x, hx, hvalidA⟩ := h.share (d := b.2) a.1
  obtain ⟨y, hy, hvalidB⟩ := h.share (d := d₁) b.1
  obtain ⟨z, hz, hvalidC⟩ := h.share (d := d₂) (a.1 * b.1)
  refine ⟨fun i => ⟨x i, y i, z i⟩, ?_, a.1, b.1, hvalidA, hvalidB, hvalidC⟩
  change List.zipWith _ ((b.2.share a.1).1.zip (d₁.share b.1).1) (d₂.share (a.1 * b.1)).1 = _
  rw [hx, hy, hz]
  refine List.ext_getElem (by simp) fun i hi hi' => ?_
  simp

/-- The bit that a dealer deals is a valid sharing of zero or one. -/
theorem dealBit (h : V.SoundPlan d.plan) : ∃ x : V.Shared,
    (Bundle.dealBit d).1 = List.ofFn x.shares ∧ (x.value = 0 ∨ x.value = 1) := by
  let bit : R × Dealer P G := d.randomBit
  obtain ⟨x, hx, hvalid⟩ := h.share (d := bit.2) bit.1
  refine ⟨⟨x, bit.1, hvalid⟩, hx, ?_⟩
  change (if (WordSource.halfWord d.source).1 >>> 31 = 1 then (1 : R) else 0) = 0 ∨
    (if (WordSource.halfWord d.source).1 >>> 31 = 1 then (1 : R) else 0) = 1
  split
  · exact .inr rfl
  · exact .inl rfl

/-- The mask that a dealer deals is shared as a valid sharing. -/
theorem dealMask (h : V.SoundPlan d.plan) : ∃ x : V.Shared,
    (Bundle.dealMask d).1 = (x.value, List.ofFn x.shares) := by
  let mask : R × Dealer P G := d.randomValue
  obtain ⟨x, hx, hvalid⟩ := h.share (d := mask.2) mask.1
  exact ⟨⟨x, mask.1, hvalid⟩, congrArg (mask.1, ·) hx⟩

end SoundPlan

omit [DealingPlan P S R K] [LinearShare S R K] [CodedRing R] [WordSource G] in
theorem column_map_ofFn {α β : Type} (rows : List β) (f : β → Fin n → α) (i : Fin n) :
    Bundle.column i (rows.map fun row => List.ofFn (f row)) = rows.map (f · i) := by
  rw [Bundle.column, List.filterMap_map, ← List.filterMap_eq_map]
  refine List.filterMap_congr fun row _ => ?_
  simp

/-- Everything that is dealt to all parties, in the order in which it is dealt. -/
structure Stock (V : Sharing S n) where
  triples : List (Fin n → Triple S)
  bits : List V.Shared
  /-- The masks for the inputs of each party. -/
  masks : List (List V.Shared)

/-- As much as was asked for, and all of it valid. -/
structure Stock.Sound {V : Sharing S n} (stock : V.Stock) (counts : PreprocessingCounts) : Prop where
  length_triples : stock.triples.length = counts.triples
  triples : ∀ t ∈ stock.triples, V.ValidTriple t
  length_bits : stock.bits.length = counts.bits
  bits : ∀ x ∈ stock.bits, x.value = 0 ∨ x.value = 1
  owners : stock.masks.length = n
  length_masks : ∀ row ∈ stock.masks, row.length = counts.inputMasks

/-- What one party gets of everything that is dealt. -/
structure Stock.Holds {V : Sharing S n} (stock : V.Stock) (i : Fin n) (bundle : Bundle S R K) :
    Prop where
  party : bundle.party = i
  triples : bundle.triples = stock.triples.map (· i)
  bits : bundle.bits = stock.bits.map (·.shares i)
  inputMasks : bundle.inputMasks = stock.masks.map fun row => row.map (·.shares i)
  plainMasks : bundle.plainMasks = (stock.masks.getD i []).map (·.value)

namespace SoundPlan

variable {V : Sharing S n} {d : Dealer P G}

/-- The rows that a dealer draws for its bundles, one after the other, are those of one stock. -/
private theorem exists_rows (h : V.SoundPlan d.plan) (counts : PreprocessingCounts) :
    let triples := WordSource.replicate Bundle.dealTriple counts.triples d
    let bits := WordSource.replicate Bundle.dealBit counts.bits triples.2
    ∃ stock : V.Stock, stock.Sound counts ∧ triples.1 = stock.triples.map List.ofFn ∧
      bits.1 = stock.bits.map (fun x => List.ofFn x.shares) ∧
      (WordSource.replicate (WordSource.replicate Bundle.dealMask counts.inputMasks)
        (DealingPlan.parties d.plan) bits.2).1 =
          stock.masks.map fun row => row.map fun x => (x.value, List.ofFn x.shares) := by
  -- Every draw keeps the plan, so that what is drawn next is valid again.
  let keeps (d' : Dealer P G) : Prop := V.SoundPlan d'.plan
  have htriple (d' : Dealer P G) (h' : keeps d') : keeps (Bundle.dealTriple d').2 := h'
  have hbit (d' : Dealer P G) (h' : keeps d') : keeps (Bundle.dealBit d').2 := h'
  have hmask (d' : Dealer P G) (h' : keeps d') : keeps (Bundle.dealMask d').2 := h'
  have hafterTriples := WordSource.invariant_replicate keeps htriple counts.triples h
  have hafterBits := WordSource.invariant_replicate keeps hbit counts.bits hafterTriples
  have hrow (d' : Dealer P G) (h' : keeps d') :
      ∃ row : List V.Shared, (WordSource.replicate Bundle.dealMask counts.inputMasks d').1 =
        row.map (fun x => (x.value, List.ofFn x.shares)) ∧ row.length = counts.inputMasks := by
    obtain ⟨row, hrow, hlen, -⟩ := WordSource.exists_replicate keeps _ (fun _ => True)
      (fun d'' h'' => ⟨hmask d'' h'', h''.dealMask.imp fun _ hx => ⟨hx, trivial⟩⟩)
      counts.inputMasks h'
    exact ⟨row, hrow, hlen⟩
  obtain ⟨triples, htriples, hlenTriples, hvalid⟩ := WordSource.exists_replicate keeps List.ofFn
    V.ValidTriple (fun d' h' => ⟨htriple d' h', h'.dealTriple⟩) counts.triples h
  obtain ⟨bits, hbits, hlenBits, hzeroOne⟩ := WordSource.exists_replicate keeps _
    (fun x : V.Shared => x.value = 0 ∨ x.value = 1) (fun d' h' => ⟨hbit d' h', h'.dealBit⟩)
    counts.bits hafterTriples
  obtain ⟨masks, hmasks, howners, hlenMasks⟩ := WordSource.exists_replicate keeps _
    (fun row : List V.Shared => row.length = counts.inputMasks)
    (fun d' h' => ⟨WordSource.invariant_replicate keeps hmask counts.inputMasks h', hrow d' h'⟩)
    (DealingPlan.parties d.plan) hafterBits
  exact ⟨⟨triples, bits, masks⟩, ⟨hlenTriples, hvalid, hlenBits, hzeroOne, howners.trans h.parties,
    hlenMasks⟩, htriples, hbits, hmasks⟩

/-- The bundles that a dealer deals are made of one stock, and every party gets its own key
material. -/
theorem exists_stock (h : V.SoundPlan d.plan) (counts : PreprocessingCounts) :
    ∃ (stock : V.Stock) (bundle : Fin n → Bundle S R K), stock.Sound counts ∧
      (Bundle.deal counts d).1 = List.ofFn bundle ∧ (∀ i, stock.Holds i (bundle i)) ∧
      DealingPlan.keys d.plan = List.ofFn fun i => (bundle i).key := by
  obtain ⟨stock, hsound, htriples, hbits, hmasks⟩ := h.exists_rows counts
  obtain ⟨keys, hkeys⟩ := exists_eq_ofFn h.keys
  let bundle (i : Fin n) : Bundle S R K :=
    { scheme := LinearShare.scheme S
      parties := DealingPlan.parties d.plan
      party := i
      key := keys i
      triples := stock.triples.map (· i)
      bits := stock.bits.map (·.shares i)
      inputMasks := stock.masks.map fun row => row.map (·.shares i)
      plainMasks := (stock.masks.getD i []).map (·.value) }
  refine ⟨stock, bundle, hsound, ?_, fun i => ⟨rfl, rfl, rfl, rfl, rfl⟩, hkeys⟩
  refine List.ext_getElem (by simp [Bundle.deal, h.keys]) fun i _ hi => ?_
  rw [List.length_ofFn] at hi
  have hmaskColumn (row : List V.Shared) :
      Bundle.column i ((row.map fun x => (x.value, List.ofFn x.shares)).map (·.2)) =
        row.map (·.shares ⟨i, hi⟩) := by
    rw [List.map_map]
    exact column_map_ofFn row (·.shares) ⟨i, hi⟩
  simp only [Bundle.deal, List.getElem_mapIdx, List.getElem_ofFn, bundle, hkeys, htriples, hbits,
    hmasks, Bundle.mk.injEq, true_and]
  refine ⟨column_map_ofFn stock.triples id ⟨i, hi⟩, column_map_ofFn stock.bits (·.shares) ⟨i, hi⟩,
    ?_, ?_⟩
  · rw [List.map_map]
    exact List.map_congr_left fun row _ => hmaskColumn row
  · rw [← List.map_nil, List.getD_map, List.map_map]
    rfl

/-- The bundles that a dealer deals: every party gets its own key material, and all of them hold
valid triples in the same order. -/
theorem stocked_of_deal (h : V.SoundPlan d.plan) {counts : PreprocessingCounts}
    {bundle : Fin n → Bundle S R K} (hdeal : (Bundle.deal counts d).1 = List.ofFn bundle) :
    V.Stocked (fun i => Supply.ofBundle (bundle i)) counts.triples ∧
      (∀ i, (bundle i).party = i) ∧ DealingPlan.keys d.plan = List.ofFn fun i => (bundle i).key := by
  obtain ⟨stock, dealt, hsound, hdealt, hholds, hkeys⟩ := h.exists_stock counts
  obtain rfl : bundle = dealt := List.ofFn_injective (hdeal.symm.trans hdealt)
  refine ⟨⟨stock.triples.reverse, ?_, ?_, fun i => ?_⟩, fun i => (hholds i).party, hkeys⟩
  · rw [List.length_reverse, hsound.length_triples]
  · exact fun t ht => hsound.triples t (List.mem_reverse.1 ht)
  · rw [List.map_reverse, ← (hholds i).triples]
    rfl

end SoundPlan

end Sharing

namespace Bundle

variable {P S R K G : Type} [LinearShare S R K] [CodedRing R] {n parties : Nat}
  {counts : PreprocessingCounts}

/-- Parties whose bundles fit into memory are so few that they can send to each other. -/
theorem isWord_of_areAddressable (h : areAddressable S parties counts = true) :
    isWord (parties + parties) = true := by
  have hsize : parties * headerWidth S < wordSize := by
    rw [areAddressable, Bool.or_eq_true, decide_eq_true_eq, Bool.and_eq_true] at h
    rcases h with rfl | ⟨h, -⟩
    · rw [Nat.zero_mul]
      exact Nat.zero_lt_succ _
    · exact (of_decide_eq_true h).trans (by decide)
  have htwice : parties + parties ≤ parties * headerWidth S := by
    rw [← Nat.mul_two]
    exact Nat.mul_le_mul_left parties (by rw [headerWidth]; omega)
  exact decide_eq_true (htwice.trans_lt hsize)

variable [DealingPlan P S R K] [WordSource G]

/-- Dealing bundles leaves the plan as it is. -/
theorem plan_deal (counts : PreprocessingCounts) (d : Dealer P G) :
    (deal counts d : List (Bundle S R K) × Dealer P G).2.plan = d.plan := by
  let keeps (d' : Dealer P G) : Prop := d'.plan = d.plan
  have htriple (d' : Dealer P G) (h : keeps d') : keeps (dealTriple d').2 := h
  have hbit (d' : Dealer P G) (h : keeps d') : keeps (dealBit d').2 := h
  have hmask (d' : Dealer P G) (h : keeps d') : keeps (dealMask d').2 := h
  have htriples := WordSource.invariant_replicate keeps htriple counts.triples rfl
  have hbits := WordSource.invariant_replicate keeps hbit counts.bits htriples
  exact WordSource.invariant_replicate keeps
    (fun _ h => WordSource.invariant_replicate keeps hmask counts.inputMasks h)
    (DealingPlan.parties d.plan) hbits

/-- What is known of bundles that have been dealt to all parties. -/
theorem of_tryDeal {d dealer : Dealer P G} {bundle : Fin n → Bundle S R K}
    (h : tryDeal counts d = .ok (List.ofFn bundle, dealer)) :
    dealer.plan = d.plan ∧ (DealingPlan.keys d.plan).length = n ∧
      areAddressable S (DealingPlan.parties d.plan) counts = true ∧
      (deal counts d).1 = List.ofFn bundle := by
  rw [tryDeal] at h
  split at h
  · next haddressable =>
    obtain ⟨hbundle, hdealer⟩ := Prod.ext_iff.1 (Except.ok.inj h)
    dsimp only at hbundle hdealer
    have hlen := congrArg List.length hbundle
    dsimp only [deal] at hlen
    rw [List.length_mapIdx, List.length_ofFn] at hlen
    exact ⟨hdealer ▸ plan_deal counts d, hlen, haddressable, hbundle⟩
  · cases h

end Bundle

end Multiparty
