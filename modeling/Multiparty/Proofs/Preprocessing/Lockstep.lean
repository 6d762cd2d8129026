import Mathlib
import Multiparty.Proofs.Joint.Plans
import Multiparty.Proofs.Ring.Mersenne
import Multiparty.Suite

/-!
# The supplies of all parties stay in step

Everything that is dealt is dealt to all parties at once, and every party takes its part of it from
stacks of its own. As long as all parties make the same requests in the same order, their stacks
stand equally high, so that every request is answered with the parts of one item, or refused at all
parties alike. The plain masks of a party form a stack that moves only with requests for its own
masks; it stands as high as the stack of its shares of them.

## Main definitions

* `MaterialRequest`, `Served`: a request for one item and what may be served.
* `Supply.serve`, `Supply.serveAll`: requests of any kind to the supply of one party.
* `Supply.remainingMasks`: how many masks of an owner are left.
* `Sharing.Stock.answer`: how a request is answered, read off everything that was dealt.
* `Sharing.Stock.Left`: what a party has left after some requests.
* `Sharing.ServedAlike`: how all parties are answered.
* `Suite.Plans`: the dealing plans of the schemes.

## Main results

* `Sharing.Stock.Left.serve`: a request is answered from the stock.
* `Sharing.Stock.Left.serveAll`: so are any requests in sequence.
* `Suite.Plans.served_alike`: supplies stay in step.
-/

namespace Multiparty

/-- A request for one item. -/
inductive MaterialRequest where
  | triple
  | bit
  /-- A mask for an input of `owner`. -/
  | inputMask (owner : Nat)
  deriving DecidableEq

/-- An item that is served to one party. -/
inductive Served (S R : Type) where
  | triple (t : Triple S)
  | bit (x : S)
  /-- A share of a mask, with its plain value for the owner. -/
  | inputMask (x : S) (plain : Option R)
  deriving DecidableEq

namespace Supply

variable {S R K : Type}

/-- The answer to a request. -/
def serve (s : Supply S R K) :
    MaterialRequest → Except ProtocolError (Served S R) × Supply S R K
  | .triple => (s.triple.1.map .triple, s.triple.2)
  | .bit => (s.bit.1.map .bit, s.bit.2)
  | .inputMask owner =>
    ((s.inputMask owner).1.map fun mask => .inputMask mask.1 mask.2, (s.inputMask owner).2)

section Serve

variable {s : Supply S R K} {owner : Nat} {x : S} {rest : List S}

theorem serve_triple_of_cons {t : Triple S} {rest : List (Triple S)} (h : s.triples = t :: rest) :
    s.serve .triple = (.ok (.triple t), { s with triples := rest }) := by
  rw [serve, triple, h]
  rfl

theorem serve_triple_of_nil (h : s.triples = []) :
    s.serve .triple = (.error (.insufficient .triple), s) := by
  rw [serve, triple, h]
  rfl

theorem serve_bit_of_cons (h : s.bits = x :: rest) :
    s.serve .bit = (.ok (.bit x), { s with bits := rest }) := by
  rw [serve, bit, h]
  rfl

theorem serve_bit_of_nil (h : s.bits = []) :
    s.serve .bit = (.error (.insufficient .bit), s) := by
  rw [serve, bit, h]
  rfl

theorem serve_inputMask_of_none (h : s.inputMasks[owner]? = none) :
    s.serve (.inputMask owner) = (.error (.invalidParameters (.noInputMasks owner)), s) := by
  rw [serve, inputMask, h]
  rfl

theorem serve_inputMask_of_nil (h : s.inputMasks[owner]? = some []) :
    s.serve (.inputMask owner) = (.error (.insufficient .inputMask), s) := by
  rw [serve, inputMask, h]
  rfl

theorem serve_inputMask_of_ne (h : s.inputMasks[owner]? = some (x :: rest))
    (howner : owner ≠ s.party) :
    s.serve (.inputMask owner) =
      (.ok (.inputMask x none), { s with inputMasks := s.inputMasks.set owner rest }) := by
  rw [serve, inputMask, h]
  dsimp only
  rw [if_neg howner]
  rfl

theorem serve_inputMask_of_eq (h : s.inputMasks[owner]? = some (x :: rest))
    (howner : owner = s.party) {m : R} {plains : List R} (hplain : s.plainMasks = m :: plains) :
    s.serve (.inputMask owner) = (.ok (.inputMask x (some m)),
      { s with inputMasks := s.inputMasks.set owner rest, plainMasks := plains }) := by
  rw [serve, inputMask, h]
  dsimp only
  rw [if_pos howner, hplain]
  rfl

end Serve

/-- The number of masks of an owner that are left. -/
def remainingMasks (s : Supply S R K) (owner : Nat) : Nat := (s.inputMasks.getD owner []).length

/-- What is left after requests in sequence, whether they were fulfilled or not. -/
def serveAll (s : Supply S R K) (requests : List MaterialRequest) : Supply S R K :=
  requests.foldl (fun s request => (s.serve request).2) s

theorem serveAll_concat (s : Supply S R K) (requests : List MaterialRequest)
    (request : MaterialRequest) :
    s.serveAll (requests ++ [request]) = ((s.serveAll requests).serve request).2 := by
  rw [serveAll, List.foldl_concat, serveAll]

theorem serveAll_append (s : Supply S R K) (requests more : List MaterialRequest) :
    s.serveAll (requests ++ more) = (s.serveAll requests).serveAll more := List.foldl_append ..

end Supply

namespace Sharing

variable {S R K : Type} [LinearShare S R K] [CodedRing R] {n : Nat} {V : Sharing S n}

namespace Stock

/-- How a party is answered after `k` equal requests: items are served in the opposite order to
that in which they were dealt. -/
def answer (stock : V.Stock) (k : Nat) (i : Fin n) :
    MaterialRequest → Except ProtocolError (Served S R)
  | .triple =>
    match stock.triples.reverse[k]? with
    | some t => .ok (.triple (t i))
    | none => .error (.insufficient .triple)
  | .bit =>
    match stock.bits.reverse[k]? with
    | some x => .ok (.bit (x.shares i))
    | none => .error (.insufficient .bit)
  | .inputMask owner =>
    match stock.masks[owner]? with
    | none => .error (.invalidParameters (.noInputMasks owner))
    | some row =>
      match row.reverse[k]? with
      | some x => .ok (.inputMask (x.shares i) (if owner = i then some x.value else none))
      | none => .error (.insufficient .inputMask)

/-- What party `i` has left after `requests`. -/
structure Left (stock : V.Stock) (requests : List MaterialRequest) (i : Fin n)
    (s : Supply S R K) : Prop where
  party : s.party = i
  triples : s.triples = (stock.triples.reverse.drop (requests.count .triple)).map (· i)
  bits : s.bits = (stock.bits.reverse.drop (requests.count .bit)).map (·.shares i)
  inputMasks : ∀ owner : Nat, s.inputMasks[owner]? = stock.masks[owner]?.map fun row =>
    (row.reverse.drop (requests.count (.inputMask owner))).map (·.shares i)
  plainMasks : s.plainMasks = ((stock.masks.getD i []).reverse.drop
    (requests.count (.inputMask i))).map (·.value)

/-- A request of party `i` after `requests` is answered from the stock, and what is left is again
what there should be. A request that is refused takes nothing. -/
structure Answers (stock : V.Stock) (requests : List MaterialRequest) (i : Fin n)
    (request : MaterialRequest) (s : Supply S R K)
    (result : Except ProtocolError (Served S R) × Supply S R K) : Prop where
  answer : result.1 = stock.answer (requests.count request) i request
  left : stock.Left (requests ++ [request]) i result.2
  refused : ∀ e, result.1 = .error e → result.2 = s

section Left

variable {stock : V.Stock} {requests : List MaterialRequest} {i : Fin n} {s : Supply S R K}

/-- At first a party has its whole bundle. -/
theorem Holds.left {bundle : Bundle S R K} (h : stock.Holds i bundle) :
    stock.Left [] i (Supply.ofBundle bundle) where
  party := h.party
  triples := by
    change bundle.triples.reverse = _
    rw [h.triples, List.count_nil, List.drop_zero, List.map_reverse]
  bits := by
    change bundle.bits.reverse = _
    rw [h.bits, List.count_nil, List.drop_zero, List.map_reverse]
  inputMasks owner := by
    change (bundle.inputMasks.map List.reverse)[owner]? = _
    rw [h.inputMasks, List.map_map, List.getElem?_map]
    refine congrArg (Option.map · _) (funext fun row => ?_)
    rw [Function.comp_apply, List.count_nil, List.drop_zero, List.map_reverse]
  plainMasks := by
    change bundle.plainMasks.reverse = _
    rw [h.plainMasks, List.count_nil, List.drop_zero, List.map_reverse]

/-- Whether an item is left of a list, and what is left after it has been taken. -/
private theorem drop_cases {α : Type} (l : List α) (k : Nat) :
    (l.drop k = [] ∧ l.drop (k + 1) = [] ∧ l[k]? = none) ∨
      ∃ x, l.drop k = x :: l.drop (k + 1) ∧ l[k]? = some x := by
  rcases Nat.lt_or_ge k l.length with hk | hk
  · exact .inr ⟨l[k], List.drop_eq_getElem_cons hk, List.getElem?_eq_getElem hk⟩
  · exact .inl ⟨List.drop_of_length_le hk, List.drop_of_length_le (Nat.le_succ_of_le hk),
      List.getElem?_eq_none hk⟩

private theorem count_concat_self (requests : List MaterialRequest) (request : MaterialRequest) :
    (requests ++ [request]).count request = requests.count request + 1 := by
  rw [List.count_append, List.count_singleton_self]

private theorem count_concat_of_ne {request other : MaterialRequest} (h : request ≠ other) :
    (requests ++ [request]).count other = requests.count other := by
  rw [List.count_append, List.count_singleton, if_neg (by simpa using h), Nat.add_zero]

theorem Left.serve_triple (h : stock.Left requests i s) :
    stock.Answers requests i .triple s (s.serve .triple) := by
  have hleft (triples : List (Triple S)) (htriples : triples =
      (stock.triples.reverse.drop (requests.count .triple + 1)).map (· i)) :
      stock.Left (requests ++ [.triple]) i { s with triples := triples } :=
    { h with
      triples := by rw [count_concat_self]; exact htriples
      bits := by rw [count_concat_of_ne (by nofun)]; exact h.bits
      inputMasks := fun owner => by rw [count_concat_of_ne (by nofun)]; exact h.inputMasks owner
      plainMasks := by rw [count_concat_of_ne (by nofun)]; exact h.plainMasks }
  rcases drop_cases stock.triples.reverse (requests.count .triple) with
    ⟨hd, hd', hk⟩ | ⟨t, hd, hk⟩
  · have htriples : s.triples = [] := by rw [h.triples, hd, List.map_nil]
    rw [Supply.serve_triple_of_nil htriples]
    exact ⟨by simp only [Stock.answer, hk], hleft s.triples (by rw [htriples, hd', List.map_nil]),
      fun _ _ => rfl⟩
  · rw [Supply.serve_triple_of_cons (by rw [h.triples, hd, List.map_cons])]
    exact ⟨by simp only [Stock.answer, hk], hleft _ rfl, fun _ he => (by cases he)⟩

theorem Left.serve_bit (h : stock.Left requests i s) :
    stock.Answers requests i .bit s (s.serve .bit) := by
  have hleft (bits : List S) (hbits : bits =
      (stock.bits.reverse.drop (requests.count .bit + 1)).map (·.shares i)) :
      stock.Left (requests ++ [.bit]) i { s with bits := bits } :=
    { h with
      triples := by rw [count_concat_of_ne (by nofun)]; exact h.triples
      bits := by rw [count_concat_self]; exact hbits
      inputMasks := fun owner => by rw [count_concat_of_ne (by nofun)]; exact h.inputMasks owner
      plainMasks := by rw [count_concat_of_ne (by nofun)]; exact h.plainMasks }
  rcases drop_cases stock.bits.reverse (requests.count .bit) with ⟨hd, hd', hk⟩ | ⟨x, hd, hk⟩
  · have hbits : s.bits = [] := by rw [h.bits, hd, List.map_nil]
    rw [Supply.serve_bit_of_nil hbits]
    exact ⟨by simp only [Stock.answer, hk], hleft s.bits (by rw [hbits, hd', List.map_nil]),
      fun _ _ => rfl⟩
  · rw [Supply.serve_bit_of_cons (by rw [h.bits, hd, List.map_cons])]
    exact ⟨by simp only [Stock.answer, hk], hleft _ rfl, fun _ he => (by cases he)⟩

/-- What is left after a request for a mask: only the two stacks of that owner have moved. -/
private theorem Left.inputMask (h : stock.Left requests i s) {owner : Nat}
    {inputMasks : List (List S)} {plainMasks : List R}
    (hmask : inputMasks[owner]? = stock.masks[owner]?.map fun row =>
      (row.reverse.drop (requests.count (.inputMask owner) + 1)).map (·.shares i))
    (hother : ∀ other, other ≠ owner → inputMasks[other]? = s.inputMasks[other]?)
    (hplain : owner = i → plainMasks = ((stock.masks.getD i []).reverse.drop
      (requests.count (.inputMask owner) + 1)).map (·.value))
    (hforeign : owner ≠ i → plainMasks = s.plainMasks) :
    stock.Left (requests ++ [.inputMask owner]) i
      { s with inputMasks := inputMasks, plainMasks := plainMasks } :=
  { h with
    triples := by rw [count_concat_of_ne (by nofun)]; exact h.triples
    bits := by rw [count_concat_of_ne (by nofun)]; exact h.bits
    inputMasks := fun other => by
      rcases eq_or_ne other owner with rfl | hne
      · rw [count_concat_self]
        exact hmask
      · rw [count_concat_of_ne fun heq => hne (MaterialRequest.inputMask.inj heq).symm]
        exact (hother other hne).trans (h.inputMasks other)
    plainMasks := by
      rcases eq_or_ne owner i with rfl | hne
      · rw [count_concat_self]
        exact hplain rfl
      · rw [count_concat_of_ne fun heq => hne (MaterialRequest.inputMask.inj heq)]
        exact (hforeign hne).trans h.plainMasks }

theorem Left.serve_inputMask (h : stock.Left requests i s) (owner : Nat) :
    stock.Answers requests i (.inputMask owner) s (s.serve (.inputMask owner)) := by
  have hmasks := h.inputMasks owner
  cases hrow : stock.masks[owner]? with
  | none =>
    rw [hrow, Option.map_none] at hmasks
    rw [Supply.serve_inputMask_of_none hmasks]
    refine ⟨by simp only [Stock.answer, hrow], ?_, fun _ _ => rfl⟩
    refine h.inputMask (by rw [hmasks, hrow]; rfl) (fun _ _ => rfl) ?_ fun _ => rfl
    rintro rfl
    rw [h.plainMasks, List.getD_eq_getElem?_getD, hrow, Option.getD_none, List.reverse_nil,
      List.drop_nil, List.drop_nil]
  | some row =>
    rw [hrow, Option.map_some] at hmasks
    have hown (howner : owner = i) : stock.masks.getD i [] = row := by
      rw [List.getD_eq_getElem?_getD, ← howner, hrow, Option.getD_some]
    rcases drop_cases row.reverse (requests.count (.inputMask owner)) with
      ⟨hd, hd', hk⟩ | ⟨x, hd, hk⟩
    · rw [hd, List.map_nil] at hmasks
      rw [Supply.serve_inputMask_of_nil hmasks]
      refine ⟨by simp only [Stock.answer, hrow, hk], ?_, fun _ _ => rfl⟩
      refine h.inputMask (by rw [hmasks, hrow, Option.map_some, hd', List.map_nil])
        (fun _ _ => rfl) (fun howner => ?_) fun _ => rfl
      rw [h.plainMasks, hown howner, ← howner, hd, hd']
    · rw [hd, List.map_cons] at hmasks
      have hlt : owner < s.inputMasks.length := (List.getElem?_eq_some_iff.1 hmasks).1
      have hset (rest : List S) : (s.inputMasks.set owner rest)[owner]? = some rest :=
        List.getElem?_set_self hlt
      have hrest (other : Nat) (hother : other ≠ owner) (rest : List S) :
          (s.inputMasks.set owner rest)[other]? = s.inputMasks[other]? :=
        List.getElem?_set_ne hother.symm
      rcases eq_or_ne owner i with howner | howner
      · -- both of the own stacks stand equally high, so there is a plain value for the share
        have hplain := h.plainMasks
        rw [hown howner, ← howner, hd, List.map_cons] at hplain
        rw [Supply.serve_inputMask_of_eq hmasks (howner.trans h.party.symm) hplain]
        refine ⟨by simp only [Stock.answer, hrow, hk, if_pos howner], ?_, fun _ he => (by cases he)⟩
        exact h.inputMask (by rw [hset, hrow, Option.map_some]) (fun _ hother => hrest _ hother _)
          (fun _ => by rw [hown howner]) fun hne => absurd howner hne
      · rw [Supply.serve_inputMask_of_ne hmasks (h.party.symm ▸ howner)]
        refine ⟨by simp only [Stock.answer, hrow, hk, if_neg howner], ?_, fun _ he => (by cases he)⟩
        exact h.inputMask (by rw [hset, hrow, Option.map_some]) (fun _ hother => hrest _ hother _)
          (fun heq => absurd heq howner) fun _ => rfl

/-- A request is answered from the stock. -/
theorem Left.serve (h : stock.Left requests i s) (request : MaterialRequest) :
    stock.Answers requests i request s (s.serve request) :=
  match request with
  | .triple => h.serve_triple
  | .bit => h.serve_bit
  | .inputMask owner => h.serve_inputMask owner

/-- After more requests a party has left what has not been asked for. -/
theorem Left.serveAll_append (h : stock.Left requests i s) (more : List MaterialRequest) :
    stock.Left (requests ++ more) i (s.serveAll more) := by
  induction more using List.reverseRecOn with
  | nil => rwa [List.append_nil]
  | append_singleton more request ih =>
    rw [← List.append_assoc, Supply.serveAll_concat]
    exact (ih.serve request).left

/-- After any requests a party has left what has not been asked for. -/
theorem Left.serveAll (h : stock.Left [] i s) (requests : List MaterialRequest) :
    stock.Left requests i (s.serveAll requests) :=
  h.serveAll_append requests

end Left

end Stock

/-- How all parties are answered when `k` equal requests have been made before. Each list of a bundle
is served from its end, so what is served is the entry that has `k` others behind it in the lists of
all parties, and it is served to no other request. -/
inductive ServedAlike (V : Sharing S n) (counts : PreprocessingCounts)
    (bundle : Fin n → Bundle S R K) (k : Nat) :
    MaterialRequest → (Fin n → Except ProtocolError (Served S R)) → Prop
  | triple {t : Fin n → Triple S} (hleft : k < counts.triples)
      (hdealt : ∀ i, (bundle i).triples.reverse[k]? = some (t i)) (hvalid : V.ValidTriple t) :
      V.ServedAlike counts bundle k .triple fun i => .ok (.triple (t i))
  | noTriple (hleft : counts.triples ≤ k) :
      V.ServedAlike counts bundle k .triple fun _ => .error (.insufficient .triple)
  | bit {x : Fin n → S} {v : R} (hleft : k < counts.bits)
      (hdealt : ∀ i, (bundle i).bits.reverse[k]? = some (x i)) (hvalid : V.Valid x v)
      (hbit : v = 0 ∨ v = 1) :
      V.ServedAlike counts bundle k .bit fun i => .ok (.bit (x i))
  | noBit (hleft : counts.bits ≤ k) :
      V.ServedAlike counts bundle k .bit fun _ => .error (.insufficient .bit)
  | inputMask {owner : Fin n} {x : Fin n → S} {m : R} (hleft : k < counts.inputMasks)
      (hdealt : ∀ i, ∃ row, (bundle i).inputMasks[(owner : Nat)]? = some row ∧
        row.reverse[k]? = some (x i))
      (hplain : (bundle owner).plainMasks.reverse[k]? = some m) (hvalid : V.Valid x m) :
      V.ServedAlike counts bundle k (.inputMask owner) fun i =>
        .ok (.inputMask (x i) (if (owner : Nat) = i then some m else none))
  | noInputMask {owner : Fin n} (hleft : counts.inputMasks ≤ k) :
      V.ServedAlike counts bundle k (.inputMask owner) fun _ => .error (.insufficient .inputMask)
  | unknownOwner {owner : Nat} (howner : n ≤ owner) :
      V.ServedAlike counts bundle k (.inputMask owner) fun _ =>
        .error (.invalidParameters (.noInputMasks owner))

namespace Stock

variable {stock : V.Stock} {counts : PreprocessingCounts} {bundle : Fin n → Bundle S R K}

private theorem getElem?_reverse_cases {α : Type} {l : List α} {count : Nat}
    (hlength : l.length = count) (k : Nat) :
    (k < count ∧ ∃ x ∈ l, l.reverse[k]? = some x) ∨ (count ≤ k ∧ l.reverse[k]? = none) := by
  subst hlength
  rcases Nat.lt_or_ge k l.length with hk | hk
  · rw [← List.length_reverse] at hk
    exact .inl ⟨by rwa [List.length_reverse] at hk, _, List.mem_reverse.1 (List.getElem_mem hk),
      List.getElem?_eq_getElem hk⟩
  · exact .inr ⟨hk, List.getElem?_eq_none (by rwa [List.length_reverse])⟩

/-- The stock answers all parties alike. -/
theorem Sound.servedAlike (hsound : stock.Sound counts) (hholds : ∀ i, stock.Holds i (bundle i))
    (k : Nat) (request : MaterialRequest) :
    V.ServedAlike counts bundle k request fun i => stock.answer k i request := by
  cases request with
  | triple =>
    rcases getElem?_reverse_cases hsound.length_triples k with ⟨hleft, t, ht, hk⟩ | ⟨hleft, hk⟩
    · simp only [answer, hk]
      refine .triple hleft (fun i => ?_) (hsound.triples t ht)
      rw [(hholds i).triples, ← List.map_reverse, List.getElem?_map, hk, Option.map_some]
    · simp only [answer, hk]
      exact .noTriple hleft
  | bit =>
    rcases getElem?_reverse_cases hsound.length_bits k with ⟨hleft, x, hx, hk⟩ | ⟨hleft, hk⟩
    · simp only [answer, hk]
      refine .bit hleft (fun i => ?_) x.valid (hsound.bits x hx)
      rw [(hholds i).bits, ← List.map_reverse, List.getElem?_map, hk, Option.map_some]
    · simp only [answer, hk]
      exact .noBit hleft
  | inputMask owner =>
    rcases Nat.lt_or_ge owner n with howner | howner
    · obtain ⟨owner, rfl⟩ : ∃ owner' : Fin n, owner = owner' := ⟨⟨owner, howner⟩, rfl⟩
      obtain ⟨row, hrow⟩ : ∃ row, stock.masks[(owner : Nat)]? = some row :=
        ⟨_, List.getElem?_eq_getElem (howner.trans_eq hsound.owners.symm)⟩
      have hlength := hsound.length_masks row (List.mem_of_getElem? hrow)
      rcases getElem?_reverse_cases hlength k with ⟨hleft, x, -, hk⟩ | ⟨hleft, hk⟩
      · simp only [answer, hrow, hk]
        refine .inputMask hleft (fun i => ?_) ?_ x.valid
        · refine ⟨row.map (·.shares i), ?_, ?_⟩
          · rw [(hholds i).inputMasks, List.getElem?_map, hrow, Option.map_some]
          · rw [← List.map_reverse, List.getElem?_map, hk, Option.map_some]
        · rw [(hholds _).plainMasks, List.getD_eq_getElem?_getD, hrow, Option.getD_some,
            ← List.map_reverse, List.getElem?_map, hk, Option.map_some]
      · simp only [answer, hrow, hk]
        exact .noInputMask hleft
    · have hrow : stock.masks[owner]? = none :=
        List.getElem?_eq_none (hsound.owners.trans_le howner)
      simp only [answer, hrow]
      exact .unknownOwner howner

end Stock

end Sharing

/-- The dealing plans of the schemes, for any number of parties that the scheme admits, and the
sharings that they deal. -/
inductive Suite.Plans : (X : Suite) → X.P → {n : Nat} → Sharing X.S n → Prop where
  | authenticated (F : Type) [CodedField F] [LawfulField F] {n : Nat} (hn : 0 < n)
      {p : MacPlan F} (hkeys : p.keyShares.length = n) :
      Plans (.authenticated F) p (MacShare.sharing p.key n)
  | replicated (R : Type) [CodedRing R] [LawfulRing R] (p : ReplicatedPlan R) :
      Plans (.replicated R) p (ReplicatedShare.sharing (R := R))
  | threshold (F : Type) [CodedField F] [LawfulField F] (p : ThresholdPlan F) :
      Plans (.threshold F) p (ThresholdShare.sharing p.threshold p.parties)

namespace Suite.Plans

variable {X : Suite} {n : Nat} {plan : X.P} {V : Sharing X.S n}

theorem sound (h : X.Plans plan V) : V.SoundPlan plan := by
  cases h with
  | authenticated F hn hkeys => exact MacPlan.sound (R := F) hn hkeys
  | replicated R p => exact ReplicatedPlan.sound (R := R) p
  | threshold F p => exact ThresholdPlan.sound (F := F) (p := p) rfl

variable {G : Type} [WordSource G]

/-- All parties who make the same requests of what was dealt to them are answered alike, whatever
the dealer draws: each request is fulfilled with the parts of one item as long as there are items
that have not been served, and refused by all of them with the same error afterwards. A party that
is refused keeps all that it has left. -/
theorem served_alike (h : X.Plans plan V) (source : G) (counts : PreprocessingCounts) :
    ∃ bundle : Fin n → X.Bundle, (Bundle.deal counts ⟨plan, source⟩).1 = List.ofFn bundle ∧
      ∀ requests request,
        let supply (i : Fin n) := (Supply.ofBundle (bundle i)).serveAll requests
        V.ServedAlike counts bundle (requests.count request) request
            (fun i => ((supply i).serve request).1) ∧
          ∀ i e, ((supply i).serve request).1 = .error e →
            ((supply i).serve request).2 = supply i := by
  obtain ⟨stock, bundle, hsound, hdealt, hholds, -⟩ :=
    h.sound.exists_stock (d := ⟨plan, source⟩) counts
  refine ⟨bundle, hdealt, fun requests request => ?_⟩
  have hanswers (i : Fin n) := ((hholds i).left.serveAll requests).serve request
  refine ⟨?_, fun i => (hanswers i).refused⟩
  simp only [(hanswers _).answer]
  exact hsound.servedAlike hholds _ request

/-- Two parties with a single triple and one mask for each of them. -/
theorem served_alike_twoParties :
    ∃ bundle : Fin 2 → (Suite.authenticated Mersenne61).Bundle,
      (Bundle.deal ⟨1, 0, 1⟩ ⟨(⟨[1, 1]⟩ : MacPlan Mersenne61), ChaCha.ofWord 7⟩).1 =
          List.ofFn bundle ∧
        ∀ i, (((Supply.ofBundle (bundle i)).serveAll [.triple, .inputMask 1]).serve .triple).1 =
          .error (.insufficient .triple) := by
  have hplan := Plans.authenticated Mersenne61 Nat.two_pos (p := ⟨[1, 1]⟩) rfl
  obtain ⟨bundle, hdealt, hserved⟩ := hplan.served_alike (ChaCha.ofWord 7) ⟨1, 0, 1⟩
  refine ⟨bundle, hdealt, fun i => ?_⟩
  have hrefused := (hserved [.triple, .inputMask 1] .triple).1
  generalize hresults : (fun i => (((Supply.ofBundle (bundle i)).serveAll
    [.triple, .inputMask 1]).serve .triple).1) = results at hrefused
  cases hrefused with
  | triple hleft => exact absurd hleft (by decide)
  | noTriple => exact congrFun hresults i

end Suite.Plans

end Multiparty
