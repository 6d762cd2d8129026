import Mathlib
import Multiparty.Opening.Threshold
import Multiparty.Proofs.Codec
import Multiparty.Proofs.Interpolation
import Multiparty.Proofs.Joint.Opening

/-!
# Threshold openers of all parties

Every party visits the others by increasing distance, so that after the visit at one distance it
holds the evaluations of those senders that are at most so far before it. In the end all parties
hold the evaluations of all senders, and every row of coefficients recovers the same value from
them.

## Main definitions

* `ThresholdOpener.SoundRows`: rows of coefficients that recover values.
* `ThresholdOpener.Joint`: the openers of all parties with valid sharings only.
* `ThresholdOpener.jointOpening`: they fulfil the contract of openers.

## Main results

* `ThresholdOpener.soundRows_of_mapM`: openers are made with the right coefficients only.
* `ThresholdOpener.succeed_exchangeAt`: what all parties hold after their visits.
* `ThresholdOpener.idles_jointOpening`: with nothing to do they make no calls.
-/

namespace Multiparty

open Polynomial
open Multiparty.Action (Succeed)

/-- The values of a polynomial that is given by its coefficients are shares of the first of them. -/
theorem ThresholdShare.valid_evaluate {F : Type} [CodedField F] [LawfulField F] {n threshold : Nat}
    (secret : F) {random : List F} (hrandom : random.length = threshold) :
    Valid threshold (fun i : Fin n => ⟨evaluate (secret :: random) (partyPoint i)⟩) secret := by
  subst hrandom
  exact ⟨polynomialOf (secret :: random), polynomialOf_mem_degreeLT (secret :: random),
    coeff_zero_polynomialOf secret random, fun i => (eval_polynomialOf _ _).symm⟩

namespace ThresholdOpener

variable {F : Type} {n : Nat}

/-- Rows of interpolation coefficients for `threshold + 1` parties and more, as far as there are
parties. -/
structure SoundRows [CodedField F] (n threshold : Nat) (rows : List (List F)) : Prop where
  ne_nil : rows ≠ []
  senders_le : threshold + rows.length ≤ n
  row : ∀ (k : Nat) (hk : k < rows.length),
    reconstructionCoefficients (threshold + 1 + k) = .ok rows[k]

section Create

variable [CodedField F]

omit [CodedField F] in
private theorem eq_ok_of_mapError {ε ε' α : Type} {f : ε → ε'} {x : Except ε α} {a : α}
    (h : x.mapError f = .ok a) : x = .ok a := by
  cases x with
  | error e => cases h
  | ok b => exact congrArg _ (Except.ok.inj h)

/-- What an opener that has been made looks like. -/
theorem exists_of_create {party parties threshold : Nat} {malicious : Bool} {o : ThresholdOpener F}
    (h : create party parties threshold malicious = .ok o) :
    ∃ rows, (List.range' (threshold + 1) (sendersFor threshold malicious - threshold)).mapM
        reconstructionCoefficients = .ok rows ∧ sendersFor threshold malicious ≤ parties ∧
      o = ⟨party, parties, threshold, malicious, rows, #[], .empty, false⟩ := by
  simp only [create] at h
  split at h
  · cases h
  split at h
  · cases h
  next hsenders =>
    split at h
    · cases h
    obtain ⟨rows, hrows, h⟩ := exists_of_bind_eq_ok h
    refine ⟨rows, ?_, Nat.not_lt.1 hsenders, (Except.ok.inj h).symm⟩
    exact eq_ok_of_mapError hrows

/-- Openers with sound parameters are made. -/
theorem create_eq_ok {party parties threshold : Nat} {malicious : Bool} {rows : List (List F)}
    (hword : isWord (sendersFor threshold malicious) = true)
    (hsenders : sendersFor threshold malicious ≤ parties) (hparty : party < parties)
    (hrows : (List.range' (threshold + 1) (sendersFor threshold malicious - threshold)).mapM
      reconstructionCoefficients = .ok rows) : create party parties threshold malicious =
        .ok ⟨party, parties, threshold, malicious, rows, #[], .empty, false⟩ := by
  simp only [create, hword, hrows, if_neg (Nat.not_lt.2 hsenders), if_neg (Nat.not_le.2 hparty)]
  rfl

/-- The rows of coefficients of an opener that has been made recover values. -/
theorem soundRows_of_mapM {parties threshold : Nat} {malicious : Bool} {rows : List (List F)}
    (hrows : (List.range' (threshold + 1) (sendersFor threshold malicious - threshold)).mapM
      reconstructionCoefficients = .ok rows) (hsenders : sendersFor threshold malicious ≤ parties) :
    SoundRows parties threshold rows := by
  obtain ⟨hlen, hget⟩ := List.forall₂_iff_get.1 (forall₂_of_mapM hrows)
  rw [List.length_range'] at hlen
  have hpos : threshold < sendersFor threshold malicious := by
    rw [sendersFor]
    split <;> omega
  refine ⟨fun hnil => ?_, by omega, fun k hk => ?_⟩
  · rw [hnil, List.length_nil] at hlen
    omega
  · have hk' := hget (i := k) (by rw [List.length_range', hlen]; exact hk) hk
    simpa using hk'

end Create

/-- The evaluations that one party has of the items of a batch. -/
def column (items : List (Fin n → ThresholdShare F)) (p : Nat) : List F :=
  if hp : p < n then items.map fun x => (x ⟨p, hp⟩).value else []

/-- What party `me` has collected of a batch after the visits below some distance. -/
def gathered (senders : Nat) (items : List (Fin n → ThresholdShare F)) (distance me : Nat) :
    List (List F) :=
  (List.range senders).map fun p => if (me + n - p) % n < distance then column items p else []

/-- The sender at a distance is the only one that is so far before. -/
theorem distance_eq_iff {me p distance : Nat} (hme : me < n) (hp : p < n) (hpos : 0 < distance)
    (hlt : distance < n) : (me + n - p) % n = distance ↔ (me + n - distance) % n = p := by
  rw [Round.mod_of_lt_two (x := me + n - p) (m := n) (by omega),
    Round.mod_of_lt_two (x := me + n - distance) (m := n) (by omega)]
  split <;> split <;> omega

variable {senders distance me : Nat} {items : List (Fin n → ThresholdShare F)}

/-- The visit at one distance adds the evaluations of the sender there. -/
private theorem set_gathered (hsenders : senders ≤ n) (hme : me < n) (hpos : 0 < distance)
    (hlt : distance < n) :
    (gathered senders items distance me).set ((me + n - distance) % n)
      (column items ((me + n - distance) % n)) = gathered senders items (distance + 1) me := by
  refine List.ext_getElem ?_ fun p hp hp' => ?_
  · simp only [gathered, List.length_set, List.length_map]
  · have hpn : p < n := by
      rw [gathered, List.length_map, List.length_range] at hp'
      omega
    have hiff := distance_eq_iff hme hpn hpos hlt
    rw [List.getElem_set]
    simp only [gathered, List.getElem_map, List.getElem_range]
    by_cases hsource : (me + n - distance) % n = p
    · rw [if_pos hsource, if_pos (by omega), hsource]
    · rw [if_neg hsource]
      have hne : (me + n - p) % n ≠ distance := fun h => hsource (hiff.1 h)
      exact if_congr (by omega) rfl rfl

/-- A visit adds nothing if the party there is no sender. -/
private theorem gathered_succ (hsenders : senders ≤ n) (hme : me < n) (hpos : 0 < distance)
    (hlt : distance < n) (hsource : senders ≤ (me + n - distance) % n) :
    gathered senders items (distance + 1) me = gathered senders items distance me := by
  refine List.map_congr_left fun p hp => ?_
  rw [List.mem_range] at hp
  have hne : (me + n - p) % n ≠ distance := fun h => by
    have := (distance_eq_iff hme (by omega) hpos hlt).1 h
    omega
  exact if_congr (by omega) rfl rfl

/-- Before all visits a party has its own evaluations. -/
private theorem gathered_one (hme : me < n) (hsenders : senders ≤ n) :
    gathered senders items 1 me =
      (List.range senders).map fun p => if p = me then column items me else [] := by
  refine List.map_congr_left fun p hp => ?_
  rw [List.mem_range] at hp
  rw [Round.mod_of_lt_two (x := me + n - p) (m := n) (by omega)]
  by_cases h : p = me
  · subst h
    rw [if_pos rfl, if_pos (by split <;> omega)]
  · rw [if_neg h, if_neg (by split <;> omega)]

/-- After all visits a party has the evaluations of all senders. -/
private theorem gathered_all (hpos : 0 < n) :
    gathered senders items n me = (List.range senders).map (column items) :=
  List.map_congr_left fun _ _ => if_pos (Nat.mod_lt _ hpos)

section Exchange

variable [CodedField F] [LawfulField F] {o : Fin n → ThresholdOpener F}

omit [CodedField F] [LawfulField F] in
private theorem length_column (items : List (Fin n → ThresholdShare F)) (p : Fin n) :
    (column items p).length = items.length := by
  rw [column, dif_pos p.isLt, List.length_map]

/-- The visits of all parties at one distance. -/
private theorem succeed_visit (hparty : ∀ i, (o i).party = i) (hparties : ∀ i, (o i).parties = n)
    (hopeners : ∀ i, (o i).senders = senders) (hbatch : ∀ i, (o i).batch.size = items.length)
    (hsenders : senders ≤ n) (hword : isWord (n + n) = true) (hpos : 0 < distance)
    (hlt : distance < n) (s : Fin n → ThresholdOpener F) :
    Succeed (fun i => visit (o i) (encodeValues (column items i)) distance
        (gathered senders items distance i)) s
      fun s' a => s' = s ∧ a = fun i : Fin n => gathered senders items (distance + 1) i := by
  have hwords (i : Fin n) : isWord (i + distance) = true ∧ isWord (i + n) = true := by
    have hi := i.isLt
    have hn := of_decide_eq_true hword
    exact ⟨decide_eq_true (by omega), decide_eq_true (by omega)⟩
  have hnotdvd : ¬ n ∣ distance := fun h => Nat.not_le.2 hlt (Nat.le_of_dvd hpos h)
  refine Lockstep.round (Round.matched_shift hnotdvd hwords (fun i => decide ((i : Nat) < senders))
      fun i => encodeValues (column items i)) (fun i => ?_)
    (Succeed.pure (a := fun i : Fin n => gathered senders items (distance + 1) i) ⟨rfl, rfl⟩)
  have hsource : ((i : Nat) + n - distance) % n = Round.previous i distance := by
    change _ = ((i : Nat) + n - distance % n) % n
    rw [Nat.mod_eq_of_lt hlt]
  have hcollect : collect (o i) (Round.previous i distance) (gathered senders items distance i)
      (encodeValues (column items (Round.previous i distance))) =
        .ok (gathered senders items (distance + 1) i) := by
    have hdecode := decodeValues_encodeValues (column items (Round.previous i distance))
    rw [length_column, ← hbatch i] at hdecode
    rw [collect, hdecode, ← set_gathered hsenders i.isLt hpos hlt, hsource]
    rfl
  have hskip (h : decide ((Round.previous i distance : Nat) < senders) = false) :
      gathered senders items (distance + 1) i = gathered senders items distance i := by
    rw [← hsource, decide_eq_false_iff_not, Nat.not_lt] at h
    exact gathered_succ hsenders i.isLt hpos hlt h
  simp only [visit, hparty, hparties, hopeners, hsource]
  rw [Round.shift]
  cases hi : decide ((i : Nat) < senders) <;>
    cases hp : decide ((Round.previous i distance : Nat) < senders) <;> dsimp only
  · rw [hskip hp]
    rfl
  · refine ⟨s i, _, rfl, ?_⟩
    change Session.done (s i) _ = Session.done (s i) (collect ..)
    rw [hcollect]
  · refine ⟨s i, _, rfl, ?_⟩
    rw [hskip hp]
    rfl
  · refine ⟨s i, _, rfl, ?_⟩
    change Session.done (s i) _ = Session.done (s i) (collect ..)
    rw [hcollect]

/-- After their visits all parties hold the evaluations of all senders. -/
theorem succeed_exchangeAt (hparty : ∀ i, (o i).party = i) (hparties : ∀ i, (o i).parties = n)
    (hopeners : ∀ i, (o i).senders = senders) (hbatch : ∀ i, (o i).batch.size = items.length)
    (hsenders : senders ≤ n) (hword : isWord (n + n) = true) (s : Fin n → ThresholdOpener F)
    {k : Nat} (hpos : 0 < distance) (hk : distance + k = n) :
    Succeed (fun i => exchangeAt (o i) (encodeValues (column items i)) (List.range' distance k)
        (gathered senders items distance i)) s
      fun s' a => s' = s ∧ a = fun _ => (List.range senders).map (column items) := by
  induction k generalizing distance with
  | zero =>
    obtain rfl : distance = n := hk
    refine Succeed.pure ⟨rfl, ?_⟩
    funext i
    exact gathered_all hpos
  | succ k ih =>
    refine Succeed.bind (succeed_visit hparty hparties hopeners hbatch hsenders hword hpos (by omega) s)
      ?_
    rintro s' _ ⟨hs, rfl⟩
    rw [hs]
    exact ih (Nat.succ_pos _) (by omega)

end Exchange

/-- The evaluations that the senders have of one item. -/
def evaluations [Zero F] (senders : Nat) (x : Fin n → ThresholdShare F) : List F :=
  (List.range senders).map fun p => if hp : p < n then (x ⟨p, hp⟩).value else 0

/-- Sorting what was collected by openings. -/
theorem byOpening_eq [CodedField F] (openings : Nat) (columns : List (List F)) :
    byOpening openings columns =
      (List.range openings).map fun k => columns.map (·.getD k 0) := by
  induction openings generalizing columns with
  | zero => rfl
  | succ openings ih =>
    rw [byOpening, ih, List.range_succ_eq_map, List.map_cons, List.map_map]
    refine congrArg₂ _ (List.map_congr_left fun l _ => by cases l <;> rfl) ?_
    refine List.map_congr_left fun k _ => ?_
    rw [List.map_map]
    exact List.map_congr_left fun l _ => by cases l <;> rfl

private theorem byOpening_columns [CodedField F] (hsenders : senders ≤ n)
    (items : List (Fin n → ThresholdShare F)) :
    byOpening items.length ((List.range senders).map (column items)) =
      items.map (evaluations senders) := by
  rw [byOpening_eq]
  refine List.ext_getElem (by simp) fun k hk hk' => ?_
  rw [List.getElem_map, List.getElem_map, List.getElem_range, evaluations, List.map_map]
  refine List.map_congr_left fun p hp => ?_
  have hlt : p < n := (List.mem_range.1 hp).trans_le hsenders
  have hk : k < items.length := by simpa using hk'
  simp [column, hlt, hk]

variable [CodedField F] [LawfulField F]

/-- The openers of all parties with the same number of senders, none of which has been poisoned. -/
structure Aligned (senders : Nat) (o : Fin n → ThresholdOpener F) : Prop where
  party : ∀ i, (o i).party = i
  parties : ∀ i, (o i).parties = n
  senders : ∀ i, (o i).senders = senders
  fresh : ∀ i, (o i).poisoned = false

/-- The openers `o'` have collected the evaluations that the senders have of the items queued in `o`,
and are otherwise as they were. -/
structure Collected (senders : Nat) (items : List (Fin n → ThresholdShare F))
    (o o' : Fin n → ThresholdOpener F) : Prop where
  rest : ∀ i, ∃ received, o' i = { o i with batch := #[], received := received }
  received : ∀ i,
    (o' i).received.toList = (o i).received.toList ++ items.map (evaluations senders)

/-- An exchange of all parties collects the evaluations of the senders. -/
theorem Aligned.exchange {o : Fin n → ThresholdOpener F} (h : Aligned senders o) (hpos : 0 < senders)
    (hsenders : senders ≤ n) (hword : isWord (n + n) = true)
    (hbatch : ∀ i, (o i).batch.toList = items.map (· i)) :
    Succeed (fun _ => ThresholdOpener.exchange) o fun o' _ => Collected senders items o o' := by
  have hsize (i : Fin n) : (o i).batch.size = items.length := size_of_toList_eq (hbatch i)
  have hempty (i : Fin n) : (o i).batch.isEmpty = items.isEmpty := isEmpty_of_toList_eq (hbatch i)
  refine Succeed.get_bind (Succeed.seat_bind ?_)
  simp only [h.fresh, hempty, h.parties, Bool.false_eq_true, if_false, ne_eq, not_true_eq_false]
  cases items with
  | nil =>
    refine Succeed.pure ⟨fun i => ⟨(o i).received, ?_⟩, fun i => ?_⟩
    · rw [← Array.toList_eq_nil_iff.1 (hbatch i)]
    · rw [List.map_nil, List.append_nil]
  | cons x items =>
    simp only [List.isEmpty_cons, Bool.false_eq_true, if_false]
    have hown (i : Fin n) : (o i).batch.toList.map (·.value) = column (x :: items) i := by
      rw [hbatch, List.map_map, column, dif_pos i.isLt]
      rfl
    have hstart (i : Fin n) : (List.range (o i).senders).map
        (fun p => if p = (o i).party then (o i).batch.toList.map (·.value) else []) =
          gathered senders (x :: items) 1 i := by
      rw [gathered_one i.isLt hsenders, hown, h.senders, h.party]
    simp only [hstart]
    simp only [hown]
    refine Succeed.bind (succeed_exchangeAt h.party h.parties h.senders hsize hsenders hword o
      Nat.one_pos (by omega)) ?_
    rintro o' _ ⟨ho, rfl⟩
    rw [ho]
    refine Succeed.modify ⟨fun i => ⟨_, rfl⟩, fun i => ?_⟩
    rw [record, Queue.toList_appendList, hsize, byOpening_columns hsenders]

/-- The evaluations of a value: those of a polynomial of small degree at the points of the
senders. -/
def Opens (threshold senders : Nat) (values : List F) (v : F) : Prop :=
  ∃ f ∈ degreeLT F (threshold + 1), f.coeff 0 = v ∧
    values = (List.range senders).map fun p => f.eval (partyPoint p)

theorem opens_of_valid {threshold : Nat} (hsenders : senders ≤ n)
    {x : Fin n → ThresholdShare F} {v : F} (h : ThresholdShare.Valid threshold x v) :
    Opens threshold senders (evaluations senders x) v := by
  obtain ⟨f, hf, hv, heval⟩ := h
  refine ⟨f, hf, hv, List.map_congr_left fun p hp => ?_⟩
  have hlt : p < n := by
    rw [List.mem_range] at hp
    omega
  rw [dif_pos hlt, heval]

/-- Every row recovers the value from its evaluations. -/
theorem weightedSum_opens {threshold : Nat} {rows : List (List F)}
    (hrows : SoundRows n threshold rows) {values : List F} {v : F}
    (h : Opens threshold (threshold + rows.length) values v) :
    ∀ row ∈ rows, CodedRing.weightedSum row values = v := by
  obtain ⟨f, hf, rfl, rfl⟩ := h
  intro row hrow
  obtain ⟨k, hk, rfl⟩ := List.getElem_of_mem hrow
  refine weightedSum_reconstructionCoefficients (hrows.row k hk) (degreeLT_mono (by omega) hf)
    fun i hi => ?_
  rw [List.getElem?_map, List.getElem?_range (by omega), Option.map_some]

/-- The openers of all parties with the same parameters. What they have queued are valid sharings of
the values `queued`, and all of them hold evaluations of the values `opened`. -/
structure Joint (threshold : Nat) (rows : List (List F)) (o : Fin n → ThresholdOpener F)
    (queued opened : List F) : Prop where
  party : ∀ i, (o i).party = i
  parties : ∀ i, (o i).parties = n
  threshold_eq : ∀ i, (o i).threshold = threshold
  rows_eq : ∀ i, (o i).rows = rows
  fresh : ∀ i, (o i).poisoned = false
  batch : ∃ items : List (Fin n → ThresholdShare F),
    List.Forall₂ (ThresholdShare.Valid threshold) items queued ∧
      ∀ i, (o i).batch.toList = items.map (· i)
  received : ∀ i, List.Forall₂ (Opens threshold (threshold + rows.length))
    (o i).received.toList opened

namespace Joint

variable {threshold : Nat} {rows : List (List F)} {o : Fin n → ThresholdOpener F} {q vs : List F}

theorem aligned (h : Joint threshold rows o q vs) : Aligned (threshold + rows.length) o where
  party := h.party
  parties := h.parties
  senders i := by rw [ThresholdOpener.senders, h.threshold_eq, h.rows_eq]
  fresh := h.fresh

/-- An exchange of all parties opens what they have queued. -/
theorem exchange (h : Joint threshold rows o q vs) (hrows : SoundRows n threshold rows)
    (hword : isWord (n + n) = true) :
    Succeed (fun _ => ThresholdOpener.exchange) o
      fun o' _ => Joint threshold rows o' [] (vs ++ q) := by
  obtain ⟨items, hitems, hbatch⟩ := h.batch
  have hpos : 0 < threshold + rows.length := by
    have := List.length_pos_of_ne_nil hrows.ne_nil
    omega
  refine (h.aligned.exchange hpos hrows.senders_le hword hbatch).mono ?_
  rintro o' _ ⟨hrest, hreceived⟩
  choose received hrest using hrest
  obtain rfl := funext hrest
  refine { h with batch := ⟨[], .nil, fun _ => rfl⟩, received := fun i => ?_ }
  rw [hreceived]
  refine List.rel_append (h.received i) (List.forall₂_map_left_iff.2 (hitems.imp ?_))
  exact fun x v hx => opens_of_valid hrows.senders_le hx

/-- All parties take the next opened value. -/
theorem finalize {v : F} (h : Joint threshold rows o q (v :: vs)) (hrows : SoundRows n threshold rows) :
    ∃ o', (∀ i, ThresholdOpener.finalize (o i) = (.ok v, o' i)) ∧
      Joint threshold rows o' q vs := by
  choose values rest hdequeue hopens hrest using
    fun i => Queue.exists_dequeue?_of_forall₂ (h.received i)
  obtain ⟨row, others, hlist⟩ := List.exists_cons_of_ne_nil hrows.ne_nil
  refine ⟨fun i => { o i with received := rest i }, fun i => ?_, { h with received := hrest }⟩
  have hsum := weightedSum_opens hrows (hopens i)
  rw [hlist] at hsum
  have hothers : others.all (fun row => CodedRing.weightedSum row (values i) = v) = true := by
    rw [List.all_eq_true]
    exact fun row' hrow' => decide_eq_true (hsum row' (List.mem_cons_of_mem _ hrow'))
  have hreconstruct : reconstruct? { o i with received := rest i } (values i) = some v := by
    rw [reconstruct?]
    dsimp only
    rw [h.rows_eq, hlist, List.headD_cons, hsum row List.mem_cons_self, List.tail_cons, hothers,
      Bool.or_true, if_pos rfl]
  rw [ThresholdOpener.finalize, if_neg (by simp [h.fresh]), hdequeue]
  dsimp only
  rw [hreconstruct]

/-- A check of all parties passes. -/
theorem check (h : Joint threshold rows o q vs) :
    Succeed (fun _ => ThresholdOpener.check) o fun o' _ => Joint threshold rows o' q vs := by
  refine Succeed.get_bind ?_
  simp only [h.fresh, Bool.false_eq_true, if_false]
  exact Succeed.pure h

end Joint

/-- The openers of threshold shares fulfil the contract of openers. -/
def jointOpening {threshold : Nat} {rows : List (List F)} (hrows : SoundRows n threshold rows)
    (hword : isWord (n + n) = true) : JointOpening (ThresholdOpener F) n where
  toSharing := ThresholdShare.sharing threshold n
  Holds := Joint threshold rows
  constant _ v := ThresholdShare.valid_constant threshold v
  init h := { h with batch := ⟨[], .nil, fun _ => rfl⟩, received := fun _ => .nil }
  prepare {o q vs x v} h hx := by
    obtain ⟨items, hitems, hbatch⟩ := h.batch
    exact { h with batch := ⟨items ++ [x], List.rel_append hitems (.cons hx .nil),
      fun i => toList_push_of_toList_eq (hbatch i) x⟩ }
  exchange h := h.exchange hrows hword
  finalize h := h.finalize hrows
  check h := h.check

theorem idles_jointOpening {threshold : Nat} {rows : List (List F)}
    (hrows : SoundRows n threshold rows) (hword : isWord (n + n) = true) :
    (jointOpening hrows hword).Idles where
  exchange {o vs} h i := by
    obtain ⟨items, hitems, hbatch⟩ := h.batch
    change ThresholdOpener.exchange.run ⟨i, n⟩ (o i) = _
    rw [ThresholdOpener.exchange, Action.run_get_bind, Action.run_seat_bind,
      if_neg (by simp [h.fresh]), if_neg (by simp [h.parties]),
      if_pos (isEmpty_of_forall₂_nil hitems (hbatch i))]
    rfl
  check {o q vs} h i _ := by
    change ThresholdOpener.check.run ⟨i, n⟩ (o i) = _
    rw [ThresholdOpener.check, Action.run_get_bind, if_neg (by simp [h.fresh])]
    rfl
  finalize {o q} h i := by
    change ThresholdOpener.finalize (o i) = _
    rw [ThresholdOpener.finalize, if_neg (by simp [h.fresh]),
      (Queue.dequeue?_eq_none_iff _).2 (List.forall₂_nil_right_iff.1 (h.received i))]

end ThresholdOpener

end Multiparty
