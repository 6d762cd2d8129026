import Mathlib
import Multiparty.Proofs.Opening.Batch
import Multiparty.Proofs.Opening.Redundancy
import Multiparty.Proofs.Transcript

/-!
# Opening threshold shares among deviating parties

Parties that deviate may send what they want, and to every receiver something else. An honest party
whose exchange succeeds has heard one column of evaluations of every sender, of the honest ones the
right one. As more senders are honest than the threshold says, no wrong value can be reconstructed.

## Main definitions

* `ThresholdOpener.Made`: openers with given parameters after any use.
* `ThresholdOpener.Gathers`: what visits add to the evaluations collected so far.
* `ThresholdOpener.PassesThrough`: polynomials through evaluations.

## Main results

* `ThresholdOpener.ensures_exchange`: an exchange with an arbitrary network.
* `ThresholdOpener.nth_finalize`: what is taken afterwards.
* `ThresholdOpener.open_among_deviating`: the values that honest parties obtain.
* `ThresholdOpener.finalize_decides_polynomial`: which evaluations lead to a value.
-/

namespace Multiparty

open Polynomial
open Multiparty.Action (Ensures)

namespace ThresholdOpener

variable {F : Type} [CodedField F] {n : Nat}

/-- An opener made with the given parameters, after any use. -/
def Made (party parties threshold : Nat) (malicious : Bool) (o : ThresholdOpener F) : Prop :=
  ∃ fresh batch received poisoned, create party parties threshold malicious = .ok fresh ∧
    o = { fresh with batch := batch, received := received, poisoned := poisoned }

/-- What an opener that has been made keeps whatever its use. -/
theorem Made.spec {party threshold : Nat} {malicious : Bool} {o : ThresholdOpener F}
    (h : Made party n threshold malicious o) :
    o.party = party ∧ o.parties = n ∧ o.malicious = malicious ∧
      o.senders = sendersFor threshold malicious ∧ o.senders = threshold + o.rows.length ∧
      SoundRows n threshold o.rows := by
  obtain ⟨fresh, batch, received, poisoned, hcreate, rfl⟩ := h
  obtain ⟨rows, hrows, hsenders, rfl⟩ := exists_of_create hcreate
  have hsound := soundRows_of_mapM hrows hsenders
  have hlength : rows.length = sendersFor threshold malicious - threshold := by
    rw [← (forall₂_of_mapM hrows).length_eq, List.length_range']
  have hpos : 0 < rows.length := List.length_pos_of_ne_nil hsound.ne_nil
  refine ⟨rfl, rfl, rfl, ?_, rfl, hsound⟩
  change threshold + rows.length = _
  omega

theorem foldl_prepare (shares : List (ThresholdShare F)) (o : ThresholdOpener F) :
    shares.foldl (fun o s => Opener.prepare s o) o =
      { o with batch := o.batch ++ shares.toArray } := by
  induction shares generalizing o with
  | nil => simp
  | cons s shares ih =>
    rw [List.foldl_cons, ih]
    simp [Opener.prepare]

theorem prepareAll_eq (shares : List (ThresholdShare F)) (o : ThresholdOpener F) :
    Opener.prepareAll shares o = { o with batch := shares.toArray, received := .empty } := by
  rw [Opener.prepareAll, foldl_prepare]
  simp [Opener.init]

theorem Made.prepareAll {party threshold : Nat} {malicious : Bool} {o : ThresholdOpener F}
    (h : Made party n threshold malicious o) (shares : List (ThresholdShare F)) :
    Made party n threshold malicious (Opener.prepareAll shares o) := by
  obtain ⟨fresh, batch, received, poisoned, hcreate, rfl⟩ := h
  exact ⟨fresh, _, _, _, hcreate, prepareAll_eq shares _⟩

section Visits

variable {o s : ThresholdOpener F} {me distance : Nat} {payload : Bytes}
  {columns columns' columns'' : List (List F)} {t t' : List Event} {visited visited' : Nat → Prop}

/-- Visits collect one column of evaluations from each visited party, the one that was heard of it,
and leave alone what was collected of the others. -/
structure Gathers (size n me : Nat) (visited : Nat → Prop) (columns : List (List F))
    (t : List Event) (columns' : List (List F)) : Prop where
  length : columns'.length = columns.length
  heard : ∀ p < columns.length, visited p → ∃ values, values.length = size ∧
    columns'[p]? = some values ∧ heardFrom n me p t = [encodeValues values]
  silent : ∀ p < columns.length, ¬ visited p →
    columns'[p]? = columns[p]? ∧ heardFrom n me p t = []

namespace Gathers

variable {size : Nat}

theorem trans (h : Gathers size n me visited columns t columns')
    (h' : Gathers size n me visited' columns' t' columns'') (hdisjoint : ∀ p, visited p → ¬ visited' p) :
    Gathers size n me (fun p => visited p ∨ visited' p) columns (t ++ t') columns'' where
  length := h'.length.trans h.length
  heard p hp hvisited := by
    have hp' : p < columns'.length := h.length ▸ hp
    rcases hvisited with hvisited | hvisited
    · obtain ⟨values, hsize, hcolumn, hheard⟩ := h.heard p hp hvisited
      obtain ⟨hcolumn', hsilent⟩ := h'.silent p hp' (hdisjoint p hvisited)
      exact ⟨values, hsize, hcolumn'.trans hcolumn, by rw [heardFrom_append, hheard, hsilent]; rfl⟩
    · obtain ⟨values, hsize, hcolumn, hheard⟩ := h'.heard p hp' hvisited
      obtain ⟨-, hsilent⟩ := h.silent p hp fun hbefore => hdisjoint p hbefore hvisited
      exact ⟨values, hsize, hcolumn, by rw [heardFrom_append, hheard, hsilent]; rfl⟩
  silent p hp hvisited := by
    rw [not_or] at hvisited
    obtain ⟨hcolumn, hsilent⟩ := h.silent p hp hvisited.1
    obtain ⟨hcolumn', hsilent'⟩ := h'.silent p (h.length ▸ hp) hvisited.2
    exact ⟨hcolumn'.trans hcolumn, by rw [heardFrom_append, hsilent, hsilent']; rfl⟩

theorem congr (h : Gathers size n me visited columns t columns')
    (hvisited : ∀ p < columns.length, visited p ↔ visited' p) :
    Gathers size n me visited' columns t columns' where
  length := h.length
  heard p hp hp' := h.heard p hp ((hvisited p hp).2 hp')
  silent p hp hp' := h.silent p hp (mt (hvisited p hp).1 hp')

/-- A call that is no answer of a sender. -/
theorem of_silent (h : ∀ p < columns.length, heardFrom n me p t = [])
    (hvisited : ∀ p < columns.length, ¬ visited p) : Gathers size n me visited columns t columns where
  length := rfl
  heard p hp hp' := absurd hp' (hvisited p hp)
  silent p hp _ := ⟨rfl, h p hp⟩

end Gathers

variable [LawfulField F]

/-- A payload that is collected is a column of evaluations. -/
private theorem gathers_of_collect {source : Nat} {bytes : Bytes}
    (hheard : ∀ p, heardFrom n me p t = if p = source then [bytes] else [])
    (hcollect : collect o source columns bytes = .ok columns') :
    Gathers o.batch.size n me (source = ·) columns t columns' := by
  obtain ⟨values, hdecode, hset⟩ := exists_of_bind_eq_ok hcollect
  obtain ⟨rfl, hsize⟩ := (decodeValues_eq_ok_iff ..).1 hdecode
  obtain rfl := Except.ok.inj hset
  refine ⟨List.length_set, fun p hp hsource => ⟨values, hsize, ?_, ?_⟩, fun p hp hsource => ⟨?_, ?_⟩⟩
  · rw [hsource, List.getElem?_set_self hp]
  · rw [hheard, if_pos hsource.symm]
  · rw [List.getElem?_set_ne hsource]
  · rw [hheard, if_neg (Ne.symm hsource)]

/-- A visit sends the own payload only, and collects the evaluations of the party at its distance if
that one is a sender. -/
theorem ensures_visit (hparty : o.party = me) (hparties : o.parties = n) (hme : me < n)
    (hsenders : o.senders ≤ n) (hcolumns : columns.length = o.senders) (hpos : 0 < distance)
    (hlt : distance < n) :
    Ensures (visit o payload distance columns) ⟨me, n⟩ s fun t s' r => s' = s ∧
      (∀ peer, ∀ b ∈ sentTo n me peer t, b = payload) ∧ ∀ columns', r = .ok columns' →
        Gathers o.batch.size n me (fun p => (me + n - p) % n = distance) columns t columns' := by
  have hsource : ∀ p < columns.length, (me + n - distance) % n = p ↔ (me + n - p) % n = distance :=
    fun p hp => (distance_eq_iff hme (by omega) hpos hlt).symm
  have hskip (h : ¬ (me + n - distance) % n < o.senders) :
      ∀ p < columns.length, ¬ (me + n - p) % n = distance := by
    intro p hp hp'
    have := (hsource p hp).2 hp'
    omega
  rw [visit, hparty, hparties]
  cases decide (me < o.senders) <;>
    cases hsender : decide ((me + n - distance) % n < o.senders) <;> dsimp only
  · refine Ensures.pure ⟨rfl, by simp, ?_⟩
    rintro _ ⟨⟩
    exact .of_silent (fun _ _ => rfl) (hskip (of_decide_eq_false hsender))
  · refine Ensures.call_bind (fun bytes => Ensures.ofExcept ⟨rfl, ?_, fun _ hcollect => ?_⟩)
      fun e => ⟨rfl, ?_, by rintro _ ⟨⟩⟩
    · simp [Event.sentTo, Call.sends, eq_comm]
    · refine (gathers_of_collect (fun p => ?_) hcollect).congr hsource
      split_ifs with h <;> simp [Event.heardFrom, Turn.gets, h]
    · simp [Event.sentTo, Call.sends, eq_comm]
  · refine Ensures.call_bind (fun _ => Ensures.pure ⟨rfl, ?_, ?_⟩) fun e => ⟨rfl, ?_, by rintro _ ⟨⟩⟩
    · simp [Event.sentTo, Call.sends, eq_comm]
    · rintro _ ⟨⟩
      exact .of_silent (fun _ _ => rfl) (hskip (of_decide_eq_false hsender))
    · simp [Event.sentTo, Call.sends, eq_comm]
  · refine Ensures.call_bind (fun bytes => Ensures.ofExcept ⟨rfl, ?_, fun _ hcollect => ?_⟩)
      fun e => ⟨rfl, ?_, by rintro _ ⟨⟩⟩
    · simp [Event.sentTo, Call.sends, eq_comm]
    · refine (gathers_of_collect (fun p => ?_) hcollect).congr hsource
      split_ifs with h <;> simp [Event.heardFrom, Turn.gets, Nat.mod_eq_of_lt hlt, h]
    · simp [Event.sentTo, Call.sends, eq_comm]

/-- The visits of a party at the distances from some distance on. -/
theorem ensures_exchangeAt (hparty : o.party = me) (hparties : o.parties = n) (hme : me < n)
    (hsenders : o.senders ≤ n) (hcolumns : columns.length = o.senders) (hpos : 0 < distance)
    {k : Nat} (hk : distance + k = n) :
    Ensures (exchangeAt o payload (List.range' distance k) columns) ⟨me, n⟩ s fun t s' r => s' = s ∧
      (∀ peer, ∀ b ∈ sentTo n me peer t, b = payload) ∧ ∀ columns', r = .ok columns' →
        Gathers o.batch.size n me (fun p => distance ≤ (me + n - p) % n) columns t columns' := by
  induction k generalizing distance columns with
  | zero =>
    refine Ensures.pure ⟨rfl, by simp, ?_⟩
    rintro _ ⟨⟩
    refine .of_silent (fun _ _ => rfl) fun p _ h => ?_
    have := Nat.mod_lt (me + n - p) (Nat.zero_lt_of_lt hme)
    omega
  | succ k ih =>
    refine Ensures.bind ((ensures_visit hparty hparties hme hsenders hcolumns hpos (by omega)).mono ?_)
    rintro t s' (e | columns₁) ⟨rfl, hsent, hgathers⟩
    · exact ⟨rfl, hsent, by rintro _ ⟨⟩⟩
    · have hvisit := hgathers columns₁ rfl
      refine (ih (hvisit.length.trans hcolumns) (Nat.succ_pos _) (by omega)).mono ?_
      rintro t' s'' r ⟨rfl, hsent', hgathers'⟩
      refine ⟨rfl, ?_, fun columns₂ hr => ?_⟩
      · intro peer b hb
        rw [sentTo_append, List.mem_append] at hb
        exact hb.elim (hsent peer b) (hsent' peer b)
      · exact (hvisit.trans (hgathers' columns₂ hr) fun p => by omega).congr fun p _ => by omega

end Visits

section Exchange

variable [LawfulField F] {me threshold : Nat} {malicious : Bool} {o : ThresholdOpener F}

/-- What a successful exchange leaves behind: of every sender the evaluations that were heard of it,
sorted by openings. -/
structure Exchanged (o : ThresholdOpener F) (t : List Event) (received : Nat → List F)
    (o' : ThresholdOpener F) : Prop where
  fresh : o.poisoned = false
  own : o.party < o.senders → received o.party = o.batch.toList.map (·.value)
  length : ∀ p < o.senders, (received p).length = o.batch.size
  heard : ∀ p < o.senders, p ≠ o.party → heardFrom o.parties o.party p t =
    if o.batch.size = 0 then [] else [encodeValues (received p)]
  queue : o'.received.toList = o.received.toList ++ (List.range o.batch.size).map fun k =>
    (List.range o.senders).map fun p => (received p).getD k 0
  rest : ∃ queue, o' = { o with batch := #[], received := queue }

omit [LawfulField F] in
private theorem exchanged_of_isEmpty {t : List Event} (hfresh : o.poisoned = false)
    (hempty : o.batch = #[]) (hsilent : ∀ p, heardFrom o.parties o.party p t = []) :
    Exchanged o t (fun _ => []) o where
  fresh := hfresh
  own _ := by simp [hempty]
  length _ _ := by simp [hempty]
  heard p _ _ := by simp [hempty, hsilent]
  queue := by simp [hempty]
  rest := ⟨o.received, by rw [← hempty]⟩

omit [LawfulField F] in
private theorem exchanged_record {t : List Event} {columns : List (List F)}
    (hfresh : o.poisoned = false) (hparty : o.party < o.parties) (hsenders : o.senders ≤ o.parties)
    (hbatch : o.batch.size ≠ 0)
    (h : Gathers o.batch.size o.parties o.party
      (fun p => 1 ≤ (o.party + o.parties - p) % o.parties)
      ((List.range o.senders).map fun p =>
        if p = o.party then o.batch.toList.map (·.value) else []) t columns) :
    Exchanged o t (fun p => columns.getD p []) (record columns o) := by
  have hlen : columns.length = o.senders := by simpa using h.length
  have hvisited {p : Nat} (hp : p < o.senders) :
      1 ≤ (o.party + o.parties - p) % o.parties ↔ p ≠ o.party := by
    rw [Round.mod_of_lt_two (by omega)]
    split <;> omega
  have hown (hp : o.party < o.senders) :
      columns.getD o.party [] = o.batch.toList.map (·.value) := by
    have hcolumn := (h.silent o.party (by simpa using hp) (by simp)).1
    rw [List.getD_eq_getElem?_getD, hcolumn]
    simp [hp]
  have hheard {p : Nat} (hp : p < o.senders) (hne : p ≠ o.party) :=
    h.heard p (by simpa using hp) ((hvisited hp).2 hne)
  refine ⟨hfresh, hown, fun p hp => ?_, fun p hp hne => ?_, ?_, ⟨_, rfl⟩⟩
  · by_cases hne : p = o.party
    · rw [hne, hown (hne ▸ hp), List.length_map, Array.length_toList]
    · obtain ⟨values, hsize, hcolumn, -⟩ := hheard hp hne
      rw [List.getD_eq_getElem?_getD, hcolumn, Option.getD_some, hsize]
  · obtain ⟨values, -, hcolumn, hvalues⟩ := hheard hp hne
    rw [if_neg hbatch, List.getD_eq_getElem?_getD, hcolumn, Option.getD_some, hvalues]
  · rw [record, Queue.toList_appendList, byOpening_eq]
    refine congrArg _ (List.map_congr_left fun k _ => List.ext_getElem (by simp [hlen]) ?_)
    intro p hp hp'
    have hp'' : p < columns.length := by simpa using hp
    rw [List.getElem_map, List.getElem_map, List.getElem_range, List.getD_eq_getElem _ _ hp'']

/-- Whatever the network does, a party sends its own evaluations only. An exchange that fails changes
nothing. -/
theorem ensures_exchange (h : Made me n threshold malicious o) (hme : me < n) :
    Ensures exchange ⟨me, n⟩ o fun t o' r =>
      (∀ peer, ∀ b ∈ sentTo n me peer t, b = encodeValues (o.batch.toList.map (·.value))) ∧
      match r with
      | .error _ => o' = o
      | .ok _ => ∃ received, Exchanged o t received o' := by
  obtain ⟨rfl, rfl, -, -, hcount, hrows⟩ := h.spec
  have hsenders : o.senders ≤ o.parties := hcount ▸ hrows.senders_le
  refine Ensures.get_bind (Ensures.seat_bind ?_)
  dsimp only
  split_ifs with hpoisoned hplayers hempty
  · exact Ensures.throw ⟨by simp, rfl⟩
  · exact absurd rfl hplayers
  · have hbatch : o.batch = #[] := by simpa using hempty
    exact Ensures.pure ⟨by simp, _, exchanged_of_isEmpty (by simpa using hpoisoned) hbatch
      fun _ => rfl⟩
  · have hbatch : o.batch.size ≠ 0 := by simpa using hempty
    refine Ensures.bind ((ensures_exchangeAt rfl rfl hme hsenders (by simp) Nat.one_pos
      (by omega)).mono ?_)
    rintro t s' (e | columns) ⟨rfl, hsent, hgathers⟩
    · exact ⟨hsent, rfl⟩
    · refine Ensures.modify ?_
      rw [List.append_nil]
      exact ⟨hsent, _, exchanged_record (by simpa using hpoisoned) hme hsenders hbatch
        (hgathers columns rfl)⟩

end Exchange

section Taking

/-- What is taken are the values reconstructed from what was received. -/
theorem nth_finalize (o : ThresholdOpener F) (k : Nat) : Attempt.nth finalize k o =
    takenAt (if o.poisoned then [none] else o.received.toList.map o.reconstruct?) k := by
  refine Attempt.nth_eq_takenAt (fun o openings =>
    o.poisoned = true ∧ openings.head? = some none ∨
      o.poisoned = false ∧ openings = o.received.toList.map o.reconstruct?)
    (fun o h => ?_) (fun o openings h => ?_) (fun o v openings h => ?_) (by split <;> simp_all) k
  · obtain ⟨-, h⟩ | ⟨hfresh, h⟩ := h
    · cases h
    · have hdequeue := (Queue.dequeue?_eq_none_iff _).2 (List.map_eq_nil_iff.1 h.symm)
      exact ⟨o, by rw [finalize, if_neg (by simp [hfresh]), hdequeue], .inr ⟨hfresh, h⟩⟩
  · obtain ⟨hpoisoned, h⟩ | ⟨hfresh, h⟩ := h
    · exact ⟨o, by rw [finalize, if_pos hpoisoned], .inl ⟨hpoisoned, rfl⟩⟩
    · obtain ⟨ys, rest, hlist, hys, -⟩ := List.map_eq_cons_iff.1 h.symm
      obtain ⟨queue, hdequeue, -⟩ := Queue.exists_dequeue? hlist
      refine ⟨{ o with received := queue, poisoned := true }, ?_, .inl ⟨rfl, rfl⟩⟩
      rw [finalize, if_neg (by simp [hfresh]), hdequeue]
      dsimp only
      rw [show reconstruct? { o with received := queue } ys = none from hys]
  · obtain ⟨-, h⟩ | ⟨hfresh, h⟩ := h
    · cases h
    · obtain ⟨ys, rest, hlist, hys, hrest⟩ := List.map_eq_cons_iff.1 h.symm
      obtain ⟨queue, hdequeue, hqueue⟩ := Queue.exists_dequeue? hlist
      refine ⟨{ o with received := queue }, ?_, .inr ⟨hfresh, ?_⟩⟩
      · rw [finalize, if_neg (by simp [hfresh]), hdequeue]
        dsimp only
        rw [show reconstruct? { o with received := queue } ys = some v from hys]
      · rw [hqueue, ← hrest]
        rfl

variable [LawfulField F] [LawfulPoints F] {threshold : Nat} {honest : Finset (Fin n)}

/-- Evaluations that honest senders have sent as they are determine the value, if no more parties
deviate than the threshold says: either all are right, or they are refused. -/
theorem reconstruct?_of_honest {party : Nat} {o : ThresholdOpener F}
    (hmade : Made party n threshold true o) (hcard : honestᶜ.card ≤ threshold)
    {x : Fin n → ThresholdShare F} {v : F} (hx : ThresholdShare.Valid threshold x v) {ys : List F}
    (hlen : ys.length = o.senders)
    (hright : ∀ p ∈ honest, (p : Nat) < o.senders → ys[(p : Nat)]? = some (x p).value) :
    o.reconstruct? ys = if ys = evaluations o.senders x then some v else none := by
  obtain ⟨-, -, hmalicious, hsenders, hcount, hrows⟩ := hmade.spec
  have hiff := reconstruct?_eq_some_iff hmalicious hrows (hlen.trans hcount)
  split_ifs with heq
  · rw [hiff, heq, hcount]
    exact opens_of_valid hrows.senders_le hx
  · by_contra hsome
    obtain ⟨w, hw⟩ := Option.ne_none_iff_exists'.1 hsome
    obtain ⟨f, hf, -, heval⟩ := hx
    let agree : Finset Nat := Finset.range o.senders \ honestᶜ.map Fin.valEmbedding
    have hagree : threshold < agree.card := by
      have hle := Finset.le_card_sdiff (honestᶜ.map Fin.valEmbedding) (Finset.range o.senders)
      rw [Finset.card_range, Finset.card_map] at hle
      have hsize : o.senders = 2 * threshold + 1 := hsenders
      exact lt_of_lt_of_le (by omega) hle
    have hlt {p : Nat} (hp : p < o.senders) : p < n := by
      have := hrows.senders_le
      omega
    refine heq ((((hiff w).1 hw).eq_of_agree hrows.injOn_partyPoint hf
      (hcount ▸ Finset.sdiff_subset) hagree fun p hp => ?_).2.trans ?_)
    · obtain ⟨hp, hhonest⟩ := Finset.mem_sdiff.1 hp
      rw [Finset.mem_range] at hp
      have hmem : (⟨p, hlt hp⟩ : Fin n) ∈ honest := by
        by_contra hnot
        exact hhonest (Finset.mem_map.2 ⟨_, Finset.mem_compl.2 hnot, rfl⟩)
      rw [hright _ hmem hp, heval]
    · rw [evaluations, hcount]
      refine List.map_congr_left fun p hp => ?_
      rw [dif_pos (hlt (hcount ▸ List.mem_range.1 hp)), heval]

variable {items : List (Fin n → ThresholdShare F)} {secrets : List F}
  {o : Fin n → ThresholdOpener F}

omit [LawfulField F] [LawfulPoints F] in
private theorem own_column (items : List (Fin n → ThresholdShare F)) (o : ThresholdOpener F)
    (i : Fin n) : (Opener.prepareAll (items.map (· i)) o).batch.toList.map (·.value) =
      column items i := by
  simp [prepareAll_eq, column]

omit [LawfulPoints F] in
/-- What an honest party has received of an honest sender is what that one holds. -/
private theorem received_of_honest (hmade : ∀ i ∈ honest, Made i n threshold true (o i))
    {answers : Fin n → Answers}
    (hdelivered : Delivered honest fun i => (Opener.reveal items o i).transcript (answers i))
    {i p : Fin n} (hi : i ∈ honest) (hp : p ∈ honest) {received : Nat → List F}
    {after : ThresholdOpener F} (hexchanged : Exchanged (Opener.prepareAll (items.map (· i)) (o i))
      ((Opener.reveal items o i).transcript (answers i)) received after)
    (hsender : (p : Nat) < 2 * threshold + 1) : received p = column items p := by
  have hprepared := (hmade i hi).prepareAll (items.map (· i))
  obtain ⟨hparty, hparties, -, hsenders, -, -⟩ := hprepared.spec
  replace hsender : (p : Nat) < (Opener.prepareAll (items.map (· i)) (o i)).senders :=
    hsenders ▸ hsender
  have hown := hexchanged.own
  have hlength := hexchanged.length p hsender
  have hheard := hexchanged.heard p hsender
  rw [hparty, hparties] at hheard
  rw [hparty, own_column] at hown
  by_cases hpi : p = i
  · subst hpi
    exact hown hsender
  have hsize : (Opener.prepareAll (items.map (· i)) (o i)).batch.size = items.length := by
    simp [prepareAll_eq]
  rw [hsize] at hlength hheard
  replace hheard := hheard fun h => hpi (Fin.ext h)
  by_cases hempty : items.length = 0
  · rw [List.length_eq_zero_iff] at hempty
    subst hempty
    rw [List.length_nil, List.length_eq_zero_iff] at hlength
    simp [hlength, column]
  · rw [if_neg hempty] at hheard
    have hsent := hdelivered i hi p hp (Ne.symm hpi) (encodeValues (received p))
      (by rw [hheard]; exact List.mem_singleton_self _)
    have hpayload := (ensures_exchange ((hmade p hp).prepareAll (items.map (· p))) p.isLt
      (answers p)).1 i _ hsent
    rw [own_column] at hpayload
    exact encodeValues_injective hpayload

omit [LawfulField F] [LawfulPoints F] in
/-- The evaluations received of an item are the right ones if all columns are right there. -/
private theorem eq_evaluations_iff {senders : Nat} (hsenders : senders ≤ n) {received : Nat → List F}
    (hlength : ∀ p < senders, (received p).length = items.length) {j : Nat} (hj : j < items.length) :
    ((List.range senders).map fun p => (received p).getD j 0) = evaluations senders items[j] ↔
      ∀ p < senders, (received p)[j]? = (column items p)[j]? := by
  rw [evaluations, List.map_inj_left]
  refine forall_congr' fun p => ?_
  rw [List.mem_range]
  refine forall_congr' fun hp => ?_
  have hlt : p < n := hp.trans_le hsenders
  have hj' : j < (received p).length := (hlength p hp).symm ▸ hj
  simp [column, hlt, hj, hj']

/-- The openings that an honest party takes after a successful exchange. -/
private theorem openings_of_exchanged (hcard : honestᶜ.card ≤ threshold)
    (hitems : List.Forall₂ (ThresholdShare.Valid threshold) items secrets) {i : Fin n}
    {after prepared : ThresholdOpener F} (hmade : Made i n threshold true prepared)
    (hempty : prepared.received.toList = []) (hsize : prepared.batch.size = items.length)
    {t : List Event} {received : Nat → List F} (hexchanged : Exchanged prepared t received after)
    (hright : ∀ p ∈ honest, (p : Nat) < 2 * threshold + 1 → received p = column items p) (j : Nat) :
    (after.received.toList.map after.reconstruct?)[j]? = secrets[j]?.map fun v =>
      if ∀ p < 2 * threshold + 1, (received p)[j]? = (column items p)[j]? then some v else none := by
  obtain ⟨-, -, -, hsenders, hcount, hrows⟩ := hmade.spec
  replace hsenders : prepared.senders = 2 * threshold + 1 := hsenders
  obtain ⟨queue, rfl⟩ := hexchanged.rest
  rw [hexchanged.queue, hempty, hsize, List.nil_append, List.map_map]
  by_cases hj : j < items.length
  · have hj' : j < secrets.length := hitems.length_eq ▸ hj
    have hvalid := hitems.get hj hj'
    have hlength := hexchanged.length
    rw [hsize] at hlength
    have hle : prepared.senders ≤ n := hcount ▸ hrows.senders_le
    have hiff := eq_evaluations_iff hle hlength hj
    rw [List.getElem?_map, List.getElem?_range hj, List.getElem?_eq_getElem hj', Option.map_some,
      Option.map_some, ← hsenders, ← if_congr hiff rfl rfl]
    refine congrArg some (reconstruct?_of_honest hmade hcard hvalid (by simp) fun p hp hsender => ?_)
    rw [List.getElem?_map, List.getElem?_range hsender, Option.map_some,
      hright p hp (hsenders ▸ hsender)]
    simp [column, hj]
  · have hj' : ¬ j < secrets.length := hitems.length_eq ▸ hj
    simp [hj, hj']

/-- **Opening among deviating parties.** In malicious mode let no more parties deviate than the
threshold says, in any way. Honest parties obtain no value but the right one. If the exchange of an
honest party succeeds, it has heard a column of evaluations of every other sender, and takes the value
of an item if all evaluations of it, and of the items before, were right; else it fails. -/
theorem open_among_deviating (hcard : honestᶜ.card ≤ threshold)
    (hitems : List.Forall₂ (ThresholdShare.Valid threshold) items secrets)
    (hmade : ∀ i ∈ honest, Made i n threshold true (o i)) (answers : Fin n → Answers)
    (hdelivered : Delivered honest fun i => (Opener.reveal items o i).transcript (answers i))
    {i : Fin n} (hi : i ∈ honest) :
    let after := (Opener.reveal items o i).under (answers i)
    let transcript := (Opener.reveal items o i).transcript (answers i)
    (∀ k v, Attempt.nth finalize k after.1 = .ok v → secrets[k]? = some v) ∧
      (after.2 = .ok () → ∃ received : Nat → List F,
        ((i : Nat) < 2 * threshold + 1 → received i = column items i) ∧
        (∀ p < 2 * threshold + 1, (received p).length = items.length ∧ (p ≠ i →
          heardFrom n i p transcript = if items = [] then [] else [encodeValues (received p)])) ∧
        ∀ k, (∀ v, Attempt.nth finalize k after.1 = .ok v ↔ secrets[k]? = some v ∧
            ∀ j ≤ k, ∀ p < 2 * threshold + 1, (received p)[j]? = (column items p)[j]?) ∧
          (Attempt.nth finalize k after.1 = .error .macFail ↔
            ¬ ∀ j ≤ k, ∀ p < 2 * threshold + 1, (received p)[j]? = (column items p)[j]?)) := by
  intro after transcript
  have hprepared := (hmade i hi).prepareAll (items.map (· i))
  have hbatch : (Opener.prepareAll (items.map (· i)) (o i)).batch.size = items.length := by
    simp [prepareAll_eq]
  have hempty : (Opener.prepareAll (items.map (· i)) (o i)).received.toList = [] := by
    rw [prepareAll_eq, Queue.toList_empty]
  obtain ⟨-, hafter⟩ := ensures_exchange hprepared i.isLt (answers i)
  change (match after.2 with
    | .error _ => after.1 = Opener.prepareAll (items.map (· i)) (o i)
    | .ok _ => ∃ received, Exchanged (Opener.prepareAll (items.map (· i)) (o i)) transcript received
        after.1) at hafter
  cases hresult : after.2 with
  | error e =>
    rw [hresult] at hafter
    dsimp only at hafter
    refine ⟨fun k v hv => ?_, by simp⟩
    rw [hafter, nth_finalize, hempty] at hv
    exact absurd hv (takenAt_ne_ok (by split <;> simp) k v)
  | ok _ =>
    rw [hresult] at hafter
    obtain ⟨received, hexchanged⟩ := hafter
    obtain ⟨hparty, hparties, -, hsenders, -, -⟩ := hprepared.spec
    replace hsenders : (Opener.prepareAll (items.map (· i)) (o i)).senders = 2 * threshold + 1 :=
      hsenders
    have hfresh : after.1.poisoned = false := by
      obtain ⟨queue, hrest⟩ := hexchanged.rest
      rw [hrest]
      exact hexchanged.fresh
    have hlength : ∀ p < 2 * threshold + 1, (received p).length = items.length :=
      fun p hp => (hexchanged.length p (hsenders ▸ hp)).trans hbatch
    have htaken (k : Nat) := takenAt_admitted
      (openings_of_exchanged hcard hitems hprepared hempty hbatch hexchanged
        fun p hp hsender => received_of_honest hmade hdelivered hi hp hexchanged hsender)
      (fun j hj p hp => by
        have hj' : items.length ≤ j := hitems.length_eq ▸ hj
        have hcolumn : (column items p).length ≤ j := by
          rw [column]
          split <;> simp [hj']
        rw [List.getElem?_eq_none ((hlength p hp).trans_le hj'), List.getElem?_eq_none hcolumn]) k
    have hnth (k : Nat) : Attempt.nth finalize k after.1 =
        takenAt (after.1.received.toList.map after.1.reconstruct?) k := by
      rw [nth_finalize, hfresh]
      rfl
    refine ⟨fun k v hv => ?_, fun _ => ⟨received, fun hi' => ?_, fun p hp => ⟨hlength p hp, ?_⟩,
      fun k => by rw [hnth]; exact htaken k⟩⟩
    · rw [hnth, (htaken k).1] at hv
      exact hv.1
    · exact received_of_honest hmade hdelivered hi hi hexchanged hi'
    · intro hpi
      have hheard := hexchanged.heard p (hsenders ▸ hp)
      rw [hparty, hparties, hbatch] at hheard
      rw [hheard hpi]
      exact if_congr List.length_eq_zero_iff rfl rfl

end Taking

section Example

-- The parties below name this instance, whatever else is imported.
private theorem trio_neZero : NeZero 3 := inferInstance

attribute [local instance] trio_neZero

/-- The field elements five and ten are shared by the polynomials `5 + X` and `10`. -/
private def twoSharings : List (Fin 3 → ThresholdShare Mersenne61) :=
  [[5, 1], [10, 0]].map fun coefficients i =>
    ⟨evaluate (coefficients.map CodedRing.ofWord) (partyPoint i)⟩

/-- A network in which the last party tells the first one a wrong evaluation of the second item. -/
private def lyingNetwork (i : Fin 3) : Answers := fun _ c =>
  let told (source : Nat) := encodeValues
    (if source = 2 ∧ i = 0 then [8, 11].map CodedRing.ofWord else column twoSharings source)
  match c with
  | .send .. => .ok ()
  | .receive source => .ok (told source)
  | .broadcast _ => .ok []
  | .pass offset _ => .ok (told ((i + 3 - offset) % 3))

/-- Openers of three parties for threshold one. -/
private def trio (i : Fin 3) : ThresholdOpener Mersenne61 :=
  ⟨i, 3, 1, true, [[2, 2305843009213693950], [3, 2305843009213693948, 1]].map
    (·.map CodedRing.ofWord), #[], .empty, false⟩

/-- The party to which the wrong evaluation is told takes the first value and refuses the second; the
other one takes both. -/
theorem open_among_deviating_lie :
    let after (i : Fin 3) := (Opener.reveal twoSharings trio i).under (lyingNetwork i)
    (∀ i : Fin 3, Made i 3 1 true (trio i)) ∧
      Delivered {0, 1} (fun i : Fin 3 => (Opener.reveal twoSharings trio i).transcript (lyingNetwork i)) ∧
      (after 0).2 = .ok () ∧ (after 1).2 = .ok () ∧
      Attempt.nth finalize 0 (after 0).1 = .ok (CodedRing.ofWord 5) ∧
      Attempt.nth finalize 1 (after 0).1 = .error .macFail ∧
      Attempt.nth finalize 1 (after 1).1 = .ok (CodedRing.ofWord 10) := by
  intro after
  have hmade (i : Fin 3) : Made i 3 1 true (trio i) :=
    ⟨trio i, _, _, _, create_eq_ok (by decide) (by decide) i.isLt (by decide +kernel), rfl⟩
  have hvalid : List.Forall₂ (ThresholdShare.Valid 1) twoSharings
      [CodedRing.ofWord 5, CodedRing.ofWord 10] :=
    .cons (ThresholdShare.valid_evaluate _ rfl) (.cons (ThresholdShare.valid_evaluate _ rfl) .nil)
  have hdelivered : Delivered {0, 1}
      fun i : Fin 3 => (Opener.reveal twoSharings trio i).transcript (lyingNetwork i) := by
    decide +kernel
  have hok₀ : (after 0).2 = .ok () := by decide +kernel
  have hok₁ : (after 1).2 = .ok () := by decide +kernel
  have hcard : ({0, 1} : Finset (Fin 3))ᶜ.card ≤ 1 := by decide
  have htheorem (i : Fin 3) (hi : i ∈ ({0, 1} : Finset (Fin 3))) :=
    (open_among_deviating hcard hvalid (fun i _ => hmade i) lyingNetwork hdelivered hi).2
  obtain ⟨received₀, hown₀, hheard₀, htaken₀⟩ := htheorem 0 (by decide) hok₀
  obtain ⟨received₁, hown₁, hheard₁, htaken₁⟩ := htheorem 1 (by decide) hok₁
  have hlie : received₀ 2 = [8, 11].map CodedRing.ofWord :=
    eq_of_payload (List.cons_ne_nil _ _) ((hheard₀ 2 (by decide)).2 (by decide)) (by decide +kernel)
  have htruth₀ (p : Nat) (hp : p < 2) : received₀ p = column twoSharings p := by
    interval_cases p
    · exact hown₀ (by decide)
    · exact eq_of_payload (List.cons_ne_nil _ _) ((hheard₀ 1 (by decide)).2 (by decide)) (by decide +kernel)
  have htruth₁ (p : Nat) (hp : p < 3) : received₁ p = column twoSharings p := by
    interval_cases p
    · exact eq_of_payload (List.cons_ne_nil _ _) ((hheard₁ 0 (by decide)).2 (by decide)) (by decide +kernel)
    · exact hown₁ (by decide)
    · exact eq_of_payload (List.cons_ne_nil _ _) ((hheard₁ 2 (by decide)).2 (by decide)) (by decide +kernel)
  refine ⟨hmade, hdelivered, hok₀, hok₁, ((htaken₀ 0).1 _).2 ⟨rfl, fun j hj p hp => ?_⟩,
    (htaken₀ 1).2.2 fun h => ?_, ((htaken₁ 1).1 _).2 ⟨rfl, fun j _ p hp => ?_⟩⟩
  · obtain rfl := Nat.le_zero.1 hj
    by_cases hp' : p < 2
    · rw [htruth₀ p hp']
    · obtain rfl : p = 2 := by omega
      rw [hlie]
      decide +kernel
  · have hsecond := h 1 le_rfl 2 (by decide)
    rw [hlie] at hsecond
    exact absurd hsecond (by decide +kernel)
  · rw [htruth₁ p hp]

end Example

section Consistency

/-- A polynomial of degree at most the threshold with the given values at the points of the
parties. -/
def PassesThrough [LawfulField F] (threshold : Nat) {m : Nat} (ys : Fin m → F) (f : F[X]) : Prop :=
  f.natDegree ≤ threshold ∧ ∀ i : Fin m, f.eval (partyPoint i) = ys i

variable [LawfulField F] {threshold : Nat}

/-- The evaluations of a value, by the polynomials through them. -/
private theorem opens_iff_passesThrough {m : Nat} (ys : Fin m → F) (v : F) :
    Opens threshold m (List.ofFn ys) v ↔ ∃ f, PassesThrough threshold ys f ∧ f.eval 0 = v := by
  refine exists_congr fun f => ?_
  have hdegree : f ∈ degreeLT F (threshold + 1) ↔ f.natDegree ≤ threshold := by
    rw [mem_degreeLT, degree_lt_iff_coeff_zero, natDegree_le_iff_coeff_eq_zero]
    exact Iff.rfl
  have hvalues : (List.ofFn ys = (List.range m).map fun p => f.eval (partyPoint p)) ↔
      ∀ i : Fin m, f.eval (partyPoint i) = ys i := by
    have hrange : ((List.range m).map fun p => f.eval (partyPoint p)) =
        List.ofFn fun i : Fin m => f.eval (partyPoint i) := List.ext_getElem (by simp) (by simp)
    rw [hrange, List.ofFn_inj, funext_iff]
    exact forall_congr' fun _ => eq_comm
  rw [hdegree, hvalues, coeff_zero_eq_eval_zero, PassesThrough, and_assoc, and_comm (b := _ = v)]

/-- **Malicious reconstruction decides consistency.** Let an opener that is not poisoned have been
made for a threshold in malicious mode, and let any evaluations of the `2 * threshold + 1` senders
be the next to be taken. A value is obtained exactly if they are those of a polynomial of degree at
most the threshold, and it is the value of the polynomial at zero. If there is no such polynomial,
the opener fails and is poisoned. -/
theorem finalize_decides_polynomial [LawfulPoints F] {party : Nat} {o : ThresholdOpener F}
    (hmade : Made party n threshold true o) (husable : o.poisoned = false)
    {ys : Fin (2 * threshold + 1) → F} {rest : Queue (List F)}
    (hnext : o.received.dequeue? = some (List.ofFn ys, rest)) :
    (∀ v, finalize o = (.ok v, { o with received := rest }) ↔
        ∃ f, PassesThrough threshold ys f ∧ f.eval 0 = v) ∧
      ((¬ ∃ f, PassesThrough threshold ys f) →
        finalize o = (.error .macFail, { o with received := rest, poisoned := true })) := by
  obtain ⟨-, -, hmalicious, hsenders, hcount, hrows⟩ := hmade.spec
  replace hsenders : o.senders = 2 * threshold + 1 := hsenders
  have hlen : (List.ofFn ys).length = threshold + o.rows.length := by
    rw [List.length_ofFn, ← hsenders, hcount]
  have hvalue (v : F) : reconstruct? { o with received := rest } (List.ofFn ys) = some v ↔
      ∃ f, PassesThrough threshold ys f ∧ f.eval 0 = v := by
    have hopens := reconstruct?_eq_some_iff (o := { o with received := rest }) hmalicious hrows hlen
      v
    rwa [← hcount, hsenders, opens_iff_passesThrough] at hopens
  have hfresh : ¬ o.poisoned = true := by rw [husable]; exact Bool.false_ne_true
  cases hresult : reconstruct? { o with received := rest } (List.ofFn ys) with
  | some w =>
    have htaken : finalize o = (.ok w, { o with received := rest }) := by
      rw [finalize, if_neg hfresh, hnext]
      simp only [hresult]
    refine ⟨fun v => ?_, fun hnone => ?_⟩
    · rw [← hvalue, htaken, hresult]
      simp
    · obtain ⟨f, hf, -⟩ := (hvalue w).1 hresult
      exact absurd ⟨f, hf⟩ hnone
  | none =>
    have hrefused : finalize o =
        (.error .macFail, { o with received := rest, poisoned := true }) := by
      rw [finalize, if_neg hfresh, hnext]
      simp only [hresult]
    refine ⟨fun v => ?_, fun _ => hrefused⟩
    rw [← hvalue, hrefused, hresult]
    simp

attribute [local instance] trio_neZero

/-- The first of three parties, before it takes a value of which it has the given evaluations. -/
private def undecided (ys : Fin 3 → Mersenne61) : ThresholdOpener Mersenne61 :=
  { trio 0 with received := ⟨[List.ofFn ys], []⟩ }

/-- A line passes through 6, 7 and 8 at the points of three parties, and has the value 5 at zero.
There is none through 6, 7 and 9. -/
theorem finalize_decides_polynomial_line :
    (∃ f, PassesThrough 1 (![6, 7, 8] : Fin 3 → Mersenne61) f ∧ f.eval 0 = 5) ∧
      ¬ ∃ f, PassesThrough 1 (![6, 7, 9] : Fin 3 → Mersenne61) f := by
  have hmade (ys : Fin 3 → Mersenne61) : Made 0 3 1 true (undecided ys) :=
    ⟨trio 0, #[], _, false, create_eq_ok (by decide) (by decide) (by decide) (by decide +kernel), rfl⟩
  have hnext (ys : Fin 3 → Mersenne61) :
      (undecided ys).received.dequeue? = some (List.ofFn ys, ⟨[], []⟩) := rfl
  have hdecides (ys : Fin 3 → Mersenne61) :=
    finalize_decides_polynomial (hmade ys) rfl (hnext ys)
  have hvalue : finalize (undecided ![6, 7, 8]) = (.ok 5, { trio 0 with received := ⟨[], []⟩ }) := by
    rfl
  have hfailure : (finalize (undecided ![6, 7, 9])).1 = .error .macFail := by decide +kernel
  refine ⟨((hdecides _).1 _).1 hvalue, fun ⟨f, hf⟩ => ?_⟩
  rw [((hdecides _).1 _).2 ⟨f, hf, rfl⟩] at hfailure
  cases hfailure

end Consistency

end ThresholdOpener

end Multiparty
