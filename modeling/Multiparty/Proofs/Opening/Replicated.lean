import Mathlib
import Multiparty.Opening.Replicated
import Multiparty.Proofs.Codec
import Multiparty.Proofs.Opening.Batch
import Multiparty.Proofs.Ring.Word
import Multiparty.Proofs.Transcript

/-!
# Opening replicated shares next to one deviating party

The part that an honest party misses is held by both of the others. In communication mode both send
it, one on each way around the ring, and at most one of the copies is not the right one. So an honest
party either takes the right value or notices that the copies differ.

## Main definitions

* `ReplicatedShare.Consistent`: the sharings that two honest parties hold together.
* `ReplicatedShare.missing`: the part that an honest party misses.
* `ReplicatedOpening.value?`: the value of an opening, unless its copies differ.

## Main results

* `ReplicatedOpener.ensures_exchange`: an exchange with an arbitrary network.
* `ReplicatedOpener.nth_finalize`: what is taken afterwards.
* `ReplicatedOpener.open_next_to_deviating`: the values that honest parties obtain.
-/

namespace Multiparty

open Multiparty.Action (Ensures)

variable {R : Type} [CodedRing R]

/-- The parties other than `c` agree on the part that both of them hold, and the three parts that
they hold together sum to the value. -/
structure ReplicatedShare.Consistent (c : Fin 3) (x : Fin 3 → ReplicatedShare R) (v : R) : Prop where
  common : (x (c + 1)).next = (x (c + 2)).own
  sum : (x (c + 1)).own + (x (c + 1)).next + (x (c + 2)).next = v

/-- The part of a sharing that party `h` misses, as the party that is neither `h` nor `c` holds it. -/
def ReplicatedShare.missing (c h : Fin 3) (x : Fin 3 → ReplicatedShare R) : R :=
  if h = c + 1 then (x (c + 2)).next else (x (c + 1)).own

/-- The value of an opening, refused if two copies of the missing part differ. -/
def ReplicatedOpening.value? (opening : ReplicatedOpening R) : Option R :=
  if opening.fromNext.any (· ≠ opening.fromPrevious) then none
  else some (opening.localSum + opening.fromPrevious)

theorem eq_or_eq_of_ne : ∀ {c h : Fin 3}, h ≠ c → h = c + 1 ∨ h = c + 2 := by decide

/-- The own parts of a party and the part that it misses sum to the value. -/
theorem ReplicatedShare.Consistent.sum_add_missing [LawfulRing R] {c h : Fin 3}
    {x : Fin 3 → ReplicatedShare R} {v : R} (hx : Consistent c x v) (hh : h ≠ c) :
    (x h).sum + missing c h x = v := by
  obtain rfl | rfl := eq_or_eq_of_ne hh
  · rw [missing, if_pos rfl, ReplicatedShare.sum, ← hx.sum]
  · rw [missing, if_neg (by simp), ReplicatedShare.sum, ← hx.common, ← hx.sum]
    ring

namespace ReplicatedOpener

theorem prepareAll_eq (shares : List (ReplicatedShare R)) (o : ReplicatedOpener R) :
    Opener.prepareAll shares o = { o with batch := shares.toArray, received := .empty } := by
  have hfrom (o : ReplicatedOpener R) : shares.foldl (fun o s => Opener.prepare s o) o =
      { o with batch := o.batch ++ shares.toArray } := by
    induction shares generalizing o with
    | nil => simp
    | cons s shares ih =>
      rw [List.foldl_cons, ih]
      simp [Opener.prepare]
  rw [Opener.prepareAll, hfrom]
  simp [Opener.init]

section Exchange

variable {me : Fin 3} {o : ReplicatedOpener R}

/-- Where the two ways around the ring lead. -/
private theorem places (me : Fin 3) : ((me : Nat) + 1) % 3 = (me + 1 : Fin 3) ∧
    ((me : Nat) + 2) % 3 = (me + 2 : Fin 3) ∧ (me + 1 : Fin 3).val ≠ (me + 2 : Fin 3).val := by
  revert me
  decide

/-- What a successful exchange leaves behind: for every queued share the missing part that was heard
of the previous party, and in communication mode that heard of the next one. -/
structure Exchanged (o : ReplicatedOpener R) (me : Fin 3) (t : List Event) (previous : List R)
    (next : List (Option R)) (o' : ReplicatedOpener R) : Prop where
  fresh : o.poisoned = false
  length : previous.length = o.batch.size
  heard : heardFrom 3 me (me + 2 : Fin 3) t =
    if o.batch.size = 0 then [] else [encodeValues previous]
  copies : if o.mode = .communication then ∃ copies, next = copies.map some ∧
      copies.length = o.batch.size ∧ heardFrom 3 me (me + 1 : Fin 3) t =
        if o.batch.size = 0 then [] else [encodeValues copies]
    else next = List.replicate o.batch.size none ∧ heardFrom 3 me (me + 1 : Fin 3) t = []
  queue : o'.received.toList = o.received.toList ++
    List.zipWith (fun (s, p) n => ⟨s.sum, p, n⟩) (o.batch.toList.zip previous) next
  rest : ∃ queue, o' = { o with batch := #[], received := queue }

variable [LawfulRing R]

/-- In communication mode the second parts are passed on, and second copies of the missing ones are
heard of the next party. -/
private theorem ensures_secondCopies : Ensures secondCopies ⟨me, 3⟩ o fun t s' r => s' = o ∧
    sentTo 3 me (me + 1 : Fin 3) t = [] ∧ heardFrom 3 me (me + 2 : Fin 3) t = [] ∧
    (∀ b ∈ sentTo 3 me (me + 2 : Fin 3) t,
      o.mode = .communication ∧ b = encodeValues (o.batch.toList.map (·.next))) ∧
    ∀ next, r = .ok next → if o.mode = .communication then ∃ copies, next = copies.map some ∧
        copies.length = o.batch.size ∧ heardFrom 3 me (me + 1 : Fin 3) t = [encodeValues copies]
      else next = List.replicate o.batch.size none ∧ heardFrom 3 me (me + 1 : Fin 3) t = [] := by
  obtain ⟨hone, htwo, hdistinct⟩ := places me
  refine Ensures.get_bind ?_
  cases hmode : o.mode with
  | communication =>
    refine Ensures.call_bind (fun payload => Ensures.ofExcept_bind (fun copies hcopies => ?_)
      fun e _ => ⟨rfl, ?_, ?_, ?_, by rintro _ ⟨⟩⟩) fun e => ⟨rfl, ?_, rfl, ?_, by rintro _ ⟨⟩⟩
    · obtain ⟨rfl, hsize⟩ := (decodeValues_eq_ok_iff ..).1 hcopies
      refine Ensures.pure ⟨rfl, ?_, ?_, ?_, ?_⟩
      · simp [Event.sentTo, Call.sends, htwo, hdistinct]
      · simp [Event.heardFrom, Turn.gets, hone, hdistinct.symm]
      · simp [Event.sentTo, Call.sends, htwo]
      · rintro _ ⟨⟩
        exact ⟨copies, rfl, hsize, by simp [Event.heardFrom, Turn.gets, hone]⟩
    · simp [Event.sentTo, Call.sends, htwo, hdistinct]
    · simp [Event.heardFrom, Turn.gets, hone, hdistinct.symm]
    · simp [Event.sentTo, Call.sends, htwo]
    · simp [Event.sentTo, Call.sends, htwo, hdistinct]
    · simp [Event.sentTo, Call.sends, htwo]
  | semiHonest => exact Ensures.pure ⟨rfl, rfl, rfl, by simp, by rintro _ ⟨⟩; exact ⟨rfl, rfl⟩⟩
  | hash => exact Ensures.pure ⟨rfl, rfl, rfl, by simp, by rintro _ ⟨⟩; exact ⟨rfl, rfl⟩⟩

/-- Whatever the network does, a party sends the first own parts to the next party, and at most the
second ones to the previous one. An exchange that fails changes nothing. -/
theorem ensures_exchange : Ensures exchange ⟨me, 3⟩ o fun t o' r =>
    sentTo 3 me (me + 1 : Fin 3) t = (if o.poisoned = true ∨ o.batch.size = 0 then []
      else [encodeValues (o.batch.toList.map (·.own))]) ∧
    (∀ b ∈ sentTo 3 me (me + 2 : Fin 3) t,
      o.mode = .communication ∧ b = encodeValues (o.batch.toList.map (·.next))) ∧
    match r with
    | .error _ => o' = o
    | .ok _ => ∃ previous next, Exchanged o me t previous next o' := by
  obtain ⟨hone, htwo, hdistinct⟩ := places me
  refine Ensures.get_bind (Ensures.seat_bind ?_)
  dsimp only
  by_cases hpoisoned : o.poisoned = true
  · rw [if_pos hpoisoned]
    exact Ensures.throw ⟨by simp [hpoisoned], by simp, rfl⟩
  have hplayers : ¬ 3 ≠ replicatedParties := by decide
  rw [if_neg hpoisoned, if_neg hplayers]
  by_cases hempty : o.batch = #[]
  · rw [if_pos (by simp [hempty])]
    refine Ensures.pure ⟨by simp [hempty], by simp, [], [], ?_⟩
    exact
      { fresh := by simpa using hpoisoned
        length := by simp [hempty]
        heard := by simp [hempty]
        copies := by simp [hempty]
        queue := by simp [hempty]
        rest := ⟨o.received, by rw [← hempty]⟩ }
  · have hbatch : o.batch.size ≠ 0 := by simpa using hempty
    rw [if_neg (by simpa using hempty), if_neg (by simp [hpoisoned, hempty])]
    refine Ensures.call_bind (fun payload => Ensures.ofExcept_bind (fun previous hprevious => ?_)
      fun e _ => ⟨?_, ?_, rfl⟩) fun e => ⟨?_, ?_, rfl⟩
    · obtain ⟨rfl, hsize⟩ := (decodeValues_eq_ok_iff ..).1 hprevious
      refine Ensures.bind (ensures_secondCopies.mono ?_)
      rintro t s' (e | next) ⟨rfl, hsent, hheard, hsent', hcopies⟩
      · refine ⟨?_, ?_, rfl⟩
        · simp [Event.sentTo, Call.sends, hone, hsent]
        · simpa [Event.sentTo, Call.sends, hone, hdistinct.symm] using hsent'
      · refine Ensures.modify ?_
        rw [List.append_nil]
        refine ⟨?_, ?_, previous, next, ?_⟩
        · simp [Event.sentTo, Call.sends, hone, hsent]
        · simpa [Event.sentTo, Call.sends, hone, hdistinct.symm] using hsent'
        · exact
            { fresh := by simpa using hpoisoned
              length := hsize
              heard := by simp [Event.heardFrom, Turn.gets, htwo, hheard, hbatch]
              copies := by
                simpa [Event.heardFrom, Turn.gets, htwo, hdistinct, hbatch] using hcopies next rfl
              queue := by rw [record, Queue.toList_appendList]
              rest := ⟨_, rfl⟩ }
    · simp [Event.sentTo, Call.sends, hone]
    · simp [Event.sentTo, Call.sends, hone, hdistinct.symm]
    · simp [Event.sentTo, Call.sends, hone]
    · simp [Event.sentTo, Call.sends, hone, hdistinct.symm]

end Exchange

/-- What is taken are the values of the openings that are not refused. -/
theorem nth_finalize (o : ReplicatedOpener R) (k : Nat) : Attempt.nth finalize k o =
    takenAt (if o.poisoned then [none] else o.received.toList.map ReplicatedOpening.value?) k := by
  refine Attempt.nth_eq_takenAt (fun o openings =>
    o.poisoned = true ∧ openings.head? = some none ∨
      o.poisoned = false ∧ openings = o.received.toList.map ReplicatedOpening.value?)
    (fun o h => ?_) (fun o openings h => ?_) (fun o v openings h => ?_) (by split <;> simp_all) k
  · obtain ⟨-, h⟩ | ⟨hfresh, h⟩ := h
    · cases h
    · have hdequeue := (Queue.dequeue?_eq_none_iff _).2 (List.map_eq_nil_iff.1 h.symm)
      exact ⟨o, by rw [finalize, if_neg (by simp [hfresh]), hdequeue], .inr ⟨hfresh, h⟩⟩
  · obtain ⟨hpoisoned, h⟩ | ⟨hfresh, h⟩ := h
    · exact ⟨o, by rw [finalize, if_pos hpoisoned], .inl ⟨hpoisoned, rfl⟩⟩
    · obtain ⟨opening, rest, hlist, hrefused, -⟩ := List.map_eq_cons_iff.1 h.symm
      obtain ⟨queue, hdequeue, -⟩ := Queue.exists_dequeue? hlist
      refine ⟨{ o with received := queue, poisoned := true }, ?_, .inl ⟨rfl, rfl⟩⟩
      rw [finalize, if_neg (by simp [hfresh]), hdequeue]
      dsimp only
      rw [ReplicatedOpening.value?] at hrefused
      split_ifs at hrefused with hdiffer
      rw [if_pos hdiffer]
  · obtain ⟨-, h⟩ | ⟨hfresh, h⟩ := h
    · cases h
    · obtain ⟨opening, rest, hlist, hvalue, hrest⟩ := List.map_eq_cons_iff.1 h.symm
      obtain ⟨queue, hdequeue, hqueue⟩ := Queue.exists_dequeue? hlist
      rw [ReplicatedOpening.value?] at hvalue
      split_ifs at hvalue with hagree
      refine ⟨if o.mode = .hash then
        { o with received := queue, unchecked := o.unchecked.push v }
        else { o with received := queue }, ?_, .inr ⟨?_, ?_⟩⟩
      · rw [finalize, if_neg (by simp [hfresh]), hdequeue]
        dsimp only
        rw [if_neg hagree, Option.some.inj hvalue]
      · split <;> exact hfresh
      · split <;> rw [hqueue, ← hrest]

section Opening

variable [LawfulRing R] {c h : Fin 3} {items : List (Fin 3 → ReplicatedShare R)} {secrets : List R}
  {o : Fin 3 → ReplicatedOpener R} {answers : Fin 3 → Answers}

/-- The openings of a batch when one of the two copies of the missing parts is right. -/
private theorem getElem?_openings
    (hitems : List.Forall₂ (ReplicatedShare.Consistent c) items secrets) (hh : h ≠ c)
    {previous copies : List R} (hprevious : previous.length = items.length)
    (hcopies : copies.length = items.length)
    (hright : previous = items.map (ReplicatedShare.missing c h) ∨
      copies = items.map (ReplicatedShare.missing c h)) (j : Nat) :
    ((List.zipWith (fun (s, p) n => (⟨s.sum, p, n⟩ : ReplicatedOpening R))
      ((items.map (· h)).zip previous) (copies.map some)).map ReplicatedOpening.value?)[j]? =
        secrets[j]?.map fun v => if copies[j]? = previous[j]? then some v else none := by
  by_cases hj : j < items.length
  · have hj' : j < secrets.length := hitems.length_eq ▸ hj
    have hsum := (hitems.get hj hj').sum_add_missing hh
    have hagree : copies[j] = previous[j] → previous[j] =
        ReplicatedShare.missing c h items[j] := by
      rcases hright with rfl | rfl
      · simp
      · intro hcopy
        simpa using hcopy.symm
    rw [List.getElem?_eq_getElem (by simp [hj, hprevious, hcopies]), List.getElem?_eq_getElem hj',
      List.getElem?_eq_getElem (hcopies ▸ hj), List.getElem?_eq_getElem (hprevious ▸ hj)]
    simp only [List.getElem_map, List.getElem_zipWith, List.getElem_zip, ReplicatedOpening.value?,
      Option.any_some, decide_eq_true_eq, Option.map_some, Option.some_inj]
    by_cases hcopy : copies[j] = previous[j]
    · rw [if_neg (not_not.2 hcopy), if_pos hcopy, hagree hcopy]
      exact congrArg some hsum
    · rw [if_pos hcopy, if_neg hcopy]
  · have hj' : ¬ j < secrets.length := hitems.length_eq ▸ hj
    rw [List.getElem?_eq_none (by simp; omega), List.getElem?_eq_none (Nat.not_lt.1 hj'),
      Option.map_none]

/-- What an honest party hears of the other one is what that one holds. -/
private theorem eq_of_delivered {part : ReplicatedShare R → R} {i j : Fin 3} (hi : i ≠ c) (hj : j ≠ c)
    (hij : i ≠ j)
    (hdelivered : Delivered {c}ᶜ fun i => (Opener.reveal items o i).transcript (answers i))
    (hsent : ∀ b ∈ sentTo 3 j i ((Opener.reveal items o j).transcript (answers j)),
      b = encodeValues ((Opener.prepareAll (items.map (· j)) (o j)).batch.toList.map part))
    {values : List R} (hlength : values.length = items.length)
    (hheard : heardFrom 3 i j ((Opener.reveal items o i).transcript (answers i)) =
      if items.length = 0 then [] else [encodeValues values]) :
    values = items.map fun x => part (x j) := by
  by_cases hempty : items.length = 0
  · rw [List.length_eq_zero_iff] at hempty
    subst hempty
    exact List.length_eq_zero_iff.1 hlength
  · rw [if_neg hempty] at hheard
    have hpayload := hsent _ (hdelivered i (by simpa using hi) j (by simpa using hj) hij
      (encodeValues values) (by rw [hheard]; exact List.mem_singleton_self _))
    simpa [prepareAll_eq, Function.comp_def] using encodeValues_injective hpayload

/-- One of the two copies that an honest party has received is that of the other honest party, and the
other one is what it was told by the party that deviates. -/
private theorem exists_told (hmode : ∀ i ≠ c, (o i).mode = .communication)
    (hdelivered : Delivered {c}ᶜ fun i => (Opener.reveal items o i).transcript (answers i))
    (hh : h ≠ c) {previous : List R} {next : List (Option R)} {after : ReplicatedOpener R}
    (hexchanged : Exchanged (Opener.prepareAll (items.map (· h)) (o h)) h
      ((Opener.reveal items o h).transcript (answers h)) previous next after) :
    ∃ told copies, next = copies.map some ∧ previous.length = items.length ∧
      copies.length = items.length ∧ told.length = items.length ∧
      heardFrom 3 h c ((Opener.reveal items o h).transcript (answers h)) =
        (if items.length = 0 then [] else [encodeValues told]) ∧
      (previous = items.map (ReplicatedShare.missing c h) ∧ copies = told ∨
        copies = items.map (ReplicatedShare.missing c h) ∧ previous = told) := by
  have hexchange (i : Fin 3) : Ensures exchange ⟨i, 3⟩ (Opener.prepareAll (items.map (· i)) (o i)) _ :=
    ensures_exchange
  have hprevious := hexchanged.length
  have hheard := hexchanged.heard
  have hcopies := hexchanged.copies
  simp only [prepareAll_eq, List.size_toArray, List.length_map, hmode h hh, if_true]
    at hprevious hheard hcopies
  obtain ⟨copies, rfl, hcopies, hheard'⟩ := hcopies
  have hring : ∀ c : Fin 3, c + 1 + 1 = c + 2 ∧ c + 1 + 2 = c ∧ c + 2 + 1 = c ∧ c + 2 + 2 = c + 1 ∧
      c + 1 ≠ c ∧ c + 2 ≠ c ∧ c + 1 ≠ c + 2 := by decide
  obtain ⟨h₁₁, h₁₂, h₂₁, h₂₂, hne₁, hne₂, hne⟩ := hring c
  obtain rfl | rfl := eq_or_eq_of_ne hh
  · rw [h₁₁] at hheard'
    rw [h₁₂] at hheard
    have hsent := (hexchange (c + 2) (answers (c + 2))).2.1
    rw [h₂₂] at hsent
    have hright := eq_of_delivered hne₁ hne₂ hne hdelivered (fun b hb => (hsent b hb).2) hcopies
      hheard'
    refine ⟨previous, copies, rfl, hprevious, hcopies, hprevious, hheard, .inr ⟨?_, rfl⟩⟩
    rw [hright]
    exact List.map_congr_left fun x _ => (if_pos rfl).symm
  · rw [h₂₁] at hheard'
    rw [h₂₂] at hheard
    have hsent : ∀ b ∈ sentTo 3 (c + 1 : Fin 3) (c + 2 : Fin 3)
        ((Opener.reveal items o (c + 1)).transcript (answers (c + 1))), b = encodeValues
          ((Opener.prepareAll (items.map (· (c + 1))) (o (c + 1))).batch.toList.map (·.own)) := by
      intro b hb
      have hexact : sentTo 3 (c + 1 : Fin 3) (c + 1 + 1 : Fin 3)
          ((Opener.reveal items o (c + 1)).transcript (answers (c + 1))) = _ :=
        (hexchange (c + 1) (answers (c + 1))).1
      rw [h₁₁] at hexact
      rw [hexact] at hb
      split_ifs at hb
      · cases hb
      · exact List.mem_singleton.1 hb
    have hright := eq_of_delivered hne₂ hne₁ hne.symm hdelivered hsent hprevious hheard
    refine ⟨copies, copies, rfl, hprevious, hcopies, hcopies, hheard', .inl ⟨?_, rfl⟩⟩
    rw [hright]
    exact List.map_congr_left fun x _ => (if_neg hne.symm).symm

/-- **Opening next to a deviating party.** In communication mode let one party deviate, in any way.
Honest parties obtain no value but the right one. If the exchange of an honest party succeeds, it has
heard a column of parts of the deviating party, and takes the value of an item if the parts for it,
and for the items before, were right; else it fails. -/
theorem open_next_to_deviating
    (hitems : List.Forall₂ (ReplicatedShare.Consistent c) items secrets)
    (hmode : ∀ i ≠ c, (o i).mode = .communication) (answers : Fin 3 → Answers)
    (hdelivered : Delivered {c}ᶜ fun i => (Opener.reveal items o i).transcript (answers i))
    (hh : h ≠ c) :
    let after := (Opener.reveal items o h).under (answers h)
    let transcript := (Opener.reveal items o h).transcript (answers h)
    (∀ k v, Attempt.nth finalize k after.1 = .ok v → secrets[k]? = some v) ∧
      (after.2 = .ok () → ∃ told : List R, told.length = items.length ∧
        heardFrom 3 h c transcript = (if items = [] then [] else [encodeValues told]) ∧
        ∀ k, (∀ v, Attempt.nth finalize k after.1 = .ok v ↔ secrets[k]? = some v ∧
            ∀ j ≤ k, told[j]? = (items.map (ReplicatedShare.missing c h))[j]?) ∧
          (Attempt.nth finalize k after.1 = .error .macFail ↔
            ¬ ∀ j ≤ k, told[j]? = (items.map (ReplicatedShare.missing c h))[j]?)) := by
  intro after transcript
  have hempty : (Opener.prepareAll (items.map (· h)) (o h)).received.toList = [] := by
    rw [prepareAll_eq, Queue.toList_empty]
  obtain ⟨-, -, hafter⟩ : _ ∧ _ ∧ match after.2 with
      | .error _ => after.1 = Opener.prepareAll (items.map (· h)) (o h)
      | .ok _ => ∃ previous next, Exchanged (Opener.prepareAll (items.map (· h)) (o h)) h transcript
          previous next after.1 := ensures_exchange (answers h)
  cases hresult : after.2 with
  | error e =>
    rw [hresult] at hafter
    dsimp only at hafter
    refine ⟨fun k v hv => ?_, by simp⟩
    rw [hafter, nth_finalize, hempty] at hv
    exact absurd hv (takenAt_ne_ok (by split <;> simp) k v)
  | ok _ =>
    rw [hresult] at hafter
    obtain ⟨previous, next, hexchanged⟩ := hafter
    obtain ⟨told, copies, rfl, hprevious, hcopies, htold, hheard, hsides⟩ :=
      exists_told hmode hdelivered hh hexchanged
    have hopenings := getElem?_openings hitems hh hprevious hcopies (hsides.imp And.left And.left)
    have hqueue := hexchanged.queue
    rw [hempty, List.nil_append, prepareAll_eq] at hqueue
    have hadmitted (j : Nat) : copies[j]? = previous[j]? ↔
        told[j]? = (items.map (ReplicatedShare.missing c h))[j]? := by
      obtain ⟨rfl, rfl⟩ | ⟨rfl, rfl⟩ := hsides
      · exact Iff.rfl
      · exact eq_comm
    have htaken (k : Nat) := takenAt_admitted hopenings (fun j hj => by
      have hj' : items.length ≤ j := hitems.length_eq ▸ hj
      rw [List.getElem?_eq_none (hcopies.trans_le hj'),
        List.getElem?_eq_none (hprevious.trans_le hj')]) k
    simp only [hadmitted] at htaken
    have hnth (k : Nat) : Attempt.nth finalize k after.1 = takenAt ((List.zipWith
        (fun (s, p) n => (⟨s.sum, p, n⟩ : ReplicatedOpening R)) ((items.map (· h)).zip previous)
          (copies.map some)).map ReplicatedOpening.value?) k := by
      have hfresh : after.1.poisoned = false := by
        obtain ⟨queue, hrest⟩ := hexchanged.rest
        rw [hrest]
        exact hexchanged.fresh
      rw [nth_finalize, hfresh, hqueue]
      rfl
    refine ⟨fun k v hv => ?_, fun _ => ⟨told, htold, ?_, fun k => by rw [hnth]; exact htaken k⟩⟩
    · rw [hnth, (htaken k).1] at hv
      exact hv.1
    · rw [hheard]
      exact if_congr List.length_eq_zero_iff rfl rfl

end Opening

section Example

/-- Sharings of seven and ten. -/
private def twoSharings : List (Fin 3 → ReplicatedShare Word64) :=
  [![⟨⟨3⟩, ⟨2⟩⟩, ⟨⟨2⟩, ⟨2⟩⟩, ⟨⟨2⟩, ⟨3⟩⟩], ![⟨⟨1⟩, ⟨4⟩⟩, ⟨⟨4⟩, ⟨5⟩⟩, ⟨⟨5⟩, ⟨1⟩⟩]]

/-- A network in which the last party passes on to the first one a wrong part of the second item. -/
private def lyingNetwork (i : Fin 3) : Answers := fun _ c =>
  match c with
  | .pass 1 _ => .ok (encodeValues (if i = 0 then [⟨2⟩, ⟨6⟩] else
      twoSharings.map fun x => (x (i + 2)).own))
  | .pass _ _ => .ok (encodeValues (twoSharings.map fun x => (x (i + 1)).next))
  | .send .. => .ok ()
  | .receive _ => .ok []
  | .broadcast _ => .ok []

/-- The party to which the wrong part is passed on takes the first value and refuses the second; the
other one takes both. -/
theorem open_next_to_deviating_lie :
    let openers (i : Fin 3) : ReplicatedOpener Word64 := create i .communication
    let after (i : Fin 3) := (Opener.reveal twoSharings openers i).under (lyingNetwork i)
    List.Forall₂ (ReplicatedShare.Consistent 2) twoSharings [⟨7⟩, ⟨10⟩] ∧
      Delivered {2}ᶜ (fun i : Fin 3 =>
        (Opener.reveal twoSharings openers i).transcript (lyingNetwork i)) ∧
      (after 0).2 = .ok () ∧ (after 1).2 = .ok () ∧
      Attempt.nth finalize 0 (after 0).1 = .ok ⟨7⟩ ∧
      Attempt.nth finalize 1 (after 0).1 = .error .macFail ∧
      Attempt.nth finalize 1 (after 1).1 = .ok ⟨10⟩ := by
  intro openers after
  have hvalid : List.Forall₂ (ReplicatedShare.Consistent 2) twoSharings [⟨7⟩, ⟨10⟩] :=
    .cons ⟨by decide +kernel, by decide +kernel⟩ (.cons ⟨by decide +kernel, by decide +kernel⟩ .nil)
  have hdelivered : Delivered {2}ᶜ fun i : Fin 3 =>
      (Opener.reveal twoSharings openers i).transcript (lyingNetwork i) := by
    decide +kernel
  have hok₀ : (after 0).2 = .ok () := by decide +kernel
  have hok₁ : (after 1).2 = .ok () := by decide +kernel
  have htheorem (h : Fin 3) (hh : h ≠ 2) :=
    (open_next_to_deviating hvalid (fun _ _ => rfl) lyingNetwork hdelivered hh).2
  obtain ⟨told₀, -, hheard₀, htaken₀⟩ := htheorem 0 (by decide) hok₀
  obtain ⟨told₁, -, hheard₁, htaken₁⟩ := htheorem 1 (by decide) hok₁
  obtain rfl : told₀ = [⟨2⟩, ⟨6⟩] := eq_of_payload (List.cons_ne_nil _ _) hheard₀ (by decide +kernel)
  obtain rfl : told₁ = [⟨3⟩, ⟨1⟩] := eq_of_payload (List.cons_ne_nil _ _) hheard₁ (by decide +kernel)
  refine ⟨hvalid, hdelivered, hok₀, hok₁, ((htaken₀ 0).1 _).2 ⟨rfl, ?_⟩, (htaken₀ 1).2.2 ?_,
    ((htaken₁ 1).1 _).2 ⟨rfl, ?_⟩⟩ <;> decide +kernel

end Example

end ReplicatedOpener

end Multiparty
