import Mathlib
import Multiparty.Proofs.Preprocessing.Lockstep
import Multiparty.Storage.Shares

/-!
# What a refused request costs

Stored material need not have a plain value for every share of an own mask: nothing compares the
lengths of the two lists. A request for an own mask takes the share first, so where no plain value
is left it is refused although the share is gone. No other refused request takes anything. A supply
never gains plain values, so a share that is lost in this way could not have been served any more,
and no later answer tells that it is missing.

## Main definitions

* `Supply.fulfilled`: number of requests for the masks of an owner that have been fulfilled.
* `Supply.Forfeits`: a request for an own mask that finds a share but no plain value.
* `Supply.forfeited`: number of such requests in a sequence.
* `Supply.Response`: the ways in which a request is answered.
* `Supply.usable`: the supply without shares that cannot be served.

## Main results

* `Supply.serve_response`: every request is answered in one of these ways.
* `Supply.Response.of_error`: what is left after a refused request.
* `Supply.remainingMasks_serveAll`: where the masks of an owner have gone.
* `Supply.serve_after_refusal`: no later answer depends on a refused request.
* `Bundle.refusals_cost`: refused requests take nothing exactly if there are enough plain values.
-/

namespace Multiparty

namespace Supply

variable {S R K : Type} {s s' : Supply S R K} {request : MaterialRequest}
  {result : Except ProtocolError (Served S R) × Supply S R K}

/-! ### Answers -/

/-- The request is for an own mask, of which a share is left but no plain value. -/
def Forfeits (s : Supply S R K) (request : MaterialRequest) : Prop :=
  request = .inputMask s.party ∧ 0 < s.remainingMasks s.party ∧ s.plainMasks = []

instance (request : MaterialRequest) : Decidable (s.Forfeits request) :=
  inferInstanceAs (Decidable (_ ∧ _ ∧ _))

/-- The supply without the share of an own mask that is next. -/
def withoutOwnShare (s : Supply S R K) : Supply S R K :=
  { s with inputMasks := s.inputMasks.set s.party (s.inputMasks.getD s.party []).tail }

/-- The ways in which a request is answered. -/
inductive Response (s : Supply S R K) :
    MaterialRequest → Except ProtocolError (Served S R) × Supply S R K → Prop
  | triple {t : Triple S} {rest : List (Triple S)} (htriples : s.triples = t :: rest) :
      Response s .triple (.ok (.triple t), { s with triples := rest })
  | bit {x : S} {rest : List S} (hbits : s.bits = x :: rest) :
      Response s .bit (.ok (.bit x), { s with bits := rest })
  | foreignMask {owner : Nat} {x : S} {rest : List S} (howner : owner ≠ s.party)
      (hmasks : s.inputMasks[owner]? = some (x :: rest)) :
      Response s (.inputMask owner)
        (.ok (.inputMask x none), { s with inputMasks := s.inputMasks.set owner rest })
  | ownMask {x : S} {rest : List S} {m : R} {plains : List R}
      (hmasks : s.inputMasks[s.party]? = some (x :: rest)) (hplain : s.plainMasks = m :: plains) :
      Response s (.inputMask s.party) (.ok (.inputMask x (some m)),
        { s with inputMasks := s.inputMasks.set s.party rest, plainMasks := plains })
  | forfeited (h : s.Forfeits (.inputMask s.party)) :
      Response s (.inputMask s.party) (.error (.insufficient .inputMask), s.withoutOwnShare)
  | refused {request : MaterialRequest} {e : ProtocolError} (h : ¬ s.Forfeits request) :
      Response s request (.error e, s)

theorem getD_inputMasks {owner : Nat} {row : List S} (h : s.inputMasks[owner]? = some row) :
    s.inputMasks.getD owner [] = row := by
  rw [List.getD_eq_getElem?_getD, h, Option.getD_some]

theorem remainingMasks_of_getElem? {owner : Nat} {row : List S}
    (h : s.inputMasks[owner]? = some row) : s.remainingMasks owner = row.length := by
  rw [remainingMasks, getD_inputMasks h]

/-- Where a mask is left, it is the first of the masks of its owner. -/
theorem exists_getElem?_of_remainingMasks_pos {owner : Nat} (h : 0 < s.remainingMasks owner) :
    ∃ x rest, s.inputMasks[owner]? = some (x :: rest) := by
  rw [remainingMasks, List.getD_eq_getElem?_getD] at h
  match hrow : s.inputMasks[owner]? with
  | none => simp [hrow] at h
  | some [] => simp [hrow] at h
  | some (x :: rest) => exact ⟨x, rest, rfl⟩

theorem serve_inputMask_of_noPlain {x : S} {rest : List S}
    (hmasks : s.inputMasks[s.party]? = some (x :: rest)) (hplain : s.plainMasks = []) :
    s.serve (.inputMask s.party) =
      (.error (.insufficient .inputMask), s.withoutOwnShare) := by
  rw [withoutOwnShare, getD_inputMasks hmasks, serve, inputMask, hmasks]
  dsimp only
  rw [if_pos rfl, hplain]
  rfl

theorem serve_response (s : Supply S R K) (request : MaterialRequest) :
    s.Response request (s.serve request) := by
  cases request with
  | triple =>
    match h : s.triples with
    | [] =>
      rw [serve_triple_of_nil h]
      exact .refused fun hf => nomatch hf.1
    | t :: rest =>
      rw [serve_triple_of_cons h]
      exact .triple h
  | bit =>
    match h : s.bits with
    | [] =>
      rw [serve_bit_of_nil h]
      exact .refused fun hf => nomatch hf.1
    | x :: rest =>
      rw [serve_bit_of_cons h]
      exact .bit h
  | inputMask owner =>
    -- without a share of the mask nothing is forfeited
    have hnone (hleft : s.remainingMasks owner = 0) : ¬ s.Forfeits (.inputMask owner) := by
      rintro ⟨howner, hpos, -⟩
      rw [← MaterialRequest.inputMask.inj howner, hleft] at hpos
      exact absurd hpos (lt_irrefl 0)
    match h : s.inputMasks[owner]? with
    | none =>
      rw [serve_inputMask_of_none h]
      exact .refused (hnone (by rw [remainingMasks, List.getD_eq_getElem?_getD, h]; rfl))
    | some [] =>
      rw [serve_inputMask_of_nil h]
      exact .refused (hnone (by rw [remainingMasks_of_getElem? h]; rfl))
    | some (x :: rest) =>
      rcases ne_or_eq owner s.party with howner | rfl
      · rw [serve_inputMask_of_ne h howner]
        exact .foreignMask howner h
      · match hplain : s.plainMasks with
        | [] =>
          rw [serve_inputMask_of_noPlain h hplain]
          exact .forfeited ⟨rfl, by rw [remainingMasks_of_getElem? h]; exact Nat.succ_pos _, hplain⟩
        | m :: plains =>
          rw [serve_inputMask_of_eq h rfl hplain]
          exact .ownMask h hplain

theorem Forfeits.serve (h : s.Forfeits request) :
    s.serve request = (.error (.insufficient .inputMask), s.withoutOwnShare) := by
  obtain ⟨rfl, hleft, hplain⟩ := h
  obtain ⟨x, rest, hmasks⟩ := exists_getElem?_of_remainingMasks_pos hleft
  exact serve_inputMask_of_noPlain hmasks hplain

theorem Response.party (h : s.Response request result) : result.2.party = s.party := by
  cases h <;> rfl

/-- After a refused request everything is left, unless a share of an own mask has been
forfeited. -/
theorem Response.of_error (h : s.Response request result) {e : ProtocolError}
    (he : result.1 = .error e) :
    result.2 = if s.Forfeits request then s.withoutOwnShare else s := by
  cases h with
  | forfeited hf => rw [if_pos hf]
  | refused hf => rw [if_neg hf]
  | _ => cases he

theorem party_serveAll (s : Supply S R K) (requests : List MaterialRequest) :
    (s.serveAll requests).party = s.party := by
  induction requests using List.reverseRecOn with
  | nil => rfl
  | append_singleton requests request ih =>
    rw [serveAll_concat, (serve_response _ request).party, ih]

/-! ### Where the masks go -/

/-- The requests of a sequence, each with the supply that it is made to. -/
def trace (s : Supply S R K) : List MaterialRequest → List (Supply S R K × MaterialRequest)
  | [] => []
  | request :: requests => (s, request) :: trace (s.serve request).2 requests

theorem trace_concat (s : Supply S R K) (requests : List MaterialRequest)
    (request : MaterialRequest) :
    s.trace (requests ++ [request]) = s.trace requests ++ [(s.serveAll requests, request)] := by
  induction requests generalizing s with
  | nil => rfl
  | cons first requests ih => rw [List.cons_append, trace, ih]; rfl

/-- Number of requests for a mask of `owner` that have been fulfilled. -/
def fulfilled (s : Supply S R K) (owner : Nat) (requests : List MaterialRequest) : Nat :=
  (s.trace requests).countP fun x => x.2 = .inputMask owner ∧ (x.1.serve x.2).1.isOk

/-- Number of requests at which a share has been forfeited. -/
def forfeited (s : Supply S R K) (requests : List MaterialRequest) : Nat :=
  (s.trace requests).countP fun x => x.1.Forfeits x.2

theorem fulfilled_concat (s : Supply S R K) (owner : Nat) (requests : List MaterialRequest)
    (request : MaterialRequest) :
    s.fulfilled owner (requests ++ [request]) = s.fulfilled owner requests +
      if request = .inputMask owner ∧ ((s.serveAll requests).serve request).1.isOk then 1
      else 0 := by
  simp only [fulfilled, trace_concat, List.countP_append, List.countP_singleton, decide_eq_true_eq]

theorem forfeited_concat (s : Supply S R K) (requests : List MaterialRequest)
    (request : MaterialRequest) :
    s.forfeited (requests ++ [request]) = s.forfeited requests +
      if (s.serveAll requests).Forfeits request then 1 else 0 := by
  simp only [forfeited, trace_concat, List.countP_append, List.countP_singleton, decide_eq_true_eq]

/-- Taking the first item of one list makes that list shorter by one, and no other list. -/
private theorem length_getD_set {l : List (List S)} {owner : Nat} {x : S} {rest : List S}
    (h : l[owner]? = some (x :: rest)) (other : Nat) :
    ((l.set owner rest).getD other []).length + (if other = owner then 1 else 0) =
      (l.getD other []).length := by
  simp only [List.getD_eq_getElem?_getD]
  rcases eq_or_ne other owner with rfl | hne
  · rw [List.getElem?_set_self (List.getElem?_eq_some_iff.1 h).1, h, if_pos rfl]
    rfl
  · rw [List.getElem?_set_ne hne.symm, if_neg hne, Nat.add_zero]

/-- A mask leaves the supply if it is served or forfeited. -/
theorem Response.remaining (h : s.Response request result) (owner : Nat) :
    result.2.remainingMasks owner +
        (if request = .inputMask owner ∧ result.1.isOk then 1 else 0) +
        (if owner = s.party ∧ s.Forfeits request then 1 else 0) = s.remainingMasks owner := by
  cases h with
  | triple => simp [remainingMasks, Forfeits]
  | bit => simp [remainingMasks, Forfeits]
  | foreignMask hne hmasks =>
    have hleft := length_getD_set hmasks owner
    simpa [remainingMasks, Forfeits, hne, Except.isOk, Except.toBool, eq_comm] using hleft
  | ownMask hmasks hplain =>
    have hleft := length_getD_set hmasks owner
    simpa [remainingMasks, Forfeits, hplain, Except.isOk, Except.toBool, eq_comm] using hleft
  | forfeited hf =>
    obtain ⟨x, rest, hmasks⟩ := exists_getElem?_of_remainingMasks_pos hf.2.1
    have hleft := length_getD_set hmasks owner
    rw [withoutOwnShare, getD_inputMasks hmasks]
    simpa [remainingMasks, hf, Except.isOk, Except.toBool] using hleft
  | refused hf => simp [hf, Except.isOk, Except.toBool]

/-- Every mask of an owner is left, has been served, or has been forfeited, which happens to own
masks only. -/
theorem remainingMasks_serveAll (s : Supply S R K) (requests : List MaterialRequest) (owner : Nat) :
    (s.serveAll requests).remainingMasks owner + s.fulfilled owner requests +
      (if owner = s.party then s.forfeited requests else 0) = s.remainingMasks owner := by
  induction requests using List.reverseRecOn with
  | nil => simp [serveAll, fulfilled, forfeited, trace]
  | append_singleton requests request ih =>
    have hstep := ((s.serveAll requests).serve_response request).remaining owner
    rw [party_serveAll] at hstep
    rw [serveAll_concat, fulfilled_concat, forfeited_concat]
    by_cases howner : owner = s.party
    · simp only [howner, true_and, if_true] at hstep ih ⊢
      omega
    · simp only [howner, false_and, if_false] at hstep ih ⊢
      omega

/-- A share that is forfeited is missing afterwards. -/
theorem Forfeits.withoutOwnShare_ne (h : s.Forfeits request) : s.withoutOwnShare ≠ s := by
  intro hsame
  have hleft := (s.serve_response request).remaining s.party
  rw [h.serve, hsame, if_neg (fun hok => nomatch hok.2), if_pos ⟨rfl, h⟩] at hleft
  exact Nat.succ_ne_self _ hleft

/-! ### Enough plain values -/

/-- There is a plain value for every share of an own mask. -/
def Covered (s : Supply S R K) : Prop := s.remainingMasks s.party ≤ s.plainMasks.length

theorem Covered.not_forfeits (h : s.Covered) (request : MaterialRequest) :
    ¬ s.Forfeits request := by
  rintro ⟨-, hleft, hplain⟩
  rw [Covered, hplain] at h
  exact absurd (hleft.trans_le h) (lt_irrefl 0)

theorem Response.covered (hresponse : s.Response request result) (h : s.Covered) :
    result.2.Covered := by
  rw [Covered, remainingMasks] at h
  cases hresponse with
  | triple => exact h
  | bit => exact h
  | foreignMask hne hmasks =>
    have hleft := length_getD_set hmasks s.party
    rw [if_neg hne.symm, Nat.add_zero] at hleft
    exact hleft.trans_le h
  | ownMask hmasks hplain =>
    have hleft := length_getD_set hmasks s.party
    rw [if_pos rfl] at hleft
    rw [← hleft, hplain, List.length_cons] at h
    exact Nat.le_of_succ_le_succ h
  | forfeited hf => exact absurd hf (Covered.not_forfeits h _)
  | refused => exact h

theorem Covered.serveAll (h : s.Covered) (requests : List MaterialRequest) :
    (s.serveAll requests).Covered := by
  induction requests using List.reverseRecOn with
  | nil => exact h
  | append_singleton requests request ih =>
    rw [serveAll_concat]
    exact (serve_response _ request).covered ih

theorem Covered.forfeited_eq_zero (h : s.Covered) (requests : List MaterialRequest) :
    s.forfeited requests = 0 := by
  induction requests using List.reverseRecOn with
  | nil => rfl
  | append_singleton requests request ih =>
    rw [forfeited_concat, ih, if_neg ((h.serveAll requests).not_forfeits request)]

/-- With too few plain values, requests for own masks alone come to a point where a share is
forfeited. -/
theorem exists_forfeits (h : ¬ s.Covered) :
    ∃ requests, (s.serveAll requests).Forfeits (.inputMask s.party) := by
  rw [Covered, not_le] at h
  -- every request for an own mask takes a share and a plain value, and the plain values end first
  induction hplain : s.plainMasks generalizing s with
  | nil => exact ⟨[], rfl, (Nat.zero_le _).trans_lt h, hplain⟩
  | cons m plains ih =>
    obtain ⟨x, rest, hmasks⟩ := exists_getElem?_of_remainingMasks_pos ((Nat.zero_le _).trans_lt h)
    have hserve := serve_inputMask_of_eq hmasks rfl hplain
    have hleft := length_getD_set hmasks s.party
    rw [if_pos rfl] at hleft
    rw [hplain, List.length_cons, remainingMasks, ← hleft] at h
    obtain ⟨requests, hf⟩ := ih (s := (s.serve (.inputMask s.party)).2)
      (by rw [hserve]; exact Nat.lt_of_succ_lt_succ h) (by rw [hserve])
    rw [(s.serve_response _).party] at hf
    exact ⟨.inputMask s.party :: requests, hf⟩

/-! ### Shares that cannot be served -/

/-- What can be served of a supply: without a plain value no own mask can. -/
def usable (s : Supply S R K) : Supply S R K :=
  if s.plainMasks = [] then { s with inputMasks := s.inputMasks.set s.party [] } else s

theorem usable_of_noPlain (h : s.plainMasks = []) :
    s.usable = { s with inputMasks := s.inputMasks.set s.party [] } := if_pos h

/-- Shares of own masks do not matter where there is no plain value. -/
theorem usable_withoutOwnShare (h : s.plainMasks = []) : s.withoutOwnShare.usable = s.usable := by
  rw [usable_of_noPlain h, usable_of_noPlain (s := s.withoutOwnShare) h]
  simp only [withoutOwnShare, List.set_set]

theorem usable_usable (s : Supply S R K) : s.usable.usable = s.usable := by
  by_cases hplain : s.plainMasks = []
  · rw [usable_of_noPlain hplain,
      usable_of_noPlain (s := { s with inputMasks := s.inputMasks.set s.party [] }) hplain]
    simp only [List.set_set]
  · have hself : s.usable = s := if_neg hplain
    rw [hself, hself]

/-- Without a plain value, what can be served of a supply is answered like the whole supply. -/
private theorem serve_usable_of_noPlain (hplain : s.plainMasks = []) (request : MaterialRequest) :
    s.usable.serve request = ((s.serve request).1, (s.serve request).2.usable) := by
  have husable := usable_of_noPlain hplain
  cases request with
  | triple =>
    have htriples : s.usable.triples = s.triples := by rw [husable]
    match h : s.triples with
    | [] => rw [serve_triple_of_nil h, serve_triple_of_nil (htriples.trans h)]
    | t :: rest =>
      rw [serve_triple_of_cons h, serve_triple_of_cons (htriples.trans h), husable,
        usable_of_noPlain (s := { s with triples := rest }) hplain]
  | bit =>
    have hbits : s.usable.bits = s.bits := by rw [husable]
    match h : s.bits with
    | [] => rw [serve_bit_of_nil h, serve_bit_of_nil (hbits.trans h)]
    | x :: rest =>
      rw [serve_bit_of_cons h, serve_bit_of_cons (hbits.trans h), husable,
        usable_of_noPlain (s := { s with bits := rest }) hplain]
  | inputMask owner =>
    -- a request for an own mask finds no share in the one supply and no plain value in the other
    have hrow : s.usable.inputMasks[owner]? =
        s.inputMasks[owner]?.map fun row => if owner = s.party then [] else row := by
      rw [husable, List.getElem?_set']
      rcases eq_or_ne owner s.party with rfl | hne
      · simp only [if_true]
        rfl
      · simp only [if_neg hne, if_neg hne.symm, Option.map_id']
    match h : s.inputMasks[owner]? with
    | none =>
      rw [serve_inputMask_of_none h, serve_inputMask_of_none (by rw [hrow, h]; rfl)]
    | some [] =>
      rw [serve_inputMask_of_nil h, serve_inputMask_of_nil (by rw [hrow, h]; simp)]
    | some (x :: rest) =>
      rcases ne_or_eq owner s.party with hne | rfl
      · have howner : owner ≠ s.usable.party := by rwa [husable]
        rw [serve_inputMask_of_ne h hne,
          serve_inputMask_of_ne (by rw [hrow, h, Option.map_some, if_neg hne]) howner, husable,
          usable_of_noPlain (s := { s with inputMasks := s.inputMasks.set owner rest }) hplain]
        simp only [List.set_comm _ _ hne]
      · rw [serve_inputMask_of_noPlain h hplain, usable_withoutOwnShare hplain,
          serve_inputMask_of_nil (by rw [hrow, h, Option.map_some, if_pos rfl])]

/-- What can be served of a supply is answered like the whole supply, also later on. -/
theorem serve_usable (s : Supply S R K) (request : MaterialRequest) :
    (s.usable.serve request).1 = (s.serve request).1 ∧
      (s.usable.serve request).2.usable = (s.serve request).2.usable := by
  by_cases hplain : s.plainMasks = []
  · rw [serve_usable_of_noPlain hplain]
    exact ⟨rfl, usable_usable _⟩
  · rw [usable, if_neg hplain]
    exact ⟨rfl, rfl⟩

theorem usable_serveAll (s : Supply S R K) (requests : List MaterialRequest) :
    (s.usable.serveAll requests).usable = (s.serveAll requests).usable := by
  induction requests using List.reverseRecOn with
  | nil => exact usable_usable s
  | append_singleton requests request ih =>
    rw [serveAll_concat, serveAll_concat, ← (serve_usable _ request).2, ih,
      (serve_usable _ request).2]

/-- Supplies of which the same can be served answer any requests alike. -/
theorem serve_serveAll_of_usable_eq (h : s.usable = s'.usable) (requests : List MaterialRequest)
    (request : MaterialRequest) :
    ((s.serveAll requests).serve request).1 = ((s'.serveAll requests).serve request).1 := by
  rw [← (serve_usable _ request).1, ← usable_serveAll s, h, usable_serveAll s',
    (serve_usable _ request).1]

/-- No later answer depends on a request that was refused. -/
theorem serve_after_refusal {e : ProtocolError} (h : (s.serve request).1 = .error e)
    (later : List MaterialRequest) (next : MaterialRequest) :
    (((s.serve request).2.serveAll later).serve next).1 = ((s.serveAll later).serve next).1 := by
  refine serve_serveAll_of_usable_eq ?_ later next
  rw [(s.serve_response request).of_error h]
  split_ifs with hf
  · exact usable_withoutOwnShare hf.2.2
  · rfl

end Supply

namespace Bundle

variable {S R K : Type}

theorem remainingMasks_ofBundle (b : Bundle S R K) (owner : Nat) :
    (Supply.ofBundle b).remainingMasks owner = (b.inputMasks.getD owner []).length := by
  simp only [Supply.remainingMasks, Supply.ofBundle, List.getD_eq_getElem?_getD, List.getElem?_map]
  cases b.inputMasks[owner]? with
  | none => rfl
  | some row => exact List.length_reverse

theorem covered_ofBundle_iff (b : Bundle S R K) : (Supply.ofBundle b).Covered ↔
    (b.inputMasks.getD b.party []).length ≤ b.plainMasks.length := by
  have hplain : (Supply.ofBundle b).plainMasks.length = b.plainMasks.length := List.length_reverse
  rw [Supply.Covered, hplain, ← b.remainingMasks_ofBundle b.party]
  rfl

/-- After any requests, a refused one takes nothing but a share of an own mask that is forfeited,
and no later answer depends on it. The masks of an owner that are not left have been served or
forfeited, which happens to own masks only. Refused requests take nothing at all, and the masks that
are left are those that have not been served, exactly if the bundle has a plain value for every
share of an own mask. -/
theorem refusals_cost (b : Bundle S R K) :
    let supply := (Supply.ofBundle b).serveAll
    let served := (Supply.ofBundle b).fulfilled
    let dealt (owner : Nat) := (b.inputMasks.getD owner []).length
    (∀ requests request e, ((supply requests).serve request).1 = .error e →
        ((supply requests).serve request).2 = (if (supply requests).Forfeits request then
          (supply requests).withoutOwnShare else supply requests) ∧
        ∀ later next, ((((supply requests).serve request).2.serveAll later).serve next).1 =
          (((supply requests).serveAll later).serve next).1) ∧
      (∀ requests owner, (supply requests).remainingMasks owner + served owner requests +
        (if owner = b.party then (Supply.ofBundle b).forfeited requests else 0) = dealt owner) ∧
      [∀ requests request e, ((supply requests).serve request).1 = .error e →
          ((supply requests).serve request).2 = supply requests,
        ∀ requests owner,
          (supply requests).remainingMasks owner + served owner requests = dealt owner,
        dealt b.party ≤ b.plainMasks.length].TFAE := by
  intro supply served dealt
  have haccount (requests : List MaterialRequest) (owner : Nat) :=
    ((Supply.ofBundle b).remainingMasks_serveAll requests owner).trans
      (b.remainingMasks_ofBundle owner)
  refine ⟨fun requests request e h =>
    ⟨(Supply.serve_response _ request).of_error h, Supply.serve_after_refusal h⟩, haccount, ?_⟩
  rw [← covered_ofBundle_iff]
  tfae_have 3 → 1 := by
    intro h requests request e herror
    rw [(Supply.serve_response _ request).of_error herror,
      if_neg ((h.serveAll requests).not_forfeits request)]
  tfae_have 3 → 2 := by
    intro h requests owner
    have hleft := haccount requests owner
    rwa [h.forfeited_eq_zero, ite_self, Nat.add_zero] at hleft
  tfae_have 1 → 3 := by
    intro h
    by_contra hfew
    obtain ⟨requests, hforfeits⟩ := Supply.exists_forfeits hfew
    have hserve := hforfeits.serve
    refine hforfeits.withoutOwnShare_ne ?_
    have hsame := h requests _ _ (by rw [hserve])
    rwa [hserve] at hsame
  tfae_have 2 → 3 := by
    intro h
    by_contra hfew
    obtain ⟨requests, hforfeits⟩ := Supply.exists_forfeits hfew
    -- one more request for an own mask forfeits a share that is neither left nor served then
    have hleft := haccount (requests ++ [.inputMask b.party]) b.party
    have hserved := h (requests ++ [.inputMask b.party]) b.party
    rw [if_pos (show b.party = (Supply.ofBundle b).party from rfl), Supply.forfeited_concat,
      if_pos (show Supply.Forfeits _ (.inputMask b.party) from hforfeits)] at hleft
    exact Nat.succ_ne_zero _ (Nat.add_eq_left.1 (hleft.trans hserved.symm))
  tfae_finish

/-- Two shares of own masks with a plain value for one of them: the file is accepted, the first
request takes both values, and the second one is refused but takes the share. -/
theorem refused_request_takes_share :
    let b : Bundle (ThresholdShare Mersenne61) Mersenne61 Unit :=
      ⟨.shamirThreshold, 2, 0, (), [], [], [[⟨⟨5, by decide⟩⟩, ⟨⟨6, by decide⟩⟩], []],
        [⟨4, by decide⟩]⟩
    let full := Supply.ofBundle b
    let supply := full.serveAll [.inputMask 0]
    Bundle.load b.toBytes = .ok b ∧
      (supply.serve (.inputMask 0)).1 = .error (.insufficient .inputMask) ∧
      (supply.serve (.inputMask 0)).2 ≠ supply ∧
      full.remainingMasks 0 = 2 ∧ full.fulfilled 0 [.inputMask 0, .inputMask 0] = 1 ∧
      (full.serveAll [.inputMask 0, .inputMask 0]).remainingMasks 0 = 0 := by
  intro b full supply
  refine ⟨?_, by decide, fun h => ?_, by decide, by decide, by decide⟩
  · decide +kernel
  · exact absurd (congrArg (Supply.remainingMasks · 0) h) (by decide)

/-- With a plain value for each of two shares, a third request takes nothing. -/
theorem refusals_cost_aligned :
    let b : Bundle (ThresholdShare Mersenne61) Mersenne61 Unit :=
      ⟨.shamirThreshold, 2, 0, (), [], [], [[⟨⟨5, by decide⟩⟩, ⟨⟨6, by decide⟩⟩], []],
        [⟨3, by decide⟩, ⟨4, by decide⟩]⟩
    let supply := (Supply.ofBundle b).serveAll [.inputMask 0, .inputMask 0]
    (supply.serve (.inputMask 0)).1 = .error (.insufficient .inputMask) ∧
      (supply.serve (.inputMask 0)).2 = supply := by
  intro b supply
  have herror : (supply.serve (.inputMask 0)).1 = .error (.insufficient .inputMask) := by decide
  obtain ⟨-, -, htfae⟩ := refusals_cost b
  have htakesNothing := (htfae.out 0 2).2 (by decide)
  exact ⟨herror, htakesNothing _ _ _ herror⟩

end Bundle

end Multiparty
