import Multiparty.Proofs.Circuit.Execution

/-!
# Polling a circuit

A circuit that has been polled waits for the answers to what it has asked for, in the order in which
its branches are polled. The next poll visits them in that order, so every branch claims its own
answers. What the branches ask for next is queued in that order again, although some of them go on
from answers to new requests and others wait for theirs.

## Main definitions

* `RoundBuffer.Moves`: some answers are claimed and some requests are queued.
* `Future.Resumes`: a waiting circuit goes on with some answers.
* `Future.Polled`: what becomes of a circuit that is polled, and what it asks for.

## Main results

* `Future.Resumes.poll`: a poll claims the answers that the circuit waits for, in order, and carries
  it on from there.
* `Future.Polled.resumes`: a circuit that has been polled can go on with any answers.
* `Future.Polled.executes`: what the circuit makes of the answers to what it asked for in a poll.
-/

namespace Multiparty

namespace Ticket

/-- The ticket that comes some places later. -/
def later (t : Ticket) (n : Nat) : Ticket := { t with index := t.index + n }

end Ticket

namespace RoundBuffer

variable {T A : Type}

/-- The answers that are still to be claimed. -/
def unclaimed (b : RoundBuffer T A) : List (Option A) := b.answers.toList.drop b.nextClaim

/-- The ticket whose answer is to be claimed next. -/
def nextTicket (b : RoundBuffer T A) : Ticket := ⟨b.nextClaim, b.round⟩

/-- The ticket that the next request gets. -/
def freshTicket (b : RoundBuffer T A) : Ticket := ⟨b.requests.size, b.round + 1⟩

/-- Some answers have been claimed and some requests queued. -/
structure Moves (b b' : RoundBuffer T A) (claimed : List A) (queued : List T) : Prop where
  requests : b'.requests.toList = b.requests.toList ++ queued
  round : b'.round = b.round
  nextClaim : b'.nextClaim = b.nextClaim + claimed.length
  size : b'.answers.size = b.answers.size
  unclaimed : b.unclaimed = claimed.map some ++ b'.unclaimed

namespace Moves

variable {b b' b'' : RoundBuffer T A} {claimed claimed' : List A} {queued queued' : List T}

protected theorem refl (b : RoundBuffer T A) : b.Moves b [] [] where
  requests := (List.append_nil _).symm
  round := rfl
  nextClaim := rfl
  size := rfl
  unclaimed := rfl

protected theorem trans (h : b.Moves b' claimed queued) (h' : b'.Moves b'' claimed' queued') :
    b.Moves b'' (claimed ++ claimed') (queued ++ queued') where
  requests := by rw [h'.requests, h.requests, List.append_assoc]
  round := h'.round.trans h.round
  nextClaim := by rw [h'.nextClaim, h.nextClaim, List.length_append, Nat.add_assoc]
  size := h'.size.trans h.size
  unclaimed := by rw [h.unclaimed, h'.unclaimed, List.map_append, List.append_assoc]

theorem nextTicket (h : b.Moves b' claimed queued) :
    b'.nextTicket = b.nextTicket.later claimed.length := by
  rw [RoundBuffer.nextTicket, h.nextClaim, h.round]
  rfl

theorem freshTicket (h : b.Moves b' claimed queued) :
    b'.freshTicket = b.freshTicket.later queued.length := by
  have hsize : b'.requests.size = b.requests.size + queued.length := by
    rw [← Array.length_toList, h.requests, List.length_append, Array.length_toList]
  rw [RoundBuffer.freshTicket, hsize, h.round]
  rfl

end Moves

theorem moves_queue (request : T) (b : RoundBuffer T A) :
    b.Moves (b.queue request).2 [] [request] where
  requests := Array.toList_push
  round := rfl
  nextClaim := rfl
  size := rfl
  unclaimed := rfl

/-- The answer that is to be claimed next is there for its ticket. -/
theorem claim_nextTicket {b : RoundBuffer T A} {a : A} {rest : List (Option A)}
    (h : b.unclaimed = some a :: rest) :
    ∃ b', b.claim b.nextTicket = (.ok (some a), b') ∧ b.Moves b' [a] [] := by
  have hlt : b.nextClaim < b.answers.toList.length := by
    by_contra hle
    rw [unclaimed, List.drop_of_length_le (Nat.le_of_not_lt hle)] at h
    cases h
  rw [unclaimed, List.drop_eq_getElem_cons hlt] at h
  obtain ⟨hanswer, rfl⟩ := List.cons.inj h
  have hsome : b.answers[b.nextClaim]? = some (some a) := by
    rw [← Array.getElem?_toList, List.getElem?_eq_getElem hlt, hanswer]
  refine ⟨{ b with
    answers := b.answers.setIfInBounds b.nextClaim none
    nextClaim := b.nextClaim + 1 }, ?_, ?_⟩
  · rw [claim, nextTicket, if_pos rfl, if_neg (not_not_intro rfl)]
    simp only [hsome]
  · refine ⟨(List.append_nil _).symm, rfl, rfl, Array.size_setIfInBounds, ?_⟩
    rw [unclaimed, unclaimed, Array.toList_setIfInBounds, List.drop_set_of_lt (Nat.lt_succ_self _),
      List.drop_eq_getElem_cons hlt, hanswer]
    rfl

end RoundBuffer

namespace Future

variable {S R α β γ : Type}

/-- The circuit waits for some products and values, whose tickets are consecutive from `t` and `u` in
the order in which its branches are polled, and goes on as another circuit if the answers are `ps`
and `vs`. -/
inductive Resumes : {α : Type} → (t u : Ticket) → Future S R α → (ps : List S) → (vs : List R) →
    Future S R α → Prop where
  | ready {α : Type} {t u : Ticket} (a : α) : Resumes t u (ready a) [] [] (ready a)
  | mul {α : Type} {t u : Ticket} {x y : S} {next : S → Future S R α}
      (hnext : ∀ z, (next z).Plain) : Resumes t u (mul x y next) [] [] (mul x y next)
  | reveal {α : Type} {t u : Ticket} {x : S} {next : R → Future S R α}
      (hnext : ∀ v, (next v).Plain) : Resumes t u (reveal x next) [] [] (reveal x next)
  | product {α : Type} {t u : Ticket} (z : S) {next : S → Future S R α}
      (hnext : ∀ z, (next z).Plain) : Resumes t u (awaitProduct t next) [z] [] (next z)
  | value {α : Type} {t u : Ticket} (v : R) {next : R → Future S R α}
      (hnext : ∀ v, (next v).Plain) : Resumes t u (awaitValue u next) [] [v] (next v)
  | both {α β γ : Type} {t u : Ticket} {c c' : Future S R β} {d d' : Future S R γ}
      {next : β → γ → Future S R α} {ps ps' : List S} {vs vs' : List R}
      (hfirst : Resumes t u c ps vs c')
      (hsecond : Resumes (t.later ps.length) (u.later vs.length) d ps' vs' d')
      (hnext : ∀ a b, (next a b).Plain) :
      Resumes t u (both c d next) (ps ++ ps') (vs ++ vs') (both c' d' next)

/-- A circuit of which nothing has been requested waits for nothing. -/
theorem Plain.resumes {c : Future S R α} (h : c.Plain) (t u : Ticket) : Resumes t u c [] [] c := by
  induction c with
  | ready a => exact .ready a
  | mul x y next => exact .mul h
  | reveal x next => exact .reveal h
  | both first second next ihfirst ihsecond =>
    exact .both (ihfirst h.1) (ihsecond h.2.1) h.2.2
  | awaitProduct | awaitValue | abandon | stuck => exact h.elim

theorem Resumes.plain {t u : Ticket} {c d : Future S R α} {ps : List S} {vs : List R}
    (h : Resumes t u c ps vs d) : d.Plain := by
  induction h with
  | ready a => exact trivial
  | mul hnext => exact hnext
  | reveal hnext => exact hnext
  | product z hnext => exact hnext z
  | value v hnext => exact hnext v
  | both _ _ hnext ihfirst ihsecond => exact ⟨ihfirst, ihsecond, hnext⟩

/-- A poll carries a circuit on, and it asks for some products and openings, whose tickets are
consecutive from `t` and `u`. -/
inductive Polled : {α : Type} → (t u : Ticket) → Future S R α → (muls : List (S × S)) →
    (opens : List S) → Future S R α → Prop where
  | ready {α : Type} {t u : Ticket} (a : α) : Polled t u (ready a) [] [] (ready a)
  | mul {α : Type} {t u : Ticket} (x y : S) (next : S → Future S R α) :
      Polled t u (mul x y next) [(x, y)] [] (awaitProduct t next)
  | reveal {α : Type} {t u : Ticket} (x : S) (next : R → Future S R α) :
      Polled t u (reveal x next) [] [x] (awaitValue u next)
  /-- At least one of two branches has to wait. -/
  | waits {α β γ : Type} {t u : Ticket} {c c' : Future S R β} {d d' : Future S R γ}
      {next : β → γ → Future S R α} {muls muls' : List (S × S)} {opens opens' : List S}
      (hfirst : Polled t u c muls opens c')
      (hsecond : Polled (t.later muls.length) (u.later opens.length) d muls' opens' d')
      (hwaits : ∀ a b, c' = .ready a → d' = .ready b → False) :
      Polled t u (both c d next) (muls ++ muls') (opens ++ opens') (both c' d' next)
  /-- Both branches are ready, and what comes after them begins in the same poll. -/
  | joins {α β γ : Type} {t u : Ticket} {c : Future S R β} {d : Future S R γ} {a : β} {b : γ}
      {next : β → γ → Future S R α} {muls : List (S × S)} {opens : List S} {f : Future S R α}
      (hfirst : Polled t u c [] [] (.ready a)) (hsecond : Polled t u d [] [] (.ready b))
      (hrest : Polled t u (next a b) muls opens f) : Polled t u (both c d next) muls opens f

namespace Polled

variable {t u : Ticket} {c f : Future S R α} {muls : List (S × S)} {opens : List S}

/-- Nothing is asked for in the poll in which a circuit becomes ready. -/
theorem eq_nil_of_ready {a : α} (h : Polled t u c muls opens (.ready a)) :
    muls = [] ∧ opens = [] := by
  generalize hready : Future.ready a = f at h
  induction h with
  | ready a => exact ⟨rfl, rfl⟩
  | mul | reveal | waits => cases hready
  | joins _ _ _ _ _ ih => exact ih hready

/-- A circuit that has to wait has asked for something. -/
theorem ne_nil_of_waits (h : Polled t u c muls opens f) (hwaits : ∀ a, f ≠ .ready a) :
    muls ≠ [] ∨ opens ≠ [] := by
  induction h with
  | ready a => exact absurd rfl (hwaits a)
  | mul => exact .inl (List.cons_ne_nil _ _)
  | reveal => exact .inr (List.cons_ne_nil _ _)
  | @waits α β γ t u c c' d d' next muls muls' opens opens' _ _ hboth ihfirst ihsecond =>
    by_cases hc : ∃ a, c' = .ready a
    · obtain ⟨a, rfl⟩ := hc
      refine (ihsecond fun b hb => hboth a b rfl hb).imp ?_ ?_ <;>
        exact fun hne => List.append_ne_nil_of_right_ne_nil _ hne
    · refine (ihfirst fun a ha => hc ⟨a, ha⟩).imp ?_ ?_ <;>
        exact fun hne => List.append_ne_nil_of_left_ne_nil hne _
  | joins _ _ _ _ _ ih => exact ih hwaits

end Polled

/-- A poll claims the answers that the circuit waits for, in order, and carries it on from there. -/
theorem Resumes.poll {c d : Future S R α} {b : Buffers S R} {ps : List S} {vs : List R}
    {laterProducts : List (Option S)} {laterValues : List (Option R)}
    (h : Resumes b.muls.nextTicket b.opens.nextTicket c ps vs d)
    (hps : b.muls.unclaimed = ps.map some ++ laterProducts)
    (hvs : b.opens.unclaimed = vs.map some ++ laterValues) :
    ∃ f b' muls opens, c.poll b = (.ok f, b') ∧ b.muls.Moves b'.muls ps muls ∧
      b.opens.Moves b'.opens vs opens ∧
      Polled b.muls.freshTicket b.opens.freshTicket d muls opens f := by
  induction c generalizing b ps vs laterProducts laterValues with
  | ready a =>
    cases h
    exact ⟨_, b, [], [], rfl, .refl _, .refl _, .ready a⟩
  | mul x y next =>
    cases h
    exact ⟨_, _, [(x, y)], [], rfl, RoundBuffer.moves_queue _ _, .refl _, .mul x y next⟩
  | reveal x next =>
    cases h
    exact ⟨_, _, [], [x], rfl, .refl _, RoundBuffer.moves_queue _ _, .reveal x next⟩
  | awaitProduct ticket next ih =>
    cases h with
    | product z hnext =>
      obtain ⟨muls, hclaim, hmoves⟩ := RoundBuffer.claim_nextTicket hps
      obtain ⟨f, b', muls', opens, hpoll, hmuls, hopens, hpolled⟩ :=
        ih z (b := { b with muls := muls }) ((hnext z).resumes _ _) rfl hvs
      refine ⟨f, b', muls', opens, ?_, hmoves.trans hmuls, hopens, ?_⟩
      · rw [Future.poll]
        simp only [hclaim]
        exact hpoll
      · rwa [hmoves.freshTicket] at hpolled
  | awaitValue ticket next ih =>
    cases h with
    | value v hnext =>
      obtain ⟨opens, hclaim, hmoves⟩ := RoundBuffer.claim_nextTicket hvs
      obtain ⟨f, b', muls, opens', hpoll, hmuls, hopens, hpolled⟩ :=
        ih v (b := { b with opens := opens }) ((hnext v).resumes _ _) hps rfl
      refine ⟨f, b', muls, opens', ?_, hmuls, hmoves.trans hopens, ?_⟩
      · rw [Future.poll]
        simp only [hclaim]
        exact hpoll
      · rwa [hmoves.freshTicket] at hpolled
  | both first second next ihfirst ihsecond ih =>
    cases h with
    | both hfirst hsecond hnext =>
      rw [List.map_append, List.append_assoc] at hps hvs
      obtain ⟨first', b₁, muls₁, opens₁, hpoll₁, hmuls₁, hopens₁, hpolled₁⟩ := ihfirst hfirst hps hvs
      rw [← hmuls₁.nextTicket, ← hopens₁.nextTicket] at hsecond
      obtain ⟨second', b₂, muls₂, opens₂, hpoll₂, hmuls₂, hopens₂, hpolled₂⟩ := ihsecond hsecond
        (List.append_cancel_left (hmuls₁.unclaimed.symm.trans hps))
        (List.append_cancel_left (hopens₁.unclaimed.symm.trans hvs))
      rw [hmuls₁.freshTicket, hopens₁.freshTicket] at hpolled₂
      have hmuls := hmuls₁.trans hmuls₂
      have hopens := hopens₁.trans hopens₂
      rw [Future.poll]
      simp only [hpoll₁, hpoll₂]
      split
      · next _ _ a b' =>
        obtain ⟨rfl, rfl⟩ := hpolled₁.eq_nil_of_ready
        obtain ⟨rfl, rfl⟩ := hpolled₂.eq_nil_of_ready
        obtain ⟨f, b₃, muls₃, opens₃, hpoll₃, hmuls₃, hopens₃, hpolled₃⟩ :=
          ih a b' ((hnext a b').resumes _ _) rfl rfl
        have hmuls' := hmuls.trans hmuls₃
        have hopens' := hopens.trans hopens₃
        rw [List.append_nil] at hmuls' hopens'
        refine ⟨f, b₃, muls₃, opens₃, hpoll₃, hmuls', hopens', .joins hpolled₁ hpolled₂ ?_⟩
        rwa [hmuls.freshTicket, hopens.freshTicket] at hpolled₃
      · next hwaits => exact ⟨_, b₂, _, _, rfl, hmuls, hopens, .waits hpolled₁ hpolled₂ hwaits⟩
  | abandon | stuck => cases h

namespace Polled

variable {t u : Ticket} {c f : Future S R α} {muls : List (S × S)} {opens : List S}

/-- A list of two parts is a list of each after the other. -/
private theorem exists_append {A : Type} {l : List A} {m n : Nat} (h : l.length = m + n) :
    ∃ l₁ l₂, l = l₁ ++ l₂ ∧ l₁.length = m ∧ l₂.length = n :=
  ⟨l.take m, l.drop m, (List.take_append_drop m l).symm, by simp [h], by simp [h]⟩

/-- A circuit that has been polled can go on with any answers to what it has asked for. -/
theorem resumes (h : Polled t u c muls opens f) (hc : c.Plain) {ps : List S} {vs : List R}
    (hps : ps.length = muls.length) (hvs : vs.length = opens.length) :
    ∃ d, Resumes t u f ps vs d := by
  induction h generalizing ps vs with
  | ready a =>
    obtain rfl := List.eq_nil_of_length_eq_zero hps
    obtain rfl := List.eq_nil_of_length_eq_zero hvs
    exact ⟨_, .ready a⟩
  | mul x y next =>
    obtain ⟨z, rfl⟩ := List.length_eq_one_iff.1 hps
    obtain rfl := List.eq_nil_of_length_eq_zero hvs
    exact ⟨_, .product z hc⟩
  | reveal x next =>
    obtain rfl := List.eq_nil_of_length_eq_zero hps
    obtain ⟨v, rfl⟩ := List.length_eq_one_iff.1 hvs
    exact ⟨_, .value v hc⟩
  | waits _ _ _ ihfirst ihsecond =>
    obtain ⟨ps, ps', rfl, hps, hps'⟩ := exists_append (hps.trans List.length_append)
    obtain ⟨vs, vs', rfl, hvs, hvs'⟩ := exists_append (hvs.trans List.length_append)
    obtain ⟨_, hfirst⟩ := ihfirst hc.1 hps hvs
    obtain ⟨_, hsecond⟩ := ihsecond hc.2.1 hps' hvs'
    rw [← hps, ← hvs] at hsecond
    exact ⟨_, .both hfirst hsecond hc.2.2⟩
  | joins _ _ _ _ _ ih => exact ih (hc.2.2 _ _) hps hvs

/-- The circuit waits for as many answers as it has asked for. -/
theorem length_eq {t' u' : Ticket} {ps : List S} {vs : List R} {d : Future S R α}
    (h : Polled t u c muls opens f) (hd : Resumes t' u' f ps vs d) :
    ps.length = muls.length ∧ vs.length = opens.length := by
  induction h generalizing t' u' ps vs with
  | ready a =>
    cases hd
    exact ⟨rfl, rfl⟩
  | mul =>
    cases hd
    exact ⟨rfl, rfl⟩
  | reveal =>
    cases hd
    exact ⟨rfl, rfl⟩
  | waits _ _ _ ihfirst ihsecond =>
    cases hd with
    | both hfirst hsecond =>
      obtain ⟨hps, hvs⟩ := ihfirst hfirst
      obtain ⟨hps', hvs'⟩ := ihsecond hsecond
      simp only [List.length_append, hps, hvs, hps', hvs', and_self]
  | joins _ _ _ _ _ ih => exact ih hd

/-- What the circuit asks for in a poll is the first round of its schedule, and the other rounds are
those of the circuit that goes on with the answers. A circuit that becomes ready has no rounds. -/
theorem executes (h : Polled t u c muls opens f) {t' u' : Ticket} {ps : List S} {vs : List R}
    {d : Future S R α} (hd : Resumes t' u' f ps vs d) {rest : AnsweredTrace S R} {a : α}
    (he : d.Executes rest a) :
    ∃ trace, c.Executes trace a ∧
      ((∀ r, f ≠ .ready r) → trace.schedule = ⟨muls.zip ps, opens.zip vs⟩ :: rest.schedule) ∧
      ∀ r, f = .ready r → trace.schedule = [] := by
  induction h generalizing t' u' ps vs rest with
  | ready a =>
    cases hd
    cases he
    exact ⟨_, .ready a, fun hwaits => absurd rfl (hwaits a), fun _ _ => rfl⟩
  | mul x y next =>
    cases hd
    exact ⟨_, .mul he, fun _ => rfl, fun _ hready => by cases hready⟩
  | reveal x next =>
    cases hd
    exact ⟨_, .reveal he, fun _ => rfl, fun _ hready => by cases hready⟩
  | @waits α β γ t u c c' d₀ d' next muls muls' opens opens' hc hd₀ hboth ihfirst ihsecond =>
    cases hd with
    | both hfirst hsecond hnext =>
      cases he with
      | both hefirst hesecond herest =>
        obtain ⟨first, hefirst', hwaitsfirst, hreadyfirst⟩ := ihfirst hfirst hefirst
        obtain ⟨second, hesecond', hwaitssecond, hreadysecond⟩ := ihsecond hsecond hesecond
        refine ⟨_, .both hefirst' hesecond' herest, fun _ => ?_, fun _ hready => by cases hready⟩
        obtain ⟨hps, hvs⟩ := hc.length_eq hfirst
        rw [List.zip_append hps.symm, List.zip_append hvs.symm, Trace.schedule, Trace.schedule]
        by_cases hreadyc : ∃ b, c' = .ready b
        · obtain ⟨b, rfl⟩ := hreadyc
          cases hfirst
          cases hefirst
          obtain ⟨rfl, rfl⟩ := hc.eq_nil_of_ready
          rw [hreadyfirst _ rfl, hwaitssecond fun b' => hboth _ b' rfl]
          rfl
        · rw [hwaitsfirst fun b hb => hreadyc ⟨b, hb⟩]
          by_cases hreadyd : ∃ b, d' = .ready b
          · obtain ⟨b, rfl⟩ := hreadyd
            cases hsecond
            cases hesecond
            obtain ⟨rfl, rfl⟩ := hd₀.eq_nil_of_ready
            rw [hreadysecond _ rfl]
            simp [Trace.schedule]
          · rw [hwaitssecond fun b hb => hreadyd ⟨b, hb⟩]
            rfl
  | joins _ _ _ ihfirst ihsecond ih =>
    obtain ⟨_, hefirst, -, hnone⟩ := ihfirst (.ready (t := t) (u := u) _) (.ready _)
    obtain ⟨_, hesecond, -, hnone'⟩ := ihsecond (.ready (t := t) (u := u) _) (.ready _)
    obtain ⟨_, herest, hwaits, hready⟩ := ih hd he
    refine ⟨_, .both hefirst hesecond herest, fun h => ?_, fun r hr => ?_⟩
    · rw [Trace.schedule, hnone _ rfl, hnone' _ rfl, hwaits h]
      rfl
    · rw [Trace.schedule, hnone _ rfl, hnone' _ rfl, hready r hr]
      rfl

end Polled

end Future

end Multiparty
