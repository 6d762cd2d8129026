import Multiparty.Circuit.Buffer

/-!
# Futures

A future is a computation on shares that is polled. Each poll carries it on as far as it goes without
the answer to a request. Branches that are joined are polled in order and in every poll, and what
comes after the join begins in the poll in which the last branch becomes ready. So the requests of all
branches come to the same round, in the same order at all parties.

## Main definitions

* `Future`: a computation that is ready, waits for an answer, or joins two branches.
* `Future.bind`, `Future.joinAll`: sequencing, and any number of branches.
* `Future.poll`: one poll.
* `Future.Step`: a future goes on at one place.

## Main results

* `Future.wellFounded_step`: a future goes on finitely often only.
* `Future.poll_progress`: a poll in which something is requested has carried the future on.
-/

namespace Multiparty

/-- A computation on shares `S` with clear values `R` that is polled. -/
inductive Future (S R : Type) : Type → Type 1 where
  | ready {α : Type} (result : α) : Future S R α
  /-- Asks for the product of two shares. -/
  | mul {α : Type} (x y : S) (next : S → Future S R α) : Future S R α
  /-- Asks for the value of a share. -/
  | reveal {α : Type} (x : S) (next : R → Future S R α) : Future S R α
  /-- Waits for a product. -/
  | awaitProduct {α : Type} (ticket : Ticket) (next : S → Future S R α) : Future S R α
  /-- Waits for an opened value. -/
  | awaitValue {α : Type} (ticket : Ticket) (next : R → Future S R α) : Future S R α
  /-- Goes on when two branches are ready. -/
  | both {α β γ : Type} (first : Future S R β) (second : Future S R γ)
      (next : β → γ → Future S R α) : Future S R α
  /-- Polls the first one once, drops it, and goes on with the second one. -/
  | abandon {α β : Type} (first : Future S R β) (second : Future S R α) : Future S R α
  /-- Is never ready. -/
  | stuck {α : Type} : Future S R α

namespace Future

variable {S R α β : Type}

/-- Continues with `f` when the future is ready. -/
protected def bind {α : Type} : Future S R α → (α → Future S R β) → Future S R β
  | ready a, f => f a
  | mul x y next, f => mul x y fun z => (next z).bind f
  | reveal x next, f => reveal x fun v => (next v).bind f
  | awaitProduct ticket next, f => awaitProduct ticket fun z => (next z).bind f
  | awaitValue ticket next, f => awaitValue ticket fun v => (next v).bind f
  | both first second next, f => both first second fun b c => (next b c).bind f
  | abandon first second, f => abandon first (second.bind f)
  | stuck, _ => stuck

/-- All futures of a list as branches. -/
def joinAll : List (Future S R α) → Future S R (List α)
  | [] => ready []
  | c :: cs => both c (joinAll cs) fun a as => ready (a :: as)

/-- Carries a future on as far as it goes. It has become ready if the future that is left is. -/
def poll {α : Type} : Future S R α → Buffers S R → Except CircuitFault (Future S R α) × Buffers S R
  | ready a, b => (.ok (ready a), b)
  | mul x y next, b =>
    let (ticket, muls) := b.muls.queue (x, y)
    (.ok (awaitProduct ticket next), { b with muls := muls })
  | reveal x next, b =>
    let (ticket, opens) := b.opens.queue x
    (.ok (awaitValue ticket next), { b with opens := opens })
  | awaitProduct ticket next, b =>
    match b.muls.claim ticket with
    | (.error e, muls) => (.error e, { b with muls := muls })
    | (.ok none, muls) => (.ok (awaitProduct ticket next), { b with muls := muls })
    | (.ok (some z), muls) => (next z).poll { b with muls := muls }
  | awaitValue ticket next, b =>
    match b.opens.claim ticket with
    | (.error e, opens) => (.error e, { b with opens := opens })
    | (.ok none, opens) => (.ok (awaitValue ticket next), { b with opens := opens })
    | (.ok (some v), opens) => (next v).poll { b with opens := opens }
  | both first second next, b =>
    match first.poll b with
    | (.error e, b) => (.error e, b)
    | (.ok first, b) =>
      match second.poll b with
      | (.error e, b) => (.error e, b)
      | (.ok second, b) =>
        match first, second with
        | ready a, ready c => (next a c).poll b
        | first, second => (.ok (both first second next), b)
  | abandon first second, b =>
    match first.poll b with
    | (.error e, b) => (.error e, b)
    | (.ok _, b) => second.poll b
  | stuck, b => (.ok stuck, b)

/-! ### Every future goes on finitely often -/

/-- `Step g f` means that the future `f` goes on as `g`, at one place. -/
inductive Step : {α : Type} → Future S R α → Future S R α → Prop where
  | mul {α : Type} (x y : S) (ticket : Ticket) (next : S → Future S R α) :
      Step (awaitProduct ticket next) (mul x y next)
  | reveal {α : Type} (x : S) (ticket : Ticket) (next : R → Future S R α) :
      Step (awaitValue ticket next) (reveal x next)
  | product {α : Type} (ticket : Ticket) (next : S → Future S R α) (z : S) :
      Step (next z) (awaitProduct ticket next)
  | value {α : Type} (ticket : Ticket) (next : R → Future S R α) (v : R) :
      Step (next v) (awaitValue ticket next)
  | first {α β γ : Type} {c c' : Future S R β} (d : Future S R γ) (next : β → γ → Future S R α) :
      Step c' c → Step (both c' d next) (both c d next)
  | second {α β γ : Type} (c : Future S R β) {d d' : Future S R γ} (next : β → γ → Future S R α) :
      Step d' d → Step (both c d' next) (both c d next)
  | join {α β γ : Type} (a : β) (b : γ) (next : β → γ → Future S R α) :
      Step (next a b) (both (ready a) (ready b) next)
  | abandon {α β : Type} (c : Future S R β) (d : Future S R α) : Step d (abandon c d)

private theorem acc_product {ticket : Ticket} {next : S → Future S R α}
    (h : ∀ z, Acc Step (next z)) : Acc Step (awaitProduct ticket next) := by
  refine ⟨_, fun g hg => ?_⟩
  cases hg with
  | product _ _ z => exact h z

private theorem acc_value {ticket : Ticket} {next : R → Future S R α}
    (h : ∀ v, Acc Step (next v)) : Acc Step (awaitValue ticket next) := by
  refine ⟨_, fun g hg => ?_⟩
  cases hg with
  | value _ _ v => exact h v

/-- Joined branches go on in any order, and after them what comes after the join. -/
private theorem acc_both {α β γ : Type} {c : Future S R β} {d : Future S R γ}
    {next : β → γ → Future S R α} (hc : Acc Step c) (hd : Acc Step d)
    (h : ∀ a b, Acc Step (next a b)) : Acc Step (both c d next) := by
  induction hc generalizing d with
  | intro c _ ihc =>
    induction hd with
    | intro d hd ihd =>
      refine ⟨_, fun g hg => ?_⟩
      cases hg with
      | first _ _ hstep => exact ihc _ hstep ⟨_, hd⟩
      | second _ _ hstep => exact ihd _ hstep
      | join a b _ => exact h a b

theorem acc_step {α : Type} (c : Future S R α) : Acc Step c := by
  induction c with
  | ready a => exact ⟨_, fun g hg => by cases hg⟩
  | mul x y next ih =>
    refine ⟨_, fun g hg => ?_⟩
    cases hg with
    | mul _ _ ticket _ => exact acc_product ih
  | reveal x next ih =>
    refine ⟨_, fun g hg => ?_⟩
    cases hg with
    | reveal _ ticket _ => exact acc_value ih
  | awaitProduct ticket next ih => exact acc_product ih
  | awaitValue ticket next ih => exact acc_value ih
  | both first second next ihfirst ihsecond ih => exact acc_both ihfirst ihsecond ih
  | abandon first second ihfirst ihsecond =>
    refine ⟨_, fun g hg => ?_⟩
    cases hg with
    | abandon _ _ => exact ihsecond
  | stuck => exact ⟨_, fun g hg => by cases hg⟩

/-- A future goes on finitely often only. -/
theorem wellFounded_step : WellFounded (Step (S := S) (R := R) (α := α)) := ⟨acc_step⟩

/-- `Later g f` means that the future `f` has gone on as `g`. -/
abbrev Later {α : Type} (g f : Future S R α) : Prop := Relation.TransGen Step g f

private theorem Later.first {β γ : Type} {c c' : Future S R β} (h : Later c' c) (d : Future S R γ)
    (next : β → γ → Future S R α) : Later (both c' d next) (both c d next) := by
  induction h with
  | single hstep => exact .single (.first d next hstep)
  | tail _ hstep ih => exact .tail ih (.first d next hstep)

private theorem Later.second {β γ : Type} (c : Future S R β) {d d' : Future S R γ} (h : Later d' d)
    (next : β → γ → Future S R α) : Later (both c d' next) (both c d next) := by
  induction h with
  | single hstep => exact .single (.second c next hstep)
  | tail _ hstep ih => exact .tail ih (.second c next hstep)

/-- The future has gone on, or else nothing has changed and nothing is requested. -/
private def Progress {α : Type} (f : Future S R α) (b : Buffers S R) (f' : Future S R α)
    (b' : Buffers S R) : Prop :=
  Later f' f ∨ f' = f ∧ b'.pending = b.pending

private theorem Progress.trans {f f' f'' : Future S R α} {b b' b'' : Buffers S R}
    (h : Progress f b f' b') (h' : Progress f' b' f'' b'') : Progress f b f'' b'' := by
  rcases h with h | ⟨rfl, h⟩
  · rcases h' with h' | ⟨rfl, -⟩
    · exact .inl (h'.trans h)
    · exact .inl h
  · rcases h' with h' | ⟨rfl, h'⟩
    · exact .inl h'
    · exact .inr ⟨rfl, h'.trans h⟩

private theorem Progress.both {β γ : Type} {c c' : Future S R β} {d d' : Future S R γ}
    {b b' b'' : Buffers S R} (hc : Progress c b c' b') (hd : Progress d b' d' b'')
    (next : β → γ → Future S R α) : Progress (both c d next) b (both c' d' next) b'' := by
  have hfirst : Progress (Future.both c d next) b (Future.both c' d next) b' :=
    hc.imp (·.first d next) fun ⟨h, hpending⟩ => ⟨by rw [h], hpending⟩
  exact hfirst.trans (hd.imp (·.second c' next) fun ⟨h, hpending⟩ => ⟨by rw [h], hpending⟩)

/-- What goes on first has progressed at the end, whatever follows. -/
private theorem Progress.of_step {f f' f'' : Future S R α} {b b' b'' : Buffers S R} (h : Step f' f)
    (h' : Progress f' b' f'' b'') : Progress f b f'' b'' :=
  .inl (h'.elim (·.trans (.single h)) fun ⟨h', _⟩ => h' ▸ .single h)

theorem poll_progress {f f' : Future S R α} {b b' : Buffers S R} (h : f.poll b = (.ok f', b')) :
    Later f' f ∨ f' = f ∧ b'.pending = b.pending := by
  change Progress f b f' b'
  induction f generalizing b b' with
  | ready a =>
    rw [poll] at h
    cases h
    exact .inr ⟨rfl, rfl⟩
  | mul x y next ih =>
    rw [poll] at h
    cases h
    exact .inl (.single (.mul x y _ next))
  | reveal x next ih =>
    rw [poll] at h
    cases h
    exact .inl (.single (.reveal x _ next))
  | awaitProduct ticket next ih =>
    rw [poll] at h
    have hrequests := RoundBuffer.requests_claim ticket b.muls
    split at h
    · cases h
    · next muls hclaim =>
      cases h
      rw [hclaim] at hrequests
      exact .inr ⟨rfl, by rw [Buffers.pending, hrequests]; rfl⟩
    · next z muls hclaim => exact .of_step (.product ticket next z) (ih z h)
  | awaitValue ticket next ih =>
    rw [poll] at h
    have hrequests := RoundBuffer.requests_claim ticket b.opens
    split at h
    · cases h
    · next opens hclaim =>
      cases h
      rw [hclaim] at hrequests
      exact .inr ⟨rfl, by rw [Buffers.pending, hrequests]; rfl⟩
    · next v opens hclaim => exact .of_step (.value ticket next v) (ih v h)
  | both first second next ihfirst ihsecond ih =>
    rw [poll] at h
    split at h
    · cases h
    · next first' b₁ hfirst =>
      split at h
      · cases h
      · next second' b₂ hsecond =>
        have hboth := (ihfirst hfirst).both (ihsecond hsecond) next
        split at h
        · next _ _ a c => exact hboth.trans (.of_step (.join a c next) (ih a c h))
        · cases h
          exact hboth
  | abandon first second ihfirst ihsecond =>
    rw [poll] at h
    split at h
    · cases h
    · exact .of_step (.abandon first second) (ihsecond h)
  | stuck =>
    rw [poll] at h
    cases h
    exact .inr ⟨rfl, rfl⟩

end Future

end Multiparty
