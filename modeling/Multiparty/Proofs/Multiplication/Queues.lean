import Mathlib
import Multiparty.Multiplication
import Multiparty.Proofs.History

/-!
# The queues of a multiplier

A multiplication passes through three queues: its triple waits from the preparation to the end, its
masked differences from the preparation to the exchange, and the opened differences from the
exchange to the end. So there is a triple for everything that is masked or opened, whatever the
network and the opener do, and a triple without either is left only by an exchange in which an opened
value was refused.

## Main definitions

* `MultiplierStep`, `MultiplierStep.act`: an operation of a multiplier with its opener.
* `Multiplier.Exchanged`: the ways in which an exchange may go.
* `Multiplier.Enough`, `Multiplier.Exact`: there are enough triples, or just as many as needed.
* `Multiplier.TakingFailed`: an exchange in which an opened value was refused.

## Main results

* `Multiplier.ensures_exchange`: an exchange goes in one of these ways.
* `Multiplier.Enough.step`: what an operation does to the queues.
* `Multiplier.enough_of_history`: the queues after any history.
* `Multiplier.Enough.finalize`: no multiplication that was exchanged lacks its triple.
-/

namespace Multiparty

open Multiparty.Action (Ensures Runs)

/-- An operation of a multiplier. -/
inductive MultiplierStep (α : Type) where
  | init
  | prepare (x y : α)
  | exchange
  | finalize

namespace MultiplierStep

variable {α β O S R K : Type}

/-- The same operation on another form of the items. -/
def map (f : α → β) : MultiplierStep α → MultiplierStep β
  | init => init
  | prepare x y => prepare (f x) (f y)
  | exchange => exchange
  | finalize => finalize

variable [Opener O S R] [LinearShare S R K] [CodedRing R]

/-- Carries out an operation with an opener. The result is the share that it hands out, if it
does. -/
def act : MultiplierStep S → Action (O × Multiplier S R K) (Option S)
  | init => do
    modify fun (o, m) => (o, m.init)
    pure none
  | prepare x y => do
    Action.ofAttempt (Attempt.zoom (·.2) (fun m s => (s.1, m)) (Multiplier.prepare x y))
    pure none
  | exchange => do
    Multiplier.exchange
    pure none
  | finalize => do
    let z ← Action.ofAttempt fun (o, m) =>
      let (z, m) := Multiplier.finalize o m
      (z, (o, m))
    pure (some z)

variable {seat : Seat} {s s' : O × Multiplier S R K} {t : List Event}
  {r : Except ProtocolError (Option S)}

theorem of_runs_init (h : Runs (init : MultiplierStep S).act seat s t s' r) :
    t = [] ∧ s' = (s.1, s.2.init) ∧ r = .ok none :=
  h.of_ensures (Q := fun t s' r => t = [] ∧ s' = (s.1, s.2.init) ∧ r = .ok none)
    (Ensures.bind (Ensures.modify (Ensures.pure ⟨rfl, rfl, rfl⟩)))

theorem of_runs_prepare {x y : S} (h : Runs (prepare x y).act seat s t s' r) :
    t = [] ∧ s' = (s.1, (Multiplier.prepare x y s.2).2) ∧
      r = (Multiplier.prepare x y s.2).1.map fun _ => none := by
  obtain ⟨r, hprepare, rfl⟩ := h.of_bind_pure
  obtain ⟨rfl, rfl, rfl⟩ := hprepare.of_ensures (Q := fun t s' r => t = [] ∧
    s' = (s.1, (Multiplier.prepare x y s.2).2) ∧ r = (Multiplier.prepare x y s.2).1)
    (Ensures.ofAttempt ⟨rfl, rfl, rfl⟩)
  exact ⟨rfl, rfl, rfl⟩

theorem of_runs_finalize (h : Runs (finalize : MultiplierStep S).act seat s t s' r) :
    t = [] ∧ s' = (s.1, (Multiplier.finalize s.1 s.2).2) ∧
      r = (Multiplier.finalize s.1 s.2).1.map some := by
  obtain ⟨r, hfinalize, rfl⟩ := h.of_bind_pure
  obtain ⟨rfl, rfl, rfl⟩ := hfinalize.of_ensures (Q := fun t s' r => t = [] ∧
    s' = (s.1, (Multiplier.finalize s.1 s.2).2) ∧ r = (Multiplier.finalize s.1 s.2).1)
    (Ensures.ofAttempt ⟨rfl, rfl, rfl⟩)
  exact ⟨rfl, rfl, rfl⟩

end MultiplierStep

namespace Multiplier

variable {O S R K : Type} [Opener O S R] {seat : Seat} {s s' : O × Multiplier S R K}

/-! ### The outcome of an exchange -/

/-- Taking opened differences changes nothing but the opener and the queue of what is opened. -/
private theorem timesOnto_takePair (k : Nat) (acc : List Unit) (s : O × Multiplier S R K) :
    ∃ o' opened, (Attempt.timesOnto takePair k acc s).2 = (o', { s.2 with opened := opened }) ∧
      opened.length ≤ s.2.opened.length + k ∧
      ∀ units, (Attempt.timesOnto takePair k acc s).1 = .ok units →
        opened.length = s.2.opened.length + k := by
  induction k generalizing acc s with
  | zero => exact ⟨s.1, s.2.opened, rfl, Nat.le_refl _, fun _ _ => rfl⟩
  | succ k ih =>
    obtain ⟨o, m⟩ := s
    rw [Attempt.timesOnto, takePair]
    rcases Opener.finalize o with ⟨e | rho, o₁⟩
    · exact ⟨o₁, m.opened, rfl, Nat.le_add_right _ _, fun _ h => by cases h⟩
    dsimp only
    rcases Opener.finalize o₁ with ⟨e | sigma, o₂⟩
    · exact ⟨o₂, m.opened, rfl, Nat.le_add_right _ _, fun _ h => by cases h⟩
    obtain ⟨o', opened, hstate, hle, heq⟩ :=
      ih (() :: acc) (o₂, { m with opened := m.opened.enqueue (rho, sigma) })
    dsimp only at hle heq
    rw [Queue.length_enqueue, Nat.add_assoc, Nat.add_comm 1] at hle heq
    exact ⟨o', opened, hstate, hle, heq⟩

/-- The ways in which an exchange may go. -/
inductive Exchanged (seat : Seat) (s : O × Multiplier S R K) :
    List Event → O × Multiplier S R K → Except ProtocolError Unit → Prop where
  /-- Nothing is masked. -/
  | nothing : s.2.masked.toList = [] → Exchanged seat s [] s (.ok ())
  /-- The opener fails in its round. -/
  | refused {t : List Event} {o' : O} {e : ProtocolError} : s.2.masked.toList ≠ [] →
      Runs Opener.exchange seat (Opener.prepareAll s.2.maskedShares s.1) t o' (.error e) →
      Exchanged seat s t (o', s.2) (.error e)
  /-- The opener succeeds, and the opened differences are taken, unless one of them is refused. -/
  | opened {t : List Event} {o₁ o' : O} {opened : Queue (R × R)} {r : Except ProtocolError Unit} :
      s.2.masked.toList ≠ [] →
      Runs Opener.exchange seat (Opener.prepareAll s.2.maskedShares s.1) t o₁ (.ok ()) →
      opened.length ≤ s.2.opened.length + s.2.masked.length →
      (∀ u, r = .ok u → opened.length = s.2.opened.length + s.2.masked.length) →
      Exchanged seat s t (o', { s.2 with masked := .empty, opened := opened }) r

/-- Whatever the network and the opener do, an exchange goes in one of these ways. -/
theorem ensures_exchange : Ensures exchange seat s (Exchanged seat s) := by
  obtain ⟨o, m⟩ := s
  refine Ensures.get_bind ?_
  dsimp only
  by_cases hempty : m.masked.isEmpty = true
  · rw [if_pos hempty]
    exact Ensures.pure (.nothing ((Queue.isEmpty_iff _).1 hempty))
  rw [if_neg hempty]
  have hmasked : m.masked.toList ≠ [] := fun h => hempty ((Queue.isEmpty_iff _).2 h)
  refine Ensures.bind (Ensures.modify ?_)
  dsimp only
  have hround : Ensures (Action.zoom (fun s : O × Multiplier S R K => s.1) (fun o s => (o, s.2))
      Opener.exchange) seat (Opener.prepareAll m.maskedShares o, m) fun t s' r =>
        Runs Opener.exchange seat (Opener.prepareAll m.maskedShares o) t s'.1 r ∧ s'.2 = m :=
    Ensures.zoom fun answers => ⟨⟨answers, rfl, rfl⟩, rfl⟩
  refine Ensures.bind (hround.mono ?_)
  rintro t ⟨o₁, m₁⟩ r ⟨hruns, hsame⟩
  obtain rfl : m₁ = m := hsame
  cases r with
  | error e => exact .refused hmasked hruns
  | ok _ =>
    refine Ensures.bind (Ensures.modify (Ensures.bind (Ensures.ofAttempt ?_)))
    let rest : O × Multiplier S R K := (o₁, { m₁ with masked := .empty })
    obtain ⟨o', opened, hstate, hle, heq⟩ := timesOnto_takePair m₁.masked.length [] rest
    change (Attempt.times takePair m₁.masked.length rest).2 = _ at hstate
    change ∀ units, (Attempt.times takePair m₁.masked.length rest).1 = .ok units → _ at heq
    dsimp only
    rw [hstate]
    cases hresult : (Attempt.times takePair m₁.masked.length rest).1 with
    | error e =>
      simp only [List.nil_append, List.append_nil]
      exact .opened hmasked hruns hle fun _ h => by cases h
    | ok units =>
      refine Ensures.pure ?_
      simp only [List.nil_append, List.append_nil]
      exact .opened hmasked hruns hle fun _ _ => heq units hresult

/-! ### Triples in reserve -/

/-- There is a triple for everything that is masked or opened. -/
def Enough (m : Multiplier S R K) : Prop := m.masked.length + m.opened.length ≤ m.triples.length

/-- There is no further triple. -/
def Exact (m : Multiplier S R K) : Prop := m.masked.length + m.opened.length = m.triples.length

/-- The round of an exchange has succeeded, but then an opened value was refused. -/
def TakingFailed (s : O × Multiplier S R K) (op : Operation (MultiplierStep S) (Option S)) : Prop :=
  op.step = .exchange ∧ (∃ e, op.outcome = .error e) ∧
    ∃ o', Runs Opener.exchange op.seat (Opener.prepareAll s.2.maskedShares s.1) op.calls o' (.ok ())

variable [LinearShare S R K] [CodedRing R] {op : Operation (MultiplierStep S) (Option S)}
  {m : Multiplier S R K}

omit [Opener O S R] [CodedRing R] in
/-- A preparation that succeeds takes a triple, and one that fails changes nothing. -/
theorem prepare_cases (x y : S) (m : Multiplier S R K) :
    (∃ supply masked t, Multiplier.prepare x y m = (.ok (), { m with
      supply := supply
      masked := m.masked.enqueue masked
      triples := m.triples.enqueue t })) ∨
    ∃ e, Multiplier.prepare x y m = (.error e, m) := by
  rw [prepare, ofSupply, Attempt.zoom, Supply.triple]
  cases m.supply.triples with
  | nil => exact .inr ⟨_, rfl⟩
  | cons t rest => exact .inl ⟨_, _, t, rfl⟩

/-- A multiplication that was exchanged has its triple. Nothing changes if none was. -/
theorem Enough.finalize (h : m.Enough) (o : O) :
    (m.opened.toList = [] ∧ Multiplier.finalize o m = (.error (.misuse .nothingExchanged), m)) ∨
    ∃ z opened triples, Multiplier.finalize o m =
        (.ok z, { m with opened := opened, triples := triples }) ∧
      m.opened.length = opened.length + 1 ∧ m.triples.length = triples.length + 1 := by
  rw [Multiplier.finalize]
  cases hopened : m.opened.dequeue? with
  | none => exact .inl ⟨(Queue.dequeue?_eq_none_iff _).1 hopened, rfl⟩
  | some next =>
    obtain ⟨⟨rho, sigma⟩, opened⟩ := next
    have hlength := Queue.length_of_dequeue? hopened
    dsimp only
    cases htriples : m.triples.dequeue? with
    | none =>
      have hzero : m.triples.length = 0 := by
        rw [← Queue.length_toList, (Queue.dequeue?_eq_none_iff _).1 htriples, List.length_nil]
      rw [Enough] at h
      omega
    | some next =>
      exact .inr ⟨_, opened, next.2, rfl, hlength, Queue.length_of_dequeue? htriples⟩

/-- There stay enough triples, and if there were no further ones, there are none unless an opened
value was refused. -/
theorem Enough.step (h : s.2.Enough) (hrun : Runs op.step.act op.seat s op.calls s' op.outcome) :
    s'.2.Enough ∧ (s.2.Exact ∨ op.step = .init → s'.2.Exact ∨ TakingFailed s op) := by
  obtain ⟨step, seat, calls, outcome⟩ := op
  cases step with
  | init =>
    obtain ⟨rfl, rfl, rfl⟩ := MultiplierStep.of_runs_init hrun
    exact ⟨Nat.le_refl 0, fun _ => .inl rfl⟩
  | prepare x y =>
    obtain ⟨rfl, rfl, rfl⟩ := MultiplierStep.of_runs_prepare hrun
    obtain ⟨supply, masked, t, hprepare⟩ | ⟨e, hprepare⟩ := prepare_cases x y s.2
    · rw [hprepare]
      simp only [Enough, Exact, Queue.length_enqueue] at h ⊢
      refine ⟨by omega, fun hexact => .inl ?_⟩
      have := hexact.resolve_right (by simp)
      omega
    · rw [hprepare]
      exact ⟨h, fun hexact => .inl (hexact.resolve_right (by simp))⟩
  | exchange =>
    obtain ⟨r, hexchange, rfl⟩ := hrun.of_bind_pure
    cases hexchange.of_ensures ensures_exchange with
    | nothing hnone => exact ⟨h, fun hexact => .inl (hexact.resolve_right (by simp))⟩
    | refused hmasked hround => exact ⟨h, fun hexact => .inl (hexact.resolve_right (by simp))⟩
    | opened hmasked hround hle heq =>
      have hempty : (Queue.empty : Queue (S × S)).length = 0 := rfl
      simp only [Enough, Exact, hempty] at h ⊢
      refine ⟨by omega, fun hexact => ?_⟩
      cases r with
      | error e => exact .inr ⟨rfl, ⟨e, rfl⟩, _, hround⟩
      | ok u =>
        have hall := heq u rfl
        have := hexact.resolve_right (by simp)
        exact .inl (by omega)
  | finalize =>
    obtain ⟨rfl, rfl, rfl⟩ := MultiplierStep.of_runs_finalize hrun
    obtain ⟨-, hfinalize⟩ | ⟨z, opened, triples, hfinalize, hopened, htriples⟩ := h.finalize s.1
    · rw [hfinalize]
      exact ⟨h, fun hexact => .inl (hexact.resolve_right (by simp))⟩
    · rw [hfinalize]
      simp only [Enough, Exact] at h ⊢
      refine ⟨by omega, fun hexact => .inl ?_⟩
      have := hexact.resolve_right (by simp)
      omega

/-- After any history there are enough triples, and there are no further ones unless an opened value
was refused in an exchange since the multiplications were last forgotten. -/
theorem enough_of_history {o : O} {supply : Supply S R K}
    {ops : List (Operation (MultiplierStep S) (Option S))}
    (h : History MultiplierStep.act (o, create supply) ops s) :
    s.2.Enough ∧ (s.2.Exact ∨ ∃ before op after s₁, ops = before ++ op :: after ∧
      History MultiplierStep.act (o, create supply) before s₁ ∧ TakingFailed s₁ op ∧
      ∀ op' ∈ after, op'.step ≠ .init) := by
  induction h with
  | start => exact ⟨Nat.le_refl 0, .inl rfl⟩
  | @next ops op s₁ s₂ hops hop ih =>
    obtain ⟨henough, hexact⟩ := ih
    obtain ⟨henough', hexact'⟩ := henough.step hop
    refine ⟨henough', ?_⟩
    have hnow (h : s₂.2.Exact ∨ TakingFailed s₁ op) : s₂.2.Exact ∨
        ∃ before op' after s', ops ++ [op] = before ++ op' :: after ∧
          History MultiplierStep.act (o, create supply) before s' ∧ TakingFailed s' op' ∧
          ∀ op'' ∈ after, op''.step ≠ .init :=
      h.imp_right fun hfailed => ⟨ops, op, [], s₁, rfl, hops, hfailed, fun _ hop => by cases hop⟩
    by_cases hinit : op.step = .init
    · exact hnow (hexact' (.inr hinit))
    · obtain hexact | ⟨before, op', after, s', rfl, hbefore, hfailed, hafter⟩ := hexact
      · exact hnow (hexact' (.inl hexact))
      · refine .inr ⟨before, op', after ++ [op], s', by simp, hbefore, hfailed, fun op'' hop'' => ?_⟩
        obtain hmem | hmem := List.mem_append.1 hop''
        · exact hafter op'' hmem
        · rw [List.mem_singleton.1 hmem]
          exact hinit

end Multiplier

end Multiparty
