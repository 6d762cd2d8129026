import Mathlib.Data.List.OfFn
import Multiparty.Proofs.Network.Turn
import Multiparty.Proofs.Session

/-!
# Computations in lockstep

The computations of `n` parties run in *lockstep* if they can be cut into rounds. In a round every
party takes at most one turn, and what one party sends to another one is what the other one gets
from it. So the outcome of all parties is fixed without a network, and joint statements on protocols
are proved by rules that follow the structure of a computation.

## Main definitions

* `Session.Follows`: the turns that a computation takes, and how it ends.
* `Round`, `Round.Matched`: the turns of all parties in one round.
* `Lockstep`: the computations of all parties cut into rounds, with a property of the outcome.
* `Action.Succeed`: actions in lockstep that succeed at all parties.

## Main results

* `Lockstep.bind`, `Lockstep.round`: sequencing, and one more round in front.
* `Round.matched_broadcast`, `Round.matched_shift`: the rounds of the protocols.
* `Action.Succeed.bind` and its companions: the rules for actions.
-/

namespace Multiparty

variable {σ τ α β : Type} {n : Nat}

namespace Session

/-- `Follows c turns s a` holds if the computation takes the given turns, one after another, and
ends in state `s` with result `a`. -/
inductive Follows : Session σ α → List Turn → σ → α → Prop where
  | done (s : σ) (a : α) : Follows (done s a) [] s a
  | wait {t : Turn} {resume : Except TransportError t.call.Reply → Session σ α}
      {turns : List Turn} {s' : σ} {a : α} (s : σ) :
      Follows (resume (.ok t.reply)) turns s' a → Follows (wait s t.call resume) (t :: turns) s' a

namespace Follows

variable {c : Session σ α} {turns turns' : List Turn} {s : σ} {a : α}

theorem bind {f : σ → α → Session σ β} {s' : σ} {b : β} (h : c.Follows turns s a)
    (hf : (f s a).Follows turns' s' b) : (Session.bind f c).Follows (turns ++ turns') s' b := by
  induction h with
  | done s a => exact hf
  | wait s _ ih => exact .wait s (ih hf)

theorem mapState (f : σ → τ) (h : c.Follows turns s a) :
    (Session.mapState f c).Follows turns (f s) a := by
  induction h with
  | done s a => exact .done (f s) a
  | wait s _ ih => exact .wait (f s) ih

theorem of_nil (h : c.Follows [] s a) : c = .done s a := by
  cases h
  rfl

theorem of_cons {t : Turn} (h : c.Follows (t :: turns) s a) :
    ∃ s' resume, c = .wait s' t.call resume ∧ (resume (.ok t.reply)).Follows turns s a := by
  cases h with
  | wait s' h => exact ⟨s', _, rfl, h⟩

end Follows

/-- `Takes c t c'` holds if the computation `c` takes the turn `t`, if any, and goes on with `c'`. -/
def Takes (c : Session σ α) : Option Turn → Session σ α → Prop
  | none, c' => c' = c
  | some t, c' => ∃ s resume, c = .wait s t.call resume ∧ c' = resume (.ok t.reply)

theorem Takes.follows {c c' : Session σ α} {t : Option Turn} {turns : List Turn} {s : σ} {a : α}
    (h : c.Takes t c') (hc : c'.Follows turns s a) : c.Follows (t.toList ++ turns) s a := by
  cases t with
  | none =>
    obtain rfl : c' = c := h
    exact hc
  | some t =>
    obtain ⟨s', resume, rfl, rfl⟩ := h
    exact .wait s' hc

end Session

/-- The turn that each of `n` parties takes in a round, if it takes one. -/
abbrev Round (n : Nat) : Type := Fin n → Option Turn

namespace Round

/-- The payload that one party sends to another one. -/
def message (r : Round n) (i j : Fin n) : Option Bytes := (r i).bind fun t => t.sends n i j

/-- Every party takes a turn that it can take, and what is sent is what is got. -/
structure Matched (r : Round n) : Prop where
  sound : ∀ i t, r i = some t → t.Sound n i
  agree : ∀ i j : Fin n, (r j).bind (fun t => t.gets n j i) = r.message i j

/-- The turns that one party takes in some rounds. -/
def turnsOf (rounds : List (Round n)) (i : Fin n) : List Turn := rounds.filterMap (· i)

@[simp] theorem turnsOf_nil (i : Fin n) : turnsOf [] i = [] := rfl

theorem turnsOf_cons (r : Round n) (rounds : List (Round n)) (i : Fin n) :
    turnsOf (r :: rounds) i = (r i).toList ++ turnsOf rounds i := by
  cases h : r i <;> simp [turnsOf, h]

theorem turnsOf_append (rounds rounds' : List (Round n)) (i : Fin n) :
    turnsOf (rounds ++ rounds') i = turnsOf rounds i ++ turnsOf rounds' i :=
  List.filterMap_append

/-- Everyone broadcasts a payload. -/
def broadcast (payload : Fin n → Bytes) : Round n := fun i =>
  some ⟨.broadcast (payload i), List.ofFn payload⟩

theorem matched_broadcast (payload : Fin n → Bytes) : (broadcast payload).Matched where
  sound i t ht := by
    obtain rfl := Option.some.inj ht
    refine ⟨List.length_ofFn, ?_⟩
    rw [List.getElem?_ofFn, dif_pos i.isLt]
  agree i j := by
    change Turn.gets n j ⟨.broadcast (payload j), List.ofFn payload⟩ i =
      Call.sends n i j (.broadcast (payload i))
    rw [Turn.gets, Call.sends]
    by_cases h : (i : Nat) = j
    · rw [if_pos h, if_pos h.symm]
    · rw [if_neg h, if_neg (Ne.symm h), List.getElem?_ofFn, dif_pos i.isLt]

/-- The party a number of places further along the ring. -/
def next (i : Fin n) (offset : Nat) : Fin n :=
  ⟨(i + offset) % n, Nat.mod_lt _ (Nat.zero_lt_of_lt i.isLt)⟩

/-- The party a number of places before along the ring. -/
def previous (i : Fin n) (offset : Nat) : Fin n :=
  ⟨(i + n - offset % n) % n, Nat.mod_lt _ (Nat.zero_lt_of_lt i.isLt)⟩

theorem mod_of_lt_two {x m : Nat} (h : x < 2 * m) : x % m = if x < m then x else x - m := by
  split
  · next hx => exact Nat.mod_eq_of_lt hx
  · next hx => rw [Nat.mod_eq_sub_mod (Nat.not_lt.1 hx), Nat.mod_eq_of_lt (by omega)]

theorem val_next (i : Fin n) (offset : Nat) : (next i offset : Nat) =
    if (i : Nat) + offset % n < n then (i : Nat) + offset % n else (i : Nat) + offset % n - n := by
  have hi := i.isLt
  have hlt : offset % n < n := Nat.mod_lt _ (Nat.zero_lt_of_lt hi)
  change ((i : Nat) + offset) % n = _
  rw [← Nat.add_mod_mod, mod_of_lt_two (by omega)]

theorem next_eq_iff {i j : Fin n} {offset : Nat} : next i offset = j ↔ previous j offset = i := by
  have hi := i.isLt
  have hj := j.isLt
  have hlt : offset % n < n := Nat.mod_lt _ (Nat.zero_lt_of_lt hi)
  have hprevious : (previous j offset : Nat) = _ :=
    mod_of_lt_two (x := (j : Nat) + n - offset % n) (m := n) (by omega)
  rw [Fin.ext_iff, Fin.ext_iff, val_next, hprevious]
  split <;> split <;> omega

theorem next_ne {i : Fin n} {offset : Nat} (h : ¬ n ∣ offset) : next i offset ≠ i := by
  have hi := i.isLt
  have hlt : offset % n < n := Nat.mod_lt _ (Nat.zero_lt_of_lt hi)
  have hpos : offset % n ≠ 0 := fun h0 => h (Nat.dvd_of_mod_eq_zero h0)
  rw [Ne, Fin.ext_iff, val_next]
  split <;> omega

/-- Payloads move a number of places along the ring, from those parties that `sender` names. A
party that neither sends nor gets anything stays out. -/
def shift (offset : Nat) (sender : Fin n → Bool) (payload : Fin n → Bytes) : Round n := fun i =>
  match sender i, sender (previous i offset) with
  | true, true => some ⟨.pass offset (payload i), payload (previous i offset)⟩
  | true, false => some ⟨.send (next i offset) (payload i), ()⟩
  | false, true => some ⟨.receive (previous i offset), payload (previous i offset)⟩
  | false, false => none

private theorem message_shift (offset : Nat) (sender : Fin n → Bool) (payload : Fin n → Bytes)
    (i j : Fin n) : (shift offset sender payload).message i j =
      if sender i = true ∧ next i offset = j then some (payload i) else none := by
  have htarget : ((j : Nat) = next i offset) ↔ next i offset = j := by
    rw [Fin.ext_iff, eq_comm]
  rw [message, shift]
  cases hi : sender i <;> cases sender (previous i offset)
  · simp
  · rfl
  · change (if (j : Nat) = next i offset then some (payload i) else none) = _
    simp only [htarget, true_and]
  · change (if (j : Nat) = next i offset then some (payload i) else none) = _
    simp only [htarget, true_and]

theorem matched_shift {offset : Nat} (h : ¬ n ∣ offset) (hword : ∀ i : Fin n,
      isWord (i + offset) = true ∧ isWord (i + n) = true) (sender : Fin n → Bool)
    (payload : Fin n → Bytes) : (shift offset sender payload).Matched where
  sound i t ht := by
    have hnext : ((next i offset : Fin n) : Nat) ≠ i := fun heq => next_ne h (Fin.ext heq)
    have hprevious : ((previous i offset : Fin n) : Nat) ≠ i := by
      intro heq
      exact next_ne h (next_eq_iff.2 (Fin.ext heq))
    rw [shift] at ht
    cases hi : sender i <;> cases hp : sender (previous i offset) <;> rw [hi, hp] at ht
    · cases ht
    · obtain rfl := Option.some.inj ht
      exact ⟨(previous i offset).isLt, hprevious⟩
    · obtain rfl := Option.some.inj ht
      exact ⟨(next i offset).isLt, hnext⟩
    · obtain rfl := Option.some.inj ht
      exact ⟨hnext, hprevious, hword i⟩
  agree i j := by
    have hsource : ((i : Nat) = previous j offset) ↔ next i offset = j := by
      rw [next_eq_iff, eq_comm, ← Fin.ext_iff]
    rw [message_shift, shift]
    by_cases hij : next i offset = j
    · obtain rfl : previous j offset = i := next_eq_iff.1 hij
      cases sender j <;> cases hp : sender (previous j offset)
      · simp
      · change (if _ then _ else _) = _
        exact (if_pos rfl).trans (if_pos ⟨rfl, hij⟩).symm
      · simp [Turn.gets]
      · change (if _ then _ else _) = _
        exact (if_pos rfl).trans (if_pos ⟨rfl, hij⟩).symm
    · rw [if_neg fun hc => hij hc.2]
      have hne : ¬ (i : Nat) = previous j offset := fun heq => hij (hsource.1 heq)
      cases sender j <;> cases sender (previous j offset)
      · rfl
      · exact if_neg hne
      · rfl
      · exact if_neg hne

end Round

/-- The computations of `n` parties can be cut into rounds and end in states and with results that
have the property `Q`. -/
def Lockstep (cs : Fin n → Session σ α) (Q : (Fin n → σ) → (Fin n → α) → Prop) : Prop :=
  ∃ rounds : List (Round n), (∀ r ∈ rounds, r.Matched) ∧
    ∃ s a, (∀ i, (cs i).Follows (Round.turnsOf rounds i) (s i) (a i)) ∧ Q s a

namespace Lockstep

variable {cs cs' : Fin n → Session σ α} {Q : (Fin n → σ) → (Fin n → α) → Prop}

theorem done {s : Fin n → σ} {a : Fin n → α} (h : Q s a) :
    Lockstep (fun i => .done (s i) (a i)) Q :=
  ⟨[], fun _ hr => (by cases hr), s, a, fun i => .done (s i) (a i), h⟩

theorem mono {Q' : (Fin n → σ) → (Fin n → α) → Prop} (h : Lockstep cs Q)
    (hQ : ∀ s a, Q s a → Q' s a) : Lockstep cs Q' := by
  obtain ⟨rounds, hmatched, s, a, hfollows, hq⟩ := h
  exact ⟨rounds, hmatched, s, a, hfollows, hQ s a hq⟩

theorem bind {f : Fin n → σ → α → Session σ β} {Q' : (Fin n → σ) → (Fin n → β) → Prop}
    (h : Lockstep cs Q) (hf : ∀ s a, Q s a → Lockstep (fun i => f i (s i) (a i)) Q') :
    Lockstep (fun i => Session.bind (f i) (cs i)) Q' := by
  obtain ⟨rounds, hmatched, s, a, hfollows, hq⟩ := h
  obtain ⟨rounds', hmatched', s', b, hfollows', hq'⟩ := hf s a hq
  refine ⟨rounds ++ rounds', fun r hr => ?_, s', b, fun i => ?_, hq'⟩
  · rcases List.mem_append.1 hr with h | h
    · exact hmatched r h
    · exact hmatched' r h
  · rw [Round.turnsOf_append]
    exact (hfollows i).bind (hfollows' i)

theorem mapState (f : Fin n → σ → τ) {Q : (Fin n → τ) → (Fin n → α) → Prop}
    (h : Lockstep cs fun s a => Q (fun i => f i (s i)) a) :
    Lockstep (fun i => Session.mapState (f i) (cs i)) Q := by
  obtain ⟨rounds, hmatched, s, a, hfollows, hq⟩ := h
  exact ⟨rounds, hmatched, _, a, fun i => (hfollows i).mapState (f i), hq⟩

/-- One more round in front. -/
theorem round {r : Round n} (hr : r.Matched) (htakes : ∀ i, (cs i).Takes (r i) (cs' i))
    (h : Lockstep cs' Q) : Lockstep cs Q := by
  obtain ⟨rounds, hmatched, s, a, hfollows, hq⟩ := h
  refine ⟨r :: rounds, fun r' hr' => ?_, s, a, fun i => ?_, hq⟩
  · rcases List.mem_cons.1 hr' with rfl | h
    · exact hr
    · exact hmatched r' h
  · rw [Round.turnsOf_cons]
    exact (htakes i).follows (hfollows i)

end Lockstep

namespace Action

/-- Actions of `n` parties, started in given states, run in lockstep and succeed at all parties.
Final states and results have the property `Q`. -/
def Succeed (ms : Fin n → Action σ α) (s : Fin n → σ) (Q : (Fin n → σ) → (Fin n → α) → Prop) :
    Prop :=
  Lockstep (fun i => (ms i).run ⟨i, n⟩ (s i)) fun s' results =>
    ∃ a : Fin n → α, results = (fun i => .ok (a i)) ∧ Q s' a

namespace Succeed

variable {ms : Fin n → Action σ α} {s : Fin n → σ} {Q : (Fin n → σ) → (Fin n → α) → Prop}
  {Q' : (Fin n → σ) → (Fin n → β) → Prop}

theorem mono {R : (Fin n → σ) → (Fin n → α) → Prop} (h : Succeed ms s Q)
    (hQ : ∀ s a, Q s a → R s a) : Succeed ms s R :=
  Lockstep.mono h fun s' _ ⟨a, ha, hq⟩ => ⟨a, ha, hQ s' a hq⟩

protected theorem pure {a : Fin n → α} (h : Q s a) : Succeed (fun i => pure (a i)) s Q :=
  Lockstep.done ⟨a, rfl, h⟩

protected theorem bind {f : Fin n → α → Action σ β} (h : Succeed ms s Q)
    (hf : ∀ s a, Q s a → Succeed (fun i => f i (a i)) s Q') :
    Succeed (fun i => ms i >>= f i) s Q' := by
  refine Lockstep.bind h ?_
  rintro s' _ ⟨a, rfl, hq⟩
  exact hf s' a hq

protected theorem modify {f : Fin n → σ → σ} {Q : (Fin n → σ) → (Fin n → Unit) → Prop}
    (h : Q (fun i => f i (s i)) fun _ => ()) :
    Succeed (fun i => modify (f i) : Fin n → Action σ Unit) s Q :=
  Lockstep.done ⟨fun _ => (), rfl, h⟩

protected theorem ofExcept {result : Fin n → Except ProtocolError α} {a : Fin n → α}
    (hresult : ∀ i, result i = .ok (a i)) (h : Q s a) :
    Succeed (fun i => Action.ofExcept (result i)) s Q :=
  Lockstep.done ⟨a, funext hresult, h⟩

protected theorem ofAttempt {f : Fin n → Attempt σ α} {s' : Fin n → σ} {a : Fin n → α}
    (hf : ∀ i, f i (s i) = (.ok (a i), s' i)) (h : Q s' a) :
    Succeed (fun i => Action.ofAttempt (f i)) s Q := by
  have hs : s' = fun i => (f i (s i)).2 := funext fun i => by rw [hf i]
  subst hs
  exact Lockstep.done ⟨a, funext fun i => congrArg Prod.fst (hf i), h⟩

theorem get_bind {f : Fin n → σ → Action σ β} (h : Succeed (fun i => f i (s i)) s Q') :
    Succeed (fun i => get >>= f i) s Q' := h

theorem seat_bind {f : Fin n → Seat → Action σ β} (h : Succeed (fun i => f i ⟨i, n⟩) s Q') :
    Succeed (fun i => Action.seat >>= f i) s Q' := h

theorem modify_bind (g : Fin n → σ → σ) {f : Fin n → Unit → Action σ β}
    (h : Succeed (fun i => f i ()) (fun i => g i (s i)) Q') :
    Succeed (fun i => modify (g i) >>= f i) s Q' := h

theorem ofExcept_bind {result : Fin n → Except ProtocolError α} {a : Fin n → α}
    {f : Fin n → α → Action σ β} (hresult : ∀ i, result i = .ok (a i))
    (h : Succeed (fun i => f i (a i)) s Q') :
    Succeed (fun i => Action.ofExcept (result i) >>= f i) s Q' := by
  obtain rfl : result = fun i => .ok (a i) := funext hresult
  exact h

theorem ofAttempt_bind {g : Fin n → Attempt σ α} {s' : Fin n → σ} {a : Fin n → α}
    {f : Fin n → α → Action σ β} (hg : ∀ i, g i (s i) = (.ok (a i), s' i))
    (h : Succeed (fun i => f i (a i)) s' Q') :
    Succeed (fun i => Action.ofAttempt (g i) >>= f i) s Q' :=
  Succeed.bind (Succeed.ofAttempt (Q := fun s'' a' => s'' = s' ∧ a' = a) hg ⟨rfl, rfl⟩) fun _ _ hq => by
    obtain ⟨rfl, rfl⟩ := hq
    exact h

/-- Looking at the outcome of actions that succeed. -/
theorem attempt_bind {f : Fin n → Except ProtocolError α → Action σ β} (h : Succeed ms s Q)
    (hf : ∀ s a, Q s a → Succeed (fun i => f i (.ok (a i))) s Q') :
    Succeed (fun i => (ms i).attempt >>= f i) s Q' := by
  simp only [Succeed, run_attempt_bind]
  refine Lockstep.bind h ?_
  rintro s' _ ⟨a, rfl, hq⟩
  exact hf s' a hq

/-- Actions on a part of the state. -/
protected theorem zoom {getPart : σ → τ} {put : τ → σ → σ} {ms : Fin n → Action τ α}
    (h : Succeed ms (fun i => getPart (s i)) fun t a => Q (fun i => put (t i) (s i)) a) :
    Succeed (fun i => (ms i).zoom getPart put) s Q := by
  refine Lockstep.mapState (fun i t => put t (s i)) (Lockstep.mono h ?_)
  rintro t _ ⟨a, rfl, hq⟩
  exact ⟨a, rfl, hq⟩

/-- Everyone gets the payloads of all. -/
protected theorem broadcast (payload : Fin n → Bytes) :
    Succeed (fun i => Action.broadcast (payload i)) s
      fun s' a => s' = s ∧ a = fun _ => List.ofFn payload :=
  Lockstep.round (Round.matched_broadcast payload) (fun i => ⟨s i, _, rfl, rfl⟩)
    (Succeed.pure (a := fun _ => List.ofFn payload) ⟨rfl, rfl⟩)

theorem broadcast_bind (payload : Fin n → Bytes) {f : Fin n → List Bytes → Action σ β}
    (h : Succeed (fun i => f i (List.ofFn payload)) s Q') :
    Succeed (fun i => Action.broadcast (payload i) >>= f i) s Q' :=
  Lockstep.round (Round.matched_broadcast payload) (fun i => ⟨s i, _, rfl, rfl⟩) h

/-- Everyone gets the payload of the party as many places before. -/
theorem pass_bind (offset : Nat) (hoffset : ¬ n ∣ offset)
    (hword : ∀ i : Fin n, isWord (i + offset) = true ∧ isWord (i + n) = true)
    (payload : Fin n → Bytes) {f : Fin n → Bytes → Action σ β}
    (h : Succeed (fun i => f i (payload (Round.previous i offset))) s Q') :
    Succeed (fun i => Action.pass offset (payload i) >>= f i) s Q' :=
  Lockstep.round (Round.matched_shift hoffset hword (fun _ => true) payload)
    (fun i => ⟨s i, _, rfl, rfl⟩) h

end Succeed

end Action

end Multiparty
