import Mathlib
import Multiparty.Proofs.Commitment
import Multiparty.Proofs.Transcript

/-!
# How long the payloads of an action are

How long the payloads of a protocol are does not depend on what the network answers, except that an
action that fails sends no more. Of most payloads it is enough to know that they are short; the
lengths of the others are listed, and the lists of the parts of an action are appended.

## Main definitions

* `Event.Delivers`: a call by which a payload of a given length goes to a peer.
* `Action.Sends`: the lengths of the long payloads of an action.

## Main results

* `Action.Sends.bind` and its companions: the rules for actions.
* `sends_commitAndOpen`, `sends_sharedSeed`: committed broadcasts and coin tosses.
-/

namespace Multiparty

/-- The call has succeeded and sends a payload of this length to a peer. -/
def Event.Delivers (e : Event) (seat : Seat) (length : Nat) : Prop :=
  e.succeeded = true ∧ ∃ peer < seat.players, ∃ payload,
    e.sentTo seat.players seat.me peer = some payload ∧ payload.length = length

namespace Action

variable {σ τ α β : Type} {talks : Prop} {short : Nat} {seat : Seat} {s : σ} {m : Action σ α}
  {u v : List Nat} {Q : σ → α → Prop} {Q' : σ → β → Prop}

/-- Whatever the network answers, the payloads of an action are short or of one of the given lengths.
If the action succeeds, then final state and result have the property `Q`; and if the party talks to
others, then payloads of all those lengths that are not short have been sent. -/
def Sends (talks : Prop) (short : Nat) (m : Action σ α) (seat : Seat) (s : σ) (lengths : List Nat)
    (Q : σ → α → Prop) : Prop :=
  Ensures m seat s fun t s' r =>
    (∀ e ∈ t, e.call.payload.length ≤ short ∨ e.call.payload.length ∈ lengths) ∧
      ∀ a, r = .ok a → Q s' a ∧
        (talks → ∀ l ∈ lengths, short < l → ∃ e ∈ t, e.Delivers seat l)

namespace Sends

/-- An action that makes no calls. -/
private theorem of_nil {s' : σ} {r : Except ProtocolError α} (h : ∀ a, r = .ok a → Q s' a) :
    (∀ e ∈ ([] : List Event), e.call.payload.length ≤ short ∨ e.call.payload.length ∈ []) ∧
      ∀ a, r = .ok a → Q s' a ∧
        (talks → ∀ l ∈ [], short < l → ∃ e ∈ ([] : List Event), e.Delivers seat l) :=
  ⟨fun _ he => (by cases he), fun a ha => ⟨h a ha, fun _ _ hl => (by cases hl)⟩⟩

protected theorem mono {R : σ → α → Prop} (h : Sends talks short m seat s u Q)
    (hQ : ∀ s a, Q s a → R s a) : Sends talks short m seat s u R :=
  Ensures.mono h fun _ _ _ ⟨hbounded, hdone⟩ =>
    ⟨hbounded, fun a ha => ⟨hQ _ _ (hdone a ha).1, (hdone a ha).2⟩⟩

/-- Only the long ones among the lengths matter. -/
protected theorem congr (h : Sends talks short m seat s u Q)
    (hlengths : ∀ l, short < l → (l ∈ u ↔ l ∈ v)) :
    Sends talks short m seat s v Q := by
  refine Ensures.mono h fun t s' r ⟨hbounded, hdone⟩ => ⟨fun e he => ?_, fun a ha =>
    ⟨(hdone a ha).1, fun htalks l hl hlong =>
      (hdone a ha).2 htalks l ((hlengths l hlong).2 hl) hlong⟩⟩
  by_cases hlong : short < e.call.payload.length
  · exact (hbounded e he).imp_right (hlengths _ hlong).1
  · exact .inl (Nat.not_lt.1 hlong)

/-- Of a party that does not talk it is only known how long its payloads may be. -/
theorem of_not_talks (h : Sends talks short m seat s u Q) (htalks : ¬ talks)
    (hlengths : u ⊆ v) : Sends talks short m seat s v Q :=
  Ensures.mono h fun _ _ _ ⟨hbounded, hdone⟩ =>
    ⟨fun e he => (hbounded e he).imp_right fun hl => hlengths hl,
      fun a ha => ⟨(hdone a ha).1, fun ht => absurd ht htalks⟩⟩

protected theorem pure {a : α} (h : Q s a) : Sends talks short (pure a) seat s [] Q :=
  Ensures.pure (of_nil fun _ ha => Except.ok.inj ha ▸ h)

/-- A failure sends nothing. -/
protected theorem throw {e : ProtocolError} : Sends talks short (throw e) seat s u Q :=
  Ensures.throw ⟨fun _ he => (by cases he), fun _ ha => (by cases ha)⟩

protected theorem modify {g : σ → σ} {Q : σ → Unit → Prop} (h : Q (g s) ()) :
    Sends talks short (modify g) seat s [] Q :=
  Ensures.modify (of_nil fun _ _ => h)

protected theorem ofExcept {result : Except ProtocolError α} (h : ∀ a, result = .ok a → Q s a) :
    Sends talks short (ofExcept result) seat s [] Q :=
  Ensures.ofExcept (of_nil h)

protected theorem ofAttempt {f : Attempt σ α} (h : ∀ a, (f s).1 = .ok a → Q (f s).2 a) :
    Sends talks short (ofAttempt f) seat s [] Q :=
  Ensures.ofAttempt (of_nil h)

/-- The payloads of the second action come after those of the first. -/
protected theorem bind {f : α → Action σ β} (h : Sends talks short m seat s u Q)
    (hf : ∀ s a, Q s a → Sends talks short (f a) seat s v Q') :
    Sends talks short (m >>= f) seat s (u ++ v) Q' := by
  refine Ensures.bind (Ensures.mono h ?_)
  rintro t s₁ (e | a) ⟨hbounded, hdone⟩
  · exact ⟨fun e he => (hbounded e he).imp_right (List.mem_append_left _), fun _ ha => by cases ha⟩
  · obtain ⟨hQ, hdelivered⟩ := hdone a rfl
    refine Ensures.mono (hf s₁ a hQ) ?_
    rintro t' s₂ r ⟨hbounded', hdone'⟩
    refine ⟨fun e he => ?_, fun b hb => ⟨(hdone' b hb).1, fun htalks l hl hlong => ?_⟩⟩
    · rcases List.mem_append.1 he with he | he
      · exact (hbounded e he).imp_right (List.mem_append_left _)
      · exact (hbounded' e he).imp_right (List.mem_append_right _)
    · rcases List.mem_append.1 hl with hl | hl
      · obtain ⟨e, he, hdelivers⟩ := hdelivered htalks l hl hlong
        exact ⟨e, List.mem_append_left _ he, hdelivers⟩
      · obtain ⟨e, he, hdelivers⟩ := (hdone' b hb).2 htalks l hl hlong
        exact ⟨e, List.mem_append_right _ he, hdelivers⟩

theorem get_bind {f : σ → Action σ β} (h : Sends talks short (f s) seat s u Q') :
    Sends talks short (get >>= f) seat s u Q' := h

theorem seat_bind {f : Seat → Action σ β} (h : Sends talks short (f seat) seat s u Q') :
    Sends talks short (Action.seat >>= f) seat s u Q' := h

theorem modify_bind {g : σ → σ} {f : Unit → Action σ β}
    (h : Sends talks short (f ()) seat (g s) u Q') :
    Sends talks short (modify g >>= f) seat s u Q' := h

theorem ofAttempt_bind {g : Attempt σ α} {f : α → Action σ β} (h : ∀ a, (g s).1 = .ok a →
      Sends talks short (f a) seat (g s).2 u Q') :
    Sends talks short (Action.ofAttempt g >>= f) seat s u Q' :=
  Sends.bind (Q := fun s' a => s' = (g s).2 ∧ (g s).1 = .ok a) (.ofAttempt fun _ ha => ⟨rfl, ha⟩)
    fun _ a ⟨hs, ha⟩ => hs ▸ h a ha

theorem ofExcept_bind {result : Except ProtocolError α} {f : α → Action σ β}
    (h : ∀ a, result = .ok a → Sends talks short (f a) seat s u Q') :
    Sends talks short (Action.ofExcept result >>= f) seat s u Q' :=
  Sends.bind (Q := fun s' a => s' = s ∧ result = .ok a) (.ofExcept fun _ ha => ⟨rfl, ha⟩)
    fun _ a ⟨hs, ha⟩ => hs ▸ h a ha

/-- An action on a part of the state. -/
protected theorem zoom {getPart : σ → τ} {put : τ → σ → σ} {m : Action τ α}
    (h : Sends talks short m seat (getPart s) u fun t a => Q (put t s) a) :
    Sends talks short (m.zoom getPart put) seat s u Q :=
  Ensures.zoom h

/-- An action after which only its outcome is looked at, and whose failure is a failure. -/
theorem attempt_bind {f : Except ProtocolError α → Action σ β}
    (h : Sends talks short m seat s u Q)
    (hok : ∀ s a, Q s a → Sends talks short (f (.ok a)) seat s v Q')
    (herror : ∀ s e, ∃ s' e', (f (.error e)).run seat s = .done s' (.error e')) :
    Sends talks short (m.attempt >>= f) seat s (u ++ v) Q' := by
  have hsame : (m >>= fun a => f (.ok a)).Sends talks short seat s (u ++ v) Q' :=
    Sends.bind h hok
  intro answers
  have hanswers := hsame answers
  rw [run_bind, Session.transcript_bind, Session.under_bind] at hanswers
  rw [run_attempt_bind, Session.transcript_bind, Session.under_bind]
  cases hr : ((m.run seat s).under answers).2 with
  | ok a =>
    rw [hr] at hanswers
    exact hanswers
  | error e =>
    rw [hr] at hanswers
    obtain ⟨s', e', hdone⟩ := herror ((m.run seat s).under answers).1 e
    rw [hdone]
    exact ⟨hanswers.1, fun _ ha => by cases ha⟩

/-- A call whose payload is short. -/
theorem call_of_le {c : Call} {Q : σ → c.Reply → Prop} (hshort : c.payload.length ≤ short)
    (h : ∀ reply, Q s reply) : Sends talks short (Action.call c) seat s [] Q :=
  Ensures.call
    (fun reply => ⟨fun e he => .inl ((List.mem_singleton.1 he) ▸ hshort), fun a _ =>
      ⟨h a, fun _ _ hl => (by cases hl)⟩⟩)
    fun _ => ⟨fun e he => .inl ((List.mem_singleton.1 he) ▸ hshort), fun _ ha => (by cases ha)⟩

/-- A call whose payload goes to somebody, if the party talks. -/
protected theorem call {c : Call} {Q : σ → c.Reply → Prop}
    (hsends : talks → ∃ peer < seat.players,
      c.sends seat.players seat.me peer = some c.payload) (h : ∀ reply, Q s reply) :
    Sends talks short (Action.call c) seat s [c.payload.length] Q := by
  have hbounded (answer : Except TransportError c.Reply) : ∀ e ∈ [(⟨c, answer⟩ : Event)],
      e.call.payload.length ≤ short ∨ e.call.payload.length ∈ [c.payload.length] := fun e he =>
    .inr (List.mem_singleton.2 (by rw [List.mem_singleton.1 he]))
  refine Ensures.call (fun reply => ⟨hbounded _, fun a _ => ⟨h a, fun htalks l hl _ => ?_⟩⟩)
    fun _ => ⟨hbounded _, fun _ ha => by cases ha⟩
  obtain rfl := List.mem_singleton.1 hl
  obtain ⟨peer, hpeer, hpayload⟩ := hsends htalks
  exact ⟨⟨c, .ok reply⟩, List.mem_singleton_self _, rfl, peer, hpeer, c.payload, hpayload, rfl⟩

/-- A broadcast goes to all other parties. -/
protected theorem broadcast (payload : Bytes) (htalks : talks → 1 < seat.players)
    {Q : σ → List Bytes → Prop} (h : ∀ reply, Q s reply) :
    Sends talks short (Action.broadcast payload) seat s [payload.length] Q := by
  refine Sends.call (c := .broadcast payload) (fun ht => ?_) h
  have hplayers := htalks ht
  obtain ⟨peer, hpeer, hne⟩ : ∃ peer < seat.players, peer ≠ seat.me := by
    by_cases hme : seat.me = 0
    · exact ⟨1, hplayers, by omega⟩
    · exact ⟨0, by omega, Ne.symm hme⟩
  exact ⟨peer, hpeer, if_neg hne⟩

end Sends

end Action

/-! ### Committed broadcasts and coin tosses -/

theorem Sha3.length_hash256_le (message : Bytes) : (hash256 message).length ≤ seedSize := by
  have hwords (words : List UInt64) : (words.flatMap Bytes.ofUInt64).length = words.length * 8 := by
    induction words with
    | nil => rfl
    | cons w words ih =>
      rw [List.flatMap_cons, List.length_append, ih, List.length_cons, Nat.succ_mul, Nat.add_comm]
      rfl
  rw [hash256, hwords, List.length_take, seedSize]
  omega

section CommittedBroadcast

open Multiparty.Action (Sends)

variable {talks : Prop} {short : Nat} {seat : Seat} {g : ChaCha}

/-- A committed broadcast sends a commitment, which is short, and the payload after a nonce. -/
theorem sends_commitAndOpen (hshort : seedSize ≤ short) (htalks : talks → 1 < seat.players)
    (payload : Bytes) : Sends talks short (commitAndOpen payload) seat g
      [seedSize + payload.length] fun _ _ => True := by
  refine Sends.ofAttempt_bind fun nonce hnonce => ?_
  obtain rfl := Except.ok.inj hnonce
  have hopening : ((WordSource.bytes seedSize g).1 ++ payload).length =
      seedSize + payload.length := by
    rw [List.length_append, ChaCha.length_bytes]
  rw [← hopening]
  refine Sends.bind (Q := fun _ _ => True) (u := []) (.call_of_le ?_ fun _ => trivial)
    fun _ _ _ => Sends.bind (Q := fun _ _ => True) (v := [])
      (.broadcast _ htalks fun _ => trivial) fun _ _ _ => .ofExcept fun _ _ => trivial
  exact (Sha3.length_hash256_le _).trans hshort

/-- The payloads of a coin toss are short. -/
theorem sends_sharedSeed (hshort : seedSize + seedSize ≤ short)
    (htalks : talks → 1 < seat.players) :
    Sends talks short sharedSeed seat g [] fun _ _ => True := by
  refine Sends.ofAttempt_bind fun own hown => ?_
  obtain rfl := Except.ok.inj hown
  have hlength : (ChaCha.bytes seedSize g).1.length = seedSize := ChaCha.length_bytes ..
  refine (Sends.bind (Q := fun _ _ => True) (v := [])
    (sends_commitAndOpen (Nat.le_of_add_right_le hshort) htalks _) fun _ _ _ =>
      .ofExcept fun _ _ => trivial).congr fun l hlong => ?_
  rw [List.append_nil, List.mem_singleton, hlength]
  simp only [List.not_mem_nil, iff_false]
  omega

end CommittedBroadcast

end Multiparty
