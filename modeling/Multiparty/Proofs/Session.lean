import Mathlib.Data.List.Forall2
import Multiparty.Session

/-!
# Running one party against given replies

What a computation makes of its broadcasts is seen by answering them one after another. A reply may
depend on the payload that was sent, as that of a peer who copies it does.

## Main definitions

* `Session.answered`: the outcome of a computation whose broadcasts are answered by given replies.

## Main results

* `Session.answered_bind`: a computation with a continuation takes its replies in order.
* `Action.run_bind` and its companions: the session of a composed action.
* `forall₂_of_mapM`: what a successful computation on all items of a list has computed.
* `exists_mapM_eq_ok`, `mapM_eq_ok_or_error`: when it is successful.
* `Attempt.forEach_cons`: attempts for the items of a list, by its head and tail.
* `Attempt.of_forEach`, `Attempt.of_times`: attempts that all succeed.
-/

namespace Multiparty

/-- A sequence of two computations succeeds only if both do. -/
theorem exists_of_bind_eq_ok {α β ε : Type} {x : Except ε α} {f : α → Except ε β} {b : β}
    (h : (x >>= f) = .ok b) : ∃ a, x = .ok a ∧ f a = .ok b := by
  cases x with
  | error e => cases h
  | ok a => exact ⟨a, rfl, h⟩

/-- What a successful computation on all items of a list has computed. -/
theorem forall₂_of_mapM {α β ε : Type} {f : α → Except ε β} {as : List α} {bs : List β}
    (h : as.mapM f = .ok bs) : List.Forall₂ (fun a b => f a = .ok b) as bs := by
  induction as generalizing bs with
  | nil =>
    obtain rfl : [] = bs := Except.ok.inj h
    exact .nil
  | cons a as ih =>
    rw [List.mapM_cons] at h
    obtain ⟨b, hb, h⟩ := exists_of_bind_eq_ok h
    obtain ⟨bs', hbs', h⟩ := exists_of_bind_eq_ok h
    obtain rfl : b :: bs' = bs := Except.ok.inj h
    exact .cons hb (ih hbs')

/-- A computation on all items of a list succeeds if it does on each of them. -/
theorem exists_mapM_eq_ok {α β ε : Type} {f : α → Except ε β} {as : List α}
    (h : ∀ a ∈ as, ∃ b, f a = .ok b) : ∃ bs, as.mapM f = .ok bs := by
  induction as with
  | nil => exact ⟨[], rfl⟩
  | cons a as ih =>
    obtain ⟨b, hb⟩ := h a List.mem_cons_self
    obtain ⟨bs, hbs⟩ := ih fun a ha => h a (List.mem_cons_of_mem _ ha)
    exact ⟨b :: bs, by rw [List.mapM_cons, hb, hbs]; rfl⟩

/-- A computation that can fail on the items of a list in one way only fails on the list in the same
way. -/
theorem mapM_eq_ok_or_error {α β ε : Type} {f : α → Except ε β} {e : ε} {as : List α}
    (h : ∀ a ∈ as, (∃ b, f a = .ok b) ∨ f a = .error e) :
    (∃ bs, as.mapM f = .ok bs) ∨ as.mapM f = .error e := by
  induction as with
  | nil => exact .inl ⟨[], rfl⟩
  | cons a as ih =>
    rw [List.mapM_cons]
    rcases h a List.mem_cons_self with ⟨b, hb⟩ | herror
    · rcases ih fun a ha => h a (List.mem_cons_of_mem _ ha) with ⟨bs, hbs⟩ | herror
      · exact .inl ⟨b :: bs, by rw [hb, hbs]; rfl⟩
      · exact .inr (by rw [hb, herror]; rfl)
    · exact .inr (by rw [herror]; rfl)

/-- How a broadcast is answered: the payloads of all parties, given the one that was sent. -/
abbrev BroadcastReply : Type := Bytes → List Bytes

namespace Session

variable {σ τ α β : Type}

theorem mapState_mapState {υ : Type} (f : σ → τ) (g : τ → υ) (c : Session σ α) :
    mapState g (mapState f c) = mapState (g ∘ f) c := by
  induction c with
  | done s a => rfl
  | wait s call resume ih => exact congrArg (Session.wait _ call) (funext ih)

/-- The final state and result of a computation whose broadcasts are answered in turn, with the
replies that are left over. There is no outcome if another call is made or the replies run out. -/
def answered : Session σ α → List BroadcastReply → Option ((σ × α) × List BroadcastReply)
  | done s a, replies => some ((s, a), replies)
  | wait _ (.broadcast payload) resume, reply :: replies =>
    answered (resume (.ok (reply payload))) replies
  | wait .., _ => none

@[simp] theorem answered_done (s : σ) (a : α) (replies : List BroadcastReply) :
    (done s a : Session σ α).answered replies = some ((s, a), replies) := by
  rw [answered]

@[simp] theorem answered_broadcast (s : σ) (payload : Bytes)
    (resume : Except TransportError (List Bytes) → Session σ α) (reply : BroadcastReply)
    (replies : List BroadcastReply) :
    (wait s (.broadcast payload) resume).answered (reply :: replies) =
      (resume (.ok (reply payload))).answered replies := by
  rw [answered]

/-- The continuation takes the replies that the computation leaves over. -/
theorem answered_bind (f : σ → α → Session σ β) (c : Session σ α)
    (replies : List BroadcastReply) :
    (bind f c).answered replies =
      (c.answered replies).bind fun out => (f out.1.1 out.1.2).answered out.2 := by
  induction c generalizing replies with
  | done s a => simp
  | wait s call resume ih =>
    cases call with
    | broadcast payload =>
      cases replies with
      | nil => simp [answered]
      | cons reply replies => simp [ih]
    | _ => simp [answered]

theorem answered_mapState (f : σ → τ) (c : Session σ α) (replies : List BroadcastReply) :
    (mapState f c).answered replies =
      (c.answered replies).map fun out => ((f out.1.1, out.1.2), out.2) := by
  induction c generalizing replies with
  | done s a => simp [mapState]
  | wait s call resume ih =>
    cases call with
    | broadcast payload =>
      cases replies with
      | nil => simp [mapState, answered]
      | cons reply replies => simp [mapState, ih]
    | _ => simp [mapState, answered]

end Session

namespace Attempt

variable {σ α β : Type}

/-- Trying a number of times is trying for every item of a list of that length. -/
theorem times_eq_forEach (f : Attempt σ α) (n : Nat) :
    times f n = forEach (fun _ : Unit => f) (List.replicate n ()) := by
  have honto (acc : List α) (s : σ) : timesOnto f n acc s =
      forEachOnto (fun _ : Unit => f) (List.replicate n ()) acc s := by
    induction n generalizing acc s with
    | zero => rfl
    | succ n ih =>
      rw [timesOnto, List.replicate_succ, forEachOnto]
      rcases f s with ⟨_ | _, s'⟩
      · rfl
      · exact ih _ s'
  exact funext fun s => honto [] s

private theorem forEachOnto_eq {f : α → Attempt σ β} (as : List α) (acc : List β) (s : σ) :
    forEachOnto f as acc s =
      ((forEach f as s).1.map (acc.reverse ++ ·), (forEach f as s).2) := by
  induction as generalizing acc s with
  | nil => simp [forEach, forEachOnto, Except.map]
  | cons a as ih =>
    rw [forEach, forEachOnto, forEachOnto]
    rcases f a s with ⟨e | b, s'⟩
    · rfl
    · dsimp only
      rw [ih, ih]
      cases (forEach f as s').1 <;> simp [Except.map]

/-- The first attempt, and then the others unless it has failed. -/
theorem forEach_cons (f : α → Attempt σ β) (a : α) (as : List α) (s : σ) : forEach f (a :: as) s =
    match f a s with
    | (.ok b, s') => ((forEach f as s').1.map (b :: ·), (forEach f as s').2)
    | (.error e, s') => (.error e, s') := by
  rw [forEach, forEachOnto]
  rcases f a s with ⟨e | b, s'⟩
  · rfl
  · exact forEachOnto_eq as [b] s'

theorem forEach_cons_of_ok {f : α → Attempt σ β} {a : α} {as : List α} {b : β} {bs : List β}
    {s s' s'' : σ} (h : f a s = (.ok b, s')) (h' : forEach f as s' = (.ok bs, s'')) :
    forEach f (a :: as) s = (.ok (b :: bs), s'') := by
  rw [forEach_cons, h]
  dsimp only
  rw [h']
  rfl

/-- Attempts keep what every single one of them keeps, whether they succeed or not. -/
theorem invariant_forEach {f : α → Attempt σ β} (inv : σ → Prop)
    (hf : ∀ a s, inv s → inv (f a s).2) (as : List α) {s : σ} (h : inv s) :
    inv (forEach f as s).2 := by
  induction as generalizing s with
  | nil => exact h
  | cons a as ih =>
    have hfirst := hf a s h
    rw [forEach_cons]
    rcases hstep : f a s with ⟨e | b, s'⟩ <;> rw [hstep] at hfirst
    · exact hfirst
    · exact ih hfirst

/-- What holds of the state after so many attempts for the items of a list, all of which have
succeeded, with a result for each. -/
theorem of_forEach {f : α → Attempt σ β} (Inv : Nat → σ → Prop)
    (hf : ∀ k s a b, Inv k s → (f a s).1 = .ok b → Inv (k + 1) (f a s).2) {as : List α} {s : σ}
    (h : Inv 0 s) {bs : List β} (hok : (forEach f as s).1 = .ok bs) :
    Inv as.length (forEach f as s).2 ∧ bs.length = as.length := by
  have honto (as : List α) (k : Nat) (s : σ) (acc : List β) (h : Inv k s)
      (hok : (forEachOnto f as acc s).1 = .ok bs) :
      Inv (k + as.length) (forEachOnto f as acc s).2 ∧ bs.length = acc.length + as.length := by
    induction as generalizing k s acc with
    | nil =>
      obtain rfl := Except.ok.inj hok
      exact ⟨h, List.length_reverse⟩
    | cons a as ih =>
      have hstep := hf k s a
      rw [forEachOnto] at hok ⊢
      generalize f a s = step at hok hstep ⊢
      obtain ⟨e | b, s'⟩ := step
      · cases hok
      · obtain ⟨hinv, hlength⟩ := ih (k + 1) s' (b :: acc) (hstep b h rfl) hok
        rw [Nat.add_right_comm] at hinv
        rw [List.length_cons, Nat.add_right_comm] at hlength
        exact ⟨hinv, hlength⟩
  obtain ⟨hinv, hlength⟩ := honto as 0 s [] h hok
  rw [Nat.zero_add] at hinv
  exact ⟨hinv, hlength.trans (Nat.zero_add _)⟩

/-- The same for an attempt that is made a number of times. -/
theorem of_times {f : Attempt σ α} (Inv : σ → Prop)
    (hf : ∀ s a, Inv s → (f s).1 = .ok a → Inv (f s).2) {n : Nat} {s : σ} (h : Inv s) {as : List α}
    (hok : (times f n s).1 = .ok as) : Inv (times f n s).2 ∧ as.length = n := by
  rw [times_eq_forEach] at hok ⊢
  obtain ⟨hinv, hlength⟩ := of_forEach (fun _ => Inv) (fun _ s _ a => hf s a) h hok
  exact ⟨hinv, hlength.trans List.length_replicate⟩

end Attempt

namespace Action

variable {σ τ α β : Type} (seat : Seat) (s : σ)

@[simp] theorem run_pure (a : α) : (pure a : Action σ α).run seat s = .done s (.ok a) := rfl

theorem run_bind (m : Action σ α) (f : α → Action σ β) :
    (m >>= f).run seat s = Session.bind (fun s result =>
      match result with
      | .ok a => (f a).run seat s
      | .error e => .done s (.error e)) (m.run seat s) := rfl

@[simp] theorem run_get : (get : Action σ σ).run seat s = .done s (.ok s) := rfl

/-- An action may look at the state and at its seat before it goes on. -/
theorem run_get_bind (f : σ → Action σ α) : (get >>= f).run seat s = (f s).run seat s := by
  rw [run_bind, run_get, Session.bind_done]

theorem run_seat_bind (f : Seat → Action σ α) :
    (Action.seat >>= f).run seat s = (f seat).run seat s := by
  have hseat : (Action.seat : Action σ Seat).run seat s = .done s (.ok seat) := rfl
  rw [run_bind, hseat, Session.bind_done]

@[simp] theorem run_modify (f : σ → σ) :
    (modify f : Action σ Unit).run seat s = .done (f s) (.ok ()) := rfl

@[simp] theorem run_throw (e : ProtocolError) :
    (throw e : Action σ α).run seat s = .done s (.error e) := rfl

@[simp] theorem run_ofExcept (result : Except ProtocolError α) :
    (ofExcept result : Action σ α).run seat s = .done s result := rfl

@[simp] theorem run_ofAttempt (f : Attempt σ α) :
    (ofAttempt f).run seat s = .done (f s).2 (f s).1 := rfl

/-- Looking at the outcome of an action goes on after a failure too. -/
theorem run_attempt_bind (m : Action σ α) (f : Except ProtocolError α → Action σ β) :
    (m.attempt >>= f).run seat s =
      Session.bind (fun s result => (f result).run seat s) (m.run seat s) := by
  have hattempt : m.attempt.run seat s = Session.map .ok (m.run seat s) := rfl
  rw [run_bind, hattempt, Session.map_eq_bind, Session.bind_assoc]
  rfl

theorem run_zoom (get : σ → τ) (put : τ → σ → σ) (m : Action τ α) :
    (m.zoom get put).run seat s = Session.mapState (fun t => put t s) (m.run seat (get s)) := rfl

end Action

end Multiparty
