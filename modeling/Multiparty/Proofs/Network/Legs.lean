import Mathlib.Data.List.Basic
import Multiparty.Network.Transport

/-!
# What a transfer does to the pipes

As long as all payloads fit and nobody is waited for who has closed its ends, carrying on with the
legs of a transfer cannot fail: everything that was still to be sent is appended to the pipes, and
every leg that waits takes the oldest payload of its pipe, if there is one.

## Main definitions

* `Pipes.Connect`: pipes that connect `n` players.
* `Leg.Sound`: a leg of a player that sends and receives sensibly.
* `Leg.carriedOn`: a leg after it has been carried on with.

## Main results

* `Pipes.queue_modifyQueue`: what a change of one pipe does to all of them.
* `Leg.poll_eq`, `Leg.pollAll_eq`: carrying on with one leg, and with all legs of a transfer.
-/

namespace Multiparty

namespace Pipes

/-- Pipes that connect `n` players, one for every ordered pair. -/
structure Connect (n : Nat) (p : Pipes) : Prop where
  players : p.players = n
  rows : p.queues.length = n
  columns : ∀ row ∈ p.queues, row.length = n

variable {n : Nat} {p : Pipes}

theorem connect_empty (n : Nat) (fits : Bytes → Bool) : (empty n fits).Connect n where
  players := rfl
  rows := List.length_replicate
  columns row hrow := by rw [List.eq_of_mem_replicate hrow, List.length_replicate]

@[simp] theorem queue_empty (n : Nat) (fits : Bytes → Bool) (a b : Nat) :
    (empty n fits).queue a b = [] := by
  have hrow (row : List (List Bytes)) (h : row = [] ∨ row = List.replicate n []) :
      row.getD b [] = [] := by
    rcases h with rfl | rfl
    · rfl
    · rw [List.getD_eq_getElem?_getD, List.getElem?_replicate]
      split <;> rfl
  apply hrow
  rw [empty, List.getD_eq_getElem?_getD, List.getElem?_replicate]
  split
  · exact .inr rfl
  · exact .inl rfl

theorem Connect.modifyQueue (h : p.Connect n) (s r : Nat) (f : List Bytes → List Bytes) :
    (p.modifyQueue s r f).Connect n where
  players := h.players
  rows := by rw [Pipes.modifyQueue, List.length_modify, h.rows]
  columns row hrow := by
    change row ∈ p.queues.modify s fun row => row.modify r f at hrow
    obtain ⟨i, hi, rfl⟩ := List.getElem_of_mem hrow
    have hi' : i < p.queues.length := List.length_modify _ _ _ ▸ hi
    rw [List.getElem_modify]
    split
    · rw [List.length_modify, h.columns _ (List.getElem_mem hi')]
    · exact h.columns _ (List.getElem_mem hi')

theorem Connect.close (h : p.Connect n) (player : Nat) : (p.close player).Connect n :=
  ⟨h.players, h.rows, h.columns⟩

/-- Pipes that connect `n` players and differ from `p` at most in what is under way. -/
structure Alike (n : Nat) (p p' : Pipes) : Prop where
  connect : p'.Connect n
  fits : p'.fits = p.fits
  closed : p'.closed = p.closed

theorem Connect.alike (h : p.Connect n) : p.Alike n p := ⟨h, rfl, rfl⟩

theorem Alike.trans {p' p'' : Pipes} (h : p.Alike n p') (h' : p'.Alike n p'') : p.Alike n p'' :=
  ⟨h'.connect, h'.fits.trans h.fits, h'.closed.trans h.closed⟩

theorem queue_modifyQueue (h : p.Connect n) {s r : Nat} (hs : s < n) (hr : r < n)
    (f : List Bytes → List Bytes) (a b : Nat) :
    (p.modifyQueue s r f).queue a b = if a = s ∧ b = r then f (p.queue s r) else p.queue a b := by
  have hs' : s < p.queues.length := h.rows.symm ▸ hs
  have hrow : p.queues[s].length = n := h.columns _ (List.getElem_mem hs')
  have hr' : r < p.queues[s].length := hrow.symm ▸ hr
  by_cases ha : a = s
  · subst ha
    have hget : (p.queues.modify a fun row => row.modify r f).getD a [] =
        (p.queues[a]).modify r f := by
      rw [List.getD_eq_getElem?_getD, List.getElem?_modify_eq, List.getElem?_eq_getElem hs']
      rfl
    have hget' : p.queues.getD a [] = p.queues[a] := by
      rw [List.getD_eq_getElem?_getD, List.getElem?_eq_getElem hs', Option.getD_some]
    rw [queue, queue, queue, modifyQueue, hget, hget']
    by_cases hb : b = r
    · subst hb
      rw [if_pos ⟨rfl, rfl⟩, List.getD_eq_getElem?_getD, List.getElem?_modify_eq,
        List.getElem?_eq_getElem hr', List.getD_eq_getElem?_getD, List.getElem?_eq_getElem hr']
      rfl
    · rw [if_neg fun h => hb h.2, List.getD_eq_getElem?_getD,
        List.getElem?_modify_ne _ _ (Ne.symm hb), ← List.getD_eq_getElem?_getD]
  · have hget : (p.queues.modify s fun row => row.modify r f).getD a [] = p.queues.getD a [] := by
      rw [List.getD_eq_getElem?_getD, List.getElem?_modify_ne _ _ (Ne.symm ha),
        ← List.getD_eq_getElem?_getD]
    rw [if_neg fun h => ha h.1, queue, queue, modifyQueue, hget]

theorem isClosed_eq_false {player : Nat} (h : player ∉ p.closed) : p.isClosed player = false := by
  rw [isClosed, List.contains_eq_mem, decide_eq_false h]

theorem send?_eq (s r : Nat) {payload : Bytes} (hclosed : r ∉ p.closed)
    (hfits : p.fits payload = true) :
    p.send? s r payload = some (p.modifyQueue s r (· ++ [payload])) := by
  rw [send?, isClosed_eq_false hclosed, hfits]
  rfl

theorem receive_eq_pending {s r : Nat} (hq : p.queue s r = []) (hclosed : s ∉ p.closed) :
    p.receive r s = .pending := by
  rw [receive, hq, isClosed_eq_false hclosed]
  rfl

theorem receive_eq_payload {s r : Nat} {payload : Bytes} {rest : List Bytes}
    (hq : p.queue s r = payload :: rest) :
    p.receive r s = .payload payload (p.modifyQueue s r List.tail) := by
  rw [receive, hq]

end Pipes

namespace Leg

/-- The payload that a leg has still to send to a player. -/
def sendsTo (leg : Leg) (peer : Nat) : List Bytes :=
  match leg.outgoing with
  | some (target, payload) => if target = peer then [payload] else []
  | none => []

/-- Whether a leg waits for a payload of a player. -/
def awaits (leg : Leg) (peer : Nat) : Bool := leg.source = some peer && leg.received.isNone

/-- A leg of player `me` among `n` that has not failed and deals with other players only. Its payload
fits, and it neither sends to nor waits in vain for somebody who has closed its ends. -/
structure Sound (n me : Nat) (p : Pipes) (leg : Leg) : Prop where
  error : leg.error = none
  target : ∀ t payload, leg.outgoing = some (t, payload) →
    t < n ∧ t ≠ me ∧ p.fits payload = true ∧ t ∉ p.closed
  source : ∀ s, leg.source = some s → s < n ∧ s ≠ me
  live : ∀ s, leg.awaits s = true → p.queue s me = [] → s ∉ p.closed

/-- A leg after it has been carried on with, where `queue` tells what has arrived of each peer. -/
def carriedOn (queue : Nat → List Bytes) (leg : Leg) : Leg :=
  { leg with
    outgoing := none
    received := leg.received.or (leg.source.bind fun source => (queue source).head?) }

variable {n me : Nat} {leg : Leg} {p : Pipes}

theorem source_of_awaits {peer : Nat} (h : leg.awaits peer = true) : leg.source = some peer := by
  rw [awaits, Bool.and_eq_true, decide_eq_true_eq] at h
  exact h.1

/-- A sound leg stays so when the pipe from which it takes is left alone. -/
theorem Sound.of_alike {p' : Pipes} (h : leg.Sound n me p) (halike : p.Alike n p')
    (hqueue : ∀ s, leg.awaits s = true → p'.queue s me = p.queue s me) : leg.Sound n me p' := by
  refine ⟨h.error, fun t payload ht => ?_, h.source, fun s hs hq => ?_⟩
  · rw [halike.fits, halike.closed]
    exact h.target t payload ht
  · rw [halike.closed]
    exact h.live s hs (hqueue s hs ▸ hq)

/-- What a leg comes to depends on nothing but what has arrived of the player it waits for. -/
theorem carriedOn_congr {queue queue' : Nat → List Bytes}
    (h : ∀ s, leg.awaits s = true → queue' s = queue s) :
    leg.carriedOn queue' = leg.carriedOn queue := by
  cases hreceived : leg.received with
  | some payload => rw [carriedOn, carriedOn, hreceived, Option.some_or, Option.some_or]
  | none =>
    cases hsource : leg.source with
    | none => rw [carriedOn, carriedOn, hsource]; rfl
    | some s =>
      have hawaits : leg.awaits s = true := by
        rw [awaits, hsource, hreceived]
        simp
      rw [carriedOn, carriedOn, hsource, Option.bind_some, Option.bind_some, h s hawaits]

/-- Looking for a payload takes the oldest one of the pipe. -/
theorem look_eq (hme : me < n) (hp : p.Connect n) (hleg : leg.Sound n me p)
    (hsent : leg.outgoing = none) :
    ∃ p', leg.look me p = (leg.carriedOn (p.queue · me), p') ∧ p.Alike n p' ∧
      ∀ a b, p'.queue a b =
        if b = me ∧ leg.awaits a then (p.queue a me).tail else p.queue a b := by
  obtain ⟨outgoing, source, received, error⟩ := leg
  obtain rfl : outgoing = none := hsent
  match source, received with
  | none, received =>
    refine ⟨p, ?_, hp.alike, fun a b => ?_⟩
    · rw [look, carriedOn]
      cases received <;> rfl
    · rw [if_neg fun h => by simp [awaits] at h]
  | some s, some payload =>
    refine ⟨p, rfl, hp.alike, fun a b => ?_⟩
    rw [if_neg fun h => by simp [awaits] at h]
  | some s, none =>
    have hs := (hleg.source s rfl).1
    have hlive := hleg.live s (by simp [awaits])
    cases hq : p.queue s me with
    | nil =>
      refine ⟨p, ?_, hp.alike, fun a b => ?_⟩
      · rw [look, carriedOn]
        dsimp only
        rw [Pipes.receive_eq_pending hq (hlive hq)]
        simp [hq]
      · split
        · next h =>
          obtain ⟨rfl, ha⟩ := h
          obtain rfl : s = a := by simpa [awaits] using ha
          rw [hq, List.tail_nil]
        · rfl
    | cons payload rest =>
      refine ⟨p.modifyQueue s me List.tail, ?_, ⟨hp.modifyQueue .., rfl, rfl⟩, fun a b => ?_⟩
      · rw [look, carriedOn]
        dsimp only
        rw [Pipes.receive_eq_payload hq]
        simp [hq]
      · rw [Pipes.queue_modifyQueue hp hs hme]
        by_cases hab : a = s ∧ b = me
        · obtain ⟨rfl, rfl⟩ := hab
          rw [if_pos ⟨rfl, rfl⟩, if_pos ⟨rfl, by simp [awaits]⟩]
        · rw [if_neg hab, if_neg fun h => hab ⟨?_, h.1⟩]
          have ha : s = a := by simpa [awaits] using h.2
          exact ha.symm

/-- Carrying on with a leg sends what is still to be sent and looks for the payload. -/
theorem poll_eq (hme : me < n) (hp : p.Connect n) (hleg : leg.Sound n me p) :
    ∃ p', leg.poll me p = (leg.carriedOn (p.queue · me), p') ∧ p.Alike n p' ∧
      ∀ a b, p'.queue a b =
        if a = me then p.queue me b ++ leg.sendsTo b
        else if b = me ∧ leg.awaits a then (p.queue a me).tail else p.queue a b := by
  obtain ⟨outgoing, source, received, error⟩ := leg
  obtain rfl : error = none := hleg.error
  -- a leg of `me` never waits for `me` itself
  have hself (a : Nat) (ha : awaits ⟨outgoing, source, received, none⟩ a = true) : a ≠ me :=
    (hleg.source a (source_of_awaits ha)).2
  match outgoing with
  | none =>
    obtain ⟨p', hlook, halike, hqueue⟩ := look_eq hme hp hleg rfl
    refine ⟨p', hlook, halike, fun a b => ?_⟩
    rw [hqueue, sendsTo]
    by_cases ha : a = me
    · rw [if_pos ha, if_neg fun h => hself a h.2 ha, ha, List.append_nil]
    · rw [if_neg ha]
  | some (t, payload) =>
    obtain ⟨ht, htme, hpayload, hclosed⟩ := hleg.target t payload rfl
    let sent := p.modifyQueue me t (· ++ [payload])
    have hsent : sent.Connect n := hp.modifyQueue ..
    have hqueueSent (a b : Nat) : sent.queue a b =
        if a = me ∧ b = t then p.queue me t ++ [payload] else p.queue a b :=
      Pipes.queue_modifyQueue hp hme ht _ a b
    have hincoming (a : Nat) (ha : a ≠ me) (b : Nat) : sent.queue a b = p.queue a b := by
      rw [hqueueSent, if_neg fun h => ha h.1]
    have hleg' : Sound n me sent ⟨none, source, received, none⟩ := by
      refine ⟨rfl, fun _ _ h => (by cases h), hleg.source, fun s hs hq => hleg.live s hs ?_⟩
      rwa [hincoming s (hself s hs)] at hq
    obtain ⟨p', hlook, halike, hqueue⟩ := look_eq hme hsent hleg' rfl
    refine ⟨p', ?_, Pipes.Alike.trans ⟨hsent, rfl, rfl⟩ halike, fun a b => ?_⟩
    · rw [poll]
      dsimp only
      rw [Pipes.send?_eq me t hclosed hpayload]
      change look me ⟨none, source, received, none⟩ sent = _
      rw [hlook, carriedOn, carriedOn]
      cases source with
      | none => rfl
      | some s => rw [Option.bind_some, Option.bind_some, hincoming s (hleg.source s rfl).2]
    · rw [hqueue]
      change (if b = me ∧ awaits ⟨some (t, payload), source, received, none⟩ a then _ else _) = _
      by_cases ha : a = me
      · rw [if_pos ha, if_neg fun h => hself a h.2 ha, hqueueSent, sendsTo, ha]
        dsimp only
        by_cases hb : b = t
        · rw [if_pos ⟨rfl, hb⟩, if_pos hb.symm, hb]
        · rw [if_neg fun h => hb h.2, if_neg (Ne.symm hb), List.append_nil]
      · rw [if_neg ha, hincoming a ha, hincoming a ha]

/-- Whether some leg waits for a payload of a player. -/
def anyAwaits (legs : List Leg) (peer : Nat) : Bool := legs.any (·.awaits peer)

/-- The payloads that legs have still to send to a player. -/
def allSendTo (legs : List Leg) (peer : Nat) : List Bytes := legs.flatMap (·.sendsTo peer)

/-- Carrying on with all legs of a transfer, no two of which wait for the same player. -/
theorem pollAll_eq (hme : me < n) (prompt settled : Bool) {legs : List Leg} (hp : p.Connect n)
    (hlegs : ∀ leg ∈ legs, leg.Sound n me p)
    (hdistinct : legs.Pairwise fun leg leg' => ∀ s, leg.source = some s → leg'.source ≠ some s) :
    ∃ p', pollAll me prompt settled legs p = (.ok (legs.map (carriedOn (p.queue · me))), p') ∧
      p.Alike n p' ∧
      ∀ a b, p'.queue a b =
        if a = me then p.queue me b ++ allSendTo legs b
        else if b = me ∧ anyAwaits legs a then (p.queue a me).tail else p.queue a b := by
  induction legs generalizing p settled with
  | nil =>
    refine ⟨p, rfl, hp.alike, fun a b => ?_⟩
    by_cases ha : a = me
    · rw [if_pos ha, allSendTo, List.flatMap_nil, List.append_nil, ha]
    · rw [if_neg ha, if_neg fun h => by simp [anyAwaits] at h]
  | cons leg legs ih =>
    have hleg := hlegs leg List.mem_cons_self
    obtain ⟨hfirst, hrest⟩ := List.pairwise_cons.1 hdistinct
    -- the first leg takes from a pipe from which no other leg takes
    have hother {l : Leg} (hl : l ∈ legs) {a : Nat} (ha : l.awaits a = true) :
        leg.awaits a = false := by
      by_contra hleg
      exact hfirst l hl a (source_of_awaits (eq_true_of_ne_false hleg)) (source_of_awaits ha)
    obtain ⟨p₁, hpoll, halike₁, hqueue₁⟩ := poll_eq hme hp hleg
    have hkept (l : Leg) (hl : l ∈ legs) (a : Nat) (ha : l.awaits a = true) :
        p₁.queue a me = p.queue a me := by
      have hne := ((hlegs l (List.mem_cons_of_mem _ hl)).source a (source_of_awaits ha)).2
      rw [hqueue₁, if_neg hne, if_neg fun h => by rw [hother hl ha] at h; exact Bool.false_ne_true h.2]
    have hlegs₁ (l : Leg) (hl : l ∈ legs) : l.Sound n me p₁ :=
      (hlegs l (List.mem_cons_of_mem _ hl)).of_alike halike₁ (hkept l hl)
    obtain ⟨p₂, hpolls, halike₂, hqueue₂⟩ := ih
      (settled && (leg.carriedOn (p.queue · me)).isComplete) halike₁.connect hlegs₁ hrest
    have hcarried : legs.map (carriedOn (p₁.queue · me)) = legs.map (carriedOn (p.queue · me)) :=
      List.map_congr_left fun l hl => carriedOn_congr (hkept l hl)
    refine ⟨p₂, ?_, halike₁.trans halike₂, fun a b => ?_⟩
    · have herror : (leg.carriedOn (p.queue · me)).error = none := hleg.error
      rw [pollAll, hpoll]
      dsimp only
      rw [herror, hpolls, List.map_cons, hcarried]
    · rw [hqueue₂, hqueue₁, hqueue₁ a me, hqueue₁ a b]
      by_cases ha : a = me
      · rw [if_pos ha, if_pos ha, if_pos rfl, allSendTo, allSendTo, List.flatMap_cons,
          List.append_assoc]
      · rw [if_neg ha, if_neg ha, if_neg ha, if_neg ha]
        have hany : anyAwaits (leg :: legs) a = (leg.awaits a || anyAwaits legs a) := by
          rw [anyAwaits, List.any_cons, anyAwaits]
        by_cases hb : b = me
        · subst hb
          cases hlegs' : anyAwaits legs a with
          | true =>
            obtain ⟨l, hl, hla⟩ := List.any_eq_true.1 hlegs'
            rw [hany, hother hl hla, hlegs']
            simp
          | false =>
            rw [hany, hlegs']
            simp
        · rw [if_neg fun h => hb h.1, if_neg fun h => hb h.1, if_neg fun h => hb h.1]

end Leg

end Multiparty
