import Mathlib.Data.Finset.Max
import Mathlib.Data.Fintype.Basic
import Mathlib.Data.List.FinRange
import Multiparty.Proofs.Network.Lockstep

/-!
# Runs in lockstep come to their end

When the computations of all players run in lockstep, a run of the network carries every one of
them to its end, whichever player moves first. The argument keeps books of a run: of every player
the rounds still ahead, and for every pair of players the payloads under way, which always are what
the receiver has still to get, less what the sender has still to send. Of the players that wait the
one that is furthest behind finds everything it waits for, so nobody waits in the end.

## Main definitions

* `Network.Idle`: a network with nothing under way.
* `Network.Admits`: all payloads of a run are within the limit of the network.
* `Network.Ledger`: the books of a run.
* `Network.Standing`: where one player stands.

## Main results

* `Network.Ledger.begin_eq`, `Network.Ledger.carryOn_eq`: what a call does to the books.
* `Network.Balanced.exists_ready`: somebody can always move.
* `Network.run_eq`: all computations end as in lockstep.
-/

namespace Multiparty

variable {σ α : Type} {n : Nat}

namespace Round

/-- The payloads that one party sends to another one in some rounds. -/
def messages (rounds : List (Round n)) (i j : Fin n) : List Bytes :=
  rounds.filterMap fun r => r.message i j

theorem messages_cons (r : Round n) (rounds : List (Round n)) (i j : Fin n) :
    messages (r :: rounds) i j = (r.message i j).toList ++ messages rounds i j := by
  cases h : r.message i j <;> simp [messages, h]

end Round

namespace Network

/-- The same network without any limit to payloads. -/
def unlimited (net : Network) : Network :=
  { net with pipes := { net.pipes with fits := fun _ => true } }

/-- Everything that the players send each other in a run without any limit is within the limit of
the network. -/
def Admits (net : Network) (sessions : List (Nat × Session σ α)) : Prop :=
  ∀ me, ∀ call ∈ (net.unlimited.run sessions).2.traces.getD me [], ∀ peer < net.pipes.players,
    ∀ payload, call.sends net.pipes.players me peer = some payload → net.pipes.fits payload = true

/-- A network of `n` players with nothing under way and without faults. -/
structure Idle (n : Nat) (net : Network) : Prop where
  connect : net.pipes.Connect n
  empty : ∀ i j : Fin n, i ≠ j → net.pipes.queue i j = []
  closed : net.pipes.closed = []
  faults : net.faults = []
  traces : net.traces.length = n

theorem idle_create (n : Nat) (fits : Bytes → Bool) : (create n [] fits).Idle n where
  connect := Pipes.connect_empty n fits
  empty _ _ _ := Pipes.queue_empty ..
  closed := rfl
  faults := rfl
  traces := List.length_replicate

theorem Idle.unlimited {net : Network} (h : net.Idle n) : net.unlimited.Idle n :=
  ⟨⟨h.connect.players, h.connect.rows, h.connect.columns⟩, h.empty, h.closed, h.faults, h.traces⟩

/-- The calls that a player makes in some rounds, latest first. -/
def callsOf (rounds : List (Round n)) (i : Fin n) : List Call :=
  ((Round.turnsOf rounds i).map Turn.call).reverse

/-- What is under way and what is still to be sent is what is still to be got, for every pair of
players. `ahead` are the rounds that a player has not begun, and `want` are the payloads that it
awaits of every other one in the round that it is in. -/
def Balanced (queue : Fin n → Fin n → List Bytes) (ahead : Fin n → List (Round n))
    (want : Fin n → Fin n → Option Bytes) : Prop :=
  ∀ i j, i ≠ j → queue i j ++ Round.messages (ahead i) i j =
    (want j i).toList ++ Round.messages (ahead j) i j

/-- The books of a run that began with the network `start`. -/
structure Ledger (rounds : List (Round n)) (start net : Network) (ahead : Fin n → List (Round n))
    (want : Fin n → Fin n → Option Bytes) : Prop where
  connect : net.pipes.Connect n
  faults : net.faults = []
  fits : net.pipes.fits = start.pipes.fits
  closes : net.closesWhenDone = start.closesWhenDone
  suffix : ∀ i, ahead i <:+ rounds
  balance : Balanced (fun i j => net.pipes.queue i j) ahead want
  /-- Only those who have nothing more to do close their ends. -/
  closed : ∀ i : Fin n, (i : Nat) ∈ net.pipes.closed → ahead i = [] ∧ ∀ j, want i j = none
  opened : start.closesWhenDone = false → net.pipes.closed = []
  traces : net.traces.length = n
  traced : ∀ i : Fin n, callsOf (ahead i) i ++ net.traces.getD i [] =
    callsOf rounds i ++ start.traces.getD i []

/-- Where player `i` stands that ends in `s` with `a`: it is done, or it waits in a turn, where `got`
is what has arrived so far. -/
inductive Standing (i : Fin n) (s : σ) (a : α) (ahead : List (Round n))
    (want : Fin n → Option Bytes) : Task σ α → Prop where
  | ended (hahead : ahead = []) (hwant : ∀ j, want j = none) :
      Standing i s a ahead want ⟨i, .done s a, .over⟩
  | waiting {t : Turn} {got : Nat → List Bytes}
      {resume : Except TransportError t.call.Reply → Session σ α} (s' : σ) (ht : t.Sound n i)
      (hresume : (resume (.ok t.reply)).Follows (Round.turnsOf ahead i) s a)
      (hgot : ∀ peer < n, ∀ payload, t.gets n i peer = some payload →
        got peer = [] ∨ (got peer).head? = some payload)
      (hwant : ∀ j : Fin n, want j = if got j = [] then t.gets n i j else none)
      (hmissing : ∃ j, want j ≠ none) :
      Standing i s a ahead want
        ⟨i, .wait s' t.call resume, .waiting ⟨t.call.payload, [], t.legsAfter n i got⟩⟩

/-- The next payload of a pipe is the one that is awaited. -/
private theorem head_of_append_eq {q later rest : List Bytes} {w : Option Bytes}
    (h : q ++ later = w.toList ++ rest) {b : Bytes} (hw : w = some b) :
    q = [] ∨ q.head? = some b := by
  subst hw
  cases q with
  | nil => exact .inl rfl
  | cons x q => exact .inr (congrArg some (List.cons.inj h).1)

namespace Balanced

variable {queue : Fin n → Fin n → List Bytes} {ahead : Fin n → List (Round n)}
  {want : Fin n → Fin n → Option Bytes} {i : Fin n} {r : Round n} {rest : List (Round n)}

/-- A player sends its payloads of a round and begins to wait for the others. -/
theorem enter (h : Balanced queue ahead want) (hahead : ahead i = r :: rest)
    (hwant : ∀ j, want i j = none) :
    Balanced (fun a b => if a = i then queue a b ++ (r.message i b).toList else queue a b)
      (Function.update ahead i rest) (Function.update want i fun j => r.message j i) := by
  intro a b hab
  dsimp only
  have hbalance := h a b hab
  by_cases ha : a = i
  · subst ha
    rw [hahead, Round.messages_cons] at hbalance
    rw [if_pos rfl, Function.update_self, Function.update_of_ne (Ne.symm hab),
      Function.update_of_ne (Ne.symm hab), List.append_assoc]
    exact hbalance
  · rw [if_neg ha, Function.update_of_ne ha]
    by_cases hb : b = i
    · subst hb
      rw [hahead, Round.messages_cons, hwant] at hbalance
      rw [Function.update_self, Function.update_self]
      exact hbalance
    · rw [Function.update_of_ne hb, Function.update_of_ne hb]
      exact hbalance

/-- A round in which a player neither sends nor gets anything. -/
theorem skip (h : Balanced queue ahead want) (hahead : ahead i = r :: rest)
    (hsend : ∀ j, r.message i j = none) (hget : ∀ j, r.message j i = none) :
    Balanced queue (Function.update ahead i rest) want := by
  have hmessages (j : Fin n) : Round.messages (ahead i) i j = Round.messages rest i j ∧
      Round.messages (ahead i) j i = Round.messages rest j i := by
    rw [hahead, Round.messages_cons, Round.messages_cons, hsend, hget]
    exact ⟨rfl, rfl⟩
  intro a b hab
  have hbalance := h a b hab
  by_cases ha : a = i
  · subst ha
    rw [Function.update_self, Function.update_of_ne (Ne.symm hab), ← (hmessages b).1]
    exact hbalance
  · rw [Function.update_of_ne ha]
    by_cases hb : b = i
    · subst hb
      rw [Function.update_self, ← (hmessages a).2]
      exact hbalance
    · rw [Function.update_of_ne hb]
      exact hbalance

/-- A player takes what it awaits and what has arrived. -/
theorem take (h : Balanced queue ahead want) (i : Fin n) (queue' : Fin n → Fin n → List Bytes)
    (hqueue : ∀ a b, a ≠ b → queue' a b =
      if b = i ∧ (want i a).isSome = true then (queue a i).tail else queue a b) :
    Balanced queue' ahead
      (Function.update want i fun j => if queue j i = [] then want i j else none) := by
  intro a b hab
  have hbalance := h a b hab
  rw [hqueue a b hab]
  by_cases hb : b = i
  · subst hb
    rw [Function.update_self]
    cases hw : want b a with
    | none =>
      rw [hw] at hbalance
      rw [if_neg fun hc => Bool.false_ne_true hc.2, ite_self]
      exact hbalance
    | some payload =>
      rw [hw] at hbalance
      rw [if_pos ⟨rfl, rfl⟩]
      cases hq : queue a b with
      | nil =>
        rw [hq] at hbalance
        exact hbalance
      | cons x q =>
        rw [hq] at hbalance
        exact (List.cons.inj hbalance).2
  · rw [if_neg fun hc => hb hc.1, Function.update_of_ne hb]
    exact hbalance

/-- Of the players that wait the one that is furthest behind finds what it waits for. -/
theorem exists_ready (h : Balanced queue ahead want) {rounds : List (Round n)}
    (hsuffix : ∀ i, ahead i <:+ rounds) (hself : ∀ i, want i i = none)
    (hwaits : ∀ i, ahead i ≠ [] → ∃ j, want i j ≠ none) (hsome : ∃ i j, want i j ≠ none) :
    ∃ i, (∃ j, want i j ≠ none) ∧ ∀ j, want i j ≠ none → queue j i ≠ [] := by
  classical
  obtain ⟨i₀, hi₀⟩ := hsome
  let waiting : Finset (Fin n) := Finset.univ.filter fun i => ∃ j, want i j ≠ none
  obtain ⟨i, hi, hmax⟩ := waiting.exists_max_image (fun i => (ahead i).length)
    ⟨i₀, Finset.mem_filter.2 ⟨Finset.mem_univ _, hi₀⟩⟩
  refine ⟨i, (Finset.mem_filter.1 hi).2, fun j hj hqueue => ?_⟩
  have hji : j ≠ i := by
    rintro rfl
    exact hj (hself j)
  have hbalance := h j i hji
  rw [hqueue, List.nil_append] at hbalance
  obtain ⟨b, hb⟩ := Option.ne_none_iff_exists'.1 hj
  have hlonger : (Round.messages (ahead i) j i).length < (Round.messages (ahead j) j i).length := by
    rw [hbalance, hb, Option.toList_some, List.singleton_append, List.length_cons]
    exact Nat.lt_succ_self _
  -- so `j` is further behind than `i`, and waits too
  have hnotsuffix : ¬ ahead j <:+ ahead i := fun hsuffix =>
    Nat.not_le.2 hlonger (hsuffix.sublist.filterMap _).length_le
  have hsuffix := (List.suffix_or_suffix_of_suffix (hsuffix i) (hsuffix j)).resolve_right hnotsuffix
  have hlt : (ahead i).length < (ahead j).length := by
    refine lt_of_le_of_ne hsuffix.length_le fun heq => hnotsuffix ?_
    rw [hsuffix.eq_of_length heq]
  have hne : ahead j ≠ [] := fun hnil => by
    rw [hnil] at hlt
    exact Nat.not_lt_zero _ hlt
  exact Nat.not_le.2 hlt (hmax j (Finset.mem_filter.2 ⟨Finset.mem_univ _, hwaits j hne⟩))

end Balanced

/-- How the legs of a transfer are carried on with, if nothing can go wrong. -/
private theorem proceed_eq {me : Nat} {legs : List Leg} {p : Pipes} (hme : me < n)
    (hp : p.Connect n) (hlegs : ∀ leg ∈ legs, leg.Sound n me p)
    (hdistinct : legs.Pairwise fun leg leg' => ∀ s, leg.source = some s → leg'.source ≠ some s) :
    ∃ p', TransferState.proceed me legs p =
        (if (legs.map (Leg.carriedOn (p.queue · me))).all Leg.isComplete then
          .complete (Leg.receipts (legs.map (Leg.carriedOn (p.queue · me))))
        else .waiting (legs.map (Leg.carriedOn (p.queue · me))), p') ∧
      p.Alike n p' ∧
      ∀ a b, p'.queue a b =
        if a = me then p.queue me b ++ Leg.allSendTo legs b
        else if b = me ∧ Leg.anyAwaits legs a then (p.queue a me).tail else p.queue a b := by
  obtain ⟨p', hpoll, halike, hqueue⟩ := Leg.pollAll_eq hme (legs.length ≤ promptLegs) true hp hlegs
    hdistinct
  refine ⟨p', ?_, halike, hqueue⟩
  rw [TransferState.proceed, hpoll]

namespace Ledger

variable {rounds : List (Round n)} {start net : Network} {ahead : Fin n → List (Round n)}
  {want : Fin n → Fin n → Option Bytes}

/-- At first everything is ahead. -/
theorem init (h : net.Idle n) (rounds : List (Round n)) :
    Ledger rounds net net (fun _ => rounds) fun _ _ => none where
  connect := h.connect
  faults := h.faults
  fits := rfl
  closes := rfl
  suffix _ := List.suffix_rfl
  balance i j hij := by
    dsimp only
    rw [h.empty i j hij]
    rfl
  closed i hi := by rw [h.closed] at hi; cases hi
  opened _ := h.closed
  traces := h.traces
  traced _ := rfl

/-- Who has something to get has not closed its ends. -/
private theorem not_closed_of_message (h : Ledger rounds start net ahead want) {i j : Fin n}
    (hij : i ≠ j) (hmessages : Round.messages (ahead i) i j ≠ []) :
    (j : Nat) ∉ net.pipes.closed := by
  intro hclosed
  obtain ⟨hahead, hwant⟩ := h.closed j hclosed
  have hbalance := h.balance i j hij
  rw [hahead, hwant] at hbalance
  exact hmessages (List.append_eq_nil_iff.1 hbalance).2

/-- Of whom something is missing has not closed its ends. -/
private theorem not_closed_of_missing (h : Ledger rounds start net ahead want) {i j : Fin n}
    (hij : i ≠ j) (hqueue : net.pipes.queue i j = [])
    (hmissing : (want j i).toList ++ Round.messages (ahead j) i j ≠ []) :
    (i : Nat) ∉ net.pipes.closed := by
  intro hclosed
  have hbalance := h.balance i j hij
  dsimp only at hbalance
  rw [hqueue, (h.closed i hclosed).1] at hbalance
  exact hmissing hbalance.symm

/-- Nobody waits for itself. -/
private theorem ne_of_gets {i : Fin n} {t : Turn} (ht : t.Sound n i) {j : Fin n} {b : Bytes}
    (h : t.gets n i j = some b) : j ≠ i := by
  rintro rfl
  rw [Turn.gets_self ht] at h
  cases h

/-- Who has a round ahead has not closed its ends, and it stays so when it begins the round. -/
private theorem closed_update (h : Ledger rounds start net ahead want) {i : Fin n} {r : Round n}
    {rest : List (Round n)} (hahead : ahead i = r :: rest) {j : Fin n}
    (hj : (j : Nat) ∈ net.pipes.closed) :
    j ≠ i ∧ Function.update ahead i rest j = [] ∧ ∀ k, want j k = none := by
  obtain ⟨hnil, hwant⟩ := h.closed j hj
  have hne : j ≠ i := by
    rintro rfl
    rw [hahead] at hnil
    cases hnil
  rw [Function.update_of_ne hne]
  exact ⟨hne, hnil, hwant⟩

private theorem suffix_update (h : Ledger rounds start net ahead want) {i : Fin n} {r : Round n}
    {rest : List (Round n)} (hahead : ahead i = r :: rest) (j : Fin n) :
    Function.update ahead i rest j <:+ rounds := by
  by_cases hj : j = i
  · subst hj
    rw [Function.update_self]
    exact (List.suffix_cons r rest).trans (hahead ▸ h.suffix j)
  · rw [Function.update_of_ne hj]
    exact h.suffix j

/-- A round in which a player takes no turn. -/
theorem skip (h : Ledger rounds start net ahead want) (hmatched : ∀ r ∈ rounds, r.Matched)
    {i : Fin n} {r : Round n} {rest : List (Round n)} (hahead : ahead i = r :: rest)
    (hr : r i = none) : Ledger rounds start net (Function.update ahead i rest) want := by
  have hmem : r ∈ rounds := (h.suffix i).subset (hahead ▸ List.mem_cons_self)
  have hsend (j : Fin n) : r.message i j = none := by rw [Round.message, hr]; rfl
  have hget (j : Fin n) : r.message j i = none := by
    rw [← (hmatched r hmem).agree, hr]
    rfl
  refine { h with suffix := h.suffix_update hahead, balance := h.balance.skip hahead hsend hget,
                  closed := fun j hj => (h.closed_update hahead hj).2, traced := fun j => ?_ }
  have htraced := h.traced j
  by_cases hj : j = i
  · subst hj
    rw [hahead, callsOf, Round.turnsOf_cons, hr] at htraced
    rw [Function.update_self]
    exact htraced
  · rw [Function.update_of_ne hj]
    exact htraced

section CarryOn

variable {i : Fin n} {t : Turn} {got : Nat → List Bytes}

/-- Of whom a payload is missing has not closed its ends. -/
private theorem live_of_missing (h : Ledger rounds start net ahead want) (ht : t.Sound n i)
    (hwant : ∀ j : Fin n, want i j = if got j = [] then t.gets n i j else none) :
    ∀ peer < n, (t.gets n i peer).isSome = true → got peer = [] →
      net.pipes.queue peer i = [] → peer ∉ net.pipes.closed := by
  intro peer hpeer hgets hnil hqueue
  obtain ⟨b, hb⟩ := Option.isSome_iff_exists.1 hgets
  have hwantPeer := hwant ⟨peer, hpeer⟩
  rw [if_pos hnil, hb] at hwantPeer
  refine h.not_closed_of_missing (i := ⟨peer, hpeer⟩) (ne_of_gets ht hb) hqueue ?_
  rw [hwantPeer]
  exact List.cons_ne_nil _ _

/-- Whatever arrives of an awaited payload is the payload. -/
private theorem head_of_arrived (h : Ledger rounds start net ahead want) (ht : t.Sound n i)
    (hgot : ∀ peer < n, ∀ payload, t.gets n i peer = some payload →
      got peer = [] ∨ (got peer).head? = some payload)
    (hwant : ∀ j : Fin n, want i j = if got j = [] then t.gets n i j else none) :
    ∀ peer < n, ∀ payload, t.gets n i peer = some payload →
      got peer ++ net.pipes.queue peer i = [] ∨
        (got peer ++ net.pipes.queue peer i).head? = some payload := by
  intro peer hpeer payload hgets
  rcases hgot peer hpeer payload hgets with hnil | hhead
  · have hwantPeer := hwant ⟨peer, hpeer⟩
    rw [if_pos hnil, hgets] at hwantPeer
    rw [hnil, List.nil_append]
    exact head_of_append_eq (h.balance ⟨peer, hpeer⟩ i (ne_of_gets ht hgets)) hwantPeer
  · refine .inr ?_
    rw [List.head?_append, hhead]
    rfl

/-- What carrying on with a call does to the books: what has arrived is taken. -/
theorem carryOn_eq (h : Ledger rounds start net ahead want) (ht : t.Sound n i)
    (hgot : ∀ peer < n, ∀ payload, t.gets n i peer = some payload →
      got peer = [] ∨ (got peer).head? = some payload)
    (hwant : ∀ j : Fin n, want i j = if got j = [] then t.gets n i j else none) :
    let got' := fun peer => got peer ++ net.pipes.queue peer i
    ∃ net', carryOn net i t.call ⟨t.call.payload, [], t.legsAfter n i got⟩ =
        (if (t.legsAfter n i got').all Leg.isComplete then .answered (.ok t.reply)
          else .inFlight ⟨t.call.payload, [], t.legsAfter n i got'⟩, net') ∧
      (∀ peer < n, ∀ payload, t.gets n i peer = some payload →
        got' peer = [] ∨ (got' peer).head? = some payload) ∧
      Ledger rounds start net' ahead
        (Function.update want i fun j => if got' j = [] then t.gets n i j else none) := by
  intro got'
  obtain ⟨p', hproceed, halike, hqueue⟩ := proceed_eq i.isLt h.connect
    (Turn.legsAfter_sound i.isLt ht (h.live_of_missing ht hwant)) (Turn.legsAfter_distinct got)
  rw [Turn.map_carriedOn_legsAfter] at hproceed
  have hgot' := h.head_of_arrived ht hgot hwant
  refine ⟨{ net with pipes := p' }, ?_, hgot', ?_⟩
  · rw [carryOn, hproceed]
    dsimp only
    rw [transport, h.connect.players, Turn.outcome_eq i.isLt ht hgot']
  · have hbalance := h.balance.take i (fun a b => p'.queue a b) fun a b hab => by
      rw [hqueue, Turn.anyAwaits_legsAfter i.isLt ht got a.isLt, Turn.allSendTo_legsAfter,
        List.append_nil, hwant]
      by_cases ha : a = i
      · subst ha
        rw [if_pos rfl, if_neg fun hc => hab hc.1.symm]
      · rw [if_neg fun hc => ha (Fin.ext hc)]
        simp only [Fin.ext_iff]
        cases got a with
        | nil => rw [if_pos rfl, List.isEmpty_nil, Bool.and_true]
        | cons x q => rw [if_neg (List.cons_ne_nil x q), List.isEmpty_cons, Bool.and_false]; rfl
    have hwant' : (fun j : Fin n => if net.pipes.queue j i = [] then want i j else none) =
        fun j : Fin n => if got' j = [] then t.gets n i j else none := by
      funext j
      change _ = if got j ++ net.pipes.queue j i = [] then _ else _
      rw [hwant]
      cases got j with
      | nil => rw [List.nil_append, if_pos rfl]
      | cons x q => rw [if_neg (List.cons_ne_nil x q), ite_self, List.cons_append,
          if_neg (List.cons_ne_nil x _)]
    rw [hwant'] at hbalance
    refine { h with connect := halike.connect, fits := halike.fits.trans h.fits,
                    balance := hbalance, closed := fun j hj => ?_, opened := fun hc => ?_ }
    · rw [halike.closed] at hj
      obtain ⟨hahead, hnone⟩ := h.closed j hj
      refine ⟨hahead, fun k => ?_⟩
      by_cases hji : j = i
      · subst hji
        rw [Function.update_self, ← congrFun hwant' k, hnone, ite_self]
      · rw [Function.update_of_ne hji, hnone]
    · exact halike.closed.trans (h.opened hc)

end CarryOn

section Begin

variable {i : Fin n} {r : Round n} {rest : List (Round n)} {t : Turn}

/-- The next turn of a player is sound, and sends and gets what the round has it send and get. -/
private theorem turn_of_ahead (h : Ledger rounds start net ahead want)
    (hmatched : ∀ r ∈ rounds, r.Matched) (hahead : ahead i = r :: rest) (hr : r i = some t) :
    r ∈ rounds ∧ t.Sound n i ∧ (∀ j : Fin n, r.message i j = t.sends n i j) ∧
      ∀ j : Fin n, r.message j i = t.gets n i j := by
  have hmem : r ∈ rounds := (h.suffix i).subset (hahead ▸ List.mem_cons_self)
  refine ⟨hmem, (hmatched r hmem).sound i t hr, fun j => ?_, fun j => ?_⟩
  · rw [Round.message, hr]
    rfl
  · rw [← (hmatched r hmem).agree, hr]
    rfl

/-- Nobody sends to itself. -/
private theorem ne_of_sends (h : Ledger rounds start net ahead want)
    (hmatched : ∀ r ∈ rounds, r.Matched) (hahead : ahead i = r :: rest) (hr : r i = some t)
    {j : Fin n} {b : Bytes} (hb : t.sends n i j = some b) : i ≠ j := by
  obtain ⟨-, ht, hsends, hgets⟩ := h.turn_of_ahead hmatched hahead hr
  rintro rfl
  have hself := hgets i
  rw [hsends, hb, Turn.gets_self ht] at hself
  cases hself

/-- What a player is to get next from another one. -/
private theorem messages_of_gets (h : Ledger rounds start net ahead want)
    (hmatched : ∀ r ∈ rounds, r.Matched) (hahead : ahead i = r :: rest) (hr : r i = some t)
    (hwant : ∀ j, want i j = none) {j : Fin n} {b : Bytes} (hb : t.gets n i j = some b) :
    (want i j).toList ++ Round.messages (ahead i) j i = b :: Round.messages rest j i := by
  obtain ⟨-, -, -, hgets⟩ := h.turn_of_ahead hmatched hahead hr
  rw [hwant, hahead, Round.messages_cons, hgets, hb]
  rfl

/-- A player can begin its next turn. -/
private theorem passable (h : Ledger rounds start net ahead want)
    (hmatched : ∀ r ∈ rounds, r.Matched)
    (hfits : ∀ r ∈ rounds, ∀ i j b, r.message i j = some b → start.pipes.fits b = true)
    (hahead : ahead i = r :: rest) (hr : r i = some t) (hwant : ∀ j, want i j = none) :
    t.Passable n i net.pipes := by
  obtain ⟨hmem, ht, hsends, -⟩ := h.turn_of_ahead hmatched hahead hr
  refine ⟨fun peer hpeer payload hpayload => ?_, fun peer hpeer hpayload => ?_,
    fun peer hpeer hpayload hqueue => ?_⟩
  · rw [h.fits]
    exact hfits r hmem i ⟨peer, hpeer⟩ payload ((hsends _).trans hpayload)
  · obtain ⟨b, hb⟩ := Option.isSome_iff_exists.1 hpayload
    refine h.not_closed_of_message (j := ⟨peer, hpeer⟩) (h.ne_of_sends hmatched hahead hr hb) ?_
    rw [hahead, Round.messages_cons, hsends, hb]
    exact List.cons_ne_nil _ _
  · obtain ⟨b, hb⟩ := Option.isSome_iff_exists.1 hpayload
    refine h.not_closed_of_missing (i := ⟨peer, hpeer⟩) (ne_of_gets ht hb) hqueue ?_
    rw [h.messages_of_gets hmatched hahead hr hwant hb]
    exact List.cons_ne_nil _ _

/-- The call of a turn is recorded when it begins. -/
private theorem traced_begin (h : Ledger rounds start net ahead want) (hahead : ahead i = r :: rest)
    (hr : r i = some t) (j : Fin n) :
    callsOf (Function.update ahead i rest j) j ++
        (net.traces.modify i (t.call :: ·)).getD j [] =
      callsOf rounds j ++ start.traces.getD j [] := by
  have htraced := h.traced j
  by_cases hj : j = i
  · subst hj
    have hlt : (j : Nat) < net.traces.length := h.traces.symm ▸ j.isLt
    rw [hahead, callsOf, Round.turnsOf_cons, hr, Option.toList_some, List.singleton_append,
      List.map_cons, List.reverse_cons, List.append_assoc, List.singleton_append,
      List.getD_eq_getElem?_getD, List.getElem?_eq_getElem hlt] at htraced
    rw [Function.update_self, List.getD_eq_getElem?_getD, List.getElem?_modify_eq,
      List.getElem?_eq_getElem hlt]
    exact htraced
  · rw [Function.update_of_ne hj, List.getD_eq_getElem?_getD, List.getElem?_modify_ne _ _
      fun hc => hj (Fin.ext hc.symm), ← List.getD_eq_getElem?_getD]
    exact htraced

/-- What beginning a call does to the books: the payloads of the round are sent, and what has
arrived already is taken. -/
theorem begin_eq (h : Ledger rounds start net ahead want) (hmatched : ∀ r ∈ rounds, r.Matched)
    (hfits : ∀ r ∈ rounds, ∀ i j b, r.message i j = some b → start.pipes.fits b = true)
    (hahead : ahead i = r :: rest) (hr : r i = some t) (hwant : ∀ j, want i j = none) :
    let got := fun peer => net.pipes.queue peer i
    ∃ net', begin net i t.call =
        (if (t.legsAfter n i got).all Leg.isComplete then .answered (.ok t.reply)
          else .inFlight ⟨t.call.payload, [], t.legsAfter n i got⟩, net') ∧
      (∀ peer < n, ∀ payload, t.gets n i peer = some payload →
        got peer = [] ∨ (got peer).head? = some payload) ∧
      Ledger rounds start net' (Function.update ahead i rest)
        (Function.update want i fun j => if got j = [] then t.gets n i j else none) := by
  intro got
  obtain ⟨-, ht, hsends, hgets⟩ := h.turn_of_ahead hmatched hahead hr
  have hgot : ∀ peer < n, ∀ payload, t.gets n i peer = some payload →
      got peer = [] ∨ (got peer).head? = some payload := by
    intro peer hpeer payload hpayload
    have hbalance := h.balance ⟨peer, hpeer⟩ i (ne_of_gets ht hpayload)
    rw [h.messages_of_gets hmatched hahead hr hwant hpayload] at hbalance
    exact head_of_append_eq (w := some payload) hbalance rfl
  obtain ⟨transfer, htransfer, hplan⟩ := Turn.transferOf_plan i.isLt ht
  obtain ⟨p', hproceed, halike, hqueue⟩ := proceed_eq i.isLt h.connect
    (Turn.legs_sound i.isLt ht (h.passable hmatched hfits hahead hr hwant)) Turn.legs_distinct
  let net' : Network := { net with
    callCounts := net.callCounts.modify i (· + 1)
    traces := net.traces.modify i (t.call :: ·)
    pipes := p' }
  refine ⟨net', ?_, hgot, ?_⟩
  · have hfaults (player call : Nat) : Fault.ofCall net.faults player call = [] := by
      rw [h.faults]
      rfl
    have hedited : Fault.editOutgoing [] t.call = t.call := by
      cases t.call <;> rfl
    rw [begin, hfaults]
    dsimp only
    rw [hedited, if_neg (by decide)]
    rw [transport]
    dsimp only
    rw [h.connect.players, htransfer]
    dsimp only
    rw [Transport.begin, hplan]
    dsimp only
    rw [show (Transport.complete n i).me = i from rfl, hproceed]
    dsimp only
    rw [← Turn.legsAfter, Turn.outcome_eq i.isLt ht hgot]
  · have hself : r.message i i = none := (hgets i).trans (Turn.gets_self ht)
    have hbalance := (h.balance.enter hahead hwant).take i (fun a b => p'.queue a b)
      fun a b hab => by
        rw [hqueue, Function.update_self, hgets, Turn.allSendTo_legs b.isLt, ← hsends,
          Turn.anyAwaits_legs i.isLt ht a.isLt]
        simp only [Fin.ext_iff]
        by_cases ha : (a : Nat) = i
        · obtain rfl : a = i := Fin.ext ha
          rw [if_pos rfl, if_neg fun hc => hab (Fin.ext hc.1).symm, if_pos rfl]
        · rw [if_neg ha, if_neg ha, if_neg ha]
    have hwant' : (fun j : Fin n => if (if j = i then
            net.pipes.queue j i ++ (r.message i i).toList else net.pipes.queue j i) = []
          then Function.update want i (fun j => r.message j i) i j else none) =
        fun j : Fin n => if got j = [] then t.gets n i j else none := by
      funext j
      rw [hself, Option.toList_none, List.append_nil, ite_self, Function.update_self, hgets]
    rw [hwant', Function.update_idem] at hbalance
    refine ⟨halike.connect, h.faults, halike.fits.trans h.fits, h.closes, h.suffix_update hahead,
      hbalance, fun j hj => ?_, fun hc => halike.closed.trans (h.opened hc),
      (List.length_modify ..).trans h.traces, h.traced_begin hahead hr⟩
    obtain ⟨hji, hnil, hnone⟩ := h.closed_update hahead (halike.closed ▸ hj)
    refine ⟨hnil, fun k => ?_⟩
    rw [Function.update_of_ne hji]
    exact hnone k

end Begin

/-- A player with nothing more to do may close its ends. -/
theorem finish (h : Ledger rounds start net ahead want) {i : Fin n} (hahead : ahead i = [])
    (hwant : ∀ j, want i j = none) : Ledger rounds start (net.finish i) ahead want := by
  rw [Network.finish]
  split
  · next hcloses =>
    refine { h with connect := h.connect.close i, closed := fun j hj => ?_, opened := fun hc => ?_ }
    · rcases List.mem_cons.1 hj with heq | hmem
      · obtain rfl : j = i := Fin.ext heq
        exact ⟨hahead, hwant⟩
      · exact h.closed j hmem
    · rw [h.closes, hc] at hcloses
      cases hcloses
  · exact h

/-- A player is run until it is done or has to wait. -/
theorem launch_eq (h : Ledger rounds start net ahead want) (hmatched : ∀ r ∈ rounds, r.Matched)
    (hfits : ∀ r ∈ rounds, ∀ i j b, r.message i j = some b → start.pipes.fits b = true)
    {i : Fin n} {c : Session σ α} {s : σ} {a : α}
    (hc : c.Follows (Round.turnsOf (ahead i) i) s a) (hwant : ∀ j, want i j = none) :
    ∃ task net' rest w, launch i c net = (task, net') ∧
      Ledger rounds start net' (Function.update ahead i rest) (Function.update want i w) ∧
      Standing i s a rest w task := by
  generalize hrest : ahead i = rest at hc
  induction rest generalizing c net ahead want with
  | nil =>
    obtain rfl := hc.of_nil
    have hsame : Ledger rounds start (net.finish i) (Function.update ahead i [])
        (Function.update want i (want i)) := by
      rw [← hrest, Function.update_eq_self, Function.update_eq_self]
      exact h.finish hrest hwant
    exact ⟨_, _, [], want i, rfl, hsame, .ended rfl hwant⟩
  | cons r rest ih =>
    cases hr : r i with
    | none =>
      rw [Round.turnsOf_cons, hr] at hc
      obtain ⟨task, net', rest', w, hlaunch, hledger, hstanding⟩ :=
        ih (h.skip hmatched hrest hr) hwant (Function.update_self ..) hc
      rw [Function.update_idem] at hledger
      exact ⟨task, net', rest', w, hlaunch, hledger, hstanding⟩
    | some t =>
      rw [Round.turnsOf_cons, hr] at hc
      obtain ⟨s', resume, rfl, hresume⟩ := Session.Follows.of_cons hc
      obtain ⟨net₁, hbegin, hgot, hledger₁⟩ := h.begin_eq hmatched hfits hrest hr hwant
      have ht := (hmatched r ((h.suffix i).subset (hrest ▸ List.mem_cons_self))).sound i t hr
      by_cases hall : (t.legsAfter n i fun peer => net.pipes.queue peer i).all Leg.isComplete = true
      · have hnone : ∀ j, Function.update want i (fun j : Fin n =>
            if net.pipes.queue j i = [] then t.gets n i j else none) i j = none := by
          intro j
          rw [Function.update_self]
          split
          · next hnil =>
            by_contra hgets
            exact (Turn.all_isComplete_legsAfter_iff i.isLt ht _).1 hall j j.isLt
              (Option.isSome_iff_ne_none.2 hgets) hnil
          · rfl
        obtain ⟨task, net', rest', w, hlaunch, hledger, hstanding⟩ :=
          ih hledger₁ hnone (Function.update_self ..) hresume
        rw [Function.update_idem, Function.update_idem] at hledger
        refine ⟨task, net', rest', w, ?_, hledger, hstanding⟩
        rw [launch, hbegin, if_pos hall]
        exact hlaunch
      · refine ⟨_, net₁, rest, _, ?_, hledger₁, .waiting s' ht hresume hgot (fun j => rfl) ?_⟩
        · rw [launch, hbegin, if_neg hall]
        · by_contra hnone
          refine hall ((Turn.all_isComplete_legsAfter_iff i.isLt ht _).2 fun peer hpeer hgets hnil => ?_)
          refine hnone ⟨⟨peer, hpeer⟩, ?_⟩
          dsimp only
          rw [if_pos hnil]
          exact Option.isSome_iff_ne_none.1 hgets

/-- The players of a list are launched one after another. -/
theorem launchAll_eq (h : Ledger rounds start net ahead want)
    (hmatched : ∀ r ∈ rounds, r.Matched)
    (hfits : ∀ r ∈ rounds, ∀ i j b, r.message i j = some b → start.pipes.fits b = true)
    {cs : Fin n → Session σ α} {s : Fin n → σ} {a : Fin n → α} {l : List (Fin n)}
    (hl : l.Nodup) (hcs : ∀ i ∈ l, (cs i).Follows (Round.turnsOf (ahead i) i) (s i) (a i) ∧
      ∀ j, want i j = none) :
    ∃ (tasks : Fin n → Task σ α) (net' : Network) (ahead' : Fin n → List (Round n))
      (want' : Fin n → Fin n → Option Bytes),
      launchAll (l.map fun i => (i.val, cs i)) net = (l.map tasks, net') ∧
      Ledger rounds start net' ahead' want' ∧
      (∀ i ∈ l, Standing i (s i) (a i) (ahead' i) (want' i) (tasks i)) ∧
      ∀ i ∉ l, ahead' i = ahead i ∧ want' i = want i := by
  induction l generalizing net ahead want with
  | nil =>
    refine ⟨fun i => ⟨i, cs i, .over⟩, net, ahead, want, rfl, h, fun i hi => (by cases hi), ?_⟩
    exact fun i _ => ⟨rfl, rfl⟩
  | cons k l ih =>
    obtain ⟨hk, hl⟩ := List.nodup_cons.1 hl
    obtain ⟨hck, hwk⟩ := hcs k List.mem_cons_self
    obtain ⟨task, net₁, rest, w, hlaunch, hledger₁, hstanding⟩ := h.launch_eq hmatched hfits hck hwk
    have hne {i : Fin n} (hi : i ∈ l) : i ≠ k := fun heq => hk (heq ▸ hi)
    obtain ⟨tasks, net₂, ahead', want', hlaunchAll, hledger₂, hstandings, hsame⟩ :=
      ih hledger₁ hl fun i hi => by
        rw [Function.update_of_ne (hne hi), Function.update_of_ne (hne hi)]
        exact hcs i (List.mem_cons_of_mem _ hi)
    refine ⟨Function.update tasks k task, net₂, ahead', want', ?_, hledger₂, ?_, ?_⟩
    · rw [List.map_cons, launchAll, hlaunch]
      dsimp only
      rw [hlaunchAll, List.map_cons, Function.update_self]
      refine congrArg (fun ts => (task :: ts, net₂)) (List.map_congr_left fun i hi => ?_)
      rw [Function.update_of_ne (hne hi)]
    · intro i hi
      rcases List.mem_cons.1 hi with rfl | hi
      · obtain ⟨hahead, hwant⟩ := hsame i hk
        rw [Function.update_self] at hahead hwant ⊢
        rw [hahead, hwant]
        exact hstanding
      · rw [Function.update_of_ne (hne hi)]
        exact hstandings i hi
    · intro i hi
      obtain ⟨hik, hil⟩ := not_or.1 (mt List.mem_cons.2 hi)
      obtain ⟨hahead, hwant⟩ := hsame i hil
      rw [Function.update_of_ne hik] at hahead hwant
      exact ⟨hahead, hwant⟩

end Ledger

namespace Standing

variable {i : Fin n} {s : σ} {a : α} {ahead : List (Round n)} {want : Fin n → Option Bytes}
  {task : Task σ α}

theorem want_self (h : Standing i s a ahead want task) : want i = none := by
  cases h with
  | ended _ hwant => exact hwant i
  | waiting s' ht _ _ hwant _ => rw [hwant, Turn.gets_self ht, ite_self]

theorem waits (h : Standing i s a ahead want task) (hahead : ahead ≠ []) :
    ∃ j, want j ≠ none := by
  cases h with
  | ended hnil _ => exact absurd hnil hahead
  | waiting _ _ _ _ _ hmissing => exact hmissing

theorem eq_over (h : Standing i s a ahead want task) (hwant : ∀ j, want j = none) :
    ahead = [] ∧ task = ⟨i, .done s a, .over⟩ := by
  cases h with
  | ended hahead _ => exact ⟨hahead, rfl⟩
  | waiting _ _ _ _ _ hmissing =>
    obtain ⟨j, hj⟩ := hmissing
    exact absurd (hwant j) hj

end Standing

/-- Advancing a waiting task carries on with its call and, once that is answered, launches what is
left of its session. -/
theorem advance?_waiting (player : Nat) (s : σ) (call : Call)
    (resume : Except TransportError call.Reply → Session σ α) (flight : Flight) (net : Network) :
    (advance? ⟨player, .wait s call resume, .waiting flight⟩ net).map (fun x => (x.1.val, x.2)) =
      match carryOn net player call flight with
      | (.answered reply, net') => some (launch player (resume reply) net')
      | _ => none := by
  rw [advance?]
  dsimp only
  rcases carryOn net player call flight with ⟨_ | _ | _, net'⟩ <;> rfl

/-- A move advances one task and leaves the others as they are. -/
private theorem move?_eq_some {tasks : List (Task σ α)} {net net' : Network}
    {x : { l : List (Task σ α) // Moved l tasks }} (h : move? tasks net = some (x, net')) :
    ∃ (k : Nat) (hk : k < tasks.length) (t : Task σ α),
      (advance? tasks[k] net).map (fun x => (x.1.val, x.2)) = some (t, net') ∧
        x.val = tasks.set k t := by
  induction tasks generalizing net with
  | nil => cases h
  | cons t tasks ih =>
    rw [move?] at h
    cases hadvance : advance? t net with
    | some y =>
      obtain ⟨⟨t', ht'⟩, net₁⟩ := y
      rw [hadvance] at h
      obtain ⟨rfl, rfl⟩ := Prod.mk.inj (Option.some.inj h)
      exact ⟨0, Nat.zero_lt_succ _, t', by rw [List.getElem_cons_zero, hadvance]; rfl, rfl⟩
    | none =>
      rw [hadvance] at h
      cases hmove : move? tasks net with
      | none =>
        rw [hmove] at h
        cases h
      | some y =>
        obtain ⟨⟨l', hl'⟩, net₁⟩ := y
        rw [hmove] at h
        obtain ⟨rfl, rfl⟩ := Prod.mk.inj (Option.some.inj h)
        obtain ⟨k, hk, t', hadvance', hset⟩ := ih hmove
        refine ⟨k + 1, Nat.succ_lt_succ hk, t', hadvance', ?_⟩
        rw [List.set_cons_succ, ← hset]

private theorem move?_eq_none {tasks : List (Task σ α)} {net : Network}
    (h : move? tasks net = none) : ∀ t ∈ tasks, advance? t net = none := by
  induction tasks with
  | nil => exact fun t ht => (by cases ht)
  | cons t tasks ih =>
    rw [move?] at h
    cases hadvance : advance? t net with
    | some y =>
      rw [hadvance] at h
      cases h
    | none =>
      rw [hadvance] at h
      cases hmove : move? tasks net with
      | some y =>
        rw [hmove] at h
        cases h
      | none =>
        intro t' ht'
        rcases List.mem_cons.1 ht' with rfl | hmem
        · exact hadvance
        · exact ih hmove t' hmem

/-- A waiting player goes on when it is carried on with and everything has arrived. -/
private theorem Ledger.advance?_eq {rounds : List (Round n)} {start net : Network}
    {ahead : Fin n → List (Round n)} {want : Fin n → Fin n → Option Bytes}
    (h : Ledger rounds start net ahead want) (hmatched : ∀ r ∈ rounds, r.Matched)
    (hfits : ∀ r ∈ rounds, ∀ i j b, r.message i j = some b → start.pipes.fits b = true)
    {i : Fin n} {s : σ} {a : α} {task : Task σ α}
    (hstanding : Standing i s a (ahead i) (want i) task) :
    (∀ t net', (advance? task net).map (fun x => (x.1.val, x.2)) = some (t, net') →
      ∃ rest w, Ledger rounds start net' (Function.update ahead i rest) (Function.update want i w) ∧
        Standing i s a rest w t) ∧
    ((∃ j, want i j ≠ none) → (∀ j, want i j ≠ none → net.pipes.queue j i ≠ []) →
      advance? task net ≠ none) := by
  cases hstanding with
  | ended _ hwant =>
    refine ⟨fun t net' hadvance => (by cases hadvance), fun hmissing => ?_⟩
    obtain ⟨j, hj⟩ := hmissing
    exact absurd (hwant j) hj
  | waiting s' ht hresume hgot hwant hmissing =>
    rename_i t got resume
    obtain ⟨net₁, hcarryOn, hgot', hledger⟩ := h.carryOn_eq ht hgot hwant
    have hadvance := advance?_waiting i s' t.call resume
      ⟨t.call.payload, [], t.legsAfter n i got⟩ net
    rw [hcarryOn] at hadvance
    have hcomplete := Turn.all_isComplete_legsAfter_iff i.isLt ht
      fun peer => got peer ++ net.pipes.queue peer i
    by_cases hall : (t.legsAfter n i
        fun peer => got peer ++ net.pipes.queue peer i).all Leg.isComplete = true
    · rw [if_pos hall] at hadvance
      dsimp only at hadvance
      refine ⟨fun t' net' hsome => ?_, fun _ _ hnone => ?_⟩
      · have hnone : ∀ j, Function.update want i (fun j : Fin n =>
            if got j ++ net.pipes.queue j i = [] then t.gets n i j else none) i j = none := by
          intro j
          rw [Function.update_self]
          split
          · next hnil =>
            by_contra hgets
            exact hcomplete.1 hall j j.isLt (Option.isSome_iff_ne_none.2 hgets) hnil
          · rfl
        obtain ⟨task', net₂, rest, w, hlaunch, hledger', hstanding'⟩ :=
          hledger.launch_eq hmatched hfits hresume hnone
        rw [hadvance, hlaunch] at hsome
        obtain ⟨rfl, rfl⟩ := Prod.mk.inj (Option.some.inj hsome)
        rw [Function.update_idem] at hledger'
        exact ⟨rest, w, hledger', hstanding'⟩
      · rw [hnone] at hadvance
        cases hadvance
    · rw [if_neg hall] at hadvance
      dsimp only at hadvance
      refine ⟨fun t' net' hsome => ?_, fun _ harrived => ?_⟩
      · rw [hadvance] at hsome
        cases hsome
      · refine absurd (hcomplete.2 fun peer hpeer hgets hnil => ?_) hall
        obtain ⟨hnilGot, hnilQueue⟩ := List.append_eq_nil_iff.1 hnil
        refine harrived ⟨peer, hpeer⟩ ?_ hnilQueue
        rw [hwant, if_pos hnilGot]
        exact Option.isSome_iff_ne_none.1 hgets

private theorem set_ofFn {β : Type} (f : Fin n → β) {k : Nat} (hk : k < n) (b : β) :
    (List.ofFn f).set k b = List.ofFn (Function.update f ⟨k, hk⟩ b) := by
  refine List.ext_getElem (by rw [List.length_set, List.length_ofFn, List.length_ofFn]) ?_
  intro j hj hj'
  rw [List.getElem_set, List.getElem_ofFn, List.getElem_ofFn, Function.update_apply]
  simp only [Fin.ext_iff, eq_comm]

/-- Settling tasks in good standing carries all of them to their ends. -/
private theorem settle_eq {rounds : List (Round n)} {start : Network}
    (hmatched : ∀ r ∈ rounds, r.Matched)
    (hfits : ∀ r ∈ rounds, ∀ i j b, r.message i j = some b → start.pipes.fits b = true)
    {s : Fin n → σ} {a : Fin n → α} {tasks : List (Task σ α)} {net : Network}
    {ts : Fin n → Task σ α} {ahead : Fin n → List (Round n)}
    {want : Fin n → Fin n → Option Bytes} (htasks : tasks = List.ofFn ts)
    (h : Ledger rounds start net ahead want)
    (hts : ∀ i, Standing i (s i) (a i) (ahead i) (want i) (ts i)) :
    ∃ net', settle tasks net = (List.ofFn fun i => ⟨i, .done (s i) (a i), .over⟩, net') ∧
      Ledger rounds start net' (fun _ => []) fun _ _ => none := by
  induction tasks, net using settle.induct generalizing ts ahead want with
  | case1 tasks net tasks' hmoved net' hmove ih =>
    obtain ⟨k, hk, t, hadvance, hset⟩ := move?_eq_some hmove
    subst htasks
    rw [List.length_ofFn] at hk
    obtain ⟨rest, w, hledger, hstanding⟩ :=
      (h.advance?_eq hmatched hfits (hts ⟨k, hk⟩)).1 t net' (by rwa [List.getElem_ofFn] at hadvance)
    have htasks' : tasks' = List.ofFn (Function.update ts ⟨k, hk⟩ t) := hset.trans (set_ofFn ..)
    obtain ⟨net'', hsettle, hledger'⟩ := ih htasks' hledger fun i => by
      by_cases hi : i = ⟨k, hk⟩
      · subst hi
        rw [Function.update_self, Function.update_self, Function.update_self]
        exact hstanding
      · rw [Function.update_of_ne hi, Function.update_of_ne hi, Function.update_of_ne hi]
        exact hts i
    refine ⟨net'', ?_, hledger'⟩
    rw [settle, hmove]
    exact hsettle
  | case2 tasks net hmove =>
    have hstuck := move?_eq_none hmove
    subst htasks
    have hnone : ∀ i j, want i j = none := by
      by_contra hsome
      simp only [not_forall] at hsome
      obtain ⟨i, hmissing, harrived⟩ := h.balance.exists_ready h.suffix
        (fun i => (hts i).want_self) (fun i => (hts i).waits) hsome
      exact (h.advance?_eq hmatched hfits (hts i)).2 hmissing harrived
        (hstuck _ (List.mem_ofFn.2 ⟨i, rfl⟩))
    have hover (i : Fin n) := (hts i).eq_over (hnone i)
    obtain rfl : ts = fun i => ⟨i, .done (s i) (a i), .over⟩ := funext fun i => (hover i).2
    obtain rfl : ahead = fun _ => [] := funext fun i => (hover i).1
    obtain rfl : want = fun _ _ => none := funext fun i => funext fun j => hnone i j
    refine ⟨net, ?_, h⟩
    rw [settle, hmove]

/-- A run of computations that take the turns of some matched rounds carries all of them to their
ends. -/
theorem run_eq {rounds : List (Round n)} {net : Network} (hnet : net.Idle n)
    (hmatched : ∀ r ∈ rounds, r.Matched)
    (hfits : ∀ r ∈ rounds, ∀ i j b, r.message i j = some b → net.pipes.fits b = true)
    {cs : Fin n → Session σ α} {s : Fin n → σ} {a : Fin n → α}
    (hcs : ∀ i, (cs i).Follows (Round.turnsOf rounds i) (s i) (a i)) :
    ∃ net', net.run (List.ofFn fun i => (i.val, cs i)) =
        (List.ofFn fun i => ⟨i, .done (s i) (a i), .over⟩, net') ∧
      Ledger rounds net net' (fun _ => []) fun _ _ => none := by
  obtain ⟨tasks, net₁, ahead, want, hlaunchAll, hledger, hstanding, -⟩ :=
    (Ledger.init hnet rounds).launchAll_eq hmatched hfits (List.nodup_finRange n)
      fun i _ => ⟨hcs i, fun _ => rfl⟩
  obtain ⟨net', hsettle, hledger'⟩ := settle_eq hmatched hfits (List.ofFn_eq_map ..).symm hledger
    fun i => hstanding i (List.mem_finRange i)
  refine ⟨net', ?_, hledger'⟩
  rw [run, List.ofFn_eq_map, hlaunchAll]
  exact hsettle

/-- Whatever the players send each other in matched rounds is within the limit of a network that admits
their run. -/
theorem Admits.fits {net : Network} {cs : Fin n → Session σ α}
    (hadmits : net.Admits (List.ofFn fun i => (i.val, cs i))) (hnet : net.Idle n)
    {rounds : List (Round n)} (hmatched : ∀ r ∈ rounds, r.Matched) {s : Fin n → σ} {a : Fin n → α}
    (hcs : ∀ i, (cs i).Follows (Round.turnsOf rounds i) (s i) (a i)) :
    ∀ r ∈ rounds, ∀ i j b, r.message i j = some b → net.pipes.fits b = true := by
  intro r hr i j b hb
  rw [Round.message, Option.bind_eq_some_iff] at hb
  obtain ⟨t, ht, hsends⟩ := hb
  have hturn : t ∈ Round.turnsOf rounds i := List.mem_filterMap.2 ⟨r, hr, ht⟩
  -- without a limit the run gets through, which shows all calls that are made in it
  obtain ⟨free, hfree, hledger⟩ := run_eq hnet.unlimited hmatched (fun _ _ _ _ _ _ => rfl) hcs
  refine hadmits i t.call ?_ j (hnet.connect.players.symm ▸ j.isLt) b ?_
  · have htraced := hledger.traced i
    rw [callsOf, Round.turnsOf_nil, List.map_nil, List.reverse_nil, List.nil_append] at htraced
    rw [hfree]
    dsimp only
    rw [htraced]
    exact List.mem_append_left _ (List.mem_reverse.2 (List.mem_map_of_mem hturn))
  · rw [hnet.connect.players]
    exact hsends

/-- After all rounds nothing is under way, and unless players close their ends the network is ready for
another run. -/
theorem Ledger.idle {rounds : List (Round n)} {start net : Network}
    (h : Ledger rounds start net (fun _ => []) fun _ _ => none)
    (hcloses : start.closesWhenDone = false) : net.Idle n where
  connect := h.connect
  empty i j hij := (List.append_eq_nil_iff.1 (h.balance i j hij)).1
  closed := h.opened hcloses
  faults := h.faults
  traces := h.traces

end Network

end Multiparty
