import Mathlib
import Multiparty.Proofs.Network.Completion
import Multiparty.Proofs.Network.Schedule

/-!
# Lockstep computations end under every schedule

Computations in lockstep come to the end that their rounds prescribe whatever the schedule does, on
every network that carries what they send, and to the same end when the network runs them itself.
Players may be several rounds ahead of each other, and a player may have taken some of the payloads
of its round before it has sent all of its own. What stays true is the balance of the books: for
every pair of players the payloads under way, then those that the legs of the sender have still to
send, then those of the rounds ahead of it, are what the legs of the receiver still wait for and what
it gets in the rounds ahead of it. In a scene in which nobody can move everything has been sent, so
the player that is furthest behind would find what it waits for.

## Main definitions

* `Leg.Underway`: how far a leg of a turn may have got.
* `Post.Stands`: where one player stands.
* `Scene.Books`: the books of a schedule.
* `Network.CarriesOut`: what the computations of all parties come to on some network.
* `Network.AlwaysCarriesOut`: what they come to on all networks and under all schedules.

## Main results

* `Scene.Books.step`: every step keeps the books.
* `Scene.Books.of_stuck`: nobody is stuck before its end.
* `Lockstep.alwaysCarriesOut`: all computations end as in lockstep.
-/

namespace Multiparty

variable {σ α : Type} {n : Nat}

/-! ### Rounds in which a party takes no turn -/

namespace Round

/-- The rounds from the first one on in which a party takes a turn. -/
def forward (i : Fin n) (rounds : List (Round n)) : List (Round n) :=
  rounds.dropWhile fun r => (r i).isNone

variable {i : Fin n} {rounds : List (Round n)}

theorem forward_cons_of_none {r : Round n} (h : r i = none) :
    forward i (r :: rounds) = forward i rounds := by
  rw [forward, List.dropWhile_cons, h]
  rfl

theorem forward_cons_of_some {r : Round n} {t : Turn} (h : r i = some t) :
    forward i (r :: rounds) = r :: rounds := by
  rw [forward, List.dropWhile_cons, h]
  rfl

theorem forward_suffix : forward i rounds <:+ rounds := List.dropWhile_suffix _

theorem turnsOf_forward : turnsOf (forward i rounds) i = turnsOf rounds i := by
  induction rounds with
  | nil => rfl
  | cons r rounds ih =>
    cases h : r i with
    | none => rw [forward_cons_of_none h, ih, turnsOf_cons, h]; rfl
    | some t => rw [forward_cons_of_some h]

/-- Nothing goes to or fro in the rounds that are left out. -/
theorem messages_forward (hmatched : ∀ r ∈ rounds, r.Matched) (j : Fin n) :
    messages (forward i rounds) i j = messages rounds i j ∧
      messages (forward i rounds) j i = messages rounds j i := by
  induction rounds with
  | nil => exact ⟨rfl, rfl⟩
  | cons r rounds ih =>
    cases h : r i with
    | none =>
      obtain ⟨hfrom, hto⟩ := ih fun r hr => hmatched r (List.mem_cons_of_mem _ hr)
      have hsend : r.message i j = none := by rw [message, h]; rfl
      have hget : r.message j i = none := by
        rw [← (hmatched r List.mem_cons_self).agree, h]
        rfl
      rw [forward_cons_of_none h, hfrom, hto, messages_cons, messages_cons, hsend, hget]
      exact ⟨rfl, rfl⟩
    | some t => rw [forward_cons_of_some h]; exact ⟨rfl, rfl⟩

/-- The next round of a party is the one of its next turn. -/
theorem forward_of_turnsOf_cons {t : Turn} {turns : List Turn} (h : turnsOf rounds i = t :: turns) :
    ∃ r rest, forward i rounds = r :: rest ∧ r i = some t ∧ turnsOf rest i = turns := by
  induction rounds with
  | nil => cases h
  | cons r rounds ih =>
    rw [turnsOf_cons] at h
    cases hr : r i with
    | none =>
      rw [hr] at h
      rw [forward_cons_of_none hr]
      exact ih h
    | some t' =>
      rw [hr] at h
      obtain ⟨rfl, rfl⟩ := List.cons.inj h
      exact ⟨r, rounds, forward_cons_of_some hr, hr, rfl⟩

theorem forward_of_turnsOf_nil (h : turnsOf rounds i = []) : forward i rounds = [] := by
  refine List.dropWhile_eq_nil_iff.2 fun r hr => ?_
  rw [Option.isNone_iff_eq_none]
  exact List.filterMap_eq_nil_iff.1 h r hr

end Round

namespace Network.Balanced

variable {queue : Fin n → Fin n → List Bytes} {ahead : Fin n → List (Round n)}
  {want : Fin n → Fin n → Option Bytes}

theorem congr (h : Balanced queue ahead want) {queue' : Fin n → Fin n → List Bytes}
    (hqueue : ∀ i j, i ≠ j → queue' i j = queue i j) : Balanced queue' ahead want := fun i j hij => by
  rw [hqueue i j hij]
  exact h i j hij

/-- All players may leave out the rounds in which they take no turn. -/
theorem forward (h : Balanced queue ahead want) (hmatched : ∀ i, ∀ r ∈ ahead i, r.Matched) :
    Balanced queue (fun i => Round.forward i (ahead i)) want := by
  intro i j hij
  rw [(Round.messages_forward (hmatched i) j).1, (Round.messages_forward (hmatched j) i).2]
  exact h i j hij

/-- What a player finds of somebody for whom it waits is what it waits for, and taking it keeps the
balance. -/
theorem receive (h : Balanced queue ahead want) {i j : Fin n} (hij : j ≠ i) {awaited b : Bytes}
    {q : List Bytes} (hwant : want i j = some awaited) (hqueue : queue j i = b :: q) :
    b = awaited ∧ Balanced (Function.update queue j (Function.update (queue j) i q)) ahead
      (Function.update want i (Function.update (want i) j none)) := by
  have hhead := h j i hij
  rw [hwant, hqueue, Option.toList_some, List.cons_append, List.singleton_append,
    List.cons.injEq] at hhead
  refine ⟨hhead.1, fun a b hab => ?_⟩
  have hbalance := h a b hab
  by_cases hb : b = i
  · subst hb
    by_cases ha : a = j
    · subst ha
      rw [Function.update_self, Function.update_self, Function.update_self, Function.update_self]
      exact hhead.2
    · rw [Function.update_of_ne ha, Function.update_self, Function.update_of_ne ha]
      exact hbalance
  · rw [Function.update_of_ne hb]
    by_cases ha : a = j
    · subst ha
      rw [Function.update_self, Function.update_of_ne hb]
      exact hbalance
    · rw [Function.update_of_ne ha]
      exact hbalance

end Network.Balanced

/-! ### Legs under way -/

theorem Leg.allSendTo_middle (before after : List Leg) (leg : Leg) (peer : Nat) :
    allSendTo (before ++ leg :: after) peer =
      allSendTo before peer ++ (leg.sendsTo peer ++ allSendTo after peer) := by
  rw [allSendTo, List.flatMap_append, List.flatMap_cons, allSendTo, allSendTo]

theorem Leg.anyAwaits_middle (before after : List Leg) (leg : Leg) (peer : Nat) :
    anyAwaits (before ++ leg :: after) peer =
      (anyAwaits before peer || (leg.awaits peer || anyAwaits after peer)) := by
  rw [anyAwaits, List.any_append, List.any_cons, anyAwaits, anyAwaits]

/-- A leg of turn `t` of player `me` that began as `original`: nothing has failed, and what it has
received is what the turn gets. -/
structure Leg.Underway (n me : Nat) (t : Turn) (original leg : Leg) : Prop where
  fresh : original.error = none ∧ original.received = none
  error : leg.error = none
  source : leg.source = original.source
  outgoing : leg.outgoing = original.outgoing ∨ leg.outgoing = none
  received : leg.received = none ∨ ∃ s payload, leg.source = some s ∧
    t.gets n me s = some payload ∧ leg.received = some payload

/-- The legs of a turn after some steps. -/
def Turn.Underway (n me : Nat) (t : Turn) (legs : List Leg) : Prop :=
  List.Forall₂ (Leg.Underway n me t) (t.legs n me) legs

/-- What is related to a list with a given item in it. -/
private theorem forall₂_middle {α β : Type} {R : α → β → Prop} {as : List α} {b : β}
    {before after : List β} (h : List.Forall₂ R as (before ++ b :: after)) :
    ∃ as₁ a as₂, as = as₁ ++ a :: as₂ ∧ List.Forall₂ R as₁ before ∧ R a b ∧
      List.Forall₂ R as₂ after := by
  induction before generalizing as with
  | nil =>
    obtain ⟨a, as₂, hab, hafter, rfl⟩ := List.forall₂_cons_right_iff.1 h
    exact ⟨[], a, as₂, rfl, .nil, hab, hafter⟩
  | cons b' before ih =>
    obtain ⟨a', as', hab', hrest, rfl⟩ := List.forall₂_cons_right_iff.1 h
    obtain ⟨as₁, a, as₂, rfl, hbefore, hab, hafter⟩ := ih hrest
    exact ⟨a' :: as₁, a, as₂, rfl, .cons hab' hbefore, hab, hafter⟩

/-- A leg for which everything has been done. -/
theorem Leg.Underway.carriedOn_eq {me : Nat} {t : Turn} {original leg : Leg}
    (h : Leg.Underway n me t original leg) (hcomplete : leg.isComplete = true) :
    original.carriedOn (fun peer => (t.gets n me peer).toList) = leg := by
  obtain ⟨⟨herror₀, hreceived₀⟩, herror, hsource, -, hreceived⟩ := h
  simp only [isComplete, Bool.and_eq_true, Bool.or_eq_true, Option.isNone_iff_eq_none] at hcomplete
  obtain ⟨⟨-, hout⟩, hdone⟩ := hcomplete
  have hpayload : leg.received = original.source.bind fun s => (t.gets n me s).toList.head? := by
    rcases hreceived with hnone | ⟨s, payload, hs, hgets, hsome⟩
    · rw [hnone, Option.isSome_none, or_iff_left Bool.false_ne_true] at hdone
      rw [hnone, ← hsource, hdone, Option.bind_none]
    · rw [hsome, ← hsource, hs, Option.bind_some, hgets]
      rfl
  rw [carriedOn, hreceived₀, Option.none_or, ← hpayload, herror₀, ← hsource]
  obtain ⟨outgoing, source, received, error⟩ := leg
  obtain rfl : outgoing = none := hout
  obtain rfl : error = none := herror
  rfl

namespace Turn.Underway

variable {me : Nat} {t : Turn} {legs before after : List Leg} {leg : Leg}

theorem init (hme : me < n) (ht : t.Sound n me) : t.Underway n me (t.legs n me) := by
  refine List.forall₂_same.2 fun leg hleg => ?_
  obtain ⟨herror, hreceived, -⟩ := legs_fresh hme ht leg hleg
  exact ⟨⟨herror, hreceived⟩, herror, rfl, .inl rfl, .inl hreceived⟩

theorem exists_original (h : t.Underway n me legs) (hleg : leg ∈ legs) :
    ∃ original ∈ t.legs n me, Leg.Underway n me t original leg := by
  obtain ⟨before, after, rfl⟩ := List.append_of_mem hleg
  obtain ⟨as₁, original, as₂, has, -, hunderway, -⟩ := forall₂_middle h
  exact ⟨original, by rw [has]; simp, hunderway⟩

/-- One leg may get further. -/
theorem replace (h : t.Underway n me (before ++ leg :: after)) {leg' : Leg}
    (hleg : ∀ original, Leg.Underway n me t original leg → Leg.Underway n me t original leg') :
    t.Underway n me (before ++ leg' :: after) := by
  obtain ⟨as₁, original, as₂, has, hbefore, hunderway, hafter⟩ := forall₂_middle h
  rw [Turn.Underway, has]
  exact List.rel_append hbefore (.cons (hleg original hunderway) hafter)

/-- No two legs wait for the same player. -/
theorem distinct (h : t.Underway n me legs) :
    legs.Pairwise fun leg leg' => ∀ s, leg.source = some s → leg'.source ≠ some s := by
  have hsources : legs.map Leg.source = (t.legs n me).map Leg.source := by
    have hsame := List.Forall₂.imp (fun _ _ h => h.source.symm) h
    exact (List.forall₂_eq_eq_eq ▸ List.forall₂_map_left_iff.2
      (List.forall₂_map_right_iff.2 hsame) : _ = _).symm
  have hpairwise : ((t.legs n me).map Leg.source).Pairwise
      fun a b => ∀ s, a = some s → b ≠ some s := List.pairwise_map.2 legs_distinct
  rw [← hsources] at hpairwise
  exact List.pairwise_map.1 hpairwise

variable (hme : me < n) (ht : t.Sound n me)

include hme ht in
theorem outgoing (h : t.Underway n me legs) (hleg : leg ∈ legs) {target : Nat} {payload : Bytes}
    (hout : leg.outgoing = some (target, payload)) :
    target < n ∧ target ≠ me ∧ t.sends n me target = some payload := by
  obtain ⟨original, horiginal, hunderway⟩ := h.exists_original hleg
  obtain ⟨-, -, htarget, -⟩ := legs_fresh hme ht original horiginal
  refine htarget target payload ?_
  rcases hunderway.outgoing with heq | hnone
  · rw [← heq, hout]
  · rw [hnone] at hout
    cases hout

include hme ht in
theorem source (h : t.Underway n me legs) (hleg : leg ∈ legs) {s : Nat}
    (hsource : leg.source = some s) : s < n ∧ s ≠ me ∧ ∃ payload, t.gets n me s = some payload := by
  obtain ⟨original, horiginal, hunderway⟩ := h.exists_original hleg
  rw [hunderway.source] at hsource
  obtain ⟨hlt, hne⟩ := (legs_fresh hme ht original horiginal).2.2.2 s hsource
  exact ⟨hlt, hne, Option.isSome_iff_exists.1
    ((exists_source_iff ht hlt).1 ⟨original, horiginal, hsource⟩)⟩

/-- The payload that a leg has still to send is the only one for its target. -/
theorem allSendTo (h : t.Underway n me (before ++ leg :: after)) {target : Nat} {payload : Bytes}
    (htarget : target < n) (hout : leg.outgoing = some (target, payload)) :
    Leg.allSendTo before target = [] ∧ Leg.allSendTo after target = [] := by
  have hsublist (legs : List Leg) (originals : List Leg)
      (h : List.Forall₂ (Leg.Underway n me t) originals legs) :
      (Leg.allSendTo legs target).length ≤ (Leg.allSendTo originals target).length := by
    induction h with
    | nil => exact le_rfl
    | cons hleg _ ih =>
      rw [Leg.allSendTo, Leg.allSendTo] at ih ⊢
      rw [List.flatMap_cons, List.flatMap_cons, List.length_append, List.length_append]
      refine Nat.add_le_add ?_ ih
      rcases hleg.outgoing with heq | hnone
      · rw [Leg.sendsTo, Leg.sendsTo, heq]
      · rw [Leg.sendsTo, hnone]
        exact Nat.zero_le _
  have hle := hsublist _ _ h
  have hone : (t.sends n me target).toList.length ≤ 1 := by
    cases t.sends n me target <;> simp
  rw [allSendTo_legs htarget] at hle
  have hleg : leg.sendsTo target = [payload] := by rw [Leg.sendsTo, hout]; exact if_pos rfl
  rw [Leg.allSendTo_middle, hleg, List.length_append, List.length_append, List.length_singleton]
    at hle
  exact ⟨List.eq_nil_of_length_eq_zero (by omega), List.eq_nil_of_length_eq_zero (by omega)⟩

/-- Nobody else waits for the player for whom a leg waits. -/
theorem anyAwaits (h : t.Underway n me (before ++ leg :: after)) {s : Nat}
    (hsource : leg.source = some s) :
    Leg.anyAwaits before s = false ∧ Leg.anyAwaits after s = false := by
  obtain ⟨-, hlater, hcross⟩ := List.pairwise_append.1 h.distinct
  obtain ⟨hafter, -⟩ := List.pairwise_cons.1 hlater
  refine ⟨List.any_eq_false.2 fun leg' hleg' hawaits => ?_,
    List.any_eq_false.2 fun leg' hleg' hawaits => ?_⟩
  · exact hcross leg' hleg' leg List.mem_cons_self s (Leg.source_of_awaits hawaits) hsource
  · exact hafter leg' hleg' s hsource (Leg.source_of_awaits hawaits)

include hme ht in
/-- If everything has been sent but something is missing, then a payload of the turn is awaited. -/
theorem exists_awaited (h : t.Underway n me legs) (hsent : ∀ leg ∈ legs, leg.outgoing = none)
    (hincomplete : ¬ legs.all Leg.isComplete = true) :
    ∃ source < n, Leg.anyAwaits legs source = true ∧ t.gets n me source ≠ none := by
  rw [List.all_eq_true] at hincomplete
  push Not at hincomplete
  obtain ⟨leg, hleg, hincomplete⟩ := hincomplete
  obtain ⟨original, -, hunderway⟩ := h.exists_original hleg
  rw [Leg.isComplete, hunderway.error, hsent leg hleg] at hincomplete
  cases hsource : leg.source with
  | none => simp [hsource] at hincomplete
  | some source =>
    obtain ⟨hlt, -, payload, hgets⟩ := h.source hme ht hleg hsource
    refine ⟨source, hlt, List.any_eq_true.2 ⟨leg, hleg, ?_⟩, by simp [hgets]⟩
    simpa [Leg.awaits, hsource] using hincomplete

include hme ht in
/-- When everything has been sent and received, the reply is that of the turn. -/
theorem reply (h : t.Underway n me legs) (hcomplete : legs.all Leg.isComplete = true) :
    (Transport.complete n me).reply t.call t.call.payload (Leg.receipts legs) = .ok t.reply := by
  have hlegs : t.legsAfter n me (fun peer => (t.gets n me peer).toList) = legs := by
    have hdone : List.Forall₂ (fun original leg =>
        original.carriedOn (fun peer => (t.gets n me peer).toList) = leg) (t.legs n me) legs := by
      refine List.forall₂_iff_zip.2 ⟨h.length_eq, fun hzip => ?_⟩
      exact (List.forall₂_zip h hzip).carriedOn_eq
        (List.all_eq_true.1 hcomplete _ (List.of_mem_zip hzip).2)
    exact List.forall₂_eq_eq_eq ▸ List.forall₂_map_left_iff.2 hdone
  rw [← hlegs]
  refine reply_receipts hme ht fun peer _ payload hpayload => ?_
  rw [hpayload]
  rfl

end Turn.Underway

/-! ### The books of a schedule -/

/-- What a player has still to send to a peer for the call under way. -/
def Post.unsent (post : Post σ α) (peer : Nat) : List Bytes :=
  Leg.allSendTo (post.legs.getD []) peer

theorem Post.unsent_of_legs_eq_none {post : Post σ α} (h : post.legs = none) (peer : Nat) :
    post.unsent peer = [] := by
  rw [unsent, h]
  rfl

/-- Where player `i` stands that ends in `s` with `a`: it is between two turns, or in a turn of which
some legs have got further than others. -/
inductive Post.Stands (i : Fin n) (s : σ) (a : α) (fits : Bytes → Bool) (ahead : List (Round n))
    (want : Fin n → Option Bytes) : Post σ α → Prop where
  | idle {c : Session σ α} (hc : c.Follows (Round.turnsOf ahead i) s a)
      (hwant : want = fun _ => none) : Stands i s a fits ahead want ⟨c, none⟩
  | busy {t : Turn} {legs : List Leg} {resume : Except TransportError t.call.Reply → Session σ α}
      (s' : σ) (ht : t.Sound n i)
      (hfits : ∀ peer < n, ∀ payload, t.sends n i peer = some payload → fits payload = true)
      (hresume : (resume (.ok t.reply)).Follows (Round.turnsOf ahead i) s a)
      (hlegs : t.Underway n i legs)
      (hwant : want = fun j : Fin n => if Leg.anyAwaits legs j then t.gets n i j else none) :
      Stands i s a fits ahead want ⟨.wait s' t.call resume, some legs⟩

theorem Post.Stands.forward {i : Fin n} {s : σ} {a : α} {fits : Bytes → Bool}
    {ahead : List (Round n)} {want : Fin n → Option Bytes} {post : Post σ α}
    (h : post.Stands i s a fits ahead want) :
    post.Stands i s a fits (Round.forward i ahead) want := by
  cases h with
  | idle hc hwant => exact .idle (by rwa [Round.turnsOf_forward]) hwant
  | busy s' ht hfits hresume hlegs hwant =>
    exact .busy s' ht hfits (by rwa [Round.turnsOf_forward]) hlegs hwant

namespace Scene

/-- The books of a schedule that began with the pipes `start`, for computations that end in `s` with
`a`. -/
structure Books (rounds : List (Round n)) (start : Pipes) (s : Fin n → σ) (a : Fin n → α)
    (x : Scene n σ α) (ahead : Fin n → List (Round n)) (want : Fin n → Fin n → Option Bytes) :
    Prop where
  alike : start.Alike n x.pipes
  suffix : ∀ i, ahead i <:+ rounds
  balance : Network.Balanced (fun i j => x.pipes.queue i j ++ (x.post i).unsent j) ahead want
  stands : ∀ i, (x.post i).Stands i (s i) (a i) start.fits (ahead i) (want i)

namespace Books

variable {rounds : List (Round n)} {start : Pipes} {s : Fin n → σ} {a : Fin n → α}
  {x y : Scene n σ α} {ahead : Fin n → List (Round n)} {want : Fin n → Fin n → Option Bytes}

/-- At first everything is ahead. -/
theorem init (hconnect : start.Connect n) (hempty : ∀ i j : Fin n, i ≠ j → start.queue i j = [])
    {cs : Fin n → Session σ α}
    (hcs : ∀ i, (cs i).Follows (Round.turnsOf rounds i) (s i) (a i)) :
    Books rounds start s a (Scene.start start cs) (fun _ => rounds) fun _ _ => none where
  alike := hconnect.alike
  suffix _ := List.suffix_rfl
  balance i j hij := by
    change (start.queue i j ++ []) ++ _ = _
    rw [hempty i j hij]
    rfl
  stands i := .idle (hcs i) rfl

theorem forward (h : Books rounds start s a x ahead want) (hmatched : ∀ r ∈ rounds, r.Matched) :
    Books rounds start s a x (fun i => Round.forward i (ahead i)) want where
  alike := h.alike
  suffix i := Round.forward_suffix.trans (h.suffix i)
  balance := h.balance.forward fun i r hr => hmatched r ((h.suffix i).subset hr)
  stands i := (h.stands i).forward

/-- The books after player `i` has done something. -/
theorem update (h : Books rounds start s a x ahead want) (i : Fin n) (post : Post σ α)
    (pipes : Pipes) (rest : List (Round n)) (w : Fin n → Option Bytes)
    (halike : start.Alike n pipes) (hsuffix : rest <:+ rounds)
    (hbalance : Network.Balanced
      (fun j k => pipes.queue j k ++ (Function.update x.post i post j).unsent k)
      (Function.update ahead i rest) (Function.update want i w))
    (hstands : post.Stands i (s i) (a i) start.fits rest w) :
    Books rounds start s a ⟨pipes, Function.update x.post i post⟩ (Function.update ahead i rest)
      (Function.update want i w) where
  alike := halike
  suffix j := by
    by_cases hj : j = i
    · subst hj
      rwa [Function.update_self]
    · rw [Function.update_of_ne hj]
      exact h.suffix j
  balance := hbalance
  stands j := by
    dsimp only
    by_cases hj : j = i
    · subst hj
      rwa [Function.update_self, Function.update_self, Function.update_self]
    · rw [Function.update_of_ne hj, Function.update_of_ne hj, Function.update_of_ne hj]
      exact h.stands j

variable {i : Fin n}

/-- A player between two turns has come to its end, or it can start its next call. -/
theorem next (h : Books rounds start s a x ahead want) (hmatched : ∀ r ∈ rounds, r.Matched)
    (hlegs : (x.post i).legs = none) : want i = (fun _ => none) ∧
      ((Round.turnsOf (ahead i) i = [] ∧ x.post i = ⟨.done (s i) (a i), none⟩) ∨
        ∃ s' t resume r rest transfer, x.post i = ⟨.wait s' t.call resume, none⟩ ∧
          Round.forward i (ahead i) = r :: rest ∧ r i = some t ∧
          (resume (.ok t.reply)).Follows (Round.turnsOf rest i) (s i) (a i) ∧
          (Transport.complete n i).transferOf t.call = .ok transfer ∧
          (Transport.complete n i).plan transfer = .ok (.ok (t.legs n i))) := by
  have hstands := h.stands i
  generalize x.post i = post at hlegs hstands
  cases hstands with
  | busy => cases hlegs
  | idle hc hwant =>
    refine ⟨hwant, ?_⟩
    cases hturns : Round.turnsOf (ahead i) i with
    | nil =>
      rw [hturns] at hc
      exact .inl ⟨rfl, by rw [hc.of_nil]⟩
    | cons t turns =>
      obtain ⟨r, rest, hforward, hr, hrest⟩ := Round.forward_of_turnsOf_cons hturns
      rw [hturns] at hc
      obtain ⟨s', resume, rfl, hresume⟩ := hc.of_cons
      have ht : t.Sound n i := (hmatched r ((h.suffix i).subset
        (Round.forward_suffix.subset (hforward ▸ List.mem_cons_self)))).sound i t hr
      obtain ⟨transfer, htransfer, hplan⟩ := Turn.transferOf_plan i.isLt ht
      exact .inr ⟨s', t, resume, r, rest, transfer, rfl, hforward, hr, hrest ▸ hresume, htransfer,
        hplan⟩

/-- A player starts its next call: all that the round has it send is still to be sent. -/
theorem begin (h : Books rounds start s a x ahead want) (hmatched : ∀ r ∈ rounds, r.Matched)
    (hfits : ∀ r ∈ rounds, ∀ i j b, r.message i j = some b → start.fits b = true)
    {r : Round n} {rest : List (Round n)} {t : Turn} (hahead : ahead i = r :: rest)
    (hr : r i = some t) {s' : σ} {resume : Except TransportError t.call.Reply → Session σ α}
    (hresume : (resume (.ok t.reply)).Follows (Round.turnsOf rest i) (s i) (a i))
    (hlegs : (x.post i).legs = none) (hwant : want i = fun _ => none) :
    ∃ ahead' want', Books rounds start s a
      ⟨x.pipes, Function.update x.post i ⟨.wait s' t.call resume, some (t.legs n i)⟩⟩
      ahead' want' := by
  have hmem : r ∈ rounds := (h.suffix i).subset (hahead ▸ List.mem_cons_self)
  have ht : t.Sound n i := (hmatched r hmem).sound i t hr
  have hsends (j : Fin n) : r.message i j = t.sends n i j := by rw [Round.message, hr]; rfl
  have hgets (j : Fin n) : r.message j i = t.gets n i j := by
    rw [← (hmatched r hmem).agree, hr]
    rfl
  have hbalance := h.balance.enter hahead fun j => congrFun hwant j
  refine ⟨_, _, h.update i _ x.pipes rest (fun j => r.message j i) h.alike
    ((List.suffix_cons r rest).trans (hahead ▸ h.suffix i)) ?_ ?_⟩
  · refine hbalance.congr fun j k _ => ?_
    by_cases hj : j = i
    · subst hj
      rw [if_pos rfl, Function.update_self, hsends, ← Turn.allSendTo_legs k.isLt,
        Post.unsent_of_legs_eq_none hlegs, List.append_nil]
      rfl
    · rw [if_neg hj, Function.update_of_ne hj]
  · refine .busy s' ht (fun peer hpeer payload hpayload => ?_) hresume (.init i.isLt ht)
      (funext fun j => ?_)
    · exact hfits r hmem i ⟨peer, hpeer⟩ payload ((hsends _).trans hpayload)
    · rw [hgets, Turn.anyAwaits_legs i.isLt ht j.isLt]
      cases t.gets n i j <;> rfl

/-- A leg puts its payload into the pipe to its target. -/
theorem send (h : Books rounds start s a x ahead want) (hclosed : start.closed = [])
    {s' : σ} {t : Turn} {resume : Except TransportError t.call.Reply → Session σ α}
    {before after : List Leg} {leg : Leg}
    (hpost : x.post i = ⟨.wait s' t.call resume, some (before ++ leg :: after)⟩)
    (ht : t.Sound n i)
    (hfits : ∀ peer < n, ∀ payload, t.sends n i peer = some payload → start.fits payload = true)
    (hresume : (resume (.ok t.reply)).Follows (Round.turnsOf (ahead i) i) (s i) (a i))
    (hlegs : t.Underway n i (before ++ leg :: after))
    (hwant : want i = fun j : Fin n =>
      if Leg.anyAwaits (before ++ leg :: after) j then t.gets n i j else none)
    {target : Nat} {payload : Bytes} (hout : leg.outgoing = some (target, payload)) :
    ∃ pipes, x.pipes.send? i target payload = some pipes ∧ Books rounds start s a
      ⟨pipes, Function.update x.post i ⟨.wait s' t.call resume,
        some (before ++ { leg with outgoing := none } :: after)⟩⟩ ahead want := by
  obtain ⟨hlt, hne, hsends⟩ := hlegs.outgoing i.isLt ht (by simp) hout
  refine ⟨_, Pipes.send?_eq i target (by rw [h.alike.closed, hclosed]; simp)
    (h.alike.fits ▸ hfits target hlt payload hsends), ?_⟩
  obtain ⟨hbefore, hafter⟩ := hlegs.allSendTo hlt hout
  have hbooks := h.update i
    ⟨.wait s' t.call resume, some (before ++ { leg with outgoing := none } :: after)⟩
    (x.pipes.modifyQueue i target (· ++ [payload])) (ahead i) (want i)
    (h.alike.trans ⟨h.alike.connect.modifyQueue .., rfl, rfl⟩) (h.suffix i) ?_ ?_
  · rwa [Function.update_eq_self, Function.update_eq_self] at hbooks
  · rw [Function.update_eq_self, Function.update_eq_self]
    refine h.balance.congr fun j k _ => ?_
    rw [Pipes.queue_modifyQueue h.alike.connect i.isLt hlt]
    by_cases hj : j = i
    · subst hj
      rw [Function.update_self, hpost]
      by_cases hk : (k : Nat) = target
      · rw [if_pos ⟨rfl, hk⟩, hk]
        simp [Post.unsent, Leg.allSendTo_middle, hbefore, hafter, Leg.sendsTo, hout]
      · rw [if_neg fun hc => hk hc.2]
        simp [Post.unsent, Leg.allSendTo_middle, Leg.sendsTo, hout, Ne.symm hk]
    · rw [if_neg fun hc => hj (Fin.ext hc.1), Function.update_of_ne hj]
  · refine .busy s' ht hfits hresume (hlegs.replace fun original hleg => ?_) (hwant.trans ?_)
    · exact ⟨hleg.fresh, hleg.error, hleg.source, .inr rfl, hleg.received⟩
    · funext j
      rw [Leg.anyAwaits_middle, Leg.anyAwaits_middle]
      rfl

/-- A leg takes the oldest payload out of the pipe from its source. -/
theorem receive (h : Books rounds start s a x ahead want)
    {s' : σ} {t : Turn} {resume : Except TransportError t.call.Reply → Session σ α}
    {before after : List Leg} {leg : Leg}
    (hpost : x.post i = ⟨.wait s' t.call resume, some (before ++ leg :: after)⟩)
    (ht : t.Sound n i)
    (hfits : ∀ peer < n, ∀ payload, t.sends n i peer = some payload → start.fits payload = true)
    (hresume : (resume (.ok t.reply)).Follows (Round.turnsOf (ahead i) i) (s i) (a i))
    (hlegs : t.Underway n i (before ++ leg :: after))
    (hwant : want i = fun j : Fin n =>
      if Leg.anyAwaits (before ++ leg :: after) j then t.gets n i j else none)
    {source : Nat} (hsource : leg.source = some source) (hnone : leg.received = none)
    {payload : Bytes} {q : List Bytes} (hqueue : x.pipes.queue source i = payload :: q) :
    ∃ want', Books rounds start s a
      ⟨x.pipes.modifyQueue source i List.tail, Function.update x.post i ⟨.wait s' t.call resume,
        some (before ++ { leg with received := some payload } :: after)⟩⟩ ahead want' := by
  obtain ⟨hlt, hne, awaited, hgets⟩ := hlegs.source i.isLt ht (by simp) hsource
  obtain ⟨hbefore, hafter⟩ := hlegs.anyAwaits hsource
  have hawaits : leg.awaits source = true := by simp [Leg.awaits, hsource, hnone]
  have hwantSource : want i ⟨source, hlt⟩ = some awaited := by
    rw [hwant]
    dsimp only
    rw [Leg.anyAwaits_middle, hawaits, Bool.true_or, Bool.or_true, if_pos rfl, hgets]
  have hji : (⟨source, hlt⟩ : Fin n) ≠ i := fun hc => hne (congrArg Fin.val hc)
  obtain ⟨rfl, hbalance⟩ := h.balance.receive hji hwantSource
    (b := payload) (q := q ++ (x.post ⟨source, hlt⟩).unsent i) (by
      dsimp only
      rw [hqueue, List.cons_append])
  have hbooks := h.update i
    ⟨.wait s' t.call resume, some (before ++ { leg with received := some payload } :: after)⟩
    (x.pipes.modifyQueue source i List.tail) (ahead i) (Function.update (want i) ⟨source, hlt⟩ none)
    (h.alike.trans ⟨h.alike.connect.modifyQueue .., rfl, rfl⟩) (h.suffix i) ?_ ?_
  · rw [Function.update_eq_self] at hbooks
    exact ⟨_, hbooks⟩
  · rw [Function.update_eq_self]
    refine hbalance.congr fun j k hjk => ?_
    have hunsent : (Function.update x.post i ⟨.wait s' t.call resume,
        some (before ++ { leg with received := some payload } :: after)⟩ j).unsent k =
          (x.post j).unsent k := by
      by_cases hj : j = i
      · subst hj
        rw [Function.update_self, hpost]
        simp only [Post.unsent, Option.getD_some, Leg.allSendTo_middle]
        rfl
      · rw [Function.update_of_ne hj]
    rw [hunsent, Pipes.queue_modifyQueue h.alike.connect hlt i.isLt]
    by_cases hj : j = ⟨source, hlt⟩
    · subst hj
      rw [Function.update_self]
      by_cases hk : k = i
      · subst hk
        rw [Function.update_self, if_pos ⟨rfl, rfl⟩, hqueue, List.tail_cons]
      · rw [Function.update_of_ne hk, if_neg fun hc => hk (Fin.ext hc.2)]
    · rw [Function.update_of_ne hj, if_neg fun hc => hj (Fin.ext hc.1)]
  · refine .busy s' ht hfits hresume (hlegs.replace fun original hleg => ?_) (funext fun j => ?_)
    · exact ⟨hleg.fresh, hleg.error, hleg.source, hleg.outgoing, .inr ⟨source, payload, hsource,
        hgets, rfl⟩⟩
    · rw [Leg.anyAwaits_middle]
      by_cases hj : j = ⟨source, hlt⟩
      · subst hj
        rw [Function.update_self, hbefore, hafter]
        simp [Leg.awaits]
      · have hsourceNe : source ≠ j := fun hc => hj (Fin.ext hc.symm)
        rw [Function.update_of_ne hj, hwant]
        dsimp only
        rw [Leg.anyAwaits_middle]
        simp [Leg.awaits, hsource, hsourceNe]

/-- A player whose legs are all complete goes on with the reply of its turn. -/
theorem answer (h : Books rounds start s a x ahead want)
    {s' : σ} {t : Turn} {resume : Except TransportError t.call.Reply → Session σ α}
    {legs : List Leg} (hpost : x.post i = ⟨.wait s' t.call resume, some legs⟩)
    (hresume : (resume (.ok t.reply)).Follows (Round.turnsOf (ahead i) i) (s i) (a i))
    (hwant : want i = fun j : Fin n => if Leg.anyAwaits legs j then t.gets n i j else none)
    (hcomplete : legs.all Leg.isComplete = true) :
    Books rounds start s a ⟨x.pipes, Function.update x.post i ⟨resume (.ok t.reply), none⟩⟩
      ahead want := by
  have hleg {leg : Leg} (hleg : leg ∈ legs) (peer : Nat) :
      leg.sendsTo peer = [] ∧ leg.awaits peer = false := by
    have hdone := List.all_eq_true.1 hcomplete leg hleg
    simp only [Leg.isComplete, Bool.and_eq_true, Bool.or_eq_true, Option.isNone_iff_eq_none] at hdone
    obtain ⟨⟨-, hout⟩, hreceived⟩ := hdone
    refine ⟨by rw [Leg.sendsTo, hout], ?_⟩
    rcases hreceived with hsource | hreceived
    · simp [Leg.awaits, hsource]
    · simp [Leg.awaits, Option.isNone_eq_false_iff.2 hreceived]
  have hbooks := h.update i ⟨resume (.ok t.reply), none⟩ x.pipes (ahead i) (want i) h.alike
    (h.suffix i) ?_ ?_
  · rwa [Function.update_eq_self, Function.update_eq_self] at hbooks
  · rw [Function.update_eq_self, Function.update_eq_self]
    refine h.balance.congr fun j k _ => ?_
    by_cases hj : j = i
    · subst hj
      rw [Function.update_self, hpost, Post.unsent_of_legs_eq_none rfl, Post.unsent, Option.getD_some,
        Leg.allSendTo, List.flatMap_eq_nil_iff.2 fun leg hmem => (hleg hmem k).1]
    · rw [Function.update_of_ne hj]
  · refine .idle hresume (hwant.trans (funext fun j => ?_))
    rw [Leg.anyAwaits, List.any_eq_false.2 fun leg hmem => by simp [(hleg hmem j).2]]
    rfl

/-- Every step keeps the books. -/
theorem step (h : Books rounds start s a x ahead want) (hmatched : ∀ r ∈ rounds, r.Matched)
    (hfits : ∀ r ∈ rounds, ∀ i j b, r.message i j = some b → start.fits b = true)
    (hclosed : start.closed = []) (hstep : Step x y) :
    ∃ ahead' want', Books rounds start s a y ahead' want' := by
  obtain ⟨i, hmove⟩ := hstep
  have hlive (j : Nat) : j ∉ x.pipes.closed := by simp [h.alike.closed, hclosed]
  have hstands := h.stands i
  generalize hpost : x.post i = post at hmove hstands
  cases hmove with
  | start htransfer hplan =>
    obtain ⟨hwant, ⟨-, hdone⟩ | ⟨s', t, resume, r, rest, transfer, hnext, hforward, hr, hresume,
      htransfer', hplan'⟩⟩ := h.next hmatched (i := i) (by rw [hpost])
    · rw [hpost] at hdone
      cases hdone
    · rw [hpost] at hnext
      cases hnext
      obtain rfl := Except.ok.inj (htransfer.symm.trans htransfer')
      obtain rfl := Except.ok.inj (Except.ok.inj (hplan.symm.trans hplan'))
      exact (h.forward hmatched).begin hmatched hfits hforward hr hresume (by rw [hpost]) hwant
  | refuse htransfer hplan =>
    obtain ⟨-, ⟨-, hdone⟩ | ⟨s', t, resume, r, rest, transfer, hnext, -, -, -, htransfer',
      hplan'⟩⟩ := h.next hmatched (i := i) (by rw [hpost])
    · rw [hpost] at hdone
      cases hdone
    · rw [hpost] at hnext
      cases hnext
      obtain rfl := Except.ok.inj (htransfer.symm.trans htransfer')
      cases hplan.symm.trans hplan'
  | carry hleg =>
    cases hstands with
    | busy s' ht hfitsTurn hresume hlegs hwant =>
      cases hleg with
      | send herror hout hpipes =>
        obtain ⟨pipes, hsend, hbooks⟩ := h.send hclosed hpost ht hfitsTurn hresume hlegs hwant hout
        obtain rfl := Option.some.inj (hsend.symm.trans hpipes)
        exact ⟨ahead, want, hbooks⟩
      | sendFails herror hout hpipes =>
        obtain ⟨pipes, hsend, -⟩ := h.send hclosed hpost ht hfitsTurn hresume hlegs hwant hout
        cases hsend.symm.trans hpipes
      | receive herror hsource hnone hpipes =>
        rename_i leg source payload
        cases hqueue : x.pipes.queue source i with
        | nil =>
          have hpending := Pipes.receive_eq_pending hqueue (hlive source)
          cases hpending.symm.trans hpipes
        | cons b q =>
          have hpayload := Pipes.receive_eq_payload hqueue
          cases hpayload.symm.trans hpipes
          exact ⟨ahead, h.receive hpost ht hfitsTurn hresume hlegs hwant hsource hnone hqueue⟩
      | receiveFails herror hsource hnone hpipes =>
        rename_i leg source
        cases hqueue : x.pipes.queue source i with
        | nil => cases (Pipes.receive_eq_pending hqueue (hlive source)).symm.trans hpipes
        | cons b q => cases (Pipes.receive_eq_payload hqueue).symm.trans hpipes
  | answer hcomplete hreply =>
    cases hstands with
    | busy s' ht hfitsTurn hresume hlegs hwant =>
      rw [hlegs.reply i.isLt ht hcomplete] at hreply
      obtain rfl := Except.ok.inj hreply
      exact ⟨ahead, want, h.answer hpost hresume hwant hcomplete⟩
  | abort hmem herror =>
    cases hstands with
    | busy s' ht hfitsTurn hresume hlegs hwant =>
      obtain ⟨original, -, hunderway⟩ := hlegs.exists_original hmem
      rw [hunderway.error] at herror
      cases herror

/-- Nobody waits for itself. -/
theorem want_self (h : Books rounds start s a x ahead want) (i : Fin n) : want i i = none := by
  have hstands := h.stands i
  generalize x.post i = post at hstands
  cases hstands with
  | idle _ hwant => rw [hwant]
  | busy _ ht _ _ _ hwant =>
    rw [hwant]
    dsimp only
    rw [Turn.gets_self ht, ite_self]

/-- A player that is stuck in a turn has sent everything, and waits for somebody of whom nothing has
arrived. -/
theorem busy_of_stuck (h : Books rounds start s a x ahead want) (hclosed : start.closed = [])
    (hstuck : x.Stuck) {legs : List Leg} (hlegs : (x.post i).legs = some legs) :
    (∀ peer, (x.post i).unsent peer = []) ∧ (∃ j, want i j ≠ none) ∧
      ∀ j, want i j ≠ none → x.pipes.queue j i = [] := by
  have hstands := h.stands i
  generalize hpost : x.post i = post at hlegs hstands
  cases hstands with
  | idle => cases hlegs
  | busy s' ht hfits hresume hunderway hwant =>
    rename_i t legs resume
    have hmove {y : Post σ α} {p : Pipes}
        (hstep : Post.Step (Transport.complete n i) ⟨.wait s' t.call resume, some legs⟩ x.pipes y p) :
        False := hstuck _ (.move i (hpost ▸ hstep))
    have hsent : ∀ leg ∈ legs, leg.outgoing = none := by
      intro leg hleg
      by_contra hout
      obtain ⟨⟨target, payload⟩, hout⟩ := Option.ne_none_iff_exists'.1 hout
      obtain ⟨original, -, herror⟩ := hunderway.exists_original hleg
      obtain ⟨before, after, rfl⟩ := List.append_of_mem hleg
      obtain ⟨pipes, hsend, -⟩ := h.send hclosed hpost ht hfits hresume hunderway hwant hout
      exact hmove (.carry (.send herror.error hout hsend))
    have hawaits : ∀ j : Fin n, Leg.anyAwaits legs j = true → x.pipes.queue j i = [] := by
      intro j hany
      obtain ⟨leg, hleg, hawaits⟩ := List.any_eq_true.1 hany
      obtain ⟨original, -, herror⟩ := hunderway.exists_original hleg
      obtain ⟨before, after, rfl⟩ := List.append_of_mem hleg
      by_contra hqueue
      obtain ⟨b, q, hqueue⟩ := List.exists_cons_of_ne_nil hqueue
      rw [Leg.awaits, Bool.and_eq_true, decide_eq_true_eq, Option.isNone_iff_eq_none] at hawaits
      exact hmove (.carry (.receive herror.error hawaits.1 hawaits.2
        (Pipes.receive_eq_payload hqueue)))
    refine ⟨fun peer => ?_, ?_, fun j hj => hawaits j ?_⟩
    · exact List.flatMap_eq_nil_iff.2 fun leg hleg => by rw [Leg.sendsTo, hsent leg hleg]
    · by_contra hnone
      have hcomplete : legs.all Leg.isComplete = true := by
        by_contra hincomplete
        obtain ⟨source, hlt, hany, hgets⟩ :=
          hunderway.exists_awaited i.isLt ht hsent hincomplete
        refine hnone ⟨⟨source, hlt⟩, ?_⟩
        rw [hwant]
        dsimp only
        rwa [if_pos hany]
      exact hmove (.answer hcomplete (hunderway.reply i.isLt ht hcomplete))
    · by_contra hany
      rw [hwant] at hj
      exact hj (if_neg hany)

/-- Nobody is stuck before its end, and in the end nothing is left in the pipes. -/
theorem of_stuck (h : Books rounds start s a x ahead want) (hmatched : ∀ r ∈ rounds, r.Matched)
    (hclosed : start.closed = []) (hstuck : x.Stuck) :
    (∀ i, x.post i = ⟨.done (s i) (a i), none⟩) ∧
      ∀ i j : Fin n, i ≠ j → x.pipes.queue i j = [] := by
  have hbusy (i : Fin n) (hlegs : (x.post i).legs ≠ none) :=
    h.busy_of_stuck hclosed hstuck (Option.ne_none_iff_exists'.1 hlegs).choose_spec
  have hidle (i : Fin n) (hlegs : (x.post i).legs = none) : want i = (fun _ => none) ∧
      x.post i = ⟨.done (s i) (a i), none⟩ ∧ Round.forward i (ahead i) = [] := by
    obtain ⟨hwant, ⟨hturns, hdone⟩ | ⟨s', t, resume, r, rest, transfer, hpost, -, -, -, htransfer,
      hplan⟩⟩ := h.next hmatched hlegs
    · exact ⟨hwant, hdone, Round.forward_of_turnsOf_nil hturns⟩
    · have hstart : Step x _ := .move i (by rw [hpost]; exact .start htransfer hplan)
      exact absurd hstart (hstuck _)
  have hbalance : Network.Balanced (fun i j => x.pipes.queue i j)
      (fun i => Round.forward i (ahead i)) want := by
    refine (h.forward hmatched).balance.congr fun i j _ => ?_
    have hunsent : (x.post i).unsent j = [] := by
      by_cases hlegs : (x.post i).legs = none
      · exact Post.unsent_of_legs_eq_none hlegs j
      · exact (hbusy i hlegs).1 j
    rw [hunsent, List.append_nil]
  have hnone : ∀ i j, want i j = none := by
    by_contra hsome
    simp only [not_forall] at hsome
    obtain ⟨i, ⟨j, hj⟩, harrived⟩ := hbalance.exists_ready (h.forward hmatched).suffix h.want_self
      (fun i hahead => (hbusy i fun hlegs => hahead (hidle i hlegs).2.2).2.1) hsome
    have hlegs : (x.post i).legs ≠ none := fun hlegs => hj (congrFun (hidle i hlegs).1 j)
    exact harrived j hj ((hbusy i hlegs).2.2 j hj)
  have hlegs (i : Fin n) : (x.post i).legs = none := by
    by_contra hlegs
    obtain ⟨j, hj⟩ := (hbusy i hlegs).2.1
    exact hj (hnone i j)
  refine ⟨fun i => (hidle i (hlegs i)).2.1, fun i j hij => ?_⟩
  have hend := hbalance i j hij
  dsimp only at hend
  rw [(hidle i (hlegs i)).2.2, (hidle j (hlegs j)).2.2, hnone] at hend
  exact (List.append_eq_nil_iff.1 hend).1

end Books

end Scene

/-- Twice a number of players whose channels fit into memory is a machine word. -/
theorem isWord_add_self (hn : isAddressable n 1 = true) : isWord (n + n) = true := by
  simp only [isAddressable, decide_eq_true_eq] at hn
  refine decide_eq_true (?_ : n + n < 18446744073709551616)
  omega

/-! ### Runs and schedules -/

/-- On some idle network that carries what they send, the computations of all parties come to their
ends in these states and with these results. -/
def Network.CarriesOut (cs : Fin n → Session σ α) (s : Fin n → σ) (a : Fin n → α) : Prop :=
  ∃ net net' : Network, net.Idle n ∧ net.Admits (List.ofFn fun i => (i.val, cs i)) ∧
    net.run (List.ofFn fun i => (i.val, cs i)) =
      (List.ofFn fun i => ⟨i, .done (s i) (a i), .over⟩, net')

/-- On every idle network that carries what they send, the computations of all parties come to their
ends in these states and with these results. They do so when the network runs them, which leaves it
ready for another run unless players close their ends, and under every schedule, which leaves nothing
in the pipes. -/
def Network.AlwaysCarriesOut (cs : Fin n → Session σ α) (s : Fin n → σ) (a : Fin n → α) : Prop :=
  ∀ net : Network, net.Idle n → net.Admits (List.ofFn fun i => (i.val, cs i)) →
    (∃ net', net.run (List.ofFn fun i => (i.val, cs i)) =
        (List.ofFn fun i => ⟨i, .done (s i) (a i), .over⟩, net') ∧
      (net.closesWhenDone = false → net'.Idle n)) ∧
    (Scene.start net.pipes cs).AlwaysEnds fun x => (∀ i, x.post i = ⟨.done (s i) (a i), none⟩) ∧
      ∀ i j : Fin n, i ≠ j → x.pipes.queue i j = []

section

variable {cs : Fin n → Session σ α} {s : Fin n → σ} {a : Fin n → α}

/-- A network without any limit carries everything. -/
theorem Network.admits_unlimited : (Network.create n [] fun _ => true).Admits
    (List.ofFn fun i => (i.val, cs i)) := fun _ _ _ _ _ _ _ => rfl

theorem Network.AlwaysCarriesOut.carriesOut (h : Network.AlwaysCarriesOut cs s a) :
    Network.CarriesOut cs s a := by
  have hidle := Network.idle_create n fun _ => true
  obtain ⟨⟨net', hrun, -⟩, -⟩ := h _ hidle Network.admits_unlimited
  exact ⟨_, net', hidle, Network.admits_unlimited, hrun⟩

namespace Lockstep

variable {Q : (Fin n → σ) → (Fin n → α) → Prop}

/-- Computations in lockstep come to the same ends on all networks and under all schedules. -/
theorem alwaysCarriesOut (h : Lockstep cs Q) :
    ∃ s a, Network.AlwaysCarriesOut cs s a ∧ Q s a := by
  obtain ⟨rounds, hmatched, s, a, hfollows, hQ⟩ := h
  refine ⟨s, a, fun net hnet hadmits => ⟨?_, ?_⟩, hQ⟩
  · obtain ⟨net', hrun, hledger⟩ :=
      Network.run_eq hnet hmatched (hadmits.fits hnet hmatched hfollows) hfollows
    exact ⟨net', hrun, hledger.idle⟩
  · refine .of_invariant
      (fun x => ∃ ahead want, Scene.Books rounds net.pipes s a x ahead want) ?_ ?_ ?_
    · exact ⟨_, _, .init hnet.connect hnet.empty hfollows⟩
    · rintro x y ⟨ahead, want, hbooks⟩ hstep
      exact hbooks.step hmatched (hadmits.fits hnet hmatched hfollows) hnet.closed hstep
    · rintro x ⟨ahead, want, hbooks⟩ hstuck
      exact hbooks.of_stuck hmatched hnet.closed hstuck

/-- Without a limit computations in lockstep come to their ends whatever the schedule does. -/
theorem alwaysEnds (h : Lockstep cs Q) :
    (Scene.start (Pipes.empty n fun _ => true) cs).AlwaysEnds fun x =>
      ∃ s a, (∀ i, x.post i = ⟨.done (s i) (a i), none⟩) ∧ Q s a ∧
        ∀ i j : Fin n, i ≠ j → x.pipes.queue i j = [] := by
  obtain ⟨s, a, hcarries, hQ⟩ := h.alwaysCarriesOut
  refine (hcarries _ (Network.idle_create n _) Network.admits_unlimited).2.mono ?_
  exact fun x ⟨hpost, hqueue⟩ => ⟨s, a, hpost, hQ, hqueue⟩

/-- What is known of a lockstep is known of what a network carries out. -/
theorem of_carriesOut (h : Lockstep cs Q) (hrun : Network.CarriesOut cs s a) : Q s a := by
  obtain ⟨net, net', hidle, hadmits, hrun⟩ := hrun
  obtain ⟨s', a', hcarries, hq⟩ := h.alwaysCarriesOut
  obtain ⟨⟨_, hrun', -⟩, -⟩ := hcarries net hidle hadmits
  have htasks := List.ofFn_injective (congrArg Prod.fst (hrun.symm.trans hrun'))
  have hsame (i : Fin n) : s i = s' i ∧ a i = a' i := by
    have htask := congrFun htasks i
    simpa only [Task.mk.injEq, Session.done.injEq, true_and, and_true] using htask
  rwa [funext fun i => (hsame i).1, funext fun i => (hsame i).2]

end Lockstep

end

end Multiparty
