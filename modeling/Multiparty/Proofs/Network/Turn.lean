import Mathlib.Data.List.Basic
import Mathlib.Data.List.Lookmap
import Mathlib.Data.List.Range
import Multiparty.Network.Run
import Multiparty.Proofs.Network.Legs

/-!
# Calls and what they exchange

A call of a player together with the reply that it gets is a *turn*. A turn says which payload goes
to each peer and which payload comes from each peer. How far the transport has carried out a call
is determined by what has arrived of each peer so far.

## Main definitions

* `Call.sends`: the payload that a call sends to a peer.
* `Turn`: a call with its reply.
* `Turn.sends`, `Turn.gets`: the payloads that a turn exchanges with a peer.
* `Turn.Sound`: the reply fits the call, and nobody sends to itself.
* `Turn.Passable`: the pipes let the payloads of a turn pass.
* `Turn.legs`: the legs of the transfer that carries out the call.

## Main results

* `Turn.transferOf_plan`: the transport plans these legs.
* `Turn.outcome_eq`: what comes of the call, given what has arrived.
-/

namespace Multiparty

/-- The payload that player `me` of `n` sends to a peer by a call. -/
def Call.sends (n me : Nat) (peer : Nat) : Call → Option Bytes
  | .send target payload => if peer = target then some payload else none
  | .receive _ => none
  | .broadcast payload => if peer = me then none else some payload
  | .pass offset payload => if peer = (me + offset) % n then some payload else none

/-- A call together with the reply that it gets. -/
structure Turn where
  call : Call
  reply : call.Reply

namespace Turn

/-- The payload that player `me` of `n` sends to a peer. -/
def sends (n me : Nat) (t : Turn) (peer : Nat) : Option Bytes := t.call.sends n me peer

/-- The payload that player `me` of `n` gets from a peer. -/
def gets (n me : Nat) : Turn → (peer : Nat) → Option Bytes
  | ⟨.send .., _⟩, _ => none
  | ⟨.receive source, payload⟩, peer => if peer = source then some payload else none
  | ⟨.broadcast _, payloads⟩, peer => if peer = me then none else payloads[peer]?
  | ⟨.pass offset _, payload⟩, peer =>
    if peer = (me + n - offset % n) % n then some payload else none

/-- A turn that player `me` of `n` can take: it deals with other players only, and the reply to a
broadcast holds one payload for every player, the own one among them. -/
def Sound (n me : Nat) : Turn → Prop
  | ⟨.send target _, _⟩ => target < n ∧ target ≠ me
  | ⟨.receive source, _⟩ => source < n ∧ source ≠ me
  | ⟨.broadcast payload, payloads⟩ => payloads.length = n ∧ payloads[me]? = some payload
  | ⟨.pass offset _, _⟩ => (me + offset) % n ≠ me ∧ (me + n - offset % n) % n ≠ me ∧
      isWord (me + offset) = true ∧ isWord (me + n) = true

/-- The pipes let a turn of player `me` pass: what it sends fits, and it neither sends to nor waits in
vain for somebody who has closed its ends. -/
structure Passable (n me : Nat) (p : Pipes) (t : Turn) : Prop where
  fits : ∀ peer < n, ∀ payload, t.sends n me peer = some payload → p.fits payload = true
  target : ∀ peer < n, (t.sends n me peer).isSome = true → peer ∉ p.closed
  source : ∀ peer < n, (t.gets n me peer).isSome = true → p.queue peer me = [] → peer ∉ p.closed

/-- The legs of the transfer by which player `me` of `n` carries out the call. -/
def legs (n me : Nat) (t : Turn) : List Leg :=
  match t.call with
  | .send target payload => [{ outgoing := some (target, payload) }]
  | .receive source => [{ source := some source }]
  | .broadcast payload => ((List.range n).filter (· ≠ me)).map fun peer =>
      { outgoing := some (peer, payload), source := some peer }
  | .pass offset payload =>
    [{ outgoing := some ((me + offset) % n, payload),
       source := some ((me + n - offset % n) % n) }]

/-- The legs of a call after everything has been sent, where `queue` tells what has arrived of each
peer. -/
def legsAfter (n me : Nat) (t : Turn) (queue : Nat → List Bytes) : List Leg :=
  (t.legs n me).map (Leg.carriedOn queue)

variable {n me : Nat} {t : Turn}

/-- Nobody gets anything from itself. -/
theorem gets_self (ht : t.Sound n me) : t.gets n me me = none := by
  match t, ht with
  | ⟨.send .., _⟩, _ => rfl
  | ⟨.receive _, _⟩, ⟨_, hne⟩ => exact if_neg (Ne.symm hne)
  | ⟨.broadcast _, _⟩, _ => exact if_pos rfl
  | ⟨.pass .., _⟩, ⟨_, hne, _⟩ => exact if_neg (Ne.symm hne)

/-- The transport carries out a sound call by these legs. -/
theorem transferOf_plan (hme : me < n) (ht : t.Sound n me) :
    ∃ transfer, (Transport.complete n me).transferOf t.call = .ok transfer ∧
      (Transport.complete n me).plan transfer = .ok (.ok (t.legs n me)) := by
  have hself : (Transport.complete n me).me = me := rfl
  have hplayers : (Transport.complete n me).players = n := List.length_replicate
  have hchannel {peer : Nat} (h : peer < n) :
      (Transport.complete n me).hasChannel peer = true := by
    rw [Transport.hasChannel, Transport.complete, List.getD_eq_getElem?_getD,
      List.getElem?_replicate, if_pos h]
    rfl
  have hpos : 0 < n := by omega
  match t, ht with
  | ⟨.send target payload, _⟩, ⟨htarget, hne⟩ =>
    refine ⟨_, rfl, ?_⟩
    rw [Transport.plan, hself, hplayers, if_neg hne, if_neg (Nat.not_le.2 htarget), hchannel htarget]
    rfl
  | ⟨.receive source, _⟩, ⟨hsource, hne⟩ =>
    refine ⟨_, rfl, ?_⟩
    rw [Transport.plan, hself, hplayers, if_neg hne, if_neg (Nat.not_le.2 hsource), hchannel hsource]
    rfl
  | ⟨.broadcast payload, _⟩, _ =>
    refine ⟨_, rfl, ?_⟩
    have hfind : (((List.range n).filter (· ≠ me)).find? fun peer =>
        !(Transport.complete n me).hasChannel peer) = none := by
      rw [List.find?_eq_none]
      intro peer hpeer
      have hlt := List.mem_range.1 (List.mem_filter.1 hpeer).1
      rw [hchannel hlt]
      decide
    rw [Transport.plan, hplayers, hself, hfind]
    rfl
  | ⟨.pass offset payload, _⟩, ⟨htarget, hsource, hwordTarget, hwordSource⟩ =>
    refine ⟨.sendReceive ((me + offset) % n) payload ((me + n - offset % n) % n), ?_, ?_⟩
    · rw [Transport.transferOf, hself, hplayers, if_neg (by omega), Transport.playerAfter?,
        Transport.playerBefore?, if_pos hwordTarget, if_pos hwordSource]
    · rw [Transport.plan, hself, if_neg (not_or.2 ⟨htarget, hsource⟩),
        hchannel (Nat.mod_lt _ hpos), hchannel (Nat.mod_lt _ hpos)]
      rfl

private theorem mem_peers {peer : Nat} :
    peer ∈ (List.range n).filter (· ≠ me) ↔ peer < n ∧ peer ≠ me := by
  rw [List.mem_filter, List.mem_range, decide_eq_true_eq]

/-- The legs of a call have not failed, have received nothing, and deal with other players only. -/
theorem legs_fresh (hme : me < n) (ht : t.Sound n me) : ∀ leg ∈ t.legs n me,
    leg.error = none ∧ leg.received = none ∧
      (∀ target payload, leg.outgoing = some (target, payload) →
        target < n ∧ target ≠ me ∧ t.sends n me target = some payload) ∧
      ∀ source, leg.source = some source → source < n ∧ source ≠ me := by
  have hpos : 0 < n := by omega
  match t, ht with
  | ⟨.send target payload, _⟩, ⟨htarget, hne⟩ =>
    intro leg hleg
    obtain rfl := List.mem_singleton.1 hleg
    refine ⟨rfl, rfl, fun s m h => ?_, fun s h => by cases h⟩
    obtain ⟨rfl, rfl⟩ := Prod.mk.inj (Option.some.inj h)
    exact ⟨htarget, hne, if_pos rfl⟩
  | ⟨.receive source, _⟩, ⟨hsource, hne⟩ =>
    intro leg hleg
    obtain rfl := List.mem_singleton.1 hleg
    refine ⟨rfl, rfl, fun s m h => (by cases h), fun s h => ?_⟩
    obtain rfl := Option.some.inj h
    exact ⟨hsource, hne⟩
  | ⟨.broadcast payload, _⟩, _ =>
    intro leg hleg
    obtain ⟨peer, hpeer, rfl⟩ := List.mem_map.1 hleg
    obtain ⟨hlt, hne⟩ := mem_peers.1 hpeer
    refine ⟨rfl, rfl, fun s m h => ?_, fun s h => ?_⟩
    · obtain ⟨rfl, rfl⟩ := Prod.mk.inj (Option.some.inj h)
      exact ⟨hlt, hne, if_neg hne⟩
    · obtain rfl := Option.some.inj h
      exact ⟨hlt, hne⟩
  | ⟨.pass offset payload, _⟩, ⟨htarget, hsource, _⟩ =>
    intro leg hleg
    obtain rfl := List.mem_singleton.1 hleg
    refine ⟨rfl, rfl, fun s m h => ?_, fun s h => ?_⟩
    · obtain ⟨rfl, rfl⟩ := Prod.mk.inj (Option.some.inj h)
      exact ⟨Nat.mod_lt _ hpos, htarget, if_pos rfl⟩
    · obtain rfl := Option.some.inj h
      exact ⟨Nat.mod_lt _ hpos, hsource⟩

/-- No two legs of a call wait for the same peer. -/
theorem legs_distinct :
    (t.legs n me).Pairwise fun leg leg' => ∀ s, leg.source = some s → leg'.source ≠ some s := by
  match t with
  | ⟨.send .., _⟩ => exact List.pairwise_singleton _ _
  | ⟨.receive _, _⟩ => exact List.pairwise_singleton _ _
  | ⟨.pass .., _⟩ => exact List.pairwise_singleton _ _
  | ⟨.broadcast payload, _⟩ =>
    refine List.pairwise_map.2 ((List.nodup_range.filter _).imp fun hne s h h' => hne ?_)
    exact (Option.some.inj h).trans (Option.some.inj h').symm

/-- The legs of a call send what the turn sends. -/
theorem allSendTo_legs {peer : Nat} (hpeer : peer < n) :
    Leg.allSendTo (t.legs n me) peer = (t.sends n me peer).toList := by
  have hsingle (target : Nat) (payload : Bytes) (source : Option Nat) :
      Leg.allSendTo [{ outgoing := some (target, payload), source := source }] peer =
        (if peer = target then some payload else none).toList := by
    rw [Leg.allSendTo, List.flatMap_singleton, Leg.sendsTo]
    dsimp only
    by_cases h : target = peer
    · rw [if_pos h, if_pos h.symm]
      rfl
    · rw [if_neg h, if_neg (Ne.symm h)]
      rfl
  obtain ⟨call, reply⟩ := t
  cases call with
  | send target payload => exact hsingle target payload none
  | receive source => rfl
  | pass offset payload => exact hsingle _ payload _
  | broadcast payload =>
    have hflat (l : List Nat) (hl : l.Nodup) :
        Leg.allSendTo (l.map fun q => { outgoing := some (q, payload), source := some q }) peer =
          if peer ∈ l then [payload] else [] := by
      induction l with
      | nil => rfl
      | cons q l ih =>
        obtain ⟨hq, hl⟩ := List.nodup_cons.1 hl
        have htail := ih hl
        rw [Leg.allSendTo] at htail ⊢
        rw [List.map_cons, List.flatMap_cons, htail, Leg.sendsTo]
        dsimp only
        by_cases h : q = peer
        · subst h
          rw [if_pos rfl, if_neg hq, if_pos List.mem_cons_self, List.append_nil]
        · rw [if_neg h, List.nil_append]
          simp only [List.mem_cons, Ne.symm h, false_or]
    rw [legs, sends, Call.sends]
    dsimp only
    rw [hflat _ (List.nodup_range.filter _)]
    by_cases h : peer = me
    · rw [if_pos h, if_neg fun hmem => (mem_peers.1 hmem).2 h]
      rfl
    · rw [if_neg h, if_pos (mem_peers.2 ⟨hpeer, h⟩)]
      rfl

/-- The legs of a call wait for those from whom the turn gets a payload. -/
theorem exists_source_iff (ht : t.Sound n me) {peer : Nat} (hpeer : peer < n) :
    (∃ leg ∈ t.legs n me, leg.source = some peer) ↔ (t.gets n me peer).isSome = true := by
  have hsingle (outgoing : Option (Nat × Bytes)) (source : Nat) (payload : Bytes) :
      (∃ leg ∈ [({ outgoing := outgoing, source := some source } : Leg)],
        leg.source = some peer) ↔
          (if peer = source then some payload else none).isSome = true := by
    constructor
    · rintro ⟨leg, hleg, hsource⟩
      obtain rfl := List.mem_singleton.1 hleg
      rw [if_pos (Option.some.inj hsource).symm]
      rfl
    · intro h
      split at h
      · next heq => exact ⟨_, List.mem_singleton_self _, congrArg some heq.symm⟩
      · cases h
  match t, ht with
  | ⟨.send .., _⟩, _ =>
    constructor
    · rintro ⟨leg, hleg, hsource⟩
      obtain rfl := List.mem_singleton.1 hleg
      cases hsource
    · intro h
      cases h
  | ⟨.receive source, payload⟩, _ => exact hsingle none source payload
  | ⟨.pass offset _, payload⟩, _ => exact hsingle _ _ payload
  | ⟨.broadcast payload, payloads⟩, ⟨hlen, _⟩ =>
    rw [gets]
    constructor
    · rintro ⟨leg, hleg, hsource⟩
      obtain ⟨q, hq, rfl⟩ := List.mem_map.1 hleg
      obtain rfl := Option.some.inj hsource
      obtain ⟨hlt, hne⟩ := mem_peers.1 hq
      rw [if_neg hne, List.getElem?_eq_getElem (hlen.symm ▸ hlt)]
      rfl
    · intro h
      split at h
      · cases h
      · next hne => exact ⟨_, List.mem_map.2 ⟨peer, mem_peers.2 ⟨hpeer, hne⟩, rfl⟩, rfl⟩

/-- The legs of a call are sound if the pipes let the turn pass. -/
theorem legs_sound (hme : me < n) (ht : t.Sound n me) {p : Pipes} (hpass : t.Passable n me p) :
    ∀ leg ∈ t.legs n me, leg.Sound n me p := by
  intro leg hleg
  obtain ⟨herror, -, htarget, hsource⟩ := legs_fresh hme ht leg hleg
  refine ⟨herror, fun target payload h => ?_, hsource, fun source h hq => ?_⟩
  · obtain ⟨hlt, hne, hsends⟩ := htarget target payload h
    refine ⟨hlt, hne, hpass.fits target hlt payload hsends, hpass.target target hlt ?_⟩
    rw [hsends]
    rfl
  · rw [Leg.awaits, Bool.and_eq_true, decide_eq_true_eq] at h
    have hlt := (hsource source h.1).1
    exact hpass.source source hlt ((exists_source_iff ht hlt).1 ⟨leg, hleg, h.1⟩) hq

/-- Carrying on twice is carrying on with what has arrived in all. -/
theorem map_carriedOn_legsAfter (queue queue' : Nat → List Bytes) :
    (t.legsAfter n me queue).map (Leg.carriedOn queue') =
      t.legsAfter n me fun peer => queue peer ++ queue' peer := by
  rw [legsAfter, legsAfter, List.map_map]
  refine List.map_congr_left fun leg _ => ?_
  rw [Function.comp_apply, Leg.carriedOn, Leg.carriedOn, Leg.carriedOn]
  cases leg.source with
  | none => simp
  | some s => simp [List.head?_append, Option.or_assoc]

theorem legsAfter_distinct (queue : Nat → List Bytes) :
    (t.legsAfter n me queue).Pairwise
      fun leg leg' => ∀ s, leg.source = some s → leg'.source ≠ some s :=
  List.pairwise_map.2 legs_distinct

theorem allSendTo_legsAfter (queue : Nat → List Bytes) (peer : Nat) :
    Leg.allSendTo (t.legsAfter n me queue) peer = [] := by
  rw [Leg.allSendTo, List.flatMap_eq_nil_iff]
  intro leg hleg
  obtain ⟨leg, -, rfl⟩ := List.mem_map.1 hleg
  rfl

private theorem received_carriedOn {leg : Leg} (hleg : leg.received = none)
    (queue : Nat → List Bytes) : (leg.carriedOn queue).received =
      leg.source.bind fun source => (queue source).head? := by
  rw [Leg.carriedOn, hleg, Option.none_or]

section After

variable (hme : me < n) (ht : t.Sound n me)

include hme ht in
private theorem received_legs {leg : Leg} (hleg : leg ∈ t.legs n me) :
    leg.received = none ∧ leg.error = none := by
  obtain ⟨herror, hreceived, -⟩ := legs_fresh hme ht leg hleg
  exact ⟨hreceived, herror⟩

include hme ht in
/-- At first a call waits for everyone from whom the turn gets a payload. -/
theorem anyAwaits_legs {peer : Nat} (hpeer : peer < n) :
    Leg.anyAwaits (t.legs n me) peer = (t.gets n me peer).isSome := by
  rw [Bool.eq_iff_iff, ← exists_source_iff ht hpeer, Leg.anyAwaits, List.any_eq_true]
  refine exists_congr fun leg => and_congr_right fun hleg => ?_
  rw [Leg.awaits, (received_legs hme ht hleg).1, Bool.and_eq_true, decide_eq_true_eq]
  exact and_iff_left rfl

include hme ht in
/-- A call waits for a peer as long as nothing has arrived of it. -/
theorem anyAwaits_legsAfter (queue : Nat → List Bytes) {peer : Nat} (hpeer : peer < n) :
    Leg.anyAwaits (t.legsAfter n me queue) peer =
      ((t.gets n me peer).isSome && (queue peer).isEmpty) := by
  rw [Bool.eq_iff_iff, Bool.and_eq_true, ← exists_source_iff ht hpeer, Leg.anyAwaits,
    List.any_eq_true]
  constructor
  · rintro ⟨after, hafter, hawaits⟩
    obtain ⟨leg, hleg, rfl⟩ := List.mem_map.1 hafter
    rw [Leg.awaits, received_carriedOn (received_legs hme ht hleg).1, Bool.and_eq_true,
      decide_eq_true_eq] at hawaits
    obtain ⟨hsource, hnone⟩ := hawaits
    change leg.source = some peer at hsource
    rw [hsource, Option.bind_some] at hnone
    refine ⟨⟨leg, hleg, hsource⟩, ?_⟩
    simpa using hnone
  · rintro ⟨⟨leg, hleg, hsource⟩, hempty⟩
    refine ⟨_, List.mem_map_of_mem hleg, ?_⟩
    rw [Leg.awaits, received_carriedOn (received_legs hme ht hleg).1, Bool.and_eq_true,
      decide_eq_true_eq]
    refine ⟨hsource, ?_⟩
    rw [hsource, Option.bind_some]
    simpa using hempty

include hme ht in
/-- What is left of the legs of a call is sound if nobody is waited for in vain. -/
theorem legsAfter_sound {queue : Nat → List Bytes} {p : Pipes}
    (hlive : ∀ peer < n, (t.gets n me peer).isSome = true → queue peer = [] →
      p.queue peer me = [] → peer ∉ p.closed) :
    ∀ leg ∈ t.legsAfter n me queue, leg.Sound n me p := by
  intro after hafter
  obtain ⟨leg, hleg, rfl⟩ := List.mem_map.1 hafter
  obtain ⟨herror, hreceived, -, hsource⟩ := legs_fresh hme ht leg hleg
  refine ⟨herror, fun _ _ h => (by cases h), hsource, fun source h hq => ?_⟩
  rw [Leg.awaits, received_carriedOn hreceived, Bool.and_eq_true, decide_eq_true_eq] at h
  obtain ⟨hs, hnone⟩ := h
  change leg.source = some source at hs
  rw [hs, Option.bind_some] at hnone
  have hlt := (hsource source hs).1
  refine hlive source hlt ((exists_source_iff ht hlt).1 ⟨leg, hleg, hs⟩) ?_ hq
  simpa using hnone

include hme ht in
/-- A call is carried out when something has arrived of everyone it gets a payload from. -/
theorem all_isComplete_legsAfter_iff (queue : Nat → List Bytes) :
    (t.legsAfter n me queue).all Leg.isComplete = true ↔
      ∀ peer < n, (t.gets n me peer).isSome = true → queue peer ≠ [] := by
  rw [List.all_eq_true]
  constructor
  · intro h peer hpeer hgets
    obtain ⟨leg, hleg, hsource⟩ := (exists_source_iff ht hpeer).2 hgets
    have hcomplete := h _ (List.mem_map_of_mem hleg)
    rw [Leg.isComplete, received_carriedOn (received_legs hme ht hleg).1] at hcomplete
    change (leg.error.isNone && true && (leg.source.isNone || _)) = true at hcomplete
    rw [hsource, (received_legs hme ht hleg).2] at hcomplete
    intro hnil
    simp [hnil] at hcomplete
  · intro h after hafter
    obtain ⟨leg, hleg, rfl⟩ := List.mem_map.1 hafter
    obtain ⟨herror, -, -, hsource⟩ := legs_fresh hme ht leg hleg
    rw [Leg.isComplete, received_carriedOn (received_legs hme ht hleg).1]
    change (leg.error.isNone && true && (leg.source.isNone || _)) = true
    rw [herror]
    cases hs : leg.source with
    | none => rfl
    | some s =>
      have hlt := (hsource s hs).1
      have hne := h s hlt ((exists_source_iff ht hlt).1 ⟨leg, hleg, hs⟩)
      rw [Option.bind_some]
      cases hq : queue s with
      | nil => exact absurd hq hne
      | cons payload rest => rfl

/-- Without faults everything arrives as it was sent. -/
theorem applyIncoming_nil (receipts : List (Nat × Bytes)) :
    Fault.applyIncoming [] receipts = .ok receipts := by
  induction receipts with
  | nil => rfl
  | cons r receipts ih =>
    rw [Fault.applyIncoming] at ih ⊢
    rw [List.mapM_cons, ih]
    rfl

/-- The one leg that gets a payload receives it. -/
theorem receipts_single (outgoing : Option (Nat × Bytes)) {queue : Nat → List Bytes} {source : Nat}
    {payload : Bytes} (h : (queue source).head? = some payload) :
    Leg.receipts ([({ outgoing := outgoing, source := some source } : Leg)].map
      (Leg.carriedOn queue)) = [(source, payload)] := by
  rw [List.map_singleton, Leg.carriedOn, Leg.receipts]
  dsimp only
  rw [Option.bind_some, h]
  rfl

/-- In a broadcast the payloads of all peers are received, in their order. -/
theorem receipts_broadcast {payload : Bytes} {payloads : List Bytes} (hlen : payloads.length = n)
    {queue : Nat → List Bytes} (hqueue : ∀ peer < n, peer ≠ me →
      (queue peer).head? = payloads[peer]?) :
    Leg.receipts (legsAfter n me ⟨.broadcast payload, payloads⟩ queue) =
      ((List.range n).filter (· ≠ me)).map fun peer => (peer, payloads.getD peer []) := by
  rw [legsAfter, legs, Leg.receipts]
  dsimp only
  rw [List.map_map, List.filterMap_map, ← List.filterMap_eq_map]
  refine List.filterMap_congr fun peer hpeer => ?_
  obtain ⟨hlt, hne⟩ := mem_peers.1 hpeer
  have hget : payloads[peer]? = some (payloads.getD peer []) := by
    rw [List.getD_eq_getElem?_getD, List.getElem?_eq_getElem (hlen.symm ▸ hlt), Option.getD_some]
  rw [Function.comp_apply, Function.comp_apply, Leg.carriedOn]
  dsimp only
  rw [Option.bind_some, hqueue peer hlt hne, hget]
  rfl

include hme in
/-- The payloads of the peers and the own one make up the reply to a broadcast. -/
theorem reply_broadcast {payload : Bytes} {payloads : List Bytes} (hlen : payloads.length = n)
    (hown : payloads[me]? = some payload) :
    (Transport.complete n me).reply (.broadcast payload) payload
      (((List.range n).filter (· ≠ me)).map fun peer => (peer, payloads.getD peer [])) =
        .ok payloads := by
  have hplayers : (Transport.complete n me).players = n := List.length_replicate
  have hself : (Transport.complete n me).me = me := rfl
  rw [Transport.reply, hplayers, hself, if_neg (Nat.not_le.2 hme)]
  congr 1
  refine List.ext_getElem ?_ fun i hi hi' => ?_
  · rw [List.length_map, List.length_range, hlen]
  · rw [List.getElem_map, List.getElem_range]
    have hlt : i < n := hlen ▸ hi'
    by_cases h : i = me
    · subst h
      rw [List.getElem?_eq_getElem hi'] at hown
      rw [if_pos rfl]
      exact (Option.some.inj hown).symm
    · rw [if_neg h, List.lookup_graph _ (mem_peers.2 ⟨hlt, h⟩), Option.getD_some,
        List.getD_eq_getElem?_getD, List.getElem?_eq_getElem hi', Option.getD_some]

include hme ht in
/-- When all payloads have arrived the reply is that of the turn. -/
theorem reply_receipts {queue : Nat → List Bytes}
    (hqueue : ∀ peer < n, ∀ payload, t.gets n me peer = some payload →
      (queue peer).head? = some payload) :
    (Transport.complete n me).reply t.call t.call.payload
      (Leg.receipts (t.legsAfter n me queue)) = .ok t.reply := by
  obtain ⟨call, reply⟩ := t
  cases call with
  | send target payload => rfl
  | receive source =>
    have hreceipts := receipts_single none (hqueue source ht.1 reply (if_pos rfl))
    rw [legsAfter, legs]
    dsimp only
    rw [hreceipts]
    rfl
  | pass offset payload =>
    have hsource := hqueue _ (Nat.mod_lt _ (Nat.zero_lt_of_lt hme)) reply (if_pos rfl)
    rw [legsAfter, legs]
    dsimp only
    rw [receipts_single _ hsource]
    rfl
  | broadcast payload =>
    obtain ⟨hlen, hown⟩ := ht
    have harrived (peer : Nat) (hpeer : peer < n) (hne : peer ≠ me) :
        (queue peer).head? = (reply : List Bytes)[peer]? := by
      have hget := List.getElem?_eq_getElem (hlen.symm ▸ hpeer : peer < List.length reply)
      exact (hqueue peer hpeer _ ((if_neg hne).trans hget)).trans hget.symm
    have hreceipts : Leg.receipts (legsAfter n me ⟨.broadcast payload, reply⟩ queue) = _ :=
      receipts_broadcast hlen harrived
    exact (congrArg _ hreceipts).trans (reply_broadcast hme hlen hown)

include hme ht in
/-- What comes of a call: its reply if everything has arrived, and else it goes on waiting. -/
theorem outcome_eq {queue : Nat → List Bytes}
    (hqueue : ∀ peer < n, ∀ payload, t.gets n me peer = some payload →
      queue peer = [] ∨ (queue peer).head? = some payload) :
    Network.outcome (Transport.complete n me) t.call t.call.payload []
        (if (t.legsAfter n me queue).all Leg.isComplete then
          .complete (Leg.receipts (t.legsAfter n me queue))
        else .waiting (t.legsAfter n me queue)) =
      if (t.legsAfter n me queue).all Leg.isComplete then .answered (.ok t.reply)
      else .inFlight ⟨t.call.payload, [], t.legsAfter n me queue⟩ := by
  split
  · next h =>
    have hne := (all_isComplete_legsAfter_iff hme ht queue).1 h
    have hheads : ∀ peer < n, ∀ payload, t.gets n me peer = some payload →
        (queue peer).head? = some payload := by
      intro peer hpeer payload hgets
      exact (hqueue peer hpeer payload hgets).resolve_left
        (hne peer hpeer (by rw [hgets]; rfl))
    rw [Network.outcome, applyIncoming_nil]
    dsimp only
    rw [reply_receipts hme ht hheads]
  · rfl

end After

end Turn

end Multiparty
