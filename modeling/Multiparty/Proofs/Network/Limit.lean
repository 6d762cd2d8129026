import Mathlib
import Multiparty.Network.Frame
import Multiparty.Proofs.Network.Completion
import Multiparty.Proofs.Network.InOrder
import Multiparty.Proofs.Payloads

/-!
# Payloads beyond the limit of a network

A network may limit what can be sent in one payload, and a call that sends more than that fails. So
a player whose calls have all succeeded has sent nothing beyond the limit. In turn, computations in
lockstep come to their end if nothing that they may send is beyond it.

## Main definitions

* `Event.Carried`: a call that has not succeeded by sending what is beyond the limit.
* `Network.Plain`: networks without faults, with a given limit.
* `Network.Conveys`: how a run has brought a computation to where its task is.

## Main results

* `Frame.fits_iff`: the payloads that fit into a frame.
* `Network.run_lockstep_within`: computations in lockstep that stay within the limit.
* `Network.Plain.run`, `Network.Conveys.runs_of_result`: a run answers no call by a reply that sends
  what is beyond the limit.
* `Network.run_succeed_within`, `Network.Conveys.fits_of_sends`: actions of which it is known how much
  they send.
-/

namespace Multiparty

/-! ### Frames -/

namespace Frame

private theorem length_varint (n : Nat) : (varint n).length =
    if n ≤ 250 then 1 else if n < UInt16.size then 3 else if n < UInt32.size then 5 else 9 := by
  rw [varint]
  split_ifs <;> simp

/-- The number of bytes before a payload is five at most, unless the payload is too long anyway. -/
theorem fits_iff (payload : Bytes) : fits payload = true ↔ payload.length + 5 ≤ maxBody := by
  have hsmall : UInt16.size = 65536 := rfl
  have hlarge : UInt32.size = 4294967296 := rfl
  have hmax : maxBody = 8388608 := rfl
  rw [fits, decide_eq_true_eq, body, List.length_append, length_varint, hmax]
  split_ifs <;> omega

end Frame

/-! ### Runs that stay within the limit -/

variable {σ α : Type} {n : Nat}

/-- Nobody sends anything to itself. -/
theorem Round.Matched.message_self {r : Round n} (h : r.Matched) (i : Fin n) :
    r.message i i = none := by
  rw [← h.agree, Option.bind_eq_none_iff]
  exact fun t ht => Turn.gets_self (h.sound i t ht)

namespace Network

/-- Computations in lockstep come to their end on a network that carries whatever they may send each
other. -/
theorem run_lockstep_within {net : Network} (hnet : net.Idle n) {cs : Fin n → Session σ α}
    {Q : (Fin n → σ) → (Fin n → α) → Prop} (hcs : Lockstep cs Q)
    (hfits : ∀ (i : Fin n) answers, ∀ e ∈ (cs i).transcript answers, ∀ peer < n, peer ≠ i →
      ∀ payload, e.sentTo n i peer = some payload → net.pipes.fits payload = true) :
    ∃ s a net', net.run (List.ofFn fun i => (i.val, cs i)) =
        (List.ofFn fun i => ⟨i, .done (s i) (a i), .over⟩, net') ∧ Q s a := by
  obtain ⟨rounds, hmatched, s, a, hfollows, hq⟩ := hcs
  have hmessages : ∀ r ∈ rounds, ∀ i j b, r.message i j = some b → net.pipes.fits b = true := by
    intro r hr i j b hb
    have hne : (j : Nat) ≠ i := fun heq => by
      rw [Fin.ext heq, (hmatched r hr).message_self] at hb
      cases hb
    obtain ⟨t, ht, hsends⟩ := Option.bind_eq_some_iff.1 hb
    obtain ⟨answers, htranscript, -⟩ := Session.exists_answers (hfollows i)
    refine hfits i answers ⟨t.call, .ok t.reply⟩ ?_ j j.isLt hne b hsends
    rw [htranscript]
    exact List.mem_map.2 ⟨t, List.mem_filterMap.2 ⟨r, hr, ht⟩, rfl⟩
  obtain ⟨net', hrun, -⟩ := run_eq hnet hmatched hmessages hfollows
  exact ⟨s, a, net', hrun, hq⟩

end Network

/-! ### Legs that cannot be sent -/

/-- The call has not succeeded, or everything that it sends is within the limit. -/
def Event.Carried (fits : Bytes → Bool) (players me : Nat) (e : Event) : Prop :=
  e.succeeded = true → ∀ peer < players, ∀ payload, e.sentTo players me peer = some payload →
    fits payload = true

namespace Leg

variable {me : Nat} {p p' : Pipes} {leg : Leg}

/-- Carrying on with a leg changes neither the players nor the limit. -/
private theorem look_pipes (me : Nat) (leg : Leg) (p : Pipes) :
    (leg.look me p).2.players = p.players ∧ (leg.look me p).2.fits = p.fits := by
  rw [look]
  split
  · rw [Pipes.receive]
    split
    · next harrival =>
      split at harrival
      · cases harrival
        exact ⟨rfl, rfl⟩
      · split at harrival <;> cases harrival
    · exact ⟨rfl, rfl⟩
    · exact ⟨rfl, rfl⟩
  · exact ⟨rfl, rfl⟩

private theorem send?_pipes {sender receiver : Nat} {payload : Bytes}
    (h : p.send? sender receiver payload = some p') :
    p.fits payload = true ∧ p'.players = p.players ∧ p'.fits = p.fits := by
  rw [Pipes.send?] at h
  split at h
  · cases h
  · next hopen =>
    cases h
    simp only [Bool.or_eq_true, Bool.not_eq_true', not_or, Bool.not_eq_false] at hopen
    exact ⟨hopen.2, rfl, rfl⟩

private theorem poll_pipes (me : Nat) (leg : Leg) (p : Pipes) :
    (leg.poll me p).2.players = p.players ∧ (leg.poll me p).2.fits = p.fits := by
  rw [poll]
  split
  · exact ⟨rfl, rfl⟩
  · split
    · exact ⟨rfl, rfl⟩
    · next hsend =>
      obtain ⟨-, hplayers, hfits⟩ := send?_pipes hsend
      rw [← hplayers, ← hfits]
      exact look_pipes ..
  · exact look_pipes ..

/-- A leg that has failed stays so. -/
private theorem error_poll (herror : leg.error ≠ none) : (leg.poll me p).1.error ≠ none := by
  rw [poll]
  split
  · exact herror
  · next hnone _ => exact absurd hnone herror
  · next hnone _ => exact absurd hnone herror

/-- A leg fails that has to send what is beyond the limit. -/
private theorem fits_of_poll {target : Nat} {payload : Bytes}
    (hleg : leg.outgoing = some (target, payload)) :
    p.fits payload = true ∨ (leg.poll me p).1.error ≠ none := by
  cases herror : leg.error with
  | some e =>
    rw [poll, herror]
    exact .inr (Option.ne_none_iff_exists'.2 ⟨e, herror⟩)
  | none =>
    rw [poll, herror, hleg]
    dsimp only
    split
    · exact .inr (Option.some_ne_none _)
    · next hsend => exact .inl (send?_pipes hsend).1

/-- Carrying on with all legs of a transfer carries on with each of them. -/
private theorem pollAll_ok {prompt settled : Bool} {legs legs' : List Leg}
    (h : pollAll me prompt settled legs p = (.ok legs', p')) :
    List.Forall₂ (fun leg leg' => ∃ q : Pipes, q.fits = p.fits ∧ leg' = (leg.poll me q).1)
      legs legs' := by
  induction legs generalizing settled p legs' p' with
  | nil =>
    obtain ⟨hlegs, -⟩ := Prod.mk.inj h
    cases hlegs
    exact .nil
  | cons leg legs ih =>
    have hfits := (poll_pipes me leg p).2
    rw [pollAll] at h
    dsimp only at h
    split at h
    · cases h
    · split at h
      · next hrest =>
        obtain ⟨hlegs, -⟩ := Prod.mk.inj h
        cases hlegs
        refine .cons ⟨p, rfl, rfl⟩ ((ih hrest).imp ?_)
        rintro _ _ ⟨q, hq, hleg⟩
        exact ⟨q, hq.trans hfits, hleg⟩
      · cases h

private theorem pollAll_pipes (me : Nat) (prompt settled : Bool) (legs : List Leg) (p : Pipes) :
    (pollAll me prompt settled legs p).2.players = p.players ∧
      (pollAll me prompt settled legs p).2.fits = p.fits := by
  induction legs generalizing settled p with
  | nil => exact ⟨rfl, rfl⟩
  | cons leg legs ih =>
    have hpoll := poll_pipes me leg p
    rw [pollAll]
    dsimp only
    split
    · exact hpoll
    · have hrest := ih (settled && (leg.poll me p).1.isComplete) (leg.poll me p).2
      rw [hpoll.1, hpoll.2] at hrest
      split
      · next heq => rwa [heq] at hrest
      · next heq => rwa [heq] at hrest

end Leg

/-- What a call sends is within the limit, or one of its legs has failed. -/
def Call.Sent (fits : Bytes → Bool) (n me : Nat) (call : Call) (legs : List Leg) : Prop :=
  ∀ peer < n, ∀ payload, call.sends n me peer = some payload →
    fits payload = true ∨ ∃ leg ∈ legs, leg.error ≠ none

namespace Call.Sent

variable {fits : Bytes → Bool} {me : Nat} {call : Call} {legs legs' : List Leg} {p p' : Pipes}
  {prompt settled : Bool}

/-- The transfer that carries out a call has a leg for everything that the call sends. -/
private theorem exists_leg {transfer : Transfer}
    (htransfer : (Transport.complete n me).transferOf call = .ok transfer)
    (hplan : (Transport.complete n me).plan transfer = .ok (.ok legs)) {peer : Nat}
    (hpeer : peer < n) {payload : Bytes} (hsends : call.sends n me peer = some payload) :
    ∃ leg ∈ legs, leg.outgoing = some (peer, payload) := by
  have hplayers : (Transport.complete n me).players = n := List.length_replicate
  cases call with
  | send target payload' =>
    obtain ⟨rfl, rfl⟩ : peer = target ∧ payload' = payload := by simpa [Call.sends] using hsends
    cases htransfer
    rw [Transport.plan] at hplan
    split_ifs at hplan <;> cases hplan
    exact ⟨_, List.mem_singleton_self _, rfl⟩
  | receive => cases hsends
  | broadcast payload' =>
    obtain ⟨hne, rfl⟩ : peer ≠ me ∧ payload' = payload := by simpa [Call.sends] using hsends
    cases htransfer
    rw [Transport.plan, hplayers] at hplan
    split at hplan
    · cases hplan
    · cases hplan
      have hmem : peer ∈ (List.range n).filter (· ≠ me) := by simp [hpeer, hne]
      exact ⟨_, List.mem_map_of_mem hmem, rfl⟩
  | pass offset payload' =>
    obtain ⟨rfl, rfl⟩ : peer = (me + offset) % n ∧ payload' = payload := by
      simpa [Call.sends] using hsends
    rw [Transport.transferOf, hplayers] at htransfer
    split at htransfer
    · cases htransfer
    split at htransfer
    · next target source hafter _ =>
      rw [Transport.playerAfter?] at hafter
      split_ifs at hafter
      cases hafter
      cases htransfer
      rw [Transport.plan] at hplan
      split_ifs at hplan <;> cases hplan
      exact ⟨_, List.mem_singleton_self _, rfl⟩
    · cases htransfer

/-- A call whose legs are all carried on with for the first time. -/
private theorem of_plan {transfer : Transfer}
    (htransfer : (Transport.complete n me).transferOf call = .ok transfer)
    (hplan : (Transport.complete n me).plan transfer = .ok (.ok legs))
    (hpoll : Leg.pollAll me prompt settled legs p = (.ok legs', p')) :
    Call.Sent p.fits n me call legs' := by
  intro peer hpeer payload hsends
  obtain ⟨leg, hleg, houtgoing⟩ := exists_leg htransfer hplan hpeer hsends
  obtain ⟨k, hk, rfl⟩ := List.mem_iff_getElem.1 hleg
  have hpolled := Leg.pollAll_ok hpoll
  have hk' : k < legs'.length := hpolled.length_eq ▸ hk
  obtain ⟨q, hq, hpoll⟩ := hpolled.get hk hk'
  rw [List.get_eq_getElem, List.get_eq_getElem] at hpoll
  rw [← hq]
  exact (Leg.fits_of_poll houtgoing).imp_right fun herror =>
    ⟨legs'[k], List.getElem_mem hk', hpoll ▸ herror⟩

/-- Failed legs stay so when the legs are carried on with. -/
private theorem pollAll (h : Call.Sent fits n me call legs)
    (hpoll : Leg.pollAll me prompt settled legs p = (.ok legs', p')) :
    Call.Sent fits n me call legs' := by
  intro peer hpeer payload hsends
  refine (h peer hpeer payload hsends).imp_right ?_
  rintro ⟨leg, hleg, herror⟩
  obtain ⟨k, hk, rfl⟩ := List.mem_iff_getElem.1 hleg
  have hpolled := Leg.pollAll_ok hpoll
  have hk' : k < legs'.length := hpolled.length_eq ▸ hk
  obtain ⟨q, -, hpoll⟩ := hpolled.get hk hk'
  rw [List.get_eq_getElem, List.get_eq_getElem] at hpoll
  exact ⟨legs'[k], List.getElem_mem hk', hpoll ▸ Leg.error_poll herror⟩

end Call.Sent

/-! ### Runs without faults -/

namespace Network

/-- A network of `n` players without faults that carries what fits. -/
structure Plain (n : Nat) (fits : Bytes → Bool) (net : Network) : Prop where
  players : net.pipes.players = n
  fits : net.pipes.fits = fits
  faults : net.faults = []

/-- What comes of a call is no success if the call sends what is beyond the limit. -/
def Outcome.Carried (fits : Bytes → Bool) (n me : Nat) {call : Call} : Outcome call → Prop
  | .answered reply => Event.Carried fits n me ⟨call, reply⟩
  | .inFlight flight => flight.faults = [] ∧ call.Sent fits n me flight.legs
  | .misused _ => True

variable {fits : Bytes → Bool} {me : Nat} {call : Call} {net : Network}

private theorem Outcome.carried_of_proceed {legs : List Leg} {p : Pipes} (t : Transport)
    (sent : Bytes) (hsent : ∀ prompt settled legs' p',
      Leg.pollAll me prompt settled legs p = (.ok legs', p') → call.Sent fits n me legs') :
    (outcome t call sent [] (TransferState.proceed me legs p).1).Carried fits n me := by
  rw [TransferState.proceed]
  split
  · exact fun hsucceeded => (by cases hsucceeded)
  · next legs' p' hpoll =>
    have hlegs' := hsent _ _ _ _ hpoll
    dsimp only
    split
    · next hcomplete =>
      rw [outcome, Turn.applyIncoming_nil]
      dsimp only
      split
      · trivial
      · intro _ peer hpeer payload hsends
        refine (hlegs' peer hpeer payload hsends).resolve_right ?_
        rintro ⟨leg, hleg, herror⟩
        have hleg := List.all_eq_true.1 hcomplete leg hleg
        rw [Leg.isComplete, Bool.and_eq_true, Bool.and_eq_true] at hleg
        exact herror (Option.isNone_iff_eq_none.1 hleg.1.1)
    · exact ⟨rfl, hlegs'⟩

private theorem proceed_pipes (me : Nat) (legs : List Leg) (p : Pipes) :
    (TransferState.proceed me legs p).2.players = p.players ∧
      (TransferState.proceed me legs p).2.fits = p.fits := by
  have hpoll := Leg.pollAll_pipes me (legs.length ≤ promptLegs) true legs p
  rw [TransferState.proceed]
  split
  · next heq => rwa [heq] at hpoll
  · next heq => rwa [heq] at hpoll

/-- What comes of a call that is started. -/
theorem Plain.begin (h : Plain n fits net) (me : Nat) (call : Call) :
    (begin net me call).1.Carried fits n me ∧ Plain n fits (begin net me call).2 := by
  have hedited : Fault.editOutgoing [] call = call := by cases call <;> rfl
  have hfaults : Fault.ofCall net.faults me (net.callCounts.getD me 0) = [] := by rw [h.faults]; rfl
  rw [Network.begin]
  simp only [hfaults, hedited]
  rw [if_neg (by decide)]
  split
  · exact ⟨trivial, h.players, h.fits, h.faults⟩
  · next transfer htransfer =>
    simp only [Network.transport, h.players, Transport.begin] at htransfer ⊢
    split
    · exact ⟨trivial, h.players, h.fits, h.faults⟩
    · exact ⟨fun hsucceeded => (by cases hsucceeded), h.players, h.fits, h.faults⟩
    · next legs hplan =>
      obtain ⟨hplayers, hfits⟩ := proceed_pipes me legs net.pipes
      refine ⟨Outcome.carried_of_proceed _ _ fun _ _ _ _ hpoll => ?_,
        hplayers.trans h.players, hfits.trans h.fits, h.faults⟩
      rw [← h.fits]
      exact Call.Sent.of_plan htransfer hplan hpoll

/-- What comes of a call that is carried on with. -/
theorem Plain.carryOn (h : Plain n fits net) {flight : Flight} (hfaults : flight.faults = [])
    (hsent : call.Sent fits n me flight.legs) :
    (carryOn net me call flight).1.Carried fits n me ∧
      Plain n fits (carryOn net me call flight).2 := by
  obtain ⟨hplayers, hfits⟩ := proceed_pipes me flight.legs net.pipes
  rw [Network.carryOn, hfaults]
  exact ⟨Outcome.carried_of_proceed _ _ fun _ _ _ _ hpoll => hsent.pollAll hpoll,
    hplayers.trans h.players, hfits.trans h.fits, h.faults⟩

/-- The task of a player has come from the computation `c`: in whatever way its session runs on, the
computation runs so too after some calls, none of which has succeeded by sending what is beyond the
limit. -/
structure Conveys (fits : Bytes → Bool) (n me : Nat) (c : Session σ α) (task : Task σ α) : Prop where
  player : task.player = me
  before : ∃ calls, (∀ e ∈ calls, Event.Carried fits n me e) ∧
    ∀ t s a, task.session.Runs t s a → c.Runs (calls ++ t) s a
  flight : ∀ s call resume flight, task.session = .wait s call resume →
    task.progress = .waiting flight → flight.faults = [] ∧ Call.Sent fits n me call flight.legs

/-- An answered call comes before what the task of the rest has come from. -/
private theorem Conveys.after {s : σ} {call : Call}
    {resume : Except TransportError call.Reply → Session σ α}
    {reply : Except TransportError call.Reply} {task : Task σ α}
    (h : Conveys fits n me (resume reply) task) (hcarried : Event.Carried fits n me ⟨call, reply⟩) :
    Conveys fits n me (.wait s call resume) task where
  player := h.player
  before := by
    obtain ⟨calls, hcalls, hruns⟩ := h.before
    exact ⟨⟨call, reply⟩ :: calls, List.forall_mem_cons.2 ⟨hcarried, hcalls⟩,
      fun t s' a hrun => .wait (hruns t s' a hrun)⟩
  flight := h.flight

private theorem Conveys.trans {c c' : Session σ α} {task task' : Task σ α}
    (h : Conveys fits n me c task) (hsession : task.session = c')
    (h' : Conveys fits n me c' task') : Conveys fits n me c task' where
  player := h'.player
  before := by
    obtain ⟨calls, hcalls, hruns⟩ := h.before
    obtain ⟨calls', hcalls', hruns'⟩ := h'.before
    refine ⟨calls ++ calls', List.forall_mem_append.2 ⟨hcalls, hcalls'⟩, fun t s a hrun => ?_⟩
    rw [List.append_assoc]
    exact hruns _ _ _ (hsession ▸ hruns' t s a hrun)
  flight := h'.flight

/-- What a launched session comes to. -/
private theorem Plain.launch (h : Plain n fits net) (me : Nat) (c : Session σ α) :
    Conveys fits n me c (launch me c net).1 ∧ Plain n fits (launch me c net).2 := by
  have hsame (progress : Progress) (c : Session σ α)
      (hflight : ∀ s call resume flight, c = .wait s call resume → progress = .waiting flight →
        flight.faults = [] ∧ Call.Sent fits n me call flight.legs) :
      Conveys fits n me c ⟨me, c, progress⟩ :=
    ⟨rfl, ⟨[], fun _ he => (by cases he), fun _ _ _ hrun => hrun⟩, hflight⟩
  induction c generalizing net with
  | done s a =>
    refine ⟨hsame _ _ fun _ _ _ _ hwait => (by cases hwait), ?_⟩
    rw [Network.launch]
    dsimp only [Network.finish]
    split
    · exact ⟨h.players, h.fits, h.faults⟩
    · exact h
  | wait s call resume ih =>
    obtain ⟨hcarried, hplain⟩ := h.begin me call
    rw [Network.launch]
    split
    · next reply net' hbegin =>
      rw [hbegin] at hcarried hplain
      obtain ⟨hconveys, hplain'⟩ := ih reply hplain
      exact ⟨hconveys.after hcarried, hplain'⟩
    · next flight net' hbegin =>
      rw [hbegin] at hcarried hplain
      refine ⟨hsame _ _ ?_, hplain⟩
      rintro _ _ _ _ ⟨⟩ ⟨⟩
      exact hcarried
    · next misuse net' hbegin =>
      rw [hbegin] at hplain
      exact ⟨hsame _ _ fun _ _ _ _ _ hprogress => (by cases hprogress), hplain⟩

/-- What a task comes to that goes on. -/
private theorem Plain.advance? (h : Plain n fits net) {c : Session σ α} {task : Task σ α}
    (hconveys : Conveys fits n me c task) {x : { t : Task σ α // Session.Later t.session task.session }}
    {net' : Network} (hadvance : advance? task net = some (x, net')) :
    Conveys fits n me c x.val ∧ Plain n fits net' := by
  match task, hconveys, x, hadvance with
  | ⟨player, .wait s call resume, .waiting flight⟩, hconveys, x, hadvance =>
    obtain rfl : player = me := hconveys.player
    obtain ⟨hfaults, hsent⟩ := hconveys.flight s call resume flight rfl rfl
    obtain ⟨hcarried, hplain⟩ := h.carryOn hfaults hsent
    have hmapped := advance?_waiting player s call resume flight net
    rw [hadvance] at hmapped
    dsimp only [Option.map_some] at hmapped
    split at hmapped
    · next reply net₁ hcarryOn =>
      rw [hcarryOn] at hcarried hplain
      obtain ⟨hrest, hplain'⟩ := hplain.launch player (resume reply)
      rw [← Option.some.inj hmapped] at hrest hplain'
      exact ⟨hconveys.trans rfl (hrest.after hcarried), hplain'⟩
    · cases hmapped

private theorem Plain.move? (h : Plain n fits net) {sessions : List (Nat × Session σ α)}
    {tasks : List (Task σ α)}
    (htasks : List.Forall₂ (fun x => Conveys fits n x.1 x.2) sessions tasks)
    {x : { l : List (Task σ α) // Moved l tasks }} {net' : Network}
    (hmove : move? tasks net = some (x, net')) :
    List.Forall₂ (fun x => Conveys fits n x.1 x.2) sessions x.val ∧ Plain n fits net' := by
  induction htasks with
  | nil => cases hmove
  | @cons session task sessions tasks htask htasks ih =>
    rw [Network.move?] at hmove
    split at hmove
    · next hadvance =>
      cases hmove
      obtain ⟨htask', hplain⟩ := h.advance? htask hadvance
      exact ⟨.cons htask' htasks, hplain⟩
    · split at hmove
      · next hrest =>
        cases hmove
        obtain ⟨htasks', hplain⟩ := ih hrest
        exact ⟨.cons htask htasks', hplain⟩
      · cases hmove

private theorem Plain.settle (h : Plain n fits net) {sessions : List (Nat × Session σ α)}
    {tasks : List (Task σ α)}
    (htasks : List.Forall₂ (fun x => Conveys fits n x.1 x.2) sessions tasks) :
    List.Forall₂ (fun x => Conveys fits n x.1 x.2) sessions (settle tasks net).1 := by
  induction tasks, net using settle.induct with
  | case1 tasks net tasks' hmoved net' hmove ih =>
    obtain ⟨htasks', hplain⟩ := h.move? htasks hmove
    rw [Network.settle, hmove]
    exact ih hplain htasks'
  | case2 tasks net hmove =>
    rw [Network.settle, hmove]
    exact htasks

private theorem Plain.launchAll (h : Plain n fits net) (sessions : List (Nat × Session σ α)) :
    List.Forall₂ (fun x => Conveys fits n x.1 x.2) sessions (launchAll sessions net).1 ∧
      Plain n fits (launchAll sessions net).2 := by
  induction sessions generalizing net with
  | nil => exact ⟨.nil, h⟩
  | cons x sessions ih =>
    obtain ⟨htask, hplain⟩ := h.launch x.1 x.2
    obtain ⟨htasks, hplain'⟩ := ih hplain
    exact ⟨.cons htask htasks, hplain'⟩

/-- A run without faults brings its sessions to where the tasks are, and answers no call by a reply
that sends what is beyond the limit. -/
theorem Plain.run (h : Plain n fits net) (sessions : List (Nat × Session σ α)) :
    List.Forall₂ (fun x => Conveys fits n x.1 x.2) sessions (net.run sessions).1 := by
  obtain ⟨htasks, hplain⟩ := h.launchAll sessions
  exact hplain.settle htasks

/-- A computation that has come to its end has sent nothing beyond the limit by a call that
succeeded. -/
theorem Conveys.runs_of_result {c : Session σ α} {task : Task σ α} (h : Conveys fits n me c task)
    {a : α} (ha : task.result? = some a) :
    ∃ calls s, c.Runs calls s a ∧ ∀ e ∈ calls, Event.Carried fits n me e := by
  obtain ⟨calls, hcalls, hruns⟩ := h.before
  rw [Task.result?] at ha
  split at ha
  · next s a' _ hsession =>
    cases ha
    refine ⟨calls, s, ?_, hcalls⟩
    have hdone : task.session.Runs [] s a := hsession ▸ .done s a
    simpa using hruns [] s a hdone
  · cases ha

end Network

/-! ### Actions of which it is known how much they send -/

section Sends

open Multiparty.Action (Sends Succeed)

variable {short : Nat} {lengths : List Nat} {net : Network}

theorem Call.payload_of_sends {me peer : Nat} {call : Call} {payload : Bytes}
    (h : call.sends n me peer = some payload) : payload = call.payload := by
  cases call <;> simp only [Call.sends, Option.ite_none_right_eq_some,
    Option.ite_none_left_eq_some, Option.some.injEq, reduceCtorEq] at h
  · exact h.2.symm
  · exact h.2.symm
  · exact h.2.symm

/-- Actions in lockstep succeed at all players if there is nobody to send to, or if everything that
they may send is within the limit. -/
theorem Network.run_succeed_within (hnet : net.Idle n) {ms : Fin n → Action σ α} {s : Fin n → σ}
    {Q : (Fin n → σ) → (Fin n → α) → Prop} (h : Succeed ms s Q) {R : σ → α → Prop}
    (hsends : ∀ i, Sends False short (ms i) ⟨i, n⟩ (s i) lengths R)
    (hfits : 1 < n → ∀ payload : Bytes, payload.length ≤ short ∨ payload.length ∈ lengths →
      net.pipes.fits payload = true) :
    ∃ s' a net', net.run (List.ofFn fun i => (i.val, (ms i).run ⟨i, n⟩ (s i))) =
        (List.ofFn fun i => ⟨i, .done (s' i) (.ok (a i)), .over⟩, net') ∧ Q s' a := by
  obtain ⟨s', _, net', hrun, a, rfl, hq⟩ := run_lockstep_within hnet h
    fun i answers e he peer hpeer hne payload hsent => by
      have hbounded := (hsends i answers).1 e he
      rw [← Call.payload_of_sends hsent] at hbounded
      exact hfits (by omega) payload hbounded
  exact ⟨s', a, net', hrun, hq⟩

/-- An action that has succeeded has sent all of its long payloads, so they are within the limit. -/
theorem Network.Conveys.fits_of_sends {fits : Bytes → Bool} {seat : Seat} {m : Action σ α} {s : σ}
    {R : σ → α → Prop} (hsends : Sends True short m seat s lengths R)
    {task : Task σ (Except ProtocolError α)}
    (h : Conveys fits seat.players seat.me (m.run seat s) task) {a : α}
    (hok : task.result? = some (.ok a)) {l : Nat} (hl : l ∈ lengths) (hlong : short < l) :
    ∃ payload : Bytes, payload.length = l ∧ fits payload = true := by
  obtain ⟨calls, s', hruns, hcarried⟩ := h.runs_of_result hok
  obtain ⟨e, he, hsucceeded, peer, hpeer, payload, hsent, rfl⟩ :=
    ((Action.Runs.of_ensures hruns hsends).2 a rfl).2 trivial l hl hlong
  exact ⟨payload, rfl, hcarried e he hsucceeded peer hpeer payload hsent⟩

end Sends

end Multiparty
