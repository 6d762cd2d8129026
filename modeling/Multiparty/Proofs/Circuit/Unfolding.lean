import Multiparty.Proofs.Joint.Executor
import Multiparty.Proofs.Joint.Script
import Multiparty.Proofs.Scheduler

/-!
# Circuits as trees of rounds

A circuit unfolds to a tree whose nodes are rounds: each branch of the tree belongs to the answers of
a round. A scheduler that polls the circuit does the same as an executor that goes along its tree.

## Main definitions

* `Future.Unfolds`: a circuit and its tree.
* `Scheduler.toExecutor`: the executor that a scheduler stands for between two circuits.

## Main results

* `Future.Unfolds.bind`, `Future.Unfolds.map`, `Future.Unfolds.joinAll`: the trees of composed circuits.
* `Future.Polled.unfolds`: a poll goes one node along the tree.
* `Scheduler.mapState_run_of_offers`: running a circuit is running its tree.
-/

namespace Multiparty

open Multiparty.Action (Ensures)

variable {S R α β γ : Type}

/-- Requests whose answers are all awaited. -/
def Requests.ofOperands (muls : List (S × S)) (opens : List S) : Requests S :=
  ⟨muls.map (⟨·, true⟩), opens.map (⟨·, true⟩)⟩

namespace Requests

theorem ofOperands_append (muls muls' : List (S × S)) (opens opens' : List S) :
    ofOperands muls opens ++ ofOperands muls' opens' = ofOperands (muls ++ muls') (opens ++ opens') := by
  simp only [ofOperands, List.map_append]
  rfl

theorem append_assoc (i j k : Requests S) : i ++ j ++ k = i ++ (j ++ k) :=
  congrArg₂ Requests.mk (List.append_assoc _ _ _) (List.append_assoc _ _ _)

theorem muls_append (i j : Requests S) : (i ++ j).muls = i.muls ++ j.muls := rfl

theorem opens_append (i j : Requests S) : (i ++ j).opens = i.opens ++ j.opens := rfl

end Requests

namespace Circuit

/-- A branch that is over from the start leaves the rounds to the other one. -/
theorem both_done_none (a : α) (d : Circuit S R β) :
    Circuit.both (.done .none a) d = d.map (a, ·) :=
  after_none _

theorem done_none_bind (a : α) (f : α → Circuit S R β) :
    Circuit.bind f (.done .none a) = f a :=
  after_none _

theorem map_eq_bind (f : α → β) (c : Circuit S R α) :
    c.map f = c.bind fun a => .done .none (f a) := by
  induction c with
  | done i a => exact congrArg (Circuit.done · (f a)) (Requests.append_none i).symm
  | stuck i => rfl
  | wait i resume ih => exact congrArg (Circuit.wait i) (funext₂ ih)

private theorem after_after (i j : Requests S) (c : Circuit S R α) :
    (c.after j).after i = c.after (i ++ j) := by
  cases c with
  | done k a => exact congrArg (Circuit.done · a) (Requests.append_assoc i j k).symm
  | stuck k => exact congrArg Circuit.stuck (Requests.append_assoc i j k).symm
  | wait k resume =>
    simp only [after, Requests.append_assoc, List.drop_drop, Requests.muls_append,
      Requests.opens_append, List.length_append]

private theorem bind_after (f : α → Circuit S R β) (i : Requests S) (c : Circuit S R α) :
    (c.after i).bind f = (c.bind f).after i := by
  cases c with
  | done j a => exact (after_after i j (f a)).symm
  | stuck j => rfl
  | wait j resume => rfl

theorem bind_assoc (f : α → Circuit S R β) (g : β → Circuit S R γ) (c : Circuit S R α) :
    (c.bind f).bind g = c.bind fun a => (f a).bind g := by
  induction c with
  | done i a => exact bind_after g i (f a)
  | stuck i => rfl
  | wait i resume ih => exact congrArg (Circuit.wait i) (funext₂ ih)

end Circuit

namespace Future

/-- The circuit is carried on, round by round, as the tree tells. -/
inductive Unfolds : {α : Type} → Future S R α → Circuit S R α → Prop where
  | ready {α : Type} (a : α) : Unfolds (ready a) (.done .none a)
  | mul {α : Type} {x y : S} {next : S → Future S R α} {resume : List S → List R → Circuit S R α}
      (hnext : ∀ z, Unfolds (next z) (resume [z] [])) :
      Unfolds (mul x y next) (.wait (.ofOperands [(x, y)] []) resume)
  | reveal {α : Type} {x : S} {next : R → Future S R α} {resume : List S → List R → Circuit S R α}
      (hnext : ∀ v, Unfolds (next v) (resume [] [v])) :
      Unfolds (reveal x next) (.wait (.ofOperands [] [x]) resume)
  | both {α β γ : Type} {c : Future S R β} {d : Future S R γ} {next : β → γ → Future S R α}
      {C : Circuit S R β} {D : Circuit S R γ} {N : β × γ → Circuit S R α}
      (hc : Unfolds c C) (hd : Unfolds d D) (hnext : ∀ a b, Unfolds (next a b) (N (a, b))) :
      Unfolds (both c d next) ((Circuit.both C D).bind N)
  /-- The second one of two branches is over. -/
  | first {α β γ : Type} {c : Future S R β} {b : γ} {next : β → γ → Future S R α}
      {C : Circuit S R β} {N : β × γ → Circuit S R α} (hc : Unfolds c C)
      (hnext : ∀ a b, Unfolds (next a b) (N (a, b))) :
      Unfolds (both c (ready b) next) ((C.map (·, b)).bind N)
  /-- The first one of two branches is over. -/
  | second {α β γ : Type} {a : β} {d : Future S R γ} {next : β → γ → Future S R α}
      {D : Circuit S R γ} {N : β × γ → Circuit S R α} (hd : Unfolds d D)
      (hnext : ∀ a b, Unfolds (next a b) (N (a, b))) :
      Unfolds (both (ready a) d next) ((D.map (a, ·)).bind N)

namespace Unfolds

/-- The tree goes on as a circuit with the answers to some requests does. -/
def Waits (f : Future S R α) (muls : List (S × S)) (opens : List S) (tree : Circuit S R α) : Prop :=
  ∃ resume, tree = .wait (.ofOperands muls opens) resume ∧
    ∀ (t u : Ticket) (ps : List S) (vs : List R) (d : Future S R α), Resumes t u f ps vs d →
      d.Unfolds (resume ps vs)

namespace Waits

variable {muls muls' : List (S × S)} {opens opens' : List S} {next : β → γ → Future S R α}
  {N : β × γ → Circuit S R α}

/-- The second branch waits and the first one is over. -/
theorem second {d : Future S R γ} {D : Circuit S R γ} (h : Waits d muls opens D) (a : β)
    (hnext : ∀ a b, Unfolds (next a b) (N (a, b))) :
    Waits (.both (.ready a) d next) muls opens ((D.map (a, ·)).bind N) := by
  obtain ⟨resume, rfl, hresume⟩ := h
  refine ⟨_, rfl, fun t u ps vs g hg => ?_⟩
  cases hg with
  | both hfirst hsecond =>
    cases hfirst
    exact .second (hresume _ _ _ _ _ hsecond) hnext

/-- The first branch waits and the second one is over. -/
theorem first {c : Future S R β} {C : Circuit S R β} (h : Waits c muls opens C) (b : γ)
    (hnext : ∀ a b, Unfolds (next a b) (N (a, b))) :
    Waits (.both c (.ready b) next) muls opens ((C.map (·, b)).bind N) := by
  obtain ⟨resume, rfl, hresume⟩ := h
  refine ⟨_, rfl, fun t u ps vs g hg => ?_⟩
  cases hg with
  | both hfirst hsecond =>
    cases hsecond
    rw [List.append_nil, List.append_nil]
    exact .first (hresume _ _ _ _ _ hfirst) hnext

variable {t u : Ticket} {c₀ c : Future S R β} {d : Future S R γ} {C : Circuit S R β}
  {D : Circuit S R γ}

/-- Both branches wait, and each of them gets its own answers. -/
theorem both (hpolled : Polled t u c₀ muls opens c) (h : Waits c muls opens C)
    (h' : Waits d muls' opens' D) (hnext : ∀ a b, Unfolds (next a b) (N (a, b))) :
    Waits (.both c d next) (muls ++ muls') (opens ++ opens') ((Circuit.both C D).bind N) := by
  obtain ⟨resume, rfl, hresume⟩ := h
  obtain ⟨resume', rfl, hresume'⟩ := h'
  refine ⟨_, congrArg (Circuit.wait · _) (Requests.ofOperands_append _ _ _ _), fun t u _ _ g hg => ?_⟩
  cases hg with
  | both hfirst hsecond =>
    obtain ⟨hps, hvs⟩ := hpolled.length_eq hfirst
    simp only [Requests.ofOperands, List.length_map, ← hps, ← hvs, List.take_left', List.drop_left']
    exact .both (hresume _ _ _ _ _ hfirst) (hresume' _ _ _ _ _ hsecond) hnext

/-- The second branch is over already when the first one waits. -/
theorem both_done (hpolled : Polled t u c₀ muls opens c) (h : Waits c muls opens C) (b : γ)
    (hnext : ∀ a b, Unfolds (next a b) (N (a, b))) :
    Waits (.both c (.ready b) next) muls opens ((Circuit.both C (.done .none b)).bind N) := by
  obtain ⟨resume, rfl, hresume⟩ := h
  refine ⟨_, congrArg (Circuit.wait · _) (Requests.append_none _), fun t u _ _ g hg => ?_⟩
  cases hg with
  | both hfirst hsecond =>
    cases hsecond
    obtain ⟨hps, hvs⟩ := hpolled.length_eq hfirst
    simp only [Requests.ofOperands, List.length_map, ← hps, ← hvs, List.append_nil, List.take_length]
    exact .first (hresume _ _ _ _ _ hfirst) hnext

end Waits

/-- Circuits in sequence. -/
theorem bind {c : Future S R α} {C : Circuit S R α} {f : α → Future S R β} {F : α → Circuit S R β}
    (h : c.Unfolds C) (hf : ∀ a, (f a).Unfolds (F a)) : (c.bind f).Unfolds (C.bind F) := by
  induction h with
  | ready a => exact (Circuit.done_none_bind a F).symm ▸ hf a
  | mul _ ih => exact .mul fun z => ih z hf
  | reveal _ ih => exact .reveal fun v => ih v hf
  | both hc hd _ _ _ ih =>
    rw [Circuit.bind_assoc]
    exact .both hc hd fun a b => ih a b hf
  | first hc _ _ ih =>
    rw [Circuit.bind_assoc]
    exact .first hc fun a b => ih a b hf
  | second hd _ _ ih =>
    rw [Circuit.bind_assoc]
    exact .second hd fun a b => ih a b hf

/-- Circuits with their results transformed. -/
theorem map {c : Future S R α} {C : Circuit S R α} (h : c.Unfolds C) (f : α → β) :
    (c.bind fun a => .ready (f a)).Unfolds (C.map f) := by
  rw [Circuit.map_eq_bind]
  exact h.bind fun a => .ready (f a)

/-- Any number of circuits side by side. -/
theorem joinAll {cs : List (Future S R α)} {Cs : List (Circuit S R α)}
    (h : List.Forall₂ Unfolds cs Cs) : (Future.joinAll cs).Unfolds (Circuit.joinAll Cs) := by
  induction h with
  | nil => exact .ready []
  | cons hc _ ih =>
    rw [Circuit.joinAll, Circuit.map_eq_bind]
    exact .both hc ih fun a as => .ready (a :: as)

end Unfolds

/-- A poll goes one node along the tree. -/
theorem Polled.unfolds {t u : Ticket} {c f : Future S R α} {muls : List (S × S)} {opens : List S}
    (h : Polled t u c muls opens f) {tree : Circuit S R α} (htree : c.Unfolds tree) :
    (∀ a, f = .ready a → tree = .done .none a) ∧
      ((∀ a, f ≠ .ready a) → Unfolds.Waits f muls opens tree) := by
  induction h with
  | ready a =>
    cases htree
    exact ⟨fun _ h => Future.ready.inj h ▸ rfl, fun h => absurd rfl (h _)⟩
  | mul x y next =>
    cases htree with
    | mul hnext =>
      refine ⟨nofun, fun _ => ⟨_, rfl, fun t' u' ps vs d hd => ?_⟩⟩
      cases hd
      exact hnext _
  | reveal x next =>
    cases htree with
    | reveal hnext =>
      refine ⟨nofun, fun _ => ⟨_, rfl, fun t' u' ps vs d hd => ?_⟩⟩
      cases hd
      exact hnext _
  | @waits α β γ t u c c' d d' next muls muls' opens opens' hfirst hsecond hboth ihfirst ihsecond =>
    refine ⟨nofun, fun _ => ?_⟩
    have hsecondwaits (a : β) (ha : c' = .ready a) : ∀ b, d' ≠ .ready b := fun b => hboth a b ha
    cases htree with
    | both hc hd hnext =>
      by_cases hreadyc : ∃ a, c' = .ready a
      · obtain ⟨a, rfl⟩ := hreadyc
        obtain ⟨rfl, rfl⟩ := hfirst.eq_nil_of_ready
        rw [(ihfirst hc).1 a rfl, Circuit.both_done_none]
        exact ((ihsecond hd).2 (hsecondwaits a rfl)).second a hnext
      have hfirstwaits := (ihfirst hc).2 fun a ha => hreadyc ⟨a, ha⟩
      by_cases hreadyd : ∃ b, d' = .ready b
      · obtain ⟨b, rfl⟩ := hreadyd
        obtain ⟨rfl, rfl⟩ := hsecond.eq_nil_of_ready
        rw [(ihsecond hd).1 b rfl, List.append_nil, List.append_nil]
        exact hfirstwaits.both_done hfirst b hnext
      · exact hfirstwaits.both hfirst ((ihsecond hd).2 fun b hb => hreadyd ⟨b, hb⟩) hnext
    | first hc hnext =>
      cases hsecond
      rw [List.append_nil, List.append_nil]
      exact ((ihfirst hc).2 fun a ha => hboth a _ ha rfl).first _ hnext
    | second hd hnext =>
      cases hfirst
      exact ((ihsecond hd).2 (hsecondwaits _ rfl)).second _ hnext
  | joins hfirst hsecond hrest ihfirst ihsecond ih =>
    cases htree with
    | both hc hd hnext =>
      rw [(ihfirst hc).1 _ rfl, (ihsecond hd).1 _ rfl, Circuit.both_done_none]
      exact (Circuit.done_none_bind _ _).symm ▸ ih (hnext _ _)
    | first hc hnext =>
      cases hsecond
      rw [(ihfirst hc).1 _ rfl]
      exact (Circuit.done_none_bind _ _).symm ▸ ih (hnext _ _)
    | second hd hnext =>
      cases hfirst
      rw [(ihsecond hd).1 _ rfl]
      exact (Circuit.done_none_bind _ _).symm ▸ ih (hnext _ _)

end Future

/-! ### Running a circuit along its tree -/

namespace Session

variable {σ τ : Type}

/-- A computation is followed by the same one on a larger state if that is so for everything that it
may come to. -/
private theorem mapState_bind_of_under (put : σ → τ) (c : Session σ α) (f : σ → α → Session σ β)
    (g : τ → α → Session τ β)
    (h : ∀ answers, g (put (c.under answers).1) (c.under answers).2 =
      mapState put (f (c.under answers).1 (c.under answers).2)) :
    mapState put (bind f c) = bind g (mapState put c) := by
  induction c with
  | done s a => exact (h fun _ _ => .error (.send 0)).symm
  | wait s call resume ih =>
    refine congrArg (Session.wait (put s) call) (funext fun reply => ih reply fun answers => ?_)
    let answers' : Answers := fun k c =>
      if k = 0 then if h : call = c then h ▸ reply else .error (.send 0) else answers (k - 1) c
    have hfirst : answers' 0 call = reply := dif_pos rfl
    have hrest : answers'.drop 1 = answers := by
      funext k c
      simp [answers', Answers.drop]
    have hunder : (wait s call resume).under answers' = (resume reply).under answers := by
      rw [under_wait, hfirst, hrest]
    rw [← hunder]
    exact h answers'

/-- Only what a computation may come to matters to what follows. -/
private theorem bind_mapState_congr (put : σ → τ) (c : Session σ α) {f g : τ → α → Session τ β}
    (h : ∀ s a, f (put s) a = g (put s) a) :
    bind f (mapState put c) = bind g (mapState put c) := by
  induction c with
  | done s a => exact h s a
  | wait s call resume ih => exact congrArg (Session.wait (put s) call) (funext ih)

end Session

variable {O K : Type} [Opener O S R] [LinearShare S R K] [CodedRing R]

namespace Executor

omit [Opener O S R] [LinearShare S R K] [CodedRing R] in
private theorem withProcessor_bind (m : Action (Processor O S R K) α)
    (f : α → Action (Processor O S R K) β) :
    (withProcessor (m >>= f) : Action (Executor O S R K) β) =
      withProcessor m >>= fun a => withProcessor (f a) := by
  funext seat x
  refine Session.mapState_bind _ _ _ _ fun p result => ?_
  cases result <;> rfl

/-- An executor serves requests as its processor does. -/
private theorem serve_ofOperands (muls : List (S × S)) (opens : List S) :
    (serve (.ofOperands muls opens) : Action (Executor O S R K) (List S × List R)) =
      withProcessor (Processor.serve muls opens) := by
  have hmuls : (Requests.ofOperands muls opens).muls.map (·.operand) = muls := by
    rw [Requests.ofOperands, List.map_map]
    exact List.map_id muls
  have hopens : (Requests.ofOperands muls opens).opens.map (·.operand) = opens := by
    rw [Requests.ofOperands, List.map_map]
    exact List.map_id opens
  rw [Processor.serve, withProcessor_bind, serve, hmuls, hopens, Requests.ofOperands]
  simp only [List.isEmpty_map, withProcessor_bind, Processor.mulIfAny, Processor.openIfAny]
  split <;> split <;> rfl

/-- A round in which all answers are awaited. -/
theorem round_ofOperands {muls : List (S × S)} {opens : List S} (hsome : muls ≠ [] ∨ opens ≠ [])
    (seat : Seat) (p : Processor O S R K) (rounds : Nat) :
    round (.ofOperands muls opens) seat ⟨p, .none, false, false, rounds⟩ =
      (((Processor.serve muls opens).run seat p).mapState fun p =>
        ⟨p, .none, false, false, rounds⟩).bind fun x served =>
          match served with
          | .error e => .done x (.error (.protocol e))
          | .ok answers => .done { x with rounds := x.rounds + 1 } (.ok answers) := by
  have hmuls : ∀ q ∈ (Requests.ofOperands muls opens).muls, q.awaited = true :=
    List.forall_mem_map.2 fun _ _ => rfl
  have hopens : ∀ q ∈ (Requests.ofOperands muls opens).opens, q.awaited = true :=
    List.forall_mem_map.2 fun _ _ => rfl
  have hempty : (Requests.ofOperands muls opens).isEmpty = false := by
    rw [Requests.isEmpty, Requests.ofOperands]
    simpa only [List.isEmpty_map, Bool.and_eq_false_iff, List.isEmpty_eq_false_iff] using hsome
  simp only [round, Requests.none_append, hempty, Bool.false_eq_true, if_false]
  rw [serve_ofOperands]
  refine Session.bind_mapState_congr _ _ fun p' served => ?_
  cases served with
  | error e => rfl
  | ok answers =>
    simp only [settle, leavesUnclaimed_of_awaited hmuls, leavesUnclaimed_of_awaited hopens,
      isOutOfOrder_of_awaited hmuls, isOutOfOrder_of_awaited hopens, Bool.or_self,
      Bool.false_eq_true, if_false]
    rfl

end Executor

namespace Scheduler

/-- The executor that a scheduler stands for between two circuits. -/
def toExecutor (x : Scheduler O S R K) : Executor O S R K :=
  ⟨x.processor, .none, false, false, x.rounds⟩

/-- A scheduler carries a circuit on as an executor goes along its tree. -/
theorem mapState_run_of_offers {f c : Future S R α} {tree : Circuit S R α} {x : Scheduler O S R K}
    {ps : List S} {vs : List R} (hx : x.buffers.Offers ps vs)
    (hf : f.Resumes x.buffers.muls.nextTicket x.buffers.opens.nextTicket ps vs c)
    (htree : c.Unfolds tree) (seat : Seat) :
    (run f seat x).mapState toExecutor = Executor.runCircuit tree seat x.toExecutor := by
  induction f using Future.wellFounded_step.transGen.induction generalizing x ps vs c tree with
  | _ f ih =>
  obtain ⟨f', b, muls, opens, hpoll, hmuls, hopens, hpolled⟩ := hx.poll hf
  by_cases hready : ∃ a, f' = .ready a
  · obtain ⟨a, rfl⟩ := hready
    rw [run_of_ready hpoll, (hpolled.unfolds htree).1 a rfl]
    rfl
  have hwaits (a : α) : f' ≠ .ready a := fun h => hready ⟨a, h⟩
  obtain ⟨resume, rfl, hresume⟩ := (hpolled.unfolds htree).2 hwaits
  have hsome := hpolled.ne_nil_of_waits hwaits
  have hpending := hx.pending_ne_zero hmuls hopens hsome
  rw [run_of_waits hpoll hwaits hpending, hx.take_fst hmuls hopens, Executor.runCircuit, toExecutor,
    Executor.round_ofOperands hsome, Session.bind_assoc]
  refine (Session.mapState_bind_of_under _ _ _ _ fun answers => ?_).trans
    (congrArg (Session.bind _) (Session.mapState_mapState _ _ _))
  have hlength := Processor.length_serve muls opens seat x.processor answers
  rw [Session.under_mapState]
  generalize ((Processor.serve muls opens).run seat x.processor).under answers = out at *
  obtain ⟨p, e | ⟨ps', vs'⟩⟩ := out
  · rfl
  obtain ⟨hps, hvs⟩ := hlength ps' vs' rfl
  obtain ⟨b', hresolve, hoffers, ht, hu⟩ := hx.resolve hmuls hopens ps' vs'
  obtain ⟨d, hd⟩ := hpolled.resumes hf.plain hps hvs
  simp only [hresolve]
  have htree := hresume _ _ _ _ _ hd
  rw [← ht, ← hu] at hd
  exact (ih f' (hx.later hmuls hopens hpoll hsome) (x := ⟨p, b', x.rounds + 1⟩) hoffers hd
    htree).symm

end Scheduler

end Multiparty
