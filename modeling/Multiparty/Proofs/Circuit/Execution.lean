import Multiparty.Circuit.Fold
import Multiparty.Proofs.Circuit.Trace

/-!
# What a circuit computes

A circuit is built from products and openings, in sequence and in branches side by side, where later
requests may depend on earlier answers. Given an answer to each request it has a result, and its
trace tells which answer was given to which request. When and how the requests are answered plays no
part here.

## Main definitions

* `Future.Plain`: circuits of this kind, from their beginning.
* `AnsweredTrace`, `AnsweredBatch`: traces and rounds that show the answers too.
* `Future.Executes`: what a circuit asks for, what is answered, and what comes out.

## Main results

* `Future.Plain.bind`, `Future.Plain.joinAll`: such circuits in sequence and side by side.
* `Future.Plain.exists_executes`: every circuit comes to an end.
-/

namespace Multiparty

variable {S R α β : Type}

/-- A trace of requests with their answers. -/
abbrev AnsweredTrace (S R : Type) : Type := Trace ((S × S) × S) (S × R)

/-- A round of requests with their answers. -/
abbrev AnsweredBatch (S R : Type) : Type := Batch ((S × S) × S) (S × R)

namespace Future

/-- The circuit is built from products and openings, in sequence and side by side, and nothing of it
has been requested yet. -/
def Plain {α : Type} : Future S R α → Prop
  | ready _ => True
  | mul _ _ next => ∀ z, (next z).Plain
  | reveal _ next => ∀ v, (next v).Plain
  | both first second next => first.Plain ∧ second.Plain ∧ ∀ a b, (next a b).Plain
  | _ => False

/-- Given the answers of the trace to its requests, the circuit ends with a result. -/
inductive Executes : {α : Type} → Future S R α → AnsweredTrace S R → α → Prop where
  | ready {α : Type} (a : α) : Executes (ready a) .done a
  | mul {α : Type} {x y z : S} {next : S → Future S R α} {rest : AnsweredTrace S R} {a : α}
      (hrest : Executes (next z) rest a) : Executes (mul x y next) (.mul ((x, y), z) rest) a
  | reveal {α : Type} {x : S} {v : R} {next : R → Future S R α} {rest : AnsweredTrace S R} {a : α}
      (hrest : Executes (next v) rest a) : Executes (reveal x next) (.reveal (x, v) rest) a
  | both {α β γ : Type} {c : Future S R β} {d : Future S R γ} {next : β → γ → Future S R α}
      {first second rest : AnsweredTrace S R} {a : α} {b : β} {b' : γ} (hfirst : Executes c first b)
      (hsecond : Executes d second b') (hrest : Executes (next b b') rest a) :
      Executes (both c d next) (.join first second rest) a

namespace Plain

theorem bind {f : α → Future S R β} {c : Future S R α} (h : c.Plain) (hf : ∀ a, (f a).Plain) :
    (c.bind f).Plain := by
  induction c with
  | ready a => exact hf a
  | mul x y next ih => exact fun z => ih z (h z) hf
  | reveal x next ih => exact fun v => ih v (h v) hf
  | both first second next _ _ ih => exact ⟨h.1, h.2.1, fun a b => ih a b (h.2.2 a b) hf⟩
  | awaitProduct | awaitValue | abandon | stuck => exact h.elim

theorem joinAll {cs : List (Future S R α)} (h : ∀ c ∈ cs, c.Plain) :
    (Future.joinAll cs).Plain := by
  induction cs with
  | nil => exact trivial
  | cons c cs ih =>
    exact ⟨h c List.mem_cons_self, ih fun d hd => h d (List.mem_cons_of_mem c hd),
      fun _ _ => trivial⟩

/-- Whatever is answered, the circuit comes to an end. -/
theorem exists_executes [Inhabited S] [Inhabited R] {c : Future S R α} (h : c.Plain) :
    ∃ t a, c.Executes t a := by
  induction c with
  | ready a => exact ⟨_, a, .ready a⟩
  | mul x y next ih =>
    obtain ⟨t, a, hrest⟩ := ih default (h default)
    exact ⟨_, a, .mul hrest⟩
  | reveal x next ih =>
    obtain ⟨t, a, hrest⟩ := ih default (h default)
    exact ⟨_, a, .reveal hrest⟩
  | both first second next ihfirst ihsecond ih =>
    obtain ⟨_, b, hfirst⟩ := ihfirst h.1
    obtain ⟨_, b', hsecond⟩ := ihsecond h.2.1
    obtain ⟨_, a, hrest⟩ := ih b b' (h.2.2 b b')
    exact ⟨_, a, .both hfirst hsecond hrest⟩
  | awaitProduct | awaitValue | abandon | stuck => exact h.elim

end Plain

end Future

end Multiparty
