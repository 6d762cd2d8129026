import Mathlib
import Multiparty.Proofs.Joint.Circuit

/-!
# Scripts

A script is a computation on shares as one writes it down: products and openings of linear
combinations of what is there, one after another or side by side, where later parts may depend on
the values opened by earlier ones. It can be evaluated in the clear, and it is computed by a circuit
of every party. The circuits of all parties, put to valid sharings, go on in step and end with valid
sharings of what the evaluation in the clear yields.

## Main definitions

* `Wire`: linear combinations of given shares and public constants.
* `Script`: the syntax.
* `Script.eval`: evaluation in the clear.
* `Script.circuit`: the circuit of one party.

## Main results

* `Script.faithful`: the circuits of all parties go on in step and agree with the evaluation.
-/

namespace Multiparty

/-- A linear combination of given shares and public constants. -/
inductive Wire (R : Type) where
  /-- The share with a number, or a share of zero if there are not so many. -/
  | share (k : Nat)
  /-- A public constant. -/
  | const (v : R)
  | add (a b : Wire R)
  | sub (a b : Wire R)
  | neg (a : Wire R)
  /-- A multiple by a public constant. -/
  | scale (a : Wire R) (v : R)

namespace Wire

variable {S R K : Type} [LinearShare S R K] [CodedRing R]

/-- The value, given the values of the shares. -/
def eval (env : List R) : Wire R → R
  | share k => env.getD k 0
  | const v => v
  | add a b => a.eval env + b.eval env
  | sub a b => a.eval env - b.eval env
  | neg a => -a.eval env
  | scale a v => a.eval env * v

/-- The share of one party, given its shares of public constants. -/
def shareOf (constant : R → S) (env : List S) : Wire R → S
  | share k => env.getD k 0
  | const v => constant v
  | add a b => a.shareOf constant env + b.shareOf constant env
  | sub a b => a.shareOf constant env - b.shareOf constant env
  | neg a => -a.shareOf constant env
  | scale a v => LinearShare.scale (a.shareOf constant env) v

variable {n : Nat} {V : Sharing S n} {constant : Fin n → R → S}

/-- The shares of all parties are a sharing of the value. -/
theorem valid (hconstant : ∀ v, V.Valid (fun i => constant i v) v) (env : List V.Shared)
    (a : Wire R) :
    V.Valid (fun i => a.shareOf (constant i) (env.map (·.shares i)))
      (a.eval (env.map (·.value))) := by
  induction a with
  | share k =>
    simp only [shareOf, eval, List.getD_eq_getElem?_getD, List.getElem?_map]
    cases env[k]? with
    | none => exact V.zero
    | some x => exact x.valid
  | const v => exact hconstant v
  | add a b iha ihb => exact V.add iha ihb
  | sub a b iha ihb => exact V.sub iha ihb
  | neg a ih => exact V.neg ih
  | scale a v ih => exact V.scale ih v

/-- The shares of all parties, with their value. -/
def shared (hconstant : ∀ v, V.Valid (fun i => constant i v) v) (env : List V.Shared)
    (a : Wire R) : V.Shared :=
  ⟨fun i => a.shareOf (constant i) (env.map (·.shares i)), a.eval (env.map (·.value)),
    a.valid hconstant env⟩

end Wire

/-- A computation on shares. It yields shares, and the values that were opened on the way. -/
inductive Script (R : Type) where
  /-- Yields shares that are there. -/
  | give (ws : List (Wire R))
  /-- A product of two shares. -/
  | mul (a b : Wire R)
  /-- Opens a share. -/
  | reveal (a : Wire R)
  /-- Continues with a script that depends on the opened values. The shares that the first part
  yields come after those that were there before. -/
  | andThen (p : Script R) (q : List R → Script R)
  /-- Two scripts side by side. -/
  | both (p q : Script R)
  /-- Any number of scripts side by side. -/
  | all (k : Nat) (ps : Fin k → Script R)

namespace Script

/-- What a script comes to in the clear. -/
structure Outcome (R : Type) where
  /-- The values of the shares that it yields. -/
  shared : List R
  /-- The opened values. -/
  opened : List R
  /-- The number of multiplications. -/
  products : Nat

variable {S R K : Type} [LinearShare S R K] [CodedRing R]

/-- Evaluation in the clear, given the values of the shares that are there. -/
def eval : Script R → (env : List R) → Outcome R
  | give ws, env => ⟨ws.map (·.eval env), [], 0⟩
  | mul a b, env => ⟨[a.eval env * b.eval env], [], 1⟩
  | reveal a, env => ⟨[], [a.eval env], 0⟩
  | andThen p q, env =>
    let first := p.eval env
    let second := (q first.opened).eval (env ++ first.shared)
    ⟨second.shared, first.opened ++ second.opened, first.products + second.products⟩
  | both p q, env =>
    let left := p.eval env
    let right := q.eval env
    ⟨left.shared ++ right.shared, left.opened ++ right.opened, left.products + right.products⟩
  | all k ps, env =>
    let outcomes := (List.finRange k).map fun j => (ps j).eval env
    ⟨outcomes.flatMap (·.shared), outcomes.flatMap (·.opened), (outcomes.map (·.products)).sum⟩

/-- The circuit of one party, given its shares of public constants and the shares that are
there. -/
def circuit (constant : R → S) : Script R → (env : List S) → Circuit S R (List S × List R)
  | give ws, env => Circuit.pure (ws.map (·.shareOf constant env), [])
  | mul a b, env =>
    (Circuit.mul (a.shareOf constant env) (b.shareOf constant env)).map fun z => ([z], [])
  | reveal a, env => (Circuit.reveal (a.shareOf constant env)).map fun v => ([], [v])
  | andThen p q, env =>
    (p.circuit constant env).bind fun first =>
      ((q first.2).circuit constant (env ++ first.1)).map fun second =>
        (second.1, first.2 ++ second.2)
  | both p q, env =>
    (Circuit.both (p.circuit constant env) (q.circuit constant env)).map fun r =>
      (r.1.1 ++ r.2.1, r.1.2 ++ r.2.2)
  | all k ps, env =>
    (Circuit.joinAll ((List.finRange k).map fun j => (ps j).circuit constant env)).map fun rs =>
      (rs.flatMap (·.1), rs.flatMap (·.2))

variable {n : Nat} {V : Sharing S n} {constant : Fin n → R → S}

/-- The results of all parties are valid sharings of the values of an outcome, and its opened
values. -/
def Yields (V : Sharing S n) (o : Outcome R) (results : Fin n → List S × List R) : Prop :=
  ∃ out : List V.Shared, out.map (·.value) = o.shared ∧
    results = fun i => (out.map (·.shares i), o.opened)

namespace Yields

theorem append {o o' : Outcome R} {r r' : Fin n → List S × List R} (h : Yields V o r)
    (h' : Yields V o' r') (products : Nat) :
    Yields V ⟨o.shared ++ o'.shared, o.opened ++ o'.opened, products⟩
      fun i => ((r i).1 ++ (r' i).1, (r i).2 ++ (r' i).2) := by
  obtain ⟨out, hout, rfl⟩ := h
  obtain ⟨out', hout', rfl⟩ := h'
  refine ⟨out ++ out', by rw [List.map_append, hout, hout'], ?_⟩
  simp only [List.map_append]

theorem flatMap {os : List (Outcome R)} {rs : List (Fin n → List S × List R)}
    (h : List.Forall₂ (Yields V) os rs) (products : Nat) :
    Yields V ⟨os.flatMap (·.shared), os.flatMap (·.opened), products⟩
      fun i => ((rs.map (· i)).flatMap (·.1), (rs.map (· i)).flatMap (·.2)) := by
  induction h with
  | nil => exact ⟨[], rfl, rfl⟩
  | cons hr _ ih => exact hr.append ih products

end Yields

/-- The circuits of all parties go on in step, make as many multiplications as the evaluation in the
clear, and agree with it. -/
theorem faithful (hconstant : ∀ v, V.Valid (fun i => constant i v) v) (p : Script R)
    (env : List V.Shared) :
    Faithful V (Yields V (p.eval (env.map (·.value))))
      (fun i => p.circuit (constant i) (env.map (·.shares i)))
      (p.eval (env.map (·.value))).products := by
  induction p generalizing env with
  | give ws =>
    refine .pure ⟨ws.map (Wire.shared hconstant env), ?_, ?_⟩
    · rw [List.map_map]
      rfl
    · simp only [List.map_map]
      rfl
  | mul a b =>
    refine ((Faithful.mul (a.shared hconstant env) (b.shared hconstant env)).mono ?_).map
      fun _ z => ([z], [])
    rintro _ ⟨z, hz, rfl⟩
    exact ⟨[z], congrArg ([·]) hz, rfl⟩
  | reveal a =>
    refine ((Faithful.reveal (a.shared hconstant env)).mono ?_).map fun _ v => ([], [v])
    rintro _ rfl
    exact ⟨[], rfl, rfl⟩
  | andThen p q ihp ihq =>
    refine (ihp env).bind ?_
    rintro _ ⟨out, hout, rfl⟩
    have hsecond := ihq (p.eval (env.map (·.value))).opened (env ++ out)
    simp only [List.map_append, hout] at hsecond
    refine (hsecond.mono ?_).map fun _ second => (second.1, _ ++ second.2)
    rintro _ ⟨out', hout', rfl⟩
    exact ⟨out', hout', rfl⟩
  | both p q ihp ihq =>
    refine (((ihp env).both (ihq env)).mono ?_).map fun _ r => (r.1.1 ++ r.2.1, r.1.2 ++ r.2.2)
    rintro r ⟨hfst, hsnd⟩
    exact hfst.append hsnd _
  | all k ps ih =>
    have hjoin := Faithful.joinAll (List.finRange k) fun j _ => ih j env
    simp only [eval, circuit, List.map_map]
    refine (hjoin.mono ?_).map fun _ rs => (rs.flatMap (·.1), rs.flatMap (·.2))
    rintro _ ⟨rs, hrs, rfl⟩
    exact .flatMap (List.forall₂_map_left_iff.2 hrs) _

end Script

end Multiparty
