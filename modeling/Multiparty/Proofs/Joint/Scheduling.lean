import Multiparty.Proofs.Circuit.Unfolding

/-!
# Scripts on schedulers

A script is computed by a circuit that a scheduler can poll. It unfolds to the tree of rounds of the
script, which is known to agree with the evaluation in the clear.

## Main definitions

* `Script.future`: the circuit of one party, to be polled.

## Main results

* `Script.unfolds`: the circuit unfolds to the tree of the script.
-/

namespace Multiparty

namespace Script

variable {S R K : Type} [LinearShare S R K] [CodedRing R]

/-- The circuit of one party to be polled, given its shares of public constants and the shares that
are there. -/
def future (constant : R → S) : Script R → (env : List S) → Future S R (List S × List R)
  | give ws, env => .ready (ws.map (·.shareOf constant env), [])
  | mul a b, env => .mul (a.shareOf constant env) (b.shareOf constant env) fun z => .ready ([z], [])
  | reveal a, env => .reveal (a.shareOf constant env) fun v => .ready ([], [v])
  | andThen p q, env =>
    (p.future constant env).bind fun first =>
      ((q first.2).future constant (env ++ first.1)).bind fun second =>
        .ready (second.1, first.2 ++ second.2)
  | both p q, env =>
    .both (p.future constant env) (q.future constant env) fun first second =>
      .ready (first.1 ++ second.1, first.2 ++ second.2)
  | all k ps, env =>
    (Future.joinAll ((List.finRange k).map fun j => (ps j).future constant env)).bind fun rs =>
      .ready (rs.flatMap (·.1), rs.flatMap (·.2))

omit [CodedRing R] in
/-- Nothing of the circuit has been requested yet. -/
theorem plain_future (constant : R → S) (p : Script R) (env : List S) :
    (p.future constant env).Plain := by
  induction p generalizing env with
  | give ws => exact trivial
  | mul a b => exact fun _ => trivial
  | reveal a => exact fun _ => trivial
  | andThen p q ihp ihq => exact (ihp env).bind fun first => (ihq _ _).bind fun _ => trivial
  | both p q ihp ihq => exact ⟨ihp env, ihq env, fun _ _ => trivial⟩
  | all k ps ih =>
    exact (Future.Plain.joinAll (List.forall_mem_map.2 fun j _ => ih j env)).bind fun _ => trivial

/-- The circuit unfolds to the tree of the script. -/
theorem unfolds (constant : R → S) (p : Script R) (env : List S) :
    (p.future constant env).Unfolds (p.circuit constant env) := by
  induction p generalizing env with
  | give ws => exact .ready _
  | mul a b => exact .mul fun _ => .ready _
  | reveal a => exact .reveal fun _ => .ready _
  | andThen p q ihp ihq => exact (ihp env).bind fun first => (ihq _ _).map _
  | both p q ihp ihq =>
    rw [circuit, Circuit.map_eq_bind]
    exact .both (ihp env) (ihq env) fun _ _ => .ready _
  | all k ps ih =>
    refine (Future.Unfolds.joinAll ?_).map _
    rw [List.forall₂_map_left_iff, List.forall₂_map_right_iff]
    exact List.forall₂_same.2 fun j _ => ih j env

end Script

end Multiparty
