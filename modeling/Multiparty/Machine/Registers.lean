import Multiparty.Share.Basic

/-!
# Named shares

A machine keeps shares under names. Local instructions compute with them and need nothing but the
share that a public value has.

## Main definitions

* `Registers`: shares by name.
* `LocalInstruction`: what can be done with them locally.
* `LocalInstruction.run`: carries out a local instruction.
-/

namespace Multiparty

/-- Shares by name, the latest one first. -/
structure Registers (S : Type) where
  entries : List (String × S)
  deriving DecidableEq

namespace Registers

variable {S : Type}

/-- No share at all. -/
def empty : Registers S := ⟨[]⟩

/-- The share with a name. -/
def get? (r : Registers S) (name : String) : Option S := r.entries.lookup name

/-- Puts a share in the place of the one with the same name, if there is one. -/
def set (r : Registers S) (name : String) (s : S) : Registers S :=
  ⟨(name, s) :: r.entries.filter fun e => e.1 ≠ name⟩

/-- Stores shares under a common name followed by a dot and their number. -/
def setAll (r : Registers S) (name : String) (shares : List S) : Registers S :=
  shares.zipIdx.foldl (fun r (s, i) => r.set (name ++ "." ++ toString i) s) r

@[simp] theorem get?_set_self (r : Registers S) (name : String) (s : S) :
    (r.set name s).get? name = some s := by
  simp [get?, set]

end Registers

/-- Why a local instruction is refused. The registers stay as they are. -/
inductive RegisterFault where
  /-- There is no share with that name. -/
  | noRegister (name : String)
  /-- Shares have no slot with that index. -/
  | noSlot (slot : Nat)
  deriving DecidableEq

/-- What can be done with named shares locally. -/
inductive LocalInstruction (S R : Type) where
  /-- Stores the own share of a public value. -/
  | constant (target : String) (v : R)
  | store (target : String) (s : S)
  | add (target a b : String)
  | sub (target a b : String)
  | neg (target a : String)
  | scale (target a : String) (v : R)
  /-- Stores a share with `v` added to one of its slots. -/
  | tamper (target a : String) (slot : Nat) (v : R)
  /-- Shows a share. -/
  | inspect (a : String)
  /-- Compares two shares. -/
  | compare (a b : String)

/-- What a local instruction answers. -/
inductive LocalAnswer (S : Type) where
  | done
  | share (s : S)
  | truth (b : Bool)
  deriving DecidableEq

namespace LocalInstruction

variable {S R K : Type} [LinearShare S R K] [CodedRing R] [DecidableEq S]

/-- The share with a name, which must exist. -/
def fetch (r : Registers S) (name : String) : Except RegisterFault S :=
  match r.get? name with
  | some s => .ok s
  | none => .error (.noRegister name)

/-- Carries out a local instruction, where `shareOf` gives the own share of a public value. -/
def run (shareOf : R → S) (r : Registers S) :
    LocalInstruction S R → Except RegisterFault (LocalAnswer S × Registers S)
  | constant target v => .ok (.done, r.set target (shareOf v))
  | store target s => .ok (.done, r.set target s)
  | add target a b => do pure (.done, r.set target ((← fetch r a) + (← fetch r b)))
  | sub target a b => do pure (.done, r.set target ((← fetch r a) - (← fetch r b)))
  | neg target a => do pure (.done, r.set target (-(← fetch r a)))
  | scale target a v => do pure (.done, r.set target (LinearShare.scale (← fetch r a) v))
  | tamper target a slot v => do
    match LinearShare.tamper? (← fetch r a) slot v with
    | some s => pure (.done, r.set target s)
    | none => .error (.noSlot slot)
  | inspect a => do pure (.share (← fetch r a), r)
  | compare a b => do pure (.truth (decide ((← fetch r a) = (← fetch r b))), r)

end LocalInstruction

end Multiparty
