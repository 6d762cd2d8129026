import Multiparty.Preprocessing.Bundle

/-!
# Altered material

Material may be altered after it was dealt, to try out what the protocols notice: an element is
changed by adding a clear value to it, or the end of a list is cut off.

## Main definitions

* `Alteration`: a single change.
* `Alteration.alter?`: the bundle after a change, if it concerns something that exists.
* `Alteration.alterAll?`: changes of the bundles of several parties.
-/

namespace Multiparty

/-- A component of a triple. -/
inductive TriplePart where
  | a
  | b
  | c
  deriving DecidableEq

/-- A change of the material of one party. -/
inductive Alteration (R : Type) where
  /-- Adds `v` to a slot of a share of a triple. -/
  | triple (part : TriplePart) (index slot : Nat) (v : R)
  /-- Adds `v` to a slot of a shared bit. -/
  | bit (index slot : Nat) (v : R)
  /-- Adds `v` to a plain mask. -/
  | plainMask (index : Nat) (v : R)
  /-- Keeps only the first triples. -/
  | keepTriples (n : Nat)
  /-- Keeps only the first plain masks. -/
  | keepPlainMasks (n : Nat)
  /-- Keeps only the masks of the first owners. -/
  | keepMaskOwners (n : Nat)
  deriving DecidableEq

namespace Alteration

variable {S R K : Type}

/-- Changes the item at an index, if there is one and it can be changed. -/
def modifyAt? {α : Type} (l : List α) (index : Nat) (f : α → Option α) : Option (List α) :=
  match l[index]? with
  | none => none
  | some a => (f a).map (l.set index)

/-- Changes one component of a triple. -/
def modifyPart? (f : S → Option S) (t : Triple S) : TriplePart → Option (Triple S)
  | .a => (f t.a).map fun x => { t with a := x }
  | .b => (f t.b).map fun x => { t with b := x }
  | .c => (f t.c).map fun x => { t with c := x }

/-- The changed material. -/
def alter? [LinearShare S R K] [CodedRing R] (b : Bundle S R K) :
    Alteration R → Option (Bundle S R K)
  | triple part index slot v =>
    (modifyAt? b.triples index fun t =>
      modifyPart? (fun x => LinearShare.tamper? x slot v) t part).map
        fun triples => { b with triples := triples }
  | bit index slot v =>
    (modifyAt? b.bits index fun x => LinearShare.tamper? x slot v).map
      fun bits => { b with bits := bits }
  | plainMask index v =>
    (modifyAt? b.plainMasks index fun x => some (x + v)).map
      fun plainMasks => { b with plainMasks := plainMasks }
  | keepTriples n => some { b with triples := b.triples.take n }
  | keepPlainMasks n => some { b with plainMasks := b.plainMasks.take n }
  | keepMaskOwners n => some { b with inputMasks := b.inputMasks.take n }

/-- The bundles of all parties after changes, each of which names its party. -/
def alterAll? [LinearShare S R K] [CodedRing R] (changes : List (Nat × Alteration R))
    (bundles : List (Bundle S R K)) : Option (List (Bundle S R K)) :=
  changes.foldlM (fun bs (party, change) => modifyAt? bs party fun b => change.alter? b) bundles

end Alteration

end Multiparty
