import Multiparty.Preprocessing.Bundle
import Multiparty.Share.Authenticated
import Multiparty.Share.Replicated
import Multiparty.Share.Threshold
import Multiparty.Storage.Basic

/-!
# Stored forms of shares and preprocessed material

## Main definitions

* `Stored` instances for scheme tags, shares, triples, counts and bundles.
* `Bundle.load`: a bundle from the bytes of a file, refused if it is for another scheme.
-/

namespace Multiparty

variable {R : Type} [CodedRing R]

/-- A scheme is its tag in four bytes, or its name. -/
instance : Stored SharingScheme where
  binary s := Bytes.ofNatLE 4 s.tag
  readBinary b :=
    match BinaryReader.natLE 4 b with
    | some (tag, rest) => (SharingScheme.ofTag? tag).map (·, rest)
    | none => none
  text s := "\"" ++ s.name ++ "\""
  readText := JsonReader.variant (SharingScheme.all.map fun s => (s.name, s))

/-- An authenticated share is its value followed by its authentication share. -/
instance : Stored (MacShare R) where
  binary s := CodedRing.toBytes s.value ++ CodedRing.toBytes s.mac
  readBinary b :=
    match (CodedRing.readBinary b : Option (R × Bytes)) with
    | none => none
    | some (value, b) =>
      match CodedRing.readBinary b with
      | none => none
      | some (mac, b) => some (⟨value, mac⟩, b)
  text s := Stored.objectText
    [("value", CodedRing.toText s.value), ("mac", CodedRing.toText s.mac)]
  readText := do
    let (value, mac) ← JsonReader.fields
      [⟨"value", (·.1.isSome), fun d => do pure (some (← CodedRing.readText), d.2)⟩,
        ⟨"mac", (·.2.isSome), fun d => do pure (d.1, some (← CodedRing.readText))⟩]
      false ((none, none) : Option R × Option R)
    pure ⟨← JsonReader.require value, ← JsonReader.require mac⟩

/-- A replicated share is its two parts. -/
instance : Stored (ReplicatedShare R) where
  binary s := CodedRing.toBytes s.own ++ CodedRing.toBytes s.next
  readBinary b :=
    match (CodedRing.readBinary b : Option (R × Bytes)) with
    | none => none
    | some (own, b) =>
      match CodedRing.readBinary b with
      | none => none
      | some (next, b) => some (⟨own, next⟩, b)
  text s := Stored.objectText
    [("shares", Stored.listText [CodedRing.toText s.own, CodedRing.toText s.next])]
  readText := do
    let parts ← JsonReader.fields
      [⟨"shares", (·.isSome), fun _ => do
        pure (some (← JsonReader.exactly 2 CodedRing.readText))⟩]
      false (none : Option (List R))
    match ← JsonReader.require parts with
    | [own, next] => pure ⟨own, next⟩
    | _ => JsonReader.fail .malformed

/-- A threshold share is its evaluation. -/
instance : Stored (ThresholdShare R) where
  binary s := CodedRing.toBytes s.value
  readBinary b := (CodedRing.readBinary b).map fun (value, rest) => (⟨value⟩, rest)
  text s := CodedRing.toText s.value
  readText := do pure ⟨← CodedRing.readText⟩

/-- Counts are three numbers. -/
instance : Stored PreprocessingCounts where
  binary c := Stored.binary c.triples ++ Stored.binary c.bits ++ Stored.binary c.inputMasks
  readBinary b :=
    match (Stored.readBinary b : Option (Nat × Bytes)) with
    | none => none
    | some (triples, b) =>
      match (Stored.readBinary b : Option (Nat × Bytes)) with
      | none => none
      | some (bits, b) =>
        match (Stored.readBinary b : Option (Nat × Bytes)) with
        | none => none
        | some (masks, b) => some (⟨triples, bits, masks⟩, b)
  text c := Stored.objectText
    [("triples", Stored.text c.triples), ("bits", Stored.text c.bits),
      ("input_masks", Stored.text c.inputMasks)]
  readText := do
    let (triples, bits, masks) ← JsonReader.fields
      [⟨"triples", (·.1.isSome), fun d => do pure (some (← Stored.readText), d.2)⟩,
        ⟨"bits", (·.2.1.isSome), fun d => do pure (d.1, some (← Stored.readText), d.2.2)⟩,
        ⟨"input_masks", (·.2.2.isSome), fun d => do
          pure (d.1, d.2.1, some (← Stored.readText))⟩]
      false ((none, none, none) : Option Nat × Option Nat × Option Nat)
    pure ⟨← JsonReader.require triples, ← JsonReader.require bits, ← JsonReader.require masks⟩

variable {S K : Type} [Stored S] [Stored K]

/-- A triple is its three shares. -/
instance : Stored (Triple S) where
  binary t := Stored.binary t.a ++ Stored.binary t.b ++ Stored.binary t.c
  readBinary b :=
    match (Stored.readBinary b : Option (S × Bytes)) with
    | none => none
    | some (x, b) =>
      match (Stored.readBinary b : Option (S × Bytes)) with
      | none => none
      | some (y, b) =>
        match (Stored.readBinary b : Option (S × Bytes)) with
        | none => none
        | some (z, b) => some (⟨x, y, z⟩, b)
  text t := Stored.listText [Stored.text t.a, Stored.text t.b, Stored.text t.c]
  readText := do
    match ← JsonReader.exactly 3 Stored.readText with
    | [a, b, c] => pure ⟨a, b, c⟩
    | _ => JsonReader.fail .malformed

namespace Bundle

/-- The members of a stored bundle that have been read. -/
structure Draft (S R K : Type) where
  scheme : Option SharingScheme := none
  parties : Option Nat := none
  party : Option Nat := none
  key : Option K := none
  triples : Option (List (Triple S)) := none
  bits : Option (List S) := none
  inputMasks : Option (List (List S)) := none
  plainMasks : Option (List R) := none

/-- The members of a stored bundle by name. -/
def members : List (JsonReader.Field (Draft S R K)) :=
  [⟨"scheme", (·.scheme.isSome), fun d => do
      pure { d with scheme := some (← Stored.readText) }⟩,
    ⟨"num_parties", (·.parties.isSome), fun d => do
      pure { d with parties := some (← Stored.readText) }⟩,
    ⟨"party_id", (·.party.isSome), fun d => do
      pure { d with party := some (← Stored.readText) }⟩,
    ⟨"mac_key", (·.key.isSome), fun d => do
      pure { d with key := some (← Stored.readText) }⟩,
    ⟨"beaver_triples", (·.triples.isSome), fun d => do
      pure { d with triples := some (← Stored.readText) }⟩,
    ⟨"random_bits", (·.bits.isSome), fun d => do
      pure { d with bits := some (← Stored.readText) }⟩,
    ⟨"input_masks", (·.inputMasks.isSome), fun d => do
      pure { d with inputMasks := some (← Stored.readText) }⟩,
    ⟨"input_masks_plain", (·.plainMasks.isSome), fun d => do
      pure { d with plainMasks := some (← Stored.readText) }⟩]

/-- The bytes of a stored bundle. -/
def toBytes (b : Bundle S R K) : Bytes :=
  Stored.binary b.scheme ++ Stored.binary b.parties ++ Stored.binary b.party ++
    Stored.binary b.key ++ Stored.binary b.triples ++ Stored.binary b.bits ++
    Stored.binary b.inputMasks ++ Stored.binary b.plainMasks

/-- Reads a stored bundle from the front. -/
def readBytes : BinaryReader (Bundle S R K) :=
  BinaryReader.bind Stored.readBinary fun scheme =>
  BinaryReader.bind Stored.readBinary fun parties =>
  BinaryReader.bind Stored.readBinary fun party =>
  BinaryReader.bind Stored.readBinary fun key =>
  BinaryReader.bind Stored.readBinary fun triples =>
  BinaryReader.bind Stored.readBinary fun bits =>
  BinaryReader.bind Stored.readBinary fun inputMasks =>
  BinaryReader.bind Stored.readBinary fun plainMasks => fun rest =>
    some (⟨scheme, parties, party, key, triples, bits, inputMasks, plainMasks⟩, rest)

/-- A bundle is its fields in order. -/
instance : Stored (Bundle S R K) where
  binary := toBytes
  readBinary := readBytes
  text b := Stored.objectText
    [("scheme", Stored.text b.scheme), ("num_parties", Stored.text b.parties),
      ("party_id", Stored.text b.party), ("mac_key", Stored.text b.key),
      ("beaver_triples", Stored.text b.triples), ("random_bits", Stored.text b.bits),
      ("input_masks", Stored.text b.inputMasks), ("input_masks_plain", Stored.text b.plainMasks)]
  readText := do
    let d ← JsonReader.fields members false ({} : Draft S R K)
    pure
      { scheme := ← JsonReader.require d.scheme
        parties := ← JsonReader.require d.parties
        party := ← JsonReader.require d.party
        key := ← JsonReader.require d.key
        triples := ← JsonReader.require d.triples
        bits := ← JsonReader.require d.bits
        inputMasks := ← JsonReader.require d.inputMasks
        plainMasks := ← JsonReader.require d.plainMasks }

/-- Why a file of preprocessed material is refused. -/
inductive LoadError where
  /-- The bytes are not the stored form of a bundle. -/
  | undecodable
  /-- The material was dealt for another scheme. -/
  | wrongScheme (dealt expected : SharingScheme)
  deriving DecidableEq

/-- The wording of a refused file, if it has one. -/
def LoadError.message : LoadError → Option String
  | undecodable => none
  | wrongScheme dealt expected =>
    some ("preprocessing was dealt for " ++ dealt.name ++ ", expected " ++ expected.name)

/-- The bundle at the front of a file. What follows it is ignored; the scheme is compared only
after everything has been decoded. -/
def load [LinearShare S R K] (file : Bytes) : Except LoadError (Bundle S R K) :=
  match (readBytes file : Option (Bundle S R K × Bytes)) with
  | none => .error .undecodable
  | some (b, _) =>
    if b.scheme = LinearShare.scheme S then .ok b
    else .error (.wrongScheme b.scheme (LinearShare.scheme S))

end Bundle

end Multiparty
