import Mathlib
import Multiparty.Proofs.Ring.Mersenne
import Multiparty.Proofs.Storage.Layout
import Multiparty.Proofs.Suite

/-!
# Files of preprocessed material

A stored bundle is laid out as its fields in order, down to the elements of which shares and keys
consist. So a file is read back as it was written whatever stands behind it, a file cut short is
refused, and there is no second way to write the same bundle: what is read is exactly what would be
written. Bytes that encode no element are refused wherever an element is expected.

## Main definitions

* `Bundle.layout`: the numbers and elements of a stored bundle in order.

## Main results

* `Bundle.laidOut`: bundles are written and read by their layouts.
* `Mersenne.forall_toBytes_ne_iff`: which bytes encode no residue.
* `Suite.IsStandard.load_canonical`: files of bundles are read back, and only canonical ones.
-/

namespace Multiparty

open Stored (LaidOut listLayout wordLayout)

/-! ### Bytes that encode no element -/

/-- Bytes of the right number encode no residue exactly if they write the modulus or more. -/
theorem Mersenne.forall_toBytes_ne_iff {e : Nat} {b : Bytes} (hlen : b.length = width e) :
    (∀ x : Mersenne e, x.toBytes ≠ b) ↔ 2 ^ e - 1 ≤ b.toNatLE := by
  constructor
  · intro h
    by_contra hlt
    refine h ⟨b.toNatLE, not_le.1 hlt⟩ ?_
    rw [toBytes, ← hlen, Bytes.ofNatLE_toNatLE]
  · rintro h x rfl
    have hval : x.toBytes.toNatLE = x.val := by
      rw [toBytes, Bytes.toNatLE_ofNatLE, Nat.mod_eq_of_lt (x.isLt.trans (modulus_le_width e))]
    exact absurd x.isLt (by omega)

theorem LawfulRing.ofBytes?_eq_none {R : Type} [CodedRing R] [LawfulRing R] {b : Bytes}
    (h : ∀ x : R, CodedRing.toBytes x ≠ b) : CodedRing.ofBytes? (R := R) b = none := by
  cases hb : CodedRing.ofBytes? (R := R) b with
  | none => rfl
  | some x => exact absurd ((LawfulRing.ofBytes?_eq_some_iff b x).1 hb) (h x)

/-! ### Layouts of the parts -/

section Parts

variable {R S K : Type}

/-- The layout of a tag. -/
def SharingScheme.layout (s : SharingScheme) : List (Piece R) := [.number 4 s.tag]

/-- The layout of a share: the elements of which it consists. -/
def LinearShare.layout [LinearShare S R K] (s : S) : List (Piece R) := (slots s).map .element

/-- The layout of key material. -/
def LinearShare.keyLayout (S : Type) {R K : Type} [LinearShare S R K] (key : K) :
    List (Piece R) :=
  (keySlots S key).map .element

/-- The layout of a triple: its shares in order. -/
def Triple.layout [LinearShare S R K] (t : Triple S) : List (Piece R) :=
  LinearShare.layout t.a ++ (LinearShare.layout t.b ++ LinearShare.layout t.c)

/-- The layout of a bundle: its fields in order. -/
def Bundle.layout [LinearShare S R K] (b : Bundle S R K) : List (Piece R) :=
  b.scheme.layout ++ (wordLayout b.parties ++ (wordLayout b.party ++
    (LinearShare.keyLayout S b.key ++ (listLayout Triple.layout b.triples ++
      (listLayout LinearShare.layout b.bits ++
        (listLayout (listLayout LinearShare.layout) b.inputMasks ++
          listLayout (fun x => [.element x]) b.plainMasks))))))

variable [CodedRing R]

theorem SharingScheme.ofTag?_eq_some_iff (tag : Nat) (s : SharingScheme) :
    ofTag? tag = some s ↔ s.tag = tag := by
  constructor
  · intro h
    unfold ofTag? at h
    split at h
    all_goals simp only [Option.some.injEq, reduceCtorEq] at h
    all_goals rw [← h, SharingScheme.tag]
  · rintro rfl
    exact ofTag?_tag s

theorem SharingScheme.laidOut : LaidOut (SharingScheme.layout (R := R)) where
  binary_eq s := by
    rw [layout, Piece.write_cons, Piece.write_nil, List.append_nil]
    rfl
  parses := by
    have hread : (Stored.readBinary : BinaryReader SharingScheme) =
        BinaryReader.bind (BinaryReader.natLE 4) fun tag b => (ofTag? tag).map (·, b) := by
      funext b
      simp only [Stored.readBinary, BinaryReader.bind]
      grind
    rw [hread]
    refine (BinaryReader.Parses.natLE 4).bind (fun tag => .ofOption (ofTag? tag)) (fun s => ?_)
      fun tag s hs => ?_
    · exact ⟨fun _ => ⟨s.tag, trivial, ofTag?_tag s⟩, fun _ => trivial⟩
    · rw [List.append_nil, layout, (ofTag?_eq_some_iff tag s).1 hs]

theorem Triple.laidOut [LinearShare S R K] [Stored S]
    (h : LaidOut (LinearShare.layout : S → List (Piece R))) :
    LaidOut (layout : Triple S → List (Piece R)) where
  binary_eq t := by
    rw [layout, Piece.write_append, Piece.write_append, ← h.binary_eq, ← h.binary_eq,
      ← h.binary_eq, ← List.append_assoc]
    rfl
  parses := by
    have hread : (Stored.readBinary : BinaryReader (Triple S)) =
        BinaryReader.bind Stored.readBinary fun a => BinaryReader.bind Stored.readBinary fun b =>
          BinaryReader.bind Stored.readBinary fun c rest => some (⟨a, b, c⟩, rest) := by
      funext b
      simp only [Stored.readBinary, BinaryReader.bind]
      grind
    rw [hread]
    refine h.parses.bind_part Triple.a fun a => h.parses.bind_part Triple.b fun b =>
      h.parses.bind_last Triple.c fun c t => ?_
    cases t
    simp only [mk.injEq, true_and]
    grind

theorem Bundle.laidOut [LinearShare S R K] [Stored S] [Stored K] [LawfulRing R]
    (hshare : LaidOut (LinearShare.layout : S → List (Piece R)))
    (hkey : LaidOut (LinearShare.keyLayout S : K → List (Piece R))) :
    LaidOut (layout : Bundle S R K → List (Piece R)) where
  binary_eq b := by
    have hword := fun n : Nat => (LaidOut.word (R := R)).binary_eq n
    simp only [layout, Piece.write_append, ← SharingScheme.laidOut.binary_eq, ← hword,
      ← hkey.binary_eq, ← (Triple.laidOut hshare).list.binary_eq, ← hshare.list.binary_eq,
      ← hshare.list.list.binary_eq, ← LaidOut.element.list.binary_eq, ← List.append_assoc]
    rfl
  parses :=
    SharingScheme.laidOut.parses.bind_part Bundle.scheme fun _ =>
    LaidOut.word.parses.bind_part Bundle.parties fun _ =>
    LaidOut.word.parses.bind_part Bundle.party fun _ =>
    hkey.parses.bind_part Bundle.key fun _ =>
    (Triple.laidOut hshare).list.parses.bind_part Bundle.triples fun _ =>
    hshare.list.parses.bind_part Bundle.bits fun _ =>
    hshare.list.list.parses.bind_part Bundle.inputMasks fun _ =>
    LaidOut.element.list.parses.bind_last Bundle.plainMasks fun plainMasks b => by
      cases b
      simp only [mk.injEq, true_and]
      grind

variable [LawfulRing R]

theorem MacShare.laidOut : LaidOut (LinearShare.layout : MacShare R → List (Piece R)) where
  binary_eq s := by
    simp [LinearShare.layout, LinearShare.slots, Piece.bytes, Stored.binary]
  parses := by
    have hread : (Stored.readBinary : BinaryReader (MacShare R)) =
        BinaryReader.bind CodedRing.readBinary fun value =>
        BinaryReader.bind CodedRing.readBinary fun mac b => some (⟨value, mac⟩, b) := by
      funext b
      simp only [Stored.readBinary, BinaryReader.bind]
      grind
    rw [hread]
    exact .elements MacShare.value MacShare.mac fun value mac s => by cases s; grind

theorem ReplicatedShare.laidOut :
    LaidOut (LinearShare.layout : ReplicatedShare R → List (Piece R)) where
  binary_eq s := by
    simp [LinearShare.layout, LinearShare.slots, Piece.bytes, Stored.binary]
  parses := by
    have hread : (Stored.readBinary : BinaryReader (ReplicatedShare R)) =
        BinaryReader.bind CodedRing.readBinary fun own =>
        BinaryReader.bind CodedRing.readBinary fun next b => some (⟨own, next⟩, b) := by
      funext b
      simp only [Stored.readBinary, BinaryReader.bind]
      grind
    rw [hread]
    exact .elements ReplicatedShare.own ReplicatedShare.next fun own next s => by cases s; grind

theorem ThresholdShare.laidOut :
    LaidOut (LinearShare.layout : ThresholdShare R → List (Piece R)) where
  binary_eq s := by
    simp [LinearShare.layout, LinearShare.slots, Piece.bytes, Stored.binary]
  parses := by
    have hread : (Stored.readBinary : BinaryReader (ThresholdShare R)) =
        BinaryReader.bind CodedRing.readBinary fun value b => some (⟨value⟩, b) := by
      funext b
      simp only [Stored.readBinary, BinaryReader.bind]
      grind
    rw [hread]
    exact .bind_last ThresholdShare.value BinaryReader.Parses.element fun value s => by
      cases s
      grind

end Parts

/-! ### Loading -/

namespace Bundle

variable {S R K : Type} [LinearShare S R K]

/-- All numbers of a bundle and the lengths of all of its lists are 64-bit words. -/
structure WordSized (b : Bundle S R K) : Prop where
  parties : b.parties < UInt64.size
  party : b.party < UInt64.size
  triples : b.triples.length < UInt64.size
  bits : b.bits.length < UInt64.size
  inputMasks : b.inputMasks.length < UInt64.size
  rows : ∀ row ∈ b.inputMasks, row.length < UInt64.size
  plainMasks : b.plainMasks.length < UInt64.size

/-- The numbers of a layout can be written exactly if they are words. -/
theorem fits_iff (b : Bundle S R K) : (∀ p ∈ b.layout, p.Fits) ↔ b.WordSized := by
  have hshare : ∀ s : S, ∀ p ∈ LinearShare.layout s, p.Fits := by
    simp [LinearShare.layout, Piece.Fits]
  have htriple : ∀ t : Triple S, ∀ p ∈ t.layout, p.Fits := fun t => by
    simp only [Triple.layout, List.forall_mem_append]
    exact ⟨hshare t.a, hshare t.b, hshare t.c⟩
  have hkey : ∀ p ∈ LinearShare.keyLayout S b.key, p.Fits := by
    simp [LinearShare.keyLayout, Piece.Fits]
  have htag : ∀ p ∈ (b.scheme.layout : List (Piece R)), p.Fits := by
    cases b.scheme <;> simp [SharingScheme.layout, SharingScheme.tag, Piece.Fits]
  have hword (n : Nat) : (∀ p ∈ (wordLayout n : List (Piece R)), p.Fits) ↔ n < UInt64.size :=
    List.forall_mem_singleton
  have helement (x : R) : ∀ p ∈ [Piece.element x], p.Fits := List.forall_mem_singleton.2 trivial
  simp only [layout, List.forall_mem_append, Stored.fits_listLayout, hword, iff_true_intro htag,
    iff_true_intro hkey, iff_true_intro (htriple _), iff_true_intro (hshare _),
    iff_true_intro (helement _), implies_true, true_and, and_true]
  constructor
  · rintro ⟨h1, h2, h3, h4, ⟨h5, h6⟩, h7⟩
    exact ⟨h1, h2, h3, h4, h5, h6, h7⟩
  · rintro ⟨h1, h2, h3, h4, h5, h6, h7⟩
    exact ⟨h1, h2, h3, h4, ⟨h5, h6⟩, h7⟩

variable [CodedRing R] [Stored S] [Stored K] {file rest : Bytes} {b : Bundle S R K}

theorem load_of_eq_none (h : readBytes (S := S) (R := R) (K := K) file = none) :
    load (S := S) file = .error .undecodable := by
  rw [load, h]

theorem load_of_eq_some (h : readBytes file = some (b, rest)) :
    load file = if b.scheme = LinearShare.scheme S then .ok b
      else .error (.wrongScheme b.scheme (LinearShare.scheme S)) := by
  rw [load, h]

/-- What is loaded has been read, and is for the right scheme. -/
theorem load_eq_ok_iff :
    load file = .ok b ↔
      (∃ rest, readBytes file = some (b, rest)) ∧ b.scheme = LinearShare.scheme S := by
  cases h : (readBytes file : Option (Bundle S R K × Bytes)) with
  | none => simp [load_of_eq_none h]
  | some p =>
    obtain ⟨b', rest⟩ := p
    rw [load_of_eq_some h]
    split_ifs with hscheme
    · simp only [Except.ok.injEq, Option.some.injEq, Prod.mk.injEq]
      grind
    · grind

end Bundle

namespace Suite.IsStandard

variable {X : Suite}

theorem laidOut (hX : X.IsStandard) : LaidOut (Bundle.layout : X.Bundle → List (Piece X.R)) := by
  have := hX.lawfulRing
  cases hX with
  | authenticated F =>
    exact Bundle.laidOut (MacShare.laidOut (R := F)) LaidOut.element
  | replicated R => exact Bundle.laidOut (ReplicatedShare.laidOut (R := R)) LaidOut.unit
  | threshold F => exact Bundle.laidOut (ThresholdShare.laidOut (R := F)) LaidOut.unit

/-- Files of bundles are read back, and only canonical ones. What was written is loaded whatever
follows it, unless it is for another scheme; cut short it is not. Whatever is loaded stands at the
front of the file as it would be written. With bytes that encode no element where a bundle has an
element, a file is refused whatever follows them. -/
theorem load_canonical (hX : X.IsStandard) :
    (∀ d : X.Bundle, d.WordSized →
      (d.scheme = X.scheme → ∀ trailing, Bundle.load (d.toBytes ++ trailing) = .ok d) ∧
      (d.scheme ≠ X.scheme → ∀ trailing, (Bundle.load (d.toBytes ++ trailing) :
        Except Bundle.LoadError X.Bundle) = .error (.wrongScheme d.scheme X.scheme)) ∧
      (∀ file, file <+: d.toBytes → file ≠ d.toBytes →
        (Bundle.load file : Except Bundle.LoadError X.Bundle) = .error .undecodable) ∧
      ∀ before x after bad rest, d.layout = before ++ .element x :: after →
        bad.length = CodedRing.width X.R → (∀ y : X.R, CodedRing.toBytes y ≠ bad) →
        (Bundle.load (Piece.write before ++ (bad ++ rest)) :
          Except Bundle.LoadError X.Bundle) = .error .undecodable) ∧
      ∀ (file : Bytes) (d : X.Bundle), Bundle.load file = .ok d →
        d.toBytes <+: file ∧ d.scheme = X.scheme ∧ d.WordSized := by
  have := hX.lawfulRing
  have hlaid := hX.laidOut
  refine ⟨fun d hd => ?_, fun file d hload => ?_⟩
  · have hfits := d.fits_iff.2 hd
    have hbytes : d.toBytes = Piece.write d.layout := hlaid.binary_eq d
    have hread := hlaid.parses.eq_some trivial hfits
    rw [hbytes]
    refine ⟨fun hscheme trailing => ?_, fun hscheme trailing => ?_, fun file hprefix hne => ?_,
      fun before x after bad rest hsplit hlen hbad => ?_⟩
    · exact Bundle.load_eq_ok_iff.2 ⟨⟨trailing, hread trailing⟩, hscheme⟩
    · rw [Bundle.load_of_eq_some (hread trailing)]
      exact if_neg hscheme
    · exact Bundle.load_of_eq_none (hlaid.parses.eq_none_of_prefix trivial hfits hprefix hne)
    · exact Bundle.load_of_eq_none (hlaid.parses.refuses d before x after bad rest trivial hfits
        hsplit hlen (LawfulRing.ofBytes?_eq_none hbad))
  · obtain ⟨⟨rest, hread⟩, hscheme⟩ := Bundle.load_eq_ok_iff.1 hload
    obtain ⟨-, hfits, rfl⟩ := (hlaid.parses.eq_some_iff ..).1 hread
    refine ⟨?_, hscheme, d.fits_iff.1 hfits⟩
    rw [← hlaid.binary_eq d]
    exact List.prefix_append ..

/-- A bundle with one shared bit: read back, cut short, dealt for another scheme, and with the
modulus where the share should be. -/
theorem load_canonical_bit :
    let d : (Suite.threshold Mersenne61).Bundle :=
      ⟨.shamirThreshold, 3, 0, (), [], [⟨⟨5, by decide⟩⟩], [], []⟩
    let other : (Suite.threshold Mersenne61).Bundle := { d with scheme := .additiveMac }
    let bad := Bytes.ofNatLE 8 2305843009213693951
    Bundle.load (d.toBytes ++ [7]) = .ok d ∧ d.toBytes <+: d.toBytes ++ [7] ∧
      (Bundle.load (d.toBytes.take 50) :
        Except Bundle.LoadError (Suite.threshold Mersenne61).Bundle) = .error .undecodable ∧
      (Bundle.load (other.toBytes ++ [7]) :
        Except Bundle.LoadError (Suite.threshold Mersenne61).Bundle) =
          .error (.wrongScheme .additiveMac .shamirThreshold) ∧
      (Bundle.load (Piece.write (d.layout.take 5) ++ (bad ++ [7])) :
        Except Bundle.LoadError (Suite.threshold Mersenne61).Bundle) = .error .undecodable := by
  intro d other bad
  have hsize : d.WordSized := ⟨by decide, by decide, by decide, by decide, by decide, by simp [d],
    by decide⟩
  have hother : other.WordSized := ⟨by decide, by decide, by decide, by decide, by decide,
    by simp [other, d], by decide⟩
  obtain ⟨hfiles, hback⟩ := load_canonical (.threshold Mersenne61)
  obtain ⟨hread, -, hcut, hbad⟩ := hfiles d hsize
  obtain ⟨-, hwrong, -, -⟩ := hfiles other hother
  refine ⟨hread rfl [7], (hback _ d (hread rfl [7])).1,
    hcut _ (List.take_prefix ..) (by decide), hwrong (by decide) [7], ?_⟩
  refine hbad _ ⟨5, by decide⟩ _ bad [7] rfl rfl ?_
  exact (Mersenne.forall_toBytes_ne_iff rfl).2 (by decide)

end Suite.IsStandard

end Multiparty
