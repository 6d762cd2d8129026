import Mathlib
import Multiparty.Proofs.Ring.Laws
import Multiparty.Storage.Basic

/-!
# Layouts of stored forms

The binary form of a value is a sequence of numbers of fixed width and ring elements, one after the
other without separators: its layout. A reader follows layouts if it accepts exactly what is written
piece by piece, and if it notices bytes that encode no element as soon as it gets to them. Both are
kept when readers are put one after the other, so each reader of the format is examined once.

## Main definitions

* `Piece`, `Piece.write`: the pieces of a layout and their bytes.
* `BinaryReader.Parses`: readers that follow layouts.
* `Stored.LaidOut`: types whose writer and reader follow the same layouts.

## Main results

* `BinaryReader.Parses.bind`, `BinaryReader.Parses.times`: readers one after the other.
* `Stored.LaidOut.list`: lists of values that are laid out.
* `BinaryReader.Parses.eq_none_of_prefix`: nothing that is cut short is accepted.
-/

namespace Multiparty

/-- A piece of a stored form. -/
inductive Piece (R : Type) where
  /-- A number in little-endian bytes. -/
  | number (width n : Nat)
  /-- A ring element in its encoding. -/
  | element (x : R)

namespace Piece

variable {R : Type} [CodedRing R]

/-- The bytes of a piece. -/
def bytes : Piece R → Bytes
  | number width n => Bytes.ofNatLE width n
  | element x => CodedRing.toBytes x

/-- The number of a piece can be written with its width. -/
def Fits : Piece R → Prop
  | number width n => n < 256 ^ width
  | element _ => True

/-- The bytes of a layout. -/
def write (layout : List (Piece R)) : Bytes := layout.flatMap bytes

@[simp] theorem write_nil : write ([] : List (Piece R)) = [] := rfl

@[simp] theorem write_cons (p : Piece R) (ps : List (Piece R)) :
    write (p :: ps) = p.bytes ++ write ps := List.flatMap_cons ..

@[simp] theorem write_append (ps qs : List (Piece R)) : write (ps ++ qs) = write ps ++ write qs :=
  List.flatMap_append ..

theorem write_flatMap {α : Type} (layout : α → List (Piece R)) (as : List α) :
    write (as.flatMap layout) = as.flatMap fun a => write (layout a) := List.flatMap_assoc ..

end Piece

namespace BinaryReader

variable {R α β γ : Type} [CodedRing R]

theorem take_eq_some_iff (width : Nat) (b piece rest : Bytes) :
    take width b = some (piece, rest) ↔ piece.length = width ∧ b = piece ++ rest := by
  rw [take]
  split_ifs with h
  · simp only [Option.some.injEq, Prod.mk.injEq]
    constructor
    · rintro ⟨rfl, rfl⟩
      exact ⟨List.length_take_of_le h, (List.take_append_drop width b).symm⟩
    · rintro ⟨rfl, rfl⟩
      exact ⟨List.take_left, List.drop_left⟩
  · refine iff_of_false (by simp) ?_
    rintro ⟨rfl, rfl⟩
    simp at h

theorem take_append {piece : Bytes} (rest : Bytes) {width : Nat} (h : piece.length = width) :
    take width (piece ++ rest) = some (piece, rest) :=
  (take_eq_some_iff ..).2 ⟨h, rfl⟩

theorem bind_eq_some_iff (m : BinaryReader α) (f : α → BinaryReader β) (b rest : Bytes) (c : β) :
    BinaryReader.bind m f b = some (c, rest) ↔
      ∃ a next, m b = some (a, next) ∧ f a next = some (c, rest) := by
  rw [BinaryReader.bind]
  cases m b with
  | none => simp
  | some p =>
    obtain ⟨a, next⟩ := p
    simp only [Option.some.injEq, Prod.mk.injEq]
    exact ⟨fun h => ⟨a, next, ⟨rfl, rfl⟩, h⟩, fun ⟨_, _, ⟨rfl, rfl⟩, h⟩ => h⟩

theorem bind_of_eq_some {m : BinaryReader α} (f : α → BinaryReader β) {b rest : Bytes} {a : α}
    (h : m b = some (a, rest)) : BinaryReader.bind m f b = f a rest := by
  rw [BinaryReader.bind, h]

theorem bind_of_eq_none {m : BinaryReader α} (f : α → BinaryReader β) {b : Bytes}
    (h : m b = none) : BinaryReader.bind m f b = none := by
  rw [BinaryReader.bind, h]

/-- The reader returns exactly the values with `P` whose numbers can be written, each from its
layout, and refuses bytes that encode no element where a layout has one. -/
structure Parses (m : BinaryReader α) (P : α → Prop) (layout : α → List (Piece R)) : Prop where
  eq_some_iff : ∀ b a rest, m b = some (a, rest) ↔
    P a ∧ (∀ p ∈ layout a, p.Fits) ∧ b = Piece.write (layout a) ++ rest
  refuses : ∀ a before x after bad rest, P a → (∀ p ∈ layout a, p.Fits) →
    layout a = before ++ .element x :: after → bad.length = CodedRing.width R →
    CodedRing.ofBytes? (R := R) bad = none → m (Piece.write before ++ (bad ++ rest)) = none

namespace Parses

variable {m : BinaryReader α} {P : α → Prop} {layout : α → List (Piece R)}

theorem eq_some (h : m.Parses P layout) {a : α} (ha : P a) (hfits : ∀ p ∈ layout a, p.Fits)
    (rest : Bytes) : m (Piece.write (layout a) ++ rest) = some (a, rest) :=
  (h.eq_some_iff ..).2 ⟨ha, hfits, rfl⟩

/-- The bytes of a value that are cut short are refused. -/
theorem eq_none_of_prefix (h : m.Parses P layout) {a : α} (ha : P a)
    (hfits : ∀ p ∈ layout a, p.Fits) {b : Bytes} (hb : b <+: Piece.write (layout a))
    (hne : b ≠ Piece.write (layout a)) : m b = none := by
  obtain ⟨cut, hcut⟩ := hb
  cases hm : m b with
  | none => rfl
  | some p =>
    obtain ⟨a', rest⟩ := p
    obtain ⟨ha', hfits', hb'⟩ := (h.eq_some_iff ..).1 hm
    have hwhole := h.eq_some ha hfits []
    rw [List.append_nil, ← hcut, hb', List.append_assoc, h.eq_some ha' hfits'] at hwhole
    simp only [Option.some.injEq, Prod.mk.injEq, List.append_eq_nil_iff] at hwhole
    rw [hwhole.2.2, List.append_nil] at hcut
    exact absurd hcut hne

theorem congr {Q : α → Prop} {layout' : α → List (Piece R)} (h : m.Parses P layout)
    (hQ : ∀ a, Q a ↔ P a) (hlayout : ∀ a, P a → layout' a = layout a) : m.Parses Q layout' where
  eq_some_iff b a rest := by
    rw [h.eq_some_iff, hQ]
    exact and_congr_right fun ha => by rw [hlayout a ha]
  refuses a before x after bad rest ha hfits hsplit hlen hbad := by
    rw [hQ] at ha
    rw [hlayout a ha] at hfits hsplit
    exact h.refuses a before x after bad rest ha hfits hsplit hlen hbad

/-- Nothing is read of a value that may or may not be there. -/
theorem ofOption (o : Option α) :
    Parses (R := R) (fun b => o.map (·, b)) (fun a => o = some a) fun _ => [] where
  eq_some_iff b c rest := by
    cases o with
    | none => simp
    | some a => simp
  refuses a before x after bad rest _ _ hsplit := by simp at hsplit

/-- Nothing is read of a value that is known. -/
protected theorem pure (a : α) :
    Parses (R := R) (fun b => some (a, b)) (a = ·) fun _ => [] :=
  (ofOption (some a)).congr (fun c => by rw [Option.some.injEq]) fun _ _ => rfl

/-- A number is one piece. -/
protected theorem natLE (width : Nat) :
    Parses (R := R) (natLE width) (fun _ => True) fun n => [.number width n] where
  eq_some_iff b n rest := by
    simp only [List.mem_singleton, forall_eq, Piece.Fits, Piece.write_cons, Piece.write_nil,
      Piece.bytes, List.append_nil, true_and]
    constructor
    · intro h
      rw [natLE] at h
      split at h
      · rename_i piece rest' htake
        obtain ⟨rfl, rfl⟩ := (take_eq_some_iff ..).1 htake
        obtain ⟨rfl, rfl⟩ := by simpa using h
        exact ⟨Bytes.toNatLE_lt piece, by rw [Bytes.ofNatLE_toNatLE]⟩
      · simp at h
    · rintro ⟨hn, rfl⟩
      rw [natLE, take_append rest (Bytes.length_ofNatLE width n)]
      simp only [Bytes.toNatLE_ofNatLE, Nat.mod_eq_of_lt hn]
  refuses n before x after bad rest _ _ hsplit := by
    cases before <;> simp at hsplit

/-- A ring element is one piece. -/
protected theorem element [LawfulRing R] :
    Parses (CodedRing.readBinary (R := R)) (fun _ => True) fun x => [.element x] where
  eq_some_iff b x rest := by
    simp only [List.mem_singleton, forall_eq, Piece.Fits, Piece.write_cons, Piece.write_nil,
      Piece.bytes, List.append_nil, true_and]
    constructor
    · intro h
      rw [CodedRing.readBinary] at h
      split at h
      · rename_i piece rest' htake
        obtain ⟨-, rfl⟩ := (take_eq_some_iff ..).1 htake
        obtain ⟨y, hy, heq⟩ := Option.map_eq_some_iff.1 h
        obtain ⟨rfl, rfl⟩ := Prod.mk.inj heq
        rw [(LawfulRing.ofBytes?_eq_some_iff piece y).1 hy]
      · simp at h
    · rintro rfl
      rw [CodedRing.readBinary, take_append rest (LawfulRing.length_toBytes x)]
      simp only [LawfulRing.ofBytes?_toBytes, Option.map_some]
  refuses x before y after bad rest _ _ hsplit hlen hbad := by
    have hbefore : before = [] := by
      cases before with
      | nil => rfl
      | cons p before => simp at hsplit
    rw [hbefore, Piece.write_nil, List.nil_append, CodedRing.readBinary, take_append rest hlen]
    simp only [hbad, Option.map_none]

/-- A reader followed by one that depends on the value read. -/
protected theorem bind {f : α → BinaryReader γ} {Q : α → γ → Prop} {P' : γ → Prop}
    {layoutRest : α → γ → List (Piece R)} {layout' : γ → List (Piece R)}
    (hm : m.Parses P layout) (hf : ∀ a, (f a).Parses (Q a) (layoutRest a))
    (hP : ∀ c, P' c ↔ ∃ a, P a ∧ Q a c)
    (hlayout : ∀ a c, Q a c → layout' c = layout a ++ layoutRest a c) :
    (BinaryReader.bind m f).Parses P' layout' where
  eq_some_iff b c rest := by
    rw [bind_eq_some_iff, hP]
    constructor
    · rintro ⟨a, next, hread, hrest⟩
      obtain ⟨ha, hfits, rfl⟩ := (hm.eq_some_iff ..).1 hread
      obtain ⟨hc, hfits', rfl⟩ := ((hf a).eq_some_iff ..).1 hrest
      rw [hlayout a c hc, Piece.write_append, List.append_assoc]
      exact ⟨⟨a, ha, hc⟩, List.forall_mem_append.2 ⟨hfits, hfits'⟩, rfl⟩
    · rintro ⟨⟨a, ha, hc⟩, hfits, rfl⟩
      rw [hlayout a c hc] at hfits ⊢
      obtain ⟨hfits, hfits'⟩ := List.forall_mem_append.1 hfits
      rw [Piece.write_append, List.append_assoc]
      exact ⟨a, _, hm.eq_some ha hfits _, (hf a).eq_some hc hfits' rest⟩
  refuses c before x after bad rest hc hfits hsplit hlen hbad := by
    obtain ⟨a, ha, hc⟩ := (hP c).1 hc
    rw [hlayout a c hc] at hfits hsplit
    obtain ⟨hfits, hfits'⟩ := List.forall_mem_append.1 hfits
    -- The element stands in the first part, or the first reader is done when it comes.
    have hcases : (∃ between, layout a = before ++ .element x :: between) ∨
        ∃ between, before = layout a ++ between ∧
          layoutRest a c = between ++ .element x :: after := by
      rcases List.append_eq_append_iff.1 hsplit with ⟨between, hbefore, hrest⟩ | ⟨between, ha', hrest⟩
      · exact .inr ⟨between, hbefore, hrest⟩
      · cases between with
        | nil =>
          rw [List.append_nil] at ha'
          exact .inr ⟨[], by rw [ha', List.append_nil], by simpa using hrest.symm⟩
        | cons p between =>
          rw [List.cons_append, List.cons.injEq] at hrest
          exact .inl ⟨between, by rw [ha', hrest.1]⟩
    rcases hcases with ⟨between, hfirst⟩ | ⟨between, hbefore, hrest⟩
    · exact bind_of_eq_none f (hm.refuses a before x between bad rest ha hfits hfirst hlen hbad)
    · rw [hbefore, Piece.write_append, List.append_assoc,
        bind_of_eq_some f (hm.eq_some ha hfits _)]
      exact (hf a).refuses c between x after bad rest hc hfits' hrest hlen hbad

/-- A reader of one part of a value, followed by readers of the other parts. -/
theorem bind_part {f : α → BinaryReader γ} {Q : γ → Prop} {layoutRest : γ → List (Piece R)}
    (part : γ → α) (hm : m.Parses (fun _ => True) layout)
    (hf : ∀ a, (f a).Parses (fun c => Q c ∧ part c = a) layoutRest) :
    (BinaryReader.bind m f).Parses Q fun c => layout (part c) ++ layoutRest c :=
  hm.bind hf (fun c => ⟨fun hc => ⟨part c, trivial, hc, rfl⟩, fun ⟨_, _, hc, _⟩ => hc⟩)
    fun _ _ hc => by rw [hc.2]

/-- A reader of the last part of a value. -/
theorem bind_last {f : α → γ} {Q : γ → Prop} (part : γ → α) (hm : m.Parses (fun _ => True) layout)
    (hQ : ∀ a c, Q c ∧ part c = a ↔ f a = c) :
    (BinaryReader.bind m fun a b => some (f a, b)).Parses Q fun c => layout (part c) := by
  have hlast := hm.bind_part part fun a => (Parses.pure (f a)).congr (hQ a) fun _ _ => rfl
  exact hlast.congr (fun _ => Iff.rfl) fun _ _ => (List.append_nil _).symm

/-- Two ring elements that make up a value. -/
theorem elements [LawfulRing R] {f : R → R → γ} (first second : γ → R)
    (hparts : ∀ x y c, first c = x ∧ second c = y ↔ f x y = c) :
    (BinaryReader.bind CodedRing.readBinary fun x =>
      BinaryReader.bind CodedRing.readBinary fun y b => some (f x y, b)).Parses (fun _ => True)
      fun c => [.element (first c), .element (second c)] :=
  Parses.element.bind_part first fun x => Parses.element.bind_last second fun y c => by
    rw [true_and, hparts]

/-- A fixed number of readings, with the values read before in front. -/
private theorem timesOnto (hm : m.Parses (fun _ => True) layout) (n : Nat) (acc : List α) :
    (timesOnto m n acc).Parses (fun as => ∃ tail, as = acc.reverse ++ tail ∧ tail.length = n)
      fun as => (as.drop acc.length).flatMap layout := by
  induction n generalizing acc with
  | zero =>
    refine (Parses.pure acc.reverse).congr (fun as => ?_) fun as has => ?_
    · simp [eq_comm]
    · rw [← has, List.drop_eq_nil_of_le (by simp), List.flatMap_nil]
  | succ n ih =>
    have hstep : BinaryReader.timesOnto m (n + 1) acc
        = BinaryReader.bind m fun a => BinaryReader.timesOnto m n (a :: acc) := rfl
    rw [hstep]
    refine hm.bind (fun a => ih (a :: acc)) (fun as => ?_) fun a as has => ?_
    · constructor
      · rintro ⟨tail, rfl, hlen⟩
        obtain ⟨a, tail, rfl⟩ := List.exists_cons_of_length_eq_add_one hlen
        exact ⟨a, trivial, tail, by simp, by simpa using hlen⟩
      · rintro ⟨a, -, tail, rfl, hlen⟩
        exact ⟨a :: tail, by simp, by simp [hlen]⟩
    · obtain ⟨tail, rfl, -⟩ := has
      have hacc : acc.length = acc.reverse.length := List.length_reverse.symm
      have hcons : (a :: acc).length = (a :: acc).reverse.length := List.length_reverse.symm
      rw [hcons, List.drop_left, hacc, List.reverse_cons, List.append_assoc, List.drop_left]
      simp

/-- A fixed number of readings. -/
theorem times (hm : m.Parses (fun _ => True) layout) (n : Nat) :
    (times m n).Parses (fun as => as.length = n) fun as => as.flatMap layout :=
  (hm.timesOnto n []).congr (fun as => by simp) fun as _ => by simp

/-- A number of items followed by the items. -/
theorem counted (hm : m.Parses (fun _ => True) layout) (width : Nat) :
    (BinaryReader.bind (natLE width) (BinaryReader.times m)).Parses (fun _ => True)
      fun as => .number width as.length :: as.flatMap layout :=
  (Parses.natLE width).bind (fun n => hm.times n) (fun as => by simp) fun n as has => by
    rw [has, List.singleton_append]

end Parses

end BinaryReader

namespace Stored

variable {R α : Type} [CodedRing R] [Stored α]

/-- Values are written and read by their layouts. -/
structure LaidOut (layout : α → List (Piece R)) : Prop where
  binary_eq : ∀ a, binary a = Piece.write (layout a)
  parses : BinaryReader.Parses readBinary (fun _ => True) layout

/-- The layout of a word. -/
def wordLayout (n : Nat) : List (Piece R) := [.number 8 n]

/-- The layout of a list: its length, and its items one after the other. -/
def listLayout (layout : α → List (Piece R)) (as : List α) : List (Piece R) :=
  .number 8 as.length :: as.flatMap layout

omit [CodedRing R] [Stored α] in
theorem fits_listLayout (layout : α → List (Piece R)) (as : List α) :
    (∀ p ∈ listLayout layout as, p.Fits) ↔
      as.length < UInt64.size ∧ ∀ a ∈ as, ∀ p ∈ layout a, p.Fits := by
  rw [listLayout, List.forall_mem_cons]
  exact and_congr_right fun _ => List.forall_mem_flatMap

theorem LaidOut.word : LaidOut (wordLayout (R := R)) where
  binary_eq n := by rw [wordLayout, Piece.write_cons, Piece.write_nil, List.append_nil]; rfl
  parses := .natLE 8

theorem LaidOut.unit : LaidOut fun _ : Unit => ([] : List (Piece R)) where
  binary_eq _ := rfl
  parses := (BinaryReader.Parses.pure ()).congr (fun _ => by simp) fun _ _ => rfl

theorem LaidOut.element [LawfulRing R] : LaidOut fun x : R => [Piece.element x] where
  binary_eq x := by rw [Piece.write_cons, Piece.write_nil, List.append_nil]; rfl
  parses := .element

theorem LaidOut.list {layout : α → List (Piece R)} (h : LaidOut layout) :
    LaidOut (listLayout layout) where
  binary_eq as := by
    rw [listLayout, Piece.write_cons, Piece.write_flatMap, ← funext h.binary_eq]
    rfl
  parses := h.parses.counted 8

end Stored

end Multiparty
