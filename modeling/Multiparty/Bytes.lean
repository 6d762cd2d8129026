/-!
# Byte strings and little-endian numbers

Everything that the parties exchange, hash or store is a `Bytes`, a list of bytes. Numbers of a
fixed width are written with their least significant byte first.

## Main definitions

* `Bytes.ofNatLE width n`: the `width` low bytes of `n`, least significant first.
* `Bytes.toNatLE b`: the number that `b` writes, read from its least significant byte.
* `Bytes.chunks width b`: `b` cut into consecutive pieces of `width` bytes.
-/

namespace Multiparty

-- The powers in this file are those of the core library, whatever else is imported.
attribute [local instance (high)] instPowNat

/-- A byte string. -/
abbrev Bytes : Type := List UInt8

namespace Bytes

/-- The `width` low bytes of a number, least significant byte first. -/
def ofNatLE : (width : Nat) → Nat → Bytes
  | 0, _ => []
  | width + 1, n => UInt8.ofNat n :: ofNatLE width (n / 256)

/-- The number written by a byte string, least significant byte first. -/
def toNatLE : Bytes → Nat
  | [] => 0
  | b :: bs => b.toNat + 256 * toNatLE bs

/-- A 32-bit word as four bytes, least significant byte first. -/
def ofUInt32 (w : UInt32) : Bytes :=
  [w.toUInt8, (w >>> 8).toUInt8, (w >>> 16).toUInt8, (w >>> 24).toUInt8]

/-- A 64-bit word as eight bytes, least significant byte first. -/
def ofUInt64 (w : UInt64) : Bytes :=
  [w.toUInt8, (w >>> 8).toUInt8, (w >>> 16).toUInt8, (w >>> 24).toUInt8,
    (w >>> 32).toUInt8, (w >>> 40).toUInt8, (w >>> 48).toUInt8, (w >>> 56).toUInt8]

/-- The 32-bit word whose little-endian bytes start the list; missing bytes count as zero. -/
def toUInt32 (b : Bytes) : UInt32 :=
  (b.take 4).foldr (fun x acc => acc <<< 8 ||| x.toUInt32) 0

/-- The 64-bit word whose little-endian bytes start the list; missing bytes count as zero. -/
def toUInt64 (b : Bytes) : UInt64 :=
  (b.take 8).foldr (fun x acc => acc <<< 8 ||| x.toUInt64) 0

/-- `count` consecutive pieces of `width` bytes each, from the front of `b`. -/
def chunks (width : Nat) : (count : Nat) → Bytes → List Bytes
  | 0, _ => []
  | count + 1, b => b.take width :: chunks width count (b.drop width)

/-- The bytewise exclusive or of two byte strings, as long as the shorter one. -/
def xor (a b : Bytes) : Bytes :=
  List.zipWith (· ^^^ ·) a b

@[simp] theorem length_ofNatLE (width n : Nat) : (ofNatLE width n).length = width := by
  induction width generalizing n with
  | zero => rfl
  | succ width ih => simp [ofNatLE, ih]

@[simp] theorem length_chunks (width count : Nat) (b : Bytes) :
    (chunks width count b).length = count := by
  induction count generalizing b with
  | zero => rfl
  | succ count ih => simp [chunks, ih]

theorem toNatLE_lt (b : Bytes) : toNatLE b < 256 ^ b.length := by
  induction b with
  | nil => simp [toNatLE]
  | cons x bs ih =>
    have hx : x.toNat < 256 := x.toNat_lt
    simp only [toNatLE, List.length_cons, Nat.pow_succ]
    omega

/-- Writing the `width` low bytes and reading them back reduces modulo `256 ^ width`. -/
theorem toNatLE_ofNatLE (width n : Nat) : toNatLE (ofNatLE width n) = n % 256 ^ width := by
  induction width generalizing n with
  | zero => simp [ofNatLE, toNatLE, Nat.mod_one]
  | succ width ih =>
    have hsplit : 256 ^ (width + 1) = 256 * 256 ^ width := by
      rw [Nat.pow_succ, Nat.mul_comm]
    rw [ofNatLE, toNatLE, ih, UInt8.toNat_ofNat', hsplit, Nat.mod_mul]

/-- Reading a byte string and writing it at its own width gives it back. -/
theorem ofNatLE_toNatLE (b : Bytes) : ofNatLE b.length (toNatLE b) = b := by
  induction b with
  | nil => rfl
  | cons x bs ih =>
    have hx : x.toNat < 256 := x.toNat_lt
    have hdiv : (x.toNat + 256 * toNatLE bs) / 256 = toNatLE bs := by omega
    have hhead : UInt8.ofNat (x.toNat + 256 * toNatLE bs) = x := by
      apply UInt8.toNat.inj
      simp only [UInt8.toNat_ofNat']
      omega
    simp only [List.length_cons, toNatLE, ofNatLE, hdiv, hhead, ih]

end Bytes

end Multiparty
