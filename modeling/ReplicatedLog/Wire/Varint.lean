/-!
# Numbers on the wire

A number is written in as few bytes as it needs: up to 250 as one byte, otherwise as a marker that
tells the width, followed by the number in 2, 4 or 8 bytes, least significant byte first.

    0 … 250   one byte
    251       two bytes follow
    252       four bytes follow
    253       eight bytes follow

A reader takes a number in any width that it knows, not only in the shortest. It is given the
widest that it knows: a field of 32 bits does not take a number written in 64. The markers 254 and
255 stand for no width at all here.
-/

namespace ReplicatedLog.Wire

/-- Reads a value from the front of the bytes, and gives the bytes that follow it. -/
abbrev Reader (α : Type) := List UInt8 → Option (α × List UInt8)

/-- The `width` least significant bytes of a number, the least significant first. -/
def littleEndian : (width : Nat) → (n : Nat) → List UInt8
  | 0, _ => []
  | width + 1, n => UInt8.ofNat (n % 256) :: littleEndian width (n / 256)

/-- The number whose bytes these are, the least significant first. -/
def ofLittleEndian : List UInt8 → Nat
  | [] => 0
  | b :: bs => b.toNat + 256 * ofLittleEndian bs

/-- The first `count` bytes; `none` if there are fewer. -/
def readBytes (count : Nat) : Reader (List UInt8) := fun bytes =>
  let taken := bytes.take count
  if taken.length = count then some (taken, bytes.drop count) else none

/-- The widths in which numbers are written. -/
inductive Width where
  /-- Up to 32 bits. -/
  | half
  /-- Up to 64 bits. -/
  | full
  deriving DecidableEq, Repr

/-- The number of bytes that follow a marker, for readers of fields of a width; `none` if such a
field takes no such marker. -/
def Width.following (w : Width) (marker : UInt8) : Option Nat :=
  if marker = 251 then some 2
  else if marker = 252 then some 4
  else if marker = 253 ∧ w = .full then some 8
  else none

/-- Writes a number in the shortest form. -/
def writeNat (n : Nat) : List UInt8 :=
  if n ≤ 250 then [UInt8.ofNat n]
  else if n < 0x10000 then 251 :: littleEndian 2 n
  else if n < 0x100000000 then 252 :: littleEndian 4 n
  else 253 :: littleEndian 8 n

/-- Reads a number of a width, in any form. -/
def readNat (w : Width) : Reader Nat
  | [] => none
  | marker :: bytes =>
    if marker ≤ 250 then some (marker.toNat, bytes)
    else do
      let count ← w.following marker
      let (digits, bytes) ← readBytes count bytes
      return (ofLittleEndian digits, bytes)

/-- The bytes of a number give it back, if it fits in the width. -/
theorem ofLittleEndian_littleEndian (width n : Nat) (h : n < Nat.pow 256 width) :
    ofLittleEndian (littleEndian width n) = n := by
  induction width generalizing n with
  | zero => simp [littleEndian, ofLittleEndian, Nat.lt_one_iff.mp h]
  | succ width ih =>
    have h' : n / 256 < Nat.pow 256 width := by
      rw [Nat.div_lt_iff_lt_mul (by decide)]
      exact h
    have hmod : n % 256 < 256 := Nat.mod_lt _ (by decide)
    have hbyte : (UInt8.ofNat (n % 256)).toNat = n % 256 := by
      rw [UInt8.toNat_ofNat']
      exact Nat.mod_eq_of_lt hmod
    simp only [littleEndian, ofLittleEndian, ih _ h', hbyte]
    omega

/-- A number is written in as many bytes as its width. -/
@[simp]
theorem length_littleEndian (width n : Nat) : (littleEndian width n).length = width := by
  induction width generalizing n with
  | zero => rfl
  | succ width ih => simp [littleEndian, ih]

end ReplicatedLog.Wire
