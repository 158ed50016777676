import Mathlib.Data.Nat.Bitwise
import Mathlib.Logic.Function.Iterate

/-!
# Checksums of a shift register

A reflected cyclic redundancy check with the polynomial `p`: the register moves down a bit at a
time, and takes `p` when the bit it loses is set.

* `shift_xor`, `iterate_xor`   the register is linear in exclusive or;
* `iterate_shiftLeft`          a register whose low bits are clear only moves down;
* `byte_of_table`              a byte at a time, from a table of 256 words;
* `feed_append`                a stream may be fed in pieces.
-/

namespace Crc

/-- the register moves down one bit -/
def shift (p c : Nat) : Nat := (c >>> 1) ^^^ (if c.testBit 0 then p else 0)

/-- the register after one more byte -/
def byte (p c : Nat) (b : UInt8) : Nat := (shift p)^[8] (c ^^^ b.toNat)

/-- the register after a stream -/
def feed (p c : Nat) (bs : List UInt8) : Nat := bs.foldl (byte p) c

/-- the reflected polynomial of CRC-32 -/
def poly32 : Nat := 0xEDB88320

/-- the standard CRC-32 of a stream -/
def crc32 (bs : List UInt8) : Nat := feed poly32 0xffffffff bs ^^^ 0xffffffff

theorem shift_xor (p a b : Nat) : shift p (a ^^^ b) = shift p a ^^^ shift p b := by
  unfold shift
  rw [Nat.shiftRight_xor_distrib, Nat.testBit_xor]
  cases a.testBit 0 <;> cases b.testBit 0
  · simp
  · simp [Nat.xor_assoc]
  · simp [Nat.xor_assoc, Nat.xor_comm p]
  · have h : (b >>> 1 ^^^ p : Nat) ^^^ p = b >>> 1 := Nat.xor_xor_cancel_right _ _
    simp only [bne_self_eq_false, Bool.false_eq_true, if_false, if_true, Nat.xor_zero]
    rw [Nat.xor_assoc, Nat.xor_comm p, h]

theorem iterate_xor (p k a b : Nat) :
    (shift p)^[k] (a ^^^ b) = (shift p)^[k] a ^^^ (shift p)^[k] b := by
  induction k generalizing a b with
  | zero => rfl
  | succ k ih =>
    rw [Function.iterate_succ_apply, Function.iterate_succ_apply, Function.iterate_succ_apply,
      shift_xor, ih]

/-- a register whose low bits are clear only moves down -/
theorem iterate_shiftLeft (p k y : Nat) : (shift p)^[k] (y <<< k) = y := by
  induction k with
  | zero => rfl
  | succ k ih =>
    have h0 : (y <<< (k + 1)).testBit 0 = false := by simp
    have h1 : y <<< (k + 1) >>> 1 = y <<< k := by
      rw [Nat.shiftLeft_succ, Nat.shiftRight_eq_div_pow]
      omega
    rw [Function.iterate_succ_apply, shift, h0, h1]
    simpa using ih

/-- the low byte of a number, and the rest of it -/
theorem low_xor_high (x : Nat) : (x % 2 ^ 8) ^^^ ((x >>> 8) <<< 8) = x := by
  apply Nat.eq_of_testBit_eq
  intro i
  rw [Nat.testBit_xor, Nat.testBit_mod_two_pow, Nat.testBit_shiftLeft, Nat.testBit_shiftRight]
  by_cases h : i < 8
  · have h8 : ¬ 8 ≤ i := by omega
    simp [h, h8]
  · have h8 : 8 + (i - 8) = i := by omega
    have h9 : 8 ≤ i := by omega
    simp [h, h8, h9]

/-- **a byte at a time.** A table of the eight shifts of each byte gives the next register. -/
theorem byte_of_table {p : Nat} {tab : Nat → Nat} (ht : ∀ i < 256, tab i = (shift p)^[8] i)
    (c : Nat) (b : UInt8) : tab ((c ^^^ b.toNat) % 2 ^ 8) ^^^ (c >>> 8) = byte p c b := by
  have hb : (c ^^^ b.toNat) >>> 8 = c >>> 8 := by
    have hlt : b.toNat < 2 ^ 8 := UInt8.toNat_lt b
    rw [Nat.shiftRight_xor_distrib, Nat.shiftRight_eq_div_pow b.toNat, Nat.div_eq_of_lt hlt,
      Nat.xor_zero]
  have hi : (c ^^^ b.toNat) % 2 ^ 8 < 256 := Nat.mod_lt _ (by decide)
  calc tab ((c ^^^ b.toNat) % 2 ^ 8) ^^^ (c >>> 8)
      = (shift p)^[8] ((c ^^^ b.toNat) % 2 ^ 8)
          ^^^ (shift p)^[8] (((c ^^^ b.toNat) >>> 8) <<< 8) := by
        rw [ht _ hi, iterate_shiftLeft, hb]
    _ = (shift p)^[8] (c ^^^ b.toNat) := by rw [← iterate_xor, low_xor_high]

theorem feed_append (p c : Nat) (as bs : List UInt8) :
    feed p c (as ++ bs) = feed p (feed p c as) bs := List.foldl_append

end Crc
