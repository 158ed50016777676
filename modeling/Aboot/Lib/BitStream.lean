import Mathlib.Algebra.Order.Ring.Nat
import Mathlib.Data.Nat.Bitwise
import Mathlib.Tactic.Ring

/-!
# Bits of a sequence of bytes

The bits of every byte are counted from the low end.

* `num byte R`          the number of the first `R` bytes, the low one first;
* `peek byte pos n`     the `n` bits from the position `pos` on;
* `peek_eq`             they can be taken from any number of bytes that holds them;
* `peek_mod`, `peek_add`   the first of some bits, and those behind them; `peek_byte` those of one byte;
* `peek_congr`          they depend on their bytes only;
* `num_or`              one more byte is put above the bits that are left.
-/

namespace BitStream

variable (byte : Nat → UInt8)

/-- the number of the first bytes -/
def num : Nat → Nat
  | 0 => 0
  | R + 1 => num R + (byte R).toNat * 2 ^ (8 * R)

/-- the `n` bits from `pos` on -/
def peek (pos n : Nat) : Nat := num byte ((pos + n + 7) / 8) / 2 ^ pos % 2 ^ n

variable {byte : Nat → UInt8} {R Q pos m n : Nat}

theorem num_lt : num byte R < 2 ^ (8 * R) := by
  induction R with
  | zero => exact Nat.one_pos
  | succ R ih =>
    have hb : (byte R).toNat + 1 ≤ 256 := (byte R).toNat_lt
    have hmul := Nat.mul_le_mul_right (2 ^ (8 * R)) hb
    have hpow : 2 ^ (8 * (R + 1)) = 256 * 2 ^ (8 * R) := by
      rw [Nat.mul_add_one, Nat.pow_add, Nat.mul_comm]
    rw [num, hpow]
    rw [Nat.add_one_mul] at hmul
    omega

theorem num_mod (h : R ≤ Q) : num byte Q % 2 ^ (8 * R) = num byte R := by
  induction Q with
  | zero =>
    rw [Nat.le_zero.mp h]
    rfl
  | succ Q ih =>
    rcases Nat.le_succ_iff.mp h with h | rfl
    · have hdvd : 2 ^ (8 * R) ∣ (byte Q).toNat * 2 ^ (8 * Q) :=
        Dvd.dvd.mul_left (Nat.pow_dvd_pow 2 (by omega)) _
      rw [num, ← ih h]
      obtain ⟨q, hq⟩ := hdvd
      rw [hq, Nat.add_mul_mod_self_left]
    · exact Nat.mod_eq_of_lt num_lt

theorem peek_eq (h : pos + n ≤ 8 * R) : num byte R / 2 ^ pos % 2 ^ n = peek byte pos n := by
  have hQ : (pos + n + 7) / 8 ≤ R := by omega
  have hn : pos + n ≤ 8 * ((pos + n + 7) / 8) := by omega
  have hmod : ∀ x, x / 2 ^ pos % 2 ^ n = x % 2 ^ (8 * ((pos + n + 7) / 8)) / 2 ^ pos % 2 ^ n := fun x => by
    rw [← Nat.mod_mul_right_div_self, ← Nat.pow_add, ← Nat.mod_mul_right_div_self, ← Nat.pow_add,
      Nat.mod_mod_of_dvd _ (Nat.pow_dvd_pow 2 hn)]
  rw [hmod, num_mod hQ, peek]

theorem peek_lt : peek byte pos n < 2 ^ n := Nat.mod_lt _ (Nat.two_pow_pos n)

/-- the first bits -/
theorem peek_mod (h : m ≤ n) : peek byte pos n % 2 ^ m = peek byte pos m := by
  have hR : pos + n ≤ 8 * (pos + n) := by omega
  rw [← peek_eq hR, Nat.mod_mod_of_dvd _ (Nat.pow_dvd_pow 2 h), peek_eq (by omega)]

/-- the bits behind the first ones -/
theorem peek_add : peek byte pos (m + n) / 2 ^ m = peek byte (pos + m) n := by
  have hR : pos + (m + n) ≤ 8 * (pos + (m + n)) := by omega
  rw [← peek_eq hR, Nat.pow_add, Nat.mod_mul_right_div_self, Nat.div_div_eq_div_mul, ← Nat.pow_add,
    peek_eq (by omega)]

/-- the bits of one byte -/
theorem peek_byte (j : Nat) : peek byte (8 * j) 8 = (byte j).toNat := by
  have hb : (byte j).toNat < 2 ^ 8 := (byte j).toNat_lt
  rw [← peek_eq (show 8 * j + 8 ≤ 8 * (j + 1) by omega), num, Nat.add_mul_div_right _ _ (Nat.two_pow_pos _),
    Nat.div_eq_of_lt num_lt, Nat.zero_add, Nat.mod_eq_of_lt hb]

/-- the bits that are left of some bytes -/
theorem left_lt {k : Nat} (h : 8 * R = pos + k) : num byte R / 2 ^ pos < 2 ^ k := by
  refine Nat.div_lt_of_lt_mul ?_
  rw [← Nat.pow_add, ← h]
  exact num_lt

/-- bits depend on their bytes only -/
theorem peek_congr {byte' : Nat → UInt8} (h : ∀ j, 8 * j < pos + n → byte j = byte' j) :
    peek byte pos n = peek byte' pos n := by
  have hnum : ∀ R, 8 * R < pos + n + 8 → num byte R = num byte' R := fun R => by
    induction R with
    | zero => exact fun _ => rfl
    | succ R ih =>
      intro hR
      rw [num, num, ih (by omega), h R (by omega)]
  rw [peek, peek, hnum _ (by omega)]

/-- one more byte is put above them -/
theorem num_or {k : Nat} (h : 8 * R = pos + k) :
    num byte R / 2 ^ pos ||| (byte R).toNat <<< k = num byte (R + 1) / 2 ^ pos := by
  have hlt : num byte R / 2 ^ pos < 2 ^ k := left_lt h
  have hpow : 2 ^ (8 * R) = 2 ^ pos * 2 ^ k := by rw [h, Nat.pow_add]
  rw [Nat.or_comm, ← Nat.shiftLeft_add_eq_or_of_lt hlt, Nat.shiftLeft_eq, num, hpow,
    Nat.mul_left_comm, Nat.add_mul_div_left _ _ (Nat.two_pow_pos pos), Nat.add_comm]

end BitStream
