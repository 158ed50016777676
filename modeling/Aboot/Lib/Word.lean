import Mathlib.Tactic.Ring
import Mathlib.Tactic.Linarith

/-!
# Machine words

Machine integers are `Int` and `Nat` values; `sgn w` and `uns w` reduce a value to the signed and
the unsigned integers of `w` bits.

* `sgn32_of_range`, `sgn64_of_range`, `uns64_of_range`, ..   a value that fits is not changed;
* `uns64_lt`   the reduced value fits;
* `sgn32_cases`, `uns32_cases`, ..   the reduced value, up to a multiple of the word size;
* `and_mask`   a mask that clears the low bits rounds down.
-/

namespace Word

/-- the signed `w`-bit integer of a value -/
def sgn (w : Nat) (x : Int) : Int := Int.bmod x (2 ^ w)

/-- the unsigned `w`-bit integer of a value -/
def uns (w : Nat) (x : Int) : Nat := (x % 2 ^ w).toNat

theorem sgn32_of_range {x : Int} (h1 : -2147483648 ≤ x) (h2 : x < 2147483648) : sgn 32 x = x := by
  unfold sgn
  rw [Int.bmod_def]
  norm_num
  split <;> omega

theorem sgn64_of_range {x : Int} (h1 : -9223372036854775808 ≤ x) (h2 : x < 9223372036854775808) :
    sgn 64 x = x := by
  unfold sgn
  rw [Int.bmod_def]
  norm_num
  split <;> omega

theorem sgn64_natCast {n : Nat} (h : n < 9223372036854775808) : sgn 64 n = n :=
  sgn64_of_range (by omega) (by omega)

theorem uns64_of_range {x : Int} (h1 : 0 ≤ x) (h2 : x < 18446744073709551616) :
    (uns 64 x : Int) = x := by
  unfold uns
  norm_num
  omega

theorem uns64_natCast {n : Nat} (h : n < 18446744073709551616) : uns 64 n = n := by
  unfold uns
  norm_num
  omega

theorem uns64_lt (x : Int) : uns 64 x < 18446744073709551616 := by
  unfold uns
  norm_num
  omega

/-- a signed word is its value up to a multiple of the word size -/
theorem sgn32_cases (x : Int) :
    ∃ q : Int, sgn 32 x = x - 4294967296 * q ∧ -2147483648 ≤ sgn 32 x ∧ sgn 32 x < 2147483648 := by
  refine ⟨Int.bdiv x (2 ^ 32), ?_, ?_, ?_⟩
  · unfold sgn
    rw [Int.bmod_eq_self_sub_mul_bdiv]
    norm_num
  · have := Int.le_bmod (x := x) (m := 2 ^ 32) (by decide)
    unfold sgn
    norm_num at this ⊢
    omega
  · have := Int.bmod_lt (x := x) (m := 2 ^ 32) (by decide)
    unfold sgn
    norm_num at this ⊢
    omega

theorem sgn64_cases (x : Int) :
    ∃ q : Int, sgn 64 x = x - 18446744073709551616 * q ∧ -9223372036854775808 ≤ sgn 64 x ∧
      sgn 64 x < 9223372036854775808 := by
  refine ⟨Int.bdiv x (2 ^ 64), ?_, ?_, ?_⟩
  · unfold sgn
    rw [Int.bmod_eq_self_sub_mul_bdiv]
    norm_num
  · have := Int.le_bmod (x := x) (m := 2 ^ 64) (by decide)
    unfold sgn
    norm_num at this ⊢
    omega
  · have := Int.bmod_lt (x := x) (m := 2 ^ 64) (by decide)
    unfold sgn
    norm_num at this ⊢
    omega

/-- an unsigned word is its value up to a multiple of the word size -/
theorem uns32_cases (x : Int) :
    ∃ q : Int, (uns 32 x : Int) = x - 4294967296 * q ∧ uns 32 x < 4294967296 := by
  refine ⟨x / 4294967296, ?_, ?_⟩
  · unfold uns
    norm_num
    omega
  · unfold uns
    norm_num
    omega

theorem uns64_cases (x : Int) :
    ∃ q : Int, (uns 64 x : Int) = x - 18446744073709551616 * q ∧ uns 64 x < 18446744073709551616 := by
  refine ⟨x / 18446744073709551616, ?_, uns64_lt x⟩
  unfold uns
  norm_num
  omega

theorem uns32_natCast {n : Nat} (h : n < 4294967296) : uns 32 n = n := by
  unfold uns
  norm_num
  omega

/-- a mask of `w` bits that clears the low `k` bits -/
theorem and_mask {w k n : Nat} (hk : k ≤ w) (h : n < 2 ^ w) :
    n &&& (2 ^ w - 2 ^ k) = n / 2 ^ k * 2 ^ k := by
  have hmask : 2 ^ w - 2 ^ k = (2 ^ (w - k) - 1) <<< k := by
    rw [Nat.shiftLeft_eq, Nat.sub_mul, ← Nat.pow_add, Nat.one_mul, Nat.sub_add_cancel hk]
  apply Nat.eq_of_testBit_eq
  intro i
  have e : n / 2 ^ k * 2 ^ k = (n >>> k) <<< k := by
    rw [Nat.shiftRight_eq_div_pow, Nat.shiftLeft_eq]
  rw [e, hmask, Nat.testBit_and, Nat.testBit_shiftLeft, Nat.testBit_shiftLeft,
    Nat.testBit_two_pow_sub_one, Nat.testBit_shiftRight]
  by_cases hi : k ≤ i
  · by_cases hw : i < w
    · have hd : i - k < w - k := by omega
      simp [hi, hd]
    · have hpow : 2 ^ w ≤ 2 ^ i := Nat.pow_le_pow_right (by omega) (by omega)
      have hbit : n.testBit i = false := Nat.testBit_lt_two_pow (by omega)
      have ei : k + (i - k) = i := by omega
      rw [ei, hbit, Bool.false_and, Bool.and_false]
  · simp [hi]

end Word
