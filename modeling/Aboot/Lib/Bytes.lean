import Aboot.Lib.Mem
import Mathlib.Data.Nat.Bitwise

/-!
# Numbers as bytes

* `ofNum n k`   the `k` low bytes of `n`, the low one first;
* `num bs`      the number of the bytes `bs`;
* `record`      a memory with some numbers in it;
* `num_ofNum`, `ofNum_num`   the number read back, reduced to its `k` bytes, and the bytes read back;
* `le_put_self`, `le_put_out`   a number stored in a memory, and the numbers next to it;
* `testBit_num`   a bit of a number is a bit of one of its bytes.
-/

namespace Bytes

/-- the number of the bytes `bs`, the low one first -/
def num : List UInt8 → Nat
  | [] => 0
  | b :: bs => b.toNat + 256 * num bs

/-- the `k` low bytes of a number, the low one first -/
def ofNum (n : Nat) : Nat → List UInt8
  | 0 => []
  | k + 1 => UInt8.ofNat n :: ofNum (n / 256) k

/-- a cleared record with numbers stored in it, each at its offset with its number of bytes -/
def record (fields : List (Nat × Nat × Nat)) : Mem :=
  fields.foldl (fun m f => m.put f.1 (ofNum f.2.1 f.2.2)) fun _ => 0

@[simp] theorem length_ofNum (n k : Nat) : (ofNum n k).length = k := by
  induction k generalizing n with
  | zero => rfl
  | succ k ih => simp [ofNum, ih]

theorem ofNum_zero (k : Nat) : ofNum 0 k = List.replicate k 0 := by
  induction k with
  | zero => rfl
  | succ k ih =>
    show UInt8.ofNat 0 :: ofNum (0 / 256) k = _
    rw [Nat.zero_div, ih]
    rfl

theorem num_ofNum (n k : Nat) : num (ofNum n k) = n % 256 ^ k := by
  induction k generalizing n with
  | zero => simp [num, ofNum, Nat.mod_one]
  | succ k ih =>
    have hb : (UInt8.ofNat n).toNat = n % 256 := by simp
    show (UInt8.ofNat n).toNat + 256 * num (ofNum (n / 256) k) = _
    rw [hb, ih, Nat.pow_succ, Nat.mul_comm (256 ^ k), Nat.mod_mul]

/-- the bytes of the number of `bs` are `bs` -/
theorem ofNum_num (bs : List UInt8) : ofNum (num bs) bs.length = bs := by
  induction bs with
  | nil => rfl
  | cons b bs ih =>
    have hb : b.toNat < 256 := b.toNat_lt
    have hdiv : (b.toNat + 256 * num bs) / 256 = num bs := by omega
    have hmod : UInt8.ofNat (b.toNat + 256 * num bs) = b := by
      apply UInt8.toNat_inj.mp
      rw [UInt8.toNat_ofNat']
      omega
    show UInt8.ofNat (b.toNat + 256 * num bs) :: ofNum ((b.toNat + 256 * num bs) / 256) bs.length = _
    rw [hdiv, hmod, ih]

theorem num_lt (bs : List UInt8) : num bs < 256 ^ bs.length := by
  induction bs with
  | nil => simp [num]
  | cons b bs ih =>
    have hb : b.toNat < 256 := b.toNat_lt
    simp only [num, List.length_cons, Nat.pow_succ]
    omega

theorem le_eq_num (m : Mem) (a k : Nat) : m.le a k = num (m.get a k) := by
  induction k generalizing a with
  | zero => rfl
  | succ k ih =>
    have hget : m.get a (k + 1) = m a :: m.get (a + 1) k := by
      simp only [Mem.get, List.range_succ_eq_map, List.map_cons, List.map_map]
      congr 1
      apply List.map_congr_left
      intro j _
      show m (a + (j + 1)) = m (a + 1 + j)
      congr 1
      omega
    rw [hget]
    simp only [Mem.le, num, ih]

/-- equal bytes at two places are equal numbers -/
theorem le_shift {m m' : Mem} {a b k : Nat} (h : ∀ j, j < k → m (a + j) = m' (b + j)) :
    m.le a k = m'.le b k := by
  rw [le_eq_num, le_eq_num]
  apply congrArg num
  apply List.map_congr_left
  intro j hj
  exact h j (List.mem_range.mp hj)

theorem le_congr {m m' : Mem} {a k : Nat} (h : ∀ j, j < k → m (a + j) = m' (a + j)) :
    m.le a k = m'.le a k := le_shift h

/-- a number stored is read back -/
theorem le_put_self (m : Mem) (a n k : Nat) : (m.put a (ofNum n k)).le a k = n % 256 ^ k := by
  have h := Mem.get_put_self m a (ofNum n k)
  rw [length_ofNum] at h
  rw [le_eq_num, h, num_ofNum]

/-- storing bytes does not change a number next to them -/
theorem le_put_out (m : Mem) (a b k : Nat) (bs : List UInt8) (h : b + k ≤ a ∨ a + bs.length ≤ b) :
    (m.put a bs).le b k = m.le b k := by
  rw [le_eq_num, le_eq_num, Mem.get_put_out m a k b bs h]

/-- a bit of a number is a bit of one of its bytes -/
theorem testBit_num (bs : List UInt8) (k : Nat) :
    (num bs).testBit k = (bs.getD (k / 8) 0).toNat.testBit (k % 8) := by
  induction bs generalizing k with
  | nil => simp [num]
  | cons b bs ih =>
    have hb : b.toNat < 2 ^ 8 := b.toNat_lt
    have hnum : num (b :: bs) = 2 ^ 8 * num bs + b.toNat := by
      simp only [num]
      omega
    rw [hnum, Nat.testBit_two_pow_mul_add _ hb]
    split
    · rename_i hk
      rw [Nat.div_eq_of_lt hk, Nat.mod_eq_of_lt hk]
      rfl
    · rename_i hk
      have hdiv : k / 8 = (k - 8) / 8 + 1 := by omega
      have hmod : k % 8 = (k - 8) % 8 := by omega
      rw [ih, hdiv, hmod]
      rfl

end Bytes
