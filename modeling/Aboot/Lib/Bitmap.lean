import Aboot.Lib.Bytes
import Mathlib.Data.Finset.Card
import Mathlib.Order.Interval.Finset.Nat

/-!
# Bitmaps

A bitmap is a byte memory: bit `k` is bit `k % 8` of byte `k / 8`.  Programs that work on 32-bit
words see the same bits, the low byte first.

* `testBit_word`   bit `b` of word `j` is bit `32 j + b`;
* `bit_store`      a word stored, seen bit by bit;
* `zeros m n`      the number of clear bits below `n`;
* `zeros_mark`     setting `n` clear bits takes `n` away from it;
* `zeros_clear`    clearing one set bit adds one.
-/

namespace Bitmap
open Bytes

def bit (m : Mem) (k : Nat) : Bool := (m (k / 8)).toNat.testBit (k % 8)

/-- the 32-bit word `j` -/
def word (m : Mem) (j : Nat) : Nat := m.le32 (4 * j)

/-- store the 32-bit word `j` -/
def store (m : Mem) (j w : Nat) : Mem := m.put (4 * j) (ofNum w 4)

theorem word_lt (m : Mem) (j : Nat) : word m j < 2 ^ 32 := by
  have h := num_lt (m.get (4 * j) 4)
  rw [Mem.length_get, ← le_eq_num] at h
  exact h

theorem testBit_word (m : Mem) (j b : Nat) (hb : b < 32) :
    (word m j).testBit b = bit m (32 * j + b) := by
  have hdiv : (32 * j + b) / 8 = 4 * j + b / 8 := by omega
  have hmod : (32 * j + b) % 8 = b % 8 := by omega
  have hget : (m.get (4 * j) 4)[b / 8]? = some (m (4 * j + b / 8)) :=
    Mem.get_getElem? m (4 * j) 4 (b / 8) (by omega)
  rw [word, Mem.le32, le_eq_num, testBit_num, List.getD_eq_getElem?_getD, hget, Option.getD_some,
    bit, hdiv, hmod]

theorem word_store_self (m : Mem) (j w : Nat) : word (store m j w) j = w % 2 ^ 32 := by
  have h := le_put_self m (4 * j) w 4
  rwa [show (256 : Nat) ^ 4 = 2 ^ 32 by decide] at h

theorem word_store_other (m : Mem) (j j' w : Nat) (h : j' ≠ j) :
    word (store m j w) j' = word m j' := by
  apply le_put_out
  rw [length_ofNum]
  omega

/-- a word stored, seen bit by bit -/
theorem bit_store (m : Mem) (j w k : Nat) :
    bit (store m j w) k = if k / 32 = j then w.testBit (k % 32) else bit m k := by
  have hk : k = 32 * (k / 32) + k % 32 := by omega
  have hb : k % 32 < 32 := Nat.mod_lt _ (by decide)
  have h1 := testBit_word (store m j w) (k / 32) (k % 32) hb
  have h2 := testBit_word m (k / 32) (k % 32) hb
  rw [← hk] at h1 h2
  rw [← h1]
  split
  · rename_i e
    rw [e, word_store_self, Nat.testBit_mod_two_pow]
    simp [hb]
  · rename_i e
    rw [word_store_other _ _ _ _ e, h2]

/-! ## counting the clear bits -/

/-- the number of clear bits below `n` -/
def zeros (m : Mem) (n : Nat) : Nat := ((Finset.range n).filter fun k => bit m k = false).card

theorem zeros_le (m : Mem) (n : Nat) : zeros m n ≤ n := by
  have h := Finset.card_filter_le (Finset.range n) fun k => bit m k = false
  rwa [Finset.card_range] at h

theorem zeros_congr {m m' : Mem} {n : Nat} (h : ∀ k, k < n → bit m' k = bit m k) :
    zeros m' n = zeros m n := by
  unfold zeros
  congr 1
  apply Finset.filter_congr
  intro k hk
  rw [h k (Finset.mem_range.mp hk)]

/-- setting `n` clear bits from `a` on -/
theorem zeros_mark {m m' : Mem} {a n size : Nat} (ha : a + n ≤ size)
    (hfree : ∀ k, a ≤ k → k < a + n → bit m k = false)
    (hset : ∀ k, a ≤ k → k < a + n → bit m' k = true)
    (hrest : ∀ k, k < size → ¬ (a ≤ k ∧ k < a + n) → bit m' k = bit m k) :
    zeros m' size + n = zeros m size := by
  have hfilter : (Finset.range size).filter (fun k => bit m k = false)
      = (Finset.range size).filter (fun k => bit m' k = false) ∪ Finset.Ico a (a + n) := by
    ext k
    simp only [Finset.mem_union, Finset.mem_filter, Finset.mem_range, Finset.mem_Ico]
    by_cases hk : a ≤ k ∧ k < a + n
    · simp only [hk, and_self, or_true, iff_true]
      exact ⟨by omega, hfree k hk.1 hk.2⟩
    · simp only [hk, or_false, and_congr_right_iff]
      intro hs
      rw [hrest k hs hk]
  have hdis : Disjoint ((Finset.range size).filter (fun k => bit m' k = false))
      (Finset.Ico a (a + n)) := by
    rw [Finset.disjoint_left]
    intro k h1 h2
    rw [Finset.mem_filter] at h1
    rw [Finset.mem_Ico] at h2
    rw [hset k h2.1 h2.2] at h1
    cases h1.2
  unfold zeros
  rw [hfilter, Finset.card_union_of_disjoint hdis, Nat.card_Ico]
  omega

/-- clearing one set bit -/
theorem zeros_clear {m m' : Mem} {a size : Nat} (ha : a < size) (hset : bit m a = true)
    (hclear : bit m' a = false) (hrest : ∀ k, k < size → k ≠ a → bit m' k = bit m k) :
    zeros m' size = zeros m size + 1 := by
  symm
  refine zeros_mark (n := 1) (a := a) (by omega) ?_ ?_ ?_
  · intro k h1 h2
    rwa [show k = a by omega]
  · intro k h1 h2
    rwa [show k = a by omega]
  · intro k hk h
    exact (hrest k hk (by omega)).symm

end Bitmap
