import Aboot.Lib.Bytes
import Mathlib.Algebra.BigOperators.Group.Finset.Basic

/-!
# The SRM boot block

Sector 0 of a boot device has 64 words of 64 bits: the size and the start of the boot image in words
60 and 61, flags in word 62, and in word 63 the sum of the words before it.

* `checksum`    the sum as the programs compute it, one word after the other;
* `Summed`      the law;
* `summed_put`  storing the sum establishes the law.
-/

namespace BootBlock
open Bytes

abbrev SECT_SIZE : Nat := 512
def BOOT_SECTOR : Nat := 2

/-- word `x` of a sector -/
def word (m : Mem) (x : Nat) : Nat := m.le64 (8 * x)

/-- the running sum over the first 63 words, in 64 bits -/
def checksum (m : Mem) : Nat :=
  (List.range 63).foldl (fun sum x => (sum + word m x) % 2 ^ 64) 0

/-- word 63 is the sum of the words before it -/
def Summed (m : Mem) : Prop := word m 63 = (∑ x ∈ Finset.range 63, word m x) % 2 ^ 64

theorem foldl_sum (f : Nat → Nat) (n : Nat) :
    (List.range n).foldl (fun sum x => (sum + f x) % 2 ^ 64) 0
      = (∑ x ∈ Finset.range n, f x) % 2 ^ 64 := by
  induction n with
  | zero => rfl
  | succ n ih =>
    rw [List.range_succ, List.foldl_append, ih, Finset.sum_range_succ]
    exact Nat.mod_add_mod _ _ _

theorem checksum_eq (m : Mem) : checksum m = (∑ x ∈ Finset.range 63, word m x) % 2 ^ 64 :=
  foldl_sum _ 63

theorem word_congr {m m' : Mem} {x : Nat} (h : ∀ k, k < 512 → m' k = m k) (hx : x < 64) :
    word m' x = word m x := le_congr fun j hj => h _ (by omega)

theorem word_put_self (m : Mem) (x n : Nat) : word (m.put (8 * x) (ofNum n 8)) x = n % 2 ^ 64 := by
  have h := le_put_self m (8 * x) n 8
  exact h

theorem word_put_other (m : Mem) {x y : Nat} (n : Nat) (h : y ≠ x) :
    word (m.put (8 * x) (ofNum n 8)) y = word m y := by
  refine le_put_out m _ _ 8 _ ?_
  rw [length_ofNum]
  omega

/-- the three words of a boot block are stored together -/
theorem put_words (m : Mem) (a b c : Nat) : m.put 480 (ofNum a 8 ++ ofNum b 8 ++ ofNum c 8)
    = ((m.put 480 (ofNum a 8)).put 488 (ofNum b 8)).put 496 (ofNum c 8) := by
  have h1 := Mem.put_append m 480 (ofNum a 8) (ofNum b 8)
  have h2 := Mem.put_append m 480 (ofNum a 8 ++ ofNum b 8) (ofNum c 8)
  rw [length_ofNum] at h1
  rw [List.length_append, length_ofNum, length_ofNum] at h2
  rw [h1, h2]

/-- the law looks at the sector only -/
theorem Summed.congr {m m' : Mem} (h : ∀ k, k < 512 → m' k = m k) (hs : Summed m) : Summed m' := by
  unfold Summed at hs ⊢
  rw [word_congr h (by decide), hs]
  apply congrArg (· % 2 ^ 64)
  exact Finset.sum_congr rfl fun x hx =>
    (word_congr h (by have := Finset.mem_range.mp hx; omega)).symm

/-- a sector with its sum stored in word 63 -/
theorem summed_put (m : Mem) : Summed (m.put 504 (ofNum (checksum m) 8)) := by
  have hself : word (m.put 504 (ofNum (checksum m) 8)) 63 = checksum m % 2 ^ 64 :=
    word_put_self m 63 _
  unfold Summed
  rw [hself, checksum_eq, Nat.mod_mod]
  apply congrArg (· % 2 ^ 64)
  exact Finset.sum_congr rfl fun x hx =>
    (word_put_other (x := 63) m _ (by have := Finset.mem_range.mp hx; omega)).symm

end BootBlock
