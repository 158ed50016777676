import Aboot.E2.Impl

/-!
# The bitmap functions of the ext2 writer

* `bit_set_bit`, `bit_clear_bit`, `bit_setBits`   what they change, bit by bit;
* `find_first_zero_bit_spec`, `find_first_zero_bit_finds`   the bit that is found is clear, and one is
  found when there is one;
* `skip_spec`, `bit_of_word_zero`   the scans over the words, and the bits of a clear word.
-/

set_option linter.unusedVariables false

namespace E2
open Bitmap

theorem bit_set_bit (m : Mem) (b k : Nat) : bit (set_bit m b) k = (bit m k || decide (k = b)) := by
  have hb : b % 32 < 32 := Nat.mod_lt _ (by decide)
  have hk : k % 32 < 32 := Nat.mod_lt _ (by decide)
  rw [set_bit, bit_store]
  split
  · rename_i e
    rw [Nat.testBit_or, Nat.testBit_two_pow, testBit_word m _ _ hk]
    have h1 : 32 * (b / 32) + k % 32 = k := by omega
    have h2 : b % 32 = k % 32 ↔ k = b := by omega
    rw [h1]
    simp only [h2]
  · rename_i e
    have hne : k ≠ b := by
      intro h
      exact e (by rw [h])
    simp [hne]

theorem bit_clear_bit (m : Mem) (b k : Nat) :
    bit (clear_bit m b) k = (bit m k && decide (k ≠ b)) := by
  have hk : k % 32 < 32 := Nat.mod_lt _ (by decide)
  rw [clear_bit, bit_store]
  split
  · rename_i e
    have hones : Nat.testBit 0xffffffff (k % 32) = true := by
      rw [show (0xffffffff : Nat) = 2 ^ 32 - 1 by decide, Nat.testBit_two_pow_sub_one]
      simp [hk]
    rw [Nat.testBit_and, Nat.testBit_xor, Nat.testBit_two_pow, testBit_word m _ _ hk, hones]
    have h1 : 32 * (b / 32) + k % 32 = k := by omega
    have h2 : b % 32 = k % 32 ↔ k = b := by omega
    rw [h1]
    simp only [h2]
    by_cases h : k = b <;> simp [h]
  · rename_i e
    have hne : k ≠ b := by
      intro h
      exact e (by rw [h])
    simp [hne]

theorem bit_setBits (m : Mem) (blk n k : Nat) :
    bit (setBits m blk n) k = (bit m k || decide (blk ≤ k ∧ k < blk + n)) := by
  unfold setBits
  induction n with
  | zero => simp
  | succ n ih =>
    rw [List.range_succ, List.foldl_append, List.foldl_cons, List.foldl_nil, bit_set_bit, ih,
      Bool.or_assoc]
    congr 1
    by_cases h : k = blk + n
    · simp [h]
    · simp only [h, decide_false, Bool.or_false]
      congr 1
      simp only [eq_iff_iff]
      omega

/-! ## searching -/

theorem zeroBit_some {w b : Nat} (h : zeroBit w = some b) : b < 32 ∧ w.testBit b = false := by
  have h1 := List.mem_of_find?_eq_some h
  have h2 := List.find?_some h
  exact ⟨List.mem_range.mp h1, by simpa using h2⟩

/-- the search in one word -/
def inWord (m : Mem) (longword : Nat) : Option Nat :=
  if word m longword ≠ 0xffffffff then (zeroBit (word m longword)).map fun bit => longword * 32 + bit
  else none

theorem find_first_zero_bit_eq {m : Mem} {size : Nat} (h : size ≠ 0) :
    find_first_zero_bit m size = ((List.range ((size + 31) / 32)).findSome? (inWord m)).getD size := by
  unfold find_first_zero_bit
  rw [if_neg h]
  rfl

theorem inWord_some {m : Mem} {j r : Nat} (h : inWord m j = some r) :
    r / 32 = j ∧ bit m r = false := by
  unfold inWord at h
  split at h
  · obtain ⟨b, hb, rfl⟩ := Option.map_eq_some_iff.mp h
    obtain ⟨hb32, hbit⟩ := zeroBit_some hb
    rw [testBit_word m j b hb32, Nat.mul_comm] at hbit
    exact ⟨by omega, hbit⟩
  · cases h

/-- a word without a clear bit -/
theorem inWord_none {m : Mem} {j b : Nat} (h : inWord m j = none) (hb : b < 32) :
    bit m (32 * j + b) = true := by
  rw [← testBit_word m j b hb]
  unfold inWord at h
  split at h
  · have hall := List.find?_eq_none.mp (Option.map_eq_none_iff.mp h) b (List.mem_range.mpr hb)
    simpa using hall
  · rename_i hw
    rw [not_not.mp hw, show (0xffffffff : Nat) = 2 ^ 32 - 1 by decide, Nat.testBit_two_pow_sub_one]
    exact decide_eq_true hb

theorem found_spec {m : Mem} {n r : Nat} (h : (List.range n).findSome? (inWord m) = some r) :
    r < n * 32 ∧ bit m r = false := by
  obtain ⟨j, hj, hr⟩ := List.exists_of_findSome?_eq_some h
  have hj := List.mem_range.mp hj
  obtain ⟨hdiv, hbit⟩ := inWord_some hr
  exact ⟨by omega, hbit⟩

/-- the bit that is found is clear, and in one of the words that were looked at -/
theorem find_first_zero_bit_spec (m : Mem) (size : Nat) (h : find_first_zero_bit m size ≠ size) :
    find_first_zero_bit m size < (size + 31) / 32 * 32 ∧
      bit m (find_first_zero_bit m size) = false := by
  have h0 : size ≠ 0 := by
    rintro rfl
    exact h rfl
  rw [find_first_zero_bit_eq h0] at h ⊢
  cases hf : (List.range ((size + 31) / 32)).findSome? (inWord m) with
  | none =>
    rw [hf] at h
    exact absurd rfl h
  | some r => exact found_spec hf

/-- a clear bit is found when there is one -/
theorem find_first_zero_bit_finds {m : Mem} {size j : Nat} (hj : j < size) (h : bit m j = false) :
    find_first_zero_bit m size < (size + 31) / 32 * 32 ∧
      bit m (find_first_zero_bit m size) = false := by
  rw [find_first_zero_bit_eq (by omega)]
  cases hf : (List.range ((size + 31) / 32)).findSome? (inWord m) with
  | none =>
    have hnone := List.findSome?_eq_none_iff.mp hf (j / 32) (List.mem_range.mpr (by omega))
    have hset := inWord_none hnone (Nat.mod_lt j (show 0 < 32 by decide))
    rw [Nat.div_add_mod, h] at hset
    cases hset
  | some r => exact found_spec hf

/-- the words before the one in which a bit is found have none -/
theorem findSome?_range {f : Nat → Option Nat} {n r : Nat} (h : (List.range n).findSome? f = some r) :
    ∃ k, k < n ∧ f k = some r ∧ ∀ j, j < k → f j = none := by
  induction n with
  | zero => cases h
  | succ n ih =>
    rw [List.range_succ, List.findSome?_append] at h
    cases hn : (List.range n).findSome? f with
    | some r' =>
      rw [hn] at h
      obtain ⟨k, hk, hf, hbefore⟩ := ih (hn.trans h)
      exact ⟨k, by omega, hf, hbefore⟩
    | none =>
      rw [hn] at h
      have hr : f n = some r := by simpa using h
      refine ⟨n, by omega, hr, fun j hj => ?_⟩
      exact List.findSome?_eq_none_iff.mp hn j (List.mem_range.mpr hj)

/-- the bit that is found is the first clear one -/
theorem find_first_zero_bit_first {m : Mem} {size j : Nat} (h : find_first_zero_bit m size ≠ size)
    (hj : j < find_first_zero_bit m size) : bit m j = true := by
  have h0 : size ≠ 0 := by
    rintro rfl
    exact h rfl
  rw [find_first_zero_bit_eq h0] at h hj
  cases hf : (List.range ((size + 31) / 32)).findSome? (inWord m) with
  | none =>
    rw [hf] at h
    exact absurd rfl h
  | some r =>
    rw [hf, Option.getD_some] at hj
    obtain ⟨k, -, hk, hbefore⟩ := findSome?_range hf
    rcases Nat.lt_or_ge (j / 32) k with hlt | hge
    · have hset := inWord_none (hbefore _ hlt) (Nat.mod_lt j (show 0 < 32 by decide))
      rwa [Nat.div_add_mod] at hset
    · -- an earlier bit of the same word
      have hdiv := (inWord_some hk).1
      unfold inWord at hk
      split at hk
      · obtain ⟨b, hb, hr⟩ := Option.map_eq_some_iff.mp hk
        have hb32 := (zeroBit_some hb).1
        have hall := (List.find?_range_eq_some.mp hb).2.2 (j % 32) (by omega)
        rw [← Nat.div_add_mod j 32, ← testBit_word m _ _ (Nat.mod_lt j (by decide)),
          show j / 32 = k by omega]
        simpa using hall
      · cases hk

/-- a clear first bit is found -/
theorem find_first_zero_bit_head {m : Mem} {size : Nat} (h0 : 0 < size) (h : bit m 0 = false) :
    find_first_zero_bit m size = 0 := by
  obtain ⟨n, hn⟩ : ∃ n, (size + 31) / 32 = n + 1 := ⟨(size + 31) / 32 - 1, by omega⟩
  have hbit : (word m 0).testBit 0 = false := by
    rw [testBit_word m 0 0 (by decide)]
    exact h
  have hword : inWord m 0 = some 0 := by
    have hw : word m 0 ≠ 0xffffffff := by
      intro e
      rw [e] at hbit
      exact absurd hbit (by decide)
    have hz : zeroBit (word m 0) = some 0 := by
      unfold zeroBit
      rw [List.range_succ_eq_map, List.find?_cons_of_pos]
      rw [hbit]
      rfl
    rw [inWord, if_pos hw, hz]
    rfl
  rw [find_first_zero_bit_eq (by omega), hn, List.range_succ_eq_map, List.findSome?_cons, hword]
  rfl

theorem skip_spec (p : Nat → Bool) (n : Nat) :
    ∀ j, j ≤ skip p j n ∧ skip p j n ≤ j + n ∧ (skip p j n < j + n → p (skip p j n) = true) ∧
      ∀ x, j ≤ x → x < skip p j n → p x = false := by
  induction n with
  | zero =>
    intro j
    exact ⟨le_refl j, le_refl j, fun h => absurd h (lt_irrefl _),
      fun x h1 h2 => absurd h2 (not_lt.mpr h1)⟩
  | succ n ih =>
    intro j
    unfold skip
    split
    · rename_i hp
      exact ⟨le_refl j, by omega, fun _ => hp, fun x h1 h2 => by omega⟩
    · rename_i hp
      obtain ⟨h1, h2, h3, h4⟩ := ih (j + 1)
      refine ⟨by omega, by omega, fun h => h3 (by omega), fun x hx1 hx2 => ?_⟩
      rcases Nat.eq_or_lt_of_le hx1 with e | e
      · rw [← e]
        simpa using hp
      · exact h4 x e hx2

/-- a clear word has clear bits -/
theorem bit_of_word_zero {m : Mem} {k : Nat} (h : word m (k / 32) = 0) : bit m k = false := by
  have hk : k % 32 < 32 := Nat.mod_lt _ (by decide)
  have h1 := testBit_word m (k / 32) (k % 32) hk
  rw [h, Nat.zero_testBit, Nat.div_add_mod] at h1
  exact h1.symm

end E2
