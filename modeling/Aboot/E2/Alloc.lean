import Aboot.E2.Cache
import Aboot.E2.Bits
import Mathlib.Algebra.BigOperators.Group.Finset.Piecewise
import Mathlib.Algebra.Order.BigOperators.Group.Finset

/-!
# Allocating and freeing blocks and inodes

A group has a bitmap for its blocks and one for its inodes; `Kind` says which.  The free counts of
the group descriptors and of the superblock are kept beside the bitmaps.

* `Plan`, `Layout`   the groups have bitmaps of their own, in reach of the `int` offsets of bio.c;
* `Counted`   the counts agree with the bitmaps, and no bit past the end of a group is clear;
* `Took`, `Freed`   one call marks a run of numbers, or clears one, and changes no other bit;
* `update_counted`  a bitmap and its counts changed together;
* `took_of_wrote`   a run of bits set, seen as numbers.
-/

set_option linter.unusedVariables false

namespace E2
open Word Bytes Bitmap
open Ext2 (s_blocks_count s_blocks_per_group s_inodes_per_group)

inductive Kind where
  | block | inode
deriving DecidableEq

namespace Kind

/-- how many of them a group has -/
def per (sb : Mem) : Kind → Nat
  | block => s_blocks_per_group sb
  | inode => s_inodes_per_group sb

/-- how many of them the file system has; there is no group for block 0 -/
def units (sb : Mem) : Kind → Nat
  | block => s_blocks_count sb - 1
  | inode => s_inodes_count sb

/-- the free count of the superblock -/
def total (sb : Mem) : Kind → Nat
  | block => s_free_blocks_count sb
  | inode => s_free_inodes_count sb

/-- the free count of a group -/
def free (gds : Mem) (i : Nat) : Kind → Nat
  | block => bg_free_blocks_count gds i
  | inode => bg_free_inodes_count gds i

/-- the block with the bitmap of a group -/
def map (gds : Mem) (i : Nat) : Kind → Nat
  | block => bg_block_bitmap gds i
  | inode => bg_inode_bitmap gds i

/-- how many of them a group really has: the last one may be shorter -/
def size (sb : Mem) (i : Nat) (k : Kind) : Nat := min (k.per sb) (k.units sb - i * k.per sb)

/-- the counts of group `i` and of the superblock go up by `n` -/
def add (i : Nat) (n : Int) : Kind → State → State
  | block => addFreeBlocks i n
  | inode => addFreeInodes i n

end Kind

/-- the number of groups the writer goes through -/
def State.groups (s : State) : Nat := s.ngroups.toNat

/-- a bit of the bitmap of a group -/
def State.bit (s : State) (k : Kind) (i j : Nat) : Bool :=
  Bitmap.bit (buffer (contents s.bio (k.map s.gds i))) j

/-- a group that has blocks, or inodes -/
def State.Group (s : State) (k : Kind) (i : Nat) : Prop := i < s.groups ∧ 0 < k.size s.sb i

/-- the file system has 1024-byte blocks, and every group has a bitmap of its own of each kind -/
structure Plan (s : State) : Prop where
  blocksize : s.bio.bio_blocksize = 1024
  pos : ∀ k : Kind, 0 < k.per s.sb
  fits : ∀ k : Kind, k.per s.sb ≤ 8192
  first : ∀ k i, s.Group k i → 1 ≤ k.map s.gds i
  apart : ∀ k i k' i', s.Group k i → s.Group k' i' → k.map s.gds i = k'.map s.gds i' →
    k = k' ∧ i = i'

/-- the bitmaps are in reach of the `int` offsets -/
structure Layout (s : State) : Prop extends Plan s where
  reach : ∀ k i, s.Group k i → (k.map s.gds i + 1) * 1024 ≤ 2147483648

/-- the counts are those of the bitmaps, and every bit past the end of a group is set -/
structure Counted (s : State) : Prop where
  free : ∀ k i, i < s.groups → Kind.free s.gds i k
    = zeros (buffer (contents s.bio (k.map s.gds i))) (k.size s.sb i)
  total : ∀ k : Kind, k.total s.sb = ∑ i ∈ Finset.range s.groups, Kind.free s.gds i k
  tail : ∀ k i j, s.Group k i → k.size s.sb i ≤ j → j < 8192 → s.bit k i j = true

/-! ## the counts in the superblock and the descriptors -/

theorem uns16_of_range {x : Int} (h1 : 0 ≤ x) (h2 : x < 65536) : uns 16 x = x.toNat := by
  unfold uns
  norm_num
  omega

theorem uns32_of_range {x : Int} (h1 : 0 ≤ x) (h2 : x < 4294967296) : uns 32 x = x.toNat := by
  unfold uns
  norm_num
  omega

/-- a number of the descriptors that the count of group `i` does not overlap -/
theorem add_gds (k : Kind) (i : Nat) (n : Int) (s : State) (b w : Nat)
    (h : b + w ≤ i * 32 + (if k = .block then 12 else 14) ∨
      i * 32 + (if k = .block then 14 else 16) ≤ b) :
    (k.add i n s).gds.le b w = s.gds.le b w := by
  cases k with
  | block => exact le_put_out _ _ _ _ _ (by simpa using h)
  | inode => exact le_put_out _ _ _ _ _ (by simpa using h)

/-- a number of the superblock that the count does not overlap -/
theorem add_sb (k : Kind) (i : Nat) (n : Int) (s : State) (b w : Nat)
    (h : b + w ≤ (if k = .block then 12 else 16) ∨ (if k = .block then 16 else 20) ≤ b) :
    (k.add i n s).sb.le b w = s.sb.le b w := by
  cases k with
  | block => exact le_put_out _ _ _ _ _ (by simpa using h)
  | inode => exact le_put_out _ _ _ _ _ (by simpa using h)

theorem add_map (k : Kind) (i : Nat) (n : Int) (s : State) (k' : Kind) (i' : Nat) :
    k'.map (k.add i n s).gds i' = k'.map s.gds i' := by
  cases k' with
  | block => exact add_gds k i n s _ 4 (by split <;> omega)
  | inode => exact add_gds k i n s _ 4 (by split <;> omega)

theorem add_per (k : Kind) (i : Nat) (n : Int) (s : State) (k' : Kind) :
    k'.per (k.add i n s).sb = k'.per s.sb := by
  cases k' with
  | block => exact add_sb k i n s 32 4 (by split <;> omega)
  | inode => exact add_sb k i n s 40 4 (by split <;> omega)

theorem add_units (k : Kind) (i : Nat) (n : Int) (s : State) (k' : Kind) :
    k'.units (k.add i n s).sb = k'.units s.sb := by
  cases k' with
  | block => exact congrArg (· - 1) (add_sb k i n s 4 4 (by split <;> omega))
  | inode => exact add_sb k i n s 0 4 (by split <;> omega)

theorem add_size (k : Kind) (i : Nat) (n : Int) (s : State) (k' : Kind) (i' : Nat) :
    k'.size (k.add i n s).sb i' = k'.size s.sb i' := by
  rw [Kind.size, Kind.size, add_per, add_units]

theorem add_free_other (k : Kind) (i : Nat) (n : Int) (s : State) (k' : Kind) (i' : Nat)
    (h : ¬ (k' = k ∧ i' = i)) : Kind.free (k.add i n s).gds i' k' = Kind.free s.gds i' k' := by
  cases k' with
  | block => exact add_gds k i n s _ 2 (by cases k <;> simp at h ⊢ <;> omega)
  | inode => exact add_gds k i n s _ 2 (by cases k <;> simp at h ⊢ <;> omega)

theorem add_total_other (k : Kind) (i : Nat) (n : Int) (s : State) (k' : Kind) (h : k' ≠ k) :
    k'.total (k.add i n s).sb = k'.total s.sb := by
  cases k' with
  | block => exact add_sb k i n s 12 4 (by cases k <;> simp at h ⊢)
  | inode => exact add_sb k i n s 16 4 (by cases k <;> simp at h ⊢)

/-- the counts that change -/
theorem add_counts (k : Kind) (i : Nat) (n : Int) (s : State)
    (h0 : 0 ≤ (Kind.free s.gds i k : Int) + n) (h1 : (Kind.free s.gds i k : Int) + n < 65536)
    (h2 : 0 ≤ (k.total s.sb : Int) + n) (h3 : (k.total s.sb : Int) + n < 4294967296) :
    (Kind.free (k.add i n s).gds i k : Int) = Kind.free s.gds i k + n ∧
      (k.total (k.add i n s).sb : Int) = k.total s.sb + n := by
  have e16 : ∀ (m : Mem) (a : Nat) (x : Int), 0 ≤ x → x < 65536 →
      ((m.put a (ofNum (uns 16 x) 2)).le16 a : Int) = x := by
    intro m a x hx1 hx2
    have h := le_put_self m a (uns 16 x) 2
    rw [Mem.le16, h, uns16_of_range hx1 hx2, Nat.mod_eq_of_lt (by norm_num; omega)]
    omega
  have e32 : ∀ (m : Mem) (a : Nat) (x : Int), 0 ≤ x → x < 4294967296 →
      ((m.put a (ofNum (uns 32 x) 4)).le32 a : Int) = x := by
    intro m a x hx1 hx2
    have h := le_put_self m a (uns 32 x) 4
    rw [Mem.le32, h, uns32_of_range hx1 hx2, Nat.mod_eq_of_lt (by norm_num; omega)]
    omega
  cases k with
  | block => exact ⟨e16 _ _ _ h0 h1, e32 _ _ _ h2 h3⟩
  | inode => exact ⟨e16 _ _ _ h0 h1, e32 _ _ _ h2 h3⟩

theorem add_fields (k : Kind) (i : Nat) (n : Int) (s : State) :
    (k.add i n s).bio = s.bio ∧ (k.add i n s).ngroups = s.ngroups := by
  cases k <;> exact ⟨rfl, rfl⟩

/-! ## a bitmap and its counts changed together -/

/-- the counts are true, and the buffers stand for the blocks -/
structure Sound (s : State) : Prop where
  plan : Plan s
  counted : Counted s
  coherent : ∃ a, Bio.Held s.bio a

/-- the states between two calls -/
structure Ok (s : State) : Prop where
  layout : Layout s
  counted : Counted s
  coherent : ∃ a, Bio.Held s.bio a

theorem Ok.sound {s : State} (h : Ok s) : Sound s := ⟨h.layout.toPlan, h.counted, h.coherent⟩

theorem Kind.size_le (k : Kind) (sb : Mem) (i : Nat) : k.size sb i ≤ k.per sb := Nat.min_le_left _ _

theorem sum_size_le (p u n : Nat) : ∑ i ∈ Finset.range n, min p (u - i * p) ≤ u := by
  have h : ∑ i ∈ Finset.range n, min p (u - i * p) = min (n * p) u := by
    induction n with
    | zero => simp
    | succ n ih =>
      rw [Finset.sum_range_succ, ih, Nat.succ_mul]
      generalize n * p = x
      omega
  rw [h]
  exact Nat.min_le_right _ _

theorem Kind.units_lt (k : Kind) (sb : Mem) : k.units sb < 4294967296 := by
  cases k with
  | block =>
    have := Mem.le32_lt sb 4
    show sb.le32 4 - 1 < 4294967296
    omega
  | inode => exact Mem.le32_lt sb 0

/-- a bitmap that was written to its block, bit by bit -/
theorem bit_buffer_get (m : Mem) {j : Nat} (hj : j < 8192) :
    Bitmap.bit (buffer (m.get 0 1024)) j = Bitmap.bit m j := by
  rw [Bitmap.bit, Bitmap.bit, buffer_get (by omega)]

theorem Counted.free_le {s : State} (h : Counted s) (k : Kind) {i : Nat} (hi : i < s.groups) :
    Kind.free s.gds i k ≤ k.size s.sb i := by
  rw [h.free k i hi]
  exact zeros_le _ _

/-- the numbers of the groups and of their bitmaps are the same -/
structure SameShape (s t : State) : Prop where
  groups : t.groups = s.groups
  per : ∀ k : Kind, k.per t.sb = k.per s.sb
  size : ∀ (k : Kind) i, k.size t.sb i = k.size s.sb i
  map : ∀ (k : Kind) i, k.map t.gds i = k.map s.gds i

theorem add_shape (k : Kind) (i : Nat) (d : Int) (s : State) (b : Bio.State) (l : List Int) :
    SameShape s (k.add i d (s.over b l)) where
  groups := by
    rw [State.groups, (add_fields _ _ _ _).2]
    rfl
  per k' := by
    rw [add_per]
    rfl
  size k' i' := by
    rw [add_size]
    rfl
  map k' i' := by
    rw [add_map]
    rfl

theorem SameShape.group {s t : State} (h : SameShape s t) (k : Kind) (i : Nat) :
    t.Group k i ↔ s.Group k i := by
  rw [State.Group, State.Group, h.groups, h.size]

theorem Plan.same {s t : State} (hl : Plan s) (h : SameShape s t)
    (hbs : t.bio.bio_blocksize = 1024) : Plan t where
  blocksize := hbs
  pos k := by
    rw [h.per]
    exact hl.pos k
  fits k := by
    rw [h.per]
    exact hl.fits k
  first k i hg := by
    rw [h.map]
    exact hl.first k i ((h.group k i).mp hg)
  apart k i k' i' hg hg' e := by
    rw [h.map, h.map] at e
    exact hl.apart k i k' i' ((h.group k i).mp hg) ((h.group k' i').mp hg') e

theorem Layout.same {s t : State} (hl : Layout s) (h : SameShape s t)
    (hbs : t.bio.bio_blocksize = 1024) : Layout t where
  toPlan := hl.toPlan.same h hbs
  reach k i hg := by
    rw [h.map]
    exact hl.reach k i ((h.group k i).mp hg)

/-- what a call that changes the bitmap `k` of group `i` to `m` leaves -/
structure Wrote (k : Kind) (i : Nat) (m : Mem) (s t : State) : Prop where
  sound : Sound t
  shape : SameShape s t
  bit : ∀ j, j < 8192 → t.bit k i j = Bitmap.bit m j
  rest : ∀ k' i' j, s.Group k' i' → ¬ (k' = k ∧ i' = i) → t.bit k' i' j = s.bit k' i' j

theorem Wrote.ok {k : Kind} {i : Nat} {m : Mem} {s t : State} (h : Wrote k i m s t) (hs : Ok s) : Ok t :=
  ⟨hs.layout.same h.shape h.sound.plan.blocksize, h.sound.counted, h.sound.coherent⟩

/-- the sum of the free counts, with one of them changed, is at most the number of units -/
theorem Counted.bound {s : State} (hc : Counted s) {k : Kind} {i n : Nat} (hi : i < s.groups)
    (hn : n ≤ k.size s.sb i) :
    n + ∑ j ∈ Finset.range s.groups \ {i}, Kind.free s.gds j k ≤ k.units s.sb := by
  have h1 : ∑ j ∈ Finset.range s.groups \ {i}, Kind.free s.gds j k
      ≤ ∑ j ∈ Finset.range s.groups \ {i}, k.size s.sb j := by
    apply Finset.sum_le_sum
    intro j hj
    exact hc.free_le k (Finset.mem_range.mp (Finset.mem_sdiff.mp hj).1)
  have h2 := Finset.sum_eq_add_sum_sdiff_singleton_of_mem (Finset.mem_range.mpr hi) fun j => k.size s.sb j
  have h3 : ∑ j ∈ Finset.range s.groups, k.size s.sb j ≤ k.units s.sb :=
    sum_size_le (k.per s.sb) (k.units s.sb) s.groups
  omega

section
variable {s t : State} {k : Kind} {i : Nat} {m : Mem} (hl : Plan s) (hc : Counted s)
  (hg : s.Group k i) (hsame : SameShape s t)
  (hself : contents t.bio (k.map t.gds i) = m.get 0 1024)
  (hother : ∀ k' i', s.Group k' i' → ¬ (k' = k ∧ i' = i) →
    contents t.bio (k'.map t.gds i') = contents s.bio (k'.map s.gds i'))
include hl hc hg hsame hself hother

/-- the counts of a state in which one bitmap is `m` and its count follows -/
theorem counted_of_update {d : Int} (hfree : Kind.free t.gds i k = zeros m (k.size s.sb i))
    (hfother : ∀ k' i', ¬ (k' = k ∧ i' = i) → Kind.free t.gds i' k' = Kind.free s.gds i' k')
    (hz : (zeros m (k.size s.sb i) : Int) = Kind.free s.gds i k + d)
    (htotal : (k.total t.sb : Int) = k.total s.sb + d)
    (htother : ∀ k' : Kind, k' ≠ k → k'.total t.sb = k'.total s.sb)
    (htail : ∀ j, k.size s.sb i ≤ j → j < 8192 → Bitmap.bit m j = true) : Counted t := by
  have hle : k.size s.sb i ≤ 8192 := (k.size_le s.sb i).trans (hl.fits k)
  have hzt : zeros (buffer (m.get 0 1024)) (k.size s.sb i) = zeros m (k.size s.sb i) :=
    zeros_congr fun j hj => bit_buffer_get m (by omega)
  have hmem : i ∈ Finset.range s.groups := Finset.mem_range.mpr hg.1
  refine ⟨fun k' i' hi' => ?_, fun k' => ?_, fun k' i' j hg' h1 h2 => ?_⟩
  · rw [hsame.groups] at hi'
    rw [hsame.size]
    by_cases e : k' = k ∧ i' = i
    · obtain ⟨rfl, rfl⟩ := e
      rw [hfree, hself, hzt]
    · rw [hfother k' i' e, hc.free k' i' hi']
      rcases Nat.eq_zero_or_pos (k'.size s.sb i') with h0 | h0
      · rw [h0]
        rfl
      · rw [hother k' i' ⟨hi', h0⟩ e]
  · rw [hsame.groups]
    by_cases e : k' = k
    · subst e
      -- the sum of the free counts, with the one of group `i` taken out
      have hsum := Finset.sum_eq_add_sum_sdiff_singleton_of_mem hmem fun i' => Kind.free s.gds i' k'
      have hrest : ∑ i' ∈ Finset.range s.groups \ {i}, Kind.free t.gds i' k'
          = ∑ i' ∈ Finset.range s.groups \ {i}, Kind.free s.gds i' k' := by
        apply Finset.sum_congr rfl
        intro i' hi'
        refine hfother k' i' fun e => ?_
        exact (Finset.mem_sdiff.mp hi').2 (Finset.mem_singleton.mpr e.2)
      have htot := hc.total k'
      rw [Finset.sum_eq_add_sum_sdiff_singleton_of_mem hmem, hrest, hfree]
      omega
    · rw [htother k' e]
      refine (hc.total k').trans (Finset.sum_congr rfl fun i' _ => ?_)
      exact (hfother k' i' fun h => e h.1).symm
  · have hg' := (hsame.group k' i').mp hg'
    rw [hsame.size] at h1
    by_cases e : k' = k ∧ i' = i
    · obtain ⟨rfl, rfl⟩ := e
      rw [State.bit, hself, bit_buffer_get m h2]
      exact htail j h1 h2
    · rw [State.bit, hother k' i' hg' e]
      exact hc.tail k' i' j hg' h1 h2

end

theorem update_counted {s : State} (h : Sound s) {k : Kind} {i : Nat} (hg : s.Group k i) {m : Mem}
    {d : Int} {a : Nat → List UInt8} {b : Bio.State} {l : List Int} (ha : Bio.Held s.bio a)
    (hb : Bio.Held b (Function.update a (k.map s.gds i) (m.get 0 1024)))
    (hbs : b.bio_blocksize = 1024)
    (hz : (zeros m (k.size s.sb i) : Int) = Kind.free s.gds i k + d)
    (htail : ∀ j, k.size s.sb i ≤ j → j < 8192 → Bitmap.bit m j = true) :
    Wrote k i m s (k.add i d (s.over b l)) := by
  obtain ⟨hl, hc, -⟩ := h
  have hsame := add_shape k i d s b l
  generalize ht : k.add i d (s.over b l) = t at hsame ⊢
  have hbio : t.bio = b := by rw [← ht, (add_fields _ _ _ _).1]; rfl
  have hs0 := contents_eq ha
  have ht0 : contents t.bio = Function.update a (k.map s.gds i) (m.get 0 1024) := by
    rw [hbio]
    exact contents_eq hb
  -- the contents of the bitmaps
  have hself : contents t.bio (k.map t.gds i) = m.get 0 1024 := by
    rw [hsame.map, ht0, Function.update_self]
  have hother : ∀ k' i', s.Group k' i' → ¬ (k' = k ∧ i' = i) →
      contents t.bio (k'.map t.gds i') = contents s.bio (k'.map s.gds i') := by
    intro k' i' hg' hne
    rw [hsame.map, ht0, hs0, Function.update_of_ne]
    intro e
    exact hne (hl.apart k' i' k i hg' hg e)
  -- the counts, which do not overflow
  have hle : k.size s.sb i ≤ 8192 := (k.size_le s.sb i).trans (hl.fits k)
  have hzle := zeros_le m (k.size s.sb i)
  have hsum := Finset.sum_eq_add_sum_sdiff_singleton_of_mem (Finset.mem_range.mpr hg.1)
    fun i' => Kind.free s.gds i' k
  have hbound := hc.bound hg.1 hzle
  have hu := k.units_lt s.sb
  have htot := hc.total k
  obtain ⟨hfree, htotal⟩ := add_counts k i d (s.over b l) (by
      show 0 ≤ (Kind.free s.gds i k : Int) + d
      omega) (by
      show (Kind.free s.gds i k : Int) + d < 65536
      omega) (by
      show 0 ≤ (k.total s.sb : Int) + d
      omega) (by
      show (k.total s.sb : Int) + d < 4294967296
      omega)
  rw [ht] at hfree htotal
  have hfree' : Kind.free t.gds i k = zeros m (k.size s.sb i) := by
    have : (Kind.free t.gds i k : Int) = zeros m (k.size s.sb i) := hfree.trans hz.symm
    exact_mod_cast this
  have hfother : ∀ k' i', ¬ (k' = k ∧ i' = i) → Kind.free t.gds i' k' = Kind.free s.gds i' k' := by
    intro k' i' hne
    rw [← ht, add_free_other k i d _ k' i' hne]
    rfl
  have htother : ∀ k' : Kind, k' ≠ k → k'.total t.sb = k'.total s.sb := by
    intro k' e
    rw [← ht, add_total_other k i d _ k' e]
    rfl
  have hcounted := counted_of_update hl hc hg hsame hself hother hfree' hfother hz htotal htother htail
  refine ⟨⟨hl.same hsame (by rw [hbio, hbs]), hcounted, _, hbio ▸ hb⟩, hsame, ?_, ?_⟩
  · intro j hj
    rw [State.bit, hself, bit_buffer_get m hj]
  · intro k' i' j hg' e
    rw [State.bit, State.bit, hother k' i' hg' e]

/-! ## what a call does to the bitmaps -/

/-- `b` is the number of a block, or of an inode, of the file system -/
def State.Number (s : State) (k : Kind) (b : Nat) : Prop :=
  1 ≤ b ∧ (b - 1) / k.per s.sb < s.groups ∧
    (b - 1) % k.per s.sb < k.size s.sb ((b - 1) / k.per s.sb)

/-- the bit of a number -/
def State.used (s : State) (k : Kind) (b : Nat) : Bool :=
  s.bit k ((b - 1) / k.per s.sb) ((b - 1) % k.per s.sb)

/-- the numbers `b .. b + n - 1` were free and are used now; no other bit has changed -/
structure Took (k : Kind) (b n : Nat) (s t : State) : Prop where
  number : ∀ x, b ≤ x → x < b + n → s.Number k x
  free : ∀ x, b ≤ x → x < b + n → s.used k x = false
  used : ∀ x, b ≤ x → x < b + n → t.used k x = true
  rest : ∀ k' i j, s.Group k' i → j < 8192 →
    ¬ (k' = k ∧ j < k.per s.sb ∧ b ≤ i * k.per s.sb + j + 1 ∧ i * k.per s.sb + j + 1 < b + n) →
    t.bit k' i j = s.bit k' i j

/-- the number `b` was used and is free now; no other bit has changed -/
structure Freed (k : Kind) (b : Nat) (s t : State) : Prop where
  used : s.used k b = true
  free : t.used k b = false
  rest : ∀ k' i j, s.Group k' i → j < 8192 →
    ¬ (k' = k ∧ j < k.per s.sb ∧ i * k.per s.sb + j + 1 = b) → t.bit k' i j = s.bit k' i j

/-- the group and the bit of a number -/
theorem number_split {p i j : Nat} (hj : j < p) :
    (i * p + j + 1 - 1) / p = i ∧ (i * p + j + 1 - 1) % p = j := by
  have hp : 0 < p := by omega
  rw [Nat.add_sub_cancel, Nat.mul_comm]
  exact ⟨by rw [Nat.mul_add_div hp, Nat.div_eq_of_lt hj, Nat.add_zero],
    by rw [Nat.mul_add_mod, Nat.mod_eq_of_lt hj]⟩

theorem took_of_wrote {s t : State} {k : Kind} {i lo n : Nat} {m : Mem} (hw : Wrote k i m s t)
    (hl : Plan s) (hg : s.Group k i) (hle : lo + n ≤ k.size s.sb i)
    (hfree : ∀ j, lo ≤ j → j < lo + n → s.bit k i j = false)
    (hm : ∀ j, j < 8192 → Bitmap.bit m j = (s.bit k i j || decide (lo ≤ j ∧ j < lo + n))) :
    Took k (i * k.per s.sb + lo + 1) n s t := by
  have hsz := k.size_le s.sb i
  have hfit := hl.fits k
  have hx : ∀ x, i * k.per s.sb + lo + 1 ≤ x → x < i * k.per s.sb + lo + 1 + n →
      ∃ j, lo ≤ j ∧ j < lo + n ∧ (x - 1) / k.per s.sb = i ∧ (x - 1) % k.per s.sb = j := by
    intro x h1 h2
    refine ⟨x - 1 - i * k.per s.sb, by omega, by omega, ?_⟩
    have h := number_split (p := k.per s.sb) (i := i) (j := x - 1 - i * k.per s.sb) (by omega)
    rwa [show i * k.per s.sb + (x - 1 - i * k.per s.sb) + 1 = x by omega] at h
  refine ⟨?_, ?_, ?_, ?_⟩
  · intro x h1 h2
    obtain ⟨j, hj1, hj2, hd, hmod⟩ := hx x h1 h2
    rw [State.Number, hd, hmod]
    exact ⟨by omega, hg.1, by omega⟩
  · intro x h1 h2
    obtain ⟨j, hj1, hj2, hd, hmod⟩ := hx x h1 h2
    rw [State.used, hd, hmod]
    exact hfree j hj1 hj2
  · intro x h1 h2
    obtain ⟨j, hj1, hj2, hd, hmod⟩ := hx x h1 h2
    rw [State.used, hw.shape.per, hd, hmod, hw.bit j (by omega), hm j (by omega)]
    simp [hj1, hj2]
  · intro k' i' j hg' hj hne
    by_cases e : k' = k ∧ i' = i
    · obtain ⟨rfl, rfl⟩ := e
      rw [hw.bit j hj, hm j hj]
      have hout : ¬ (lo ≤ j ∧ j < lo + n) := fun h => hne ⟨rfl, by omega, by omega, by omega⟩
      simp only [hout, decide_false, Bool.or_false]
    · exact hw.rest k' i' j hg' e

/-- a call that changes nothing but the buffers -/
structure Quiet (s t : State) : Prop where
  sb : t.sb = s.sb
  gds : t.gds = s.gds
  ngroups : t.ngroups = s.ngroups
  contents : contents t.bio = contents s.bio

theorem Quiet.groups {s t : State} (h : Quiet s t) : t.groups = s.groups := by
  rw [State.groups, State.groups, h.ngroups]

theorem Quiet.Group {s t : State} (h : Quiet s t) (k : Kind) (i : Nat) :
    t.Group k i ↔ s.Group k i := by
  rw [State.Group, State.Group, h.groups, h.sb]

theorem Quiet.bit {s t : State} (h : Quiet s t) (k : Kind) (i j : Nat) :
    t.bit k i j = s.bit k i j := by
  rw [State.bit, State.bit, h.contents, h.gds]

theorem Quiet.trans {s t u : State} (h : Quiet s t) (h' : Quiet t u) : Quiet s u :=
  ⟨h'.sb.trans h.sb, h'.gds.trans h.gds, h'.ngroups.trans h.ngroups, h'.contents.trans h.contents⟩

theorem Quiet.took {s t u : State} {k : Kind} {b n : Nat} (h : Quiet s t) (ht : Took k b n t u) :
    Took k b n s u := by
  refine ⟨fun x h1 h2 => ?_, fun x h1 h2 => ?_, ht.used, fun k' i j hg hj hne => ?_⟩
  · have := ht.number x h1 h2
    rwa [State.Number, h.groups, h.sb] at this
  · have := ht.free x h1 h2
    rwa [State.used, h.bit, h.sb] at this
  · rw [ht.rest k' i j ((h.Group k' i).mpr hg) hj (by rwa [h.sb]), h.bit]

/-- a block was read: nothing but the buffers has changed -/
theorem Sound.read {s : State} (h : Sound s) {a : Nat → List UInt8} {b : Bio.State} (l : List Int)
    (ha : Bio.Held s.bio a) (hb : Bio.Held b a) (hbs : b.bio_blocksize = s.bio.bio_blocksize) :
    Sound (s.over b l) ∧ Quiet s (s.over b l) := by
  have hcont : contents b = contents s.bio := (contents_eq hb).trans (contents_eq ha).symm
  refine ⟨⟨⟨hbs.trans h.plan.blocksize, h.plan.pos, h.plan.fits, h.plan.first, h.plan.apart⟩,
    ⟨?_, h.counted.total, ?_⟩, a, hb⟩, rfl, rfl, rfl, hcont⟩
  · intro k i hi
    rw [show contents (s.over b l).bio = contents s.bio from hcont]
    exact h.counted.free k i hi
  · intro k i j hg h1 h2
    rw [State.bit, show contents (s.over b l).bio = contents s.bio from hcont]
    exact h.counted.tail k i j hg h1 h2

theorem Ok.read {s : State} (h : Ok s) {a : Nat → List UInt8} {b : Bio.State} (l : List Int)
    (ha : Bio.Held s.bio a) (hb : Bio.Held b a) (hbs : b.bio_blocksize = s.bio.bio_blocksize) :
    Ok (s.over b l) ∧ Quiet s (s.over b l) := by
  obtain ⟨ht, hq⟩ := h.sound.read l ha hb hbs
  exact ⟨⟨⟨ht.plan, h.layout.reach⟩, ht.counted, ht.coherent⟩, hq⟩

end E2
