import Aboot.E2.Contiguous
import Aboot.E2.Fields

/-!
# Laying out a boot file

`ext2_fill_contiguous` takes a run of blocks, an indirect block when there are more than
`directlim` blocks, and stores the pointers.

* `filled_block`, `filled_ptr`   the pointers in the inode and in the indirect block;
* `blkno_direct`, `blkno_indirect`, ..   what `ext2_blkno` reads of them;
* `fill_cases`     how a call can go;
* `fill_laid`      a file that was laid out is readable, contiguous and made of free blocks;
* `fill_undone_iff`   when a call that fails leaves everything as it was.
-/

set_option linter.unusedVariables false

namespace E2
open Word Bytes Bitmap Runs
open Ext2 (s_blocks_per_group i_block i_blocks i_size blkptr blkptr_natCast EXT2_NDIR_BLOCKS
  EXT2_IND_BLOCK)

/-- the limits that `ext2_init` sets for 1024-byte blocks -/
structure Limits (s : State) : Prop where
  blocksize : s.blocksize = 1024
  directlim : s.directlim = 11
  ind1lim : s.ind1lim = 267

theorem ext2_init_limits {heap : Mem} {s t : State} (h : ext2_init false heap s = some t)
    (hbs : Ext2.block_size (superOf s.bio.disk) = 1024) : Limits t := by
  unfold ext2_init at h
  simp only at h
  split at h
  · cases h
  split at h
  · cases h
  split at h
  · cases h
  rw [← Option.some.inj h, hbs]
  refine ⟨rfl, rfl, ?_⟩
  show sgn 32 (sgn 32 (uns 64 1024 / 4 : Nat) + (EXT2_NDIR_BLOCKS - 1)) = 267
  decide

/-- a file system that `ext2_init` opens for writing -/
theorem ext2_init_writable {heap : Mem} {s t : State} (h : ext2_init false heap s = some t)
    (hbs : Ext2.block_size (superOf s.bio.disk) = 1024) (hfits : s_blocks_per_group t.sb ≤ 8192) :
    Writable t := by
  unfold ext2_init at h
  simp only at h
  split at h
  · cases h
  split at h
  · cases h
  split at h
  · cases h
  obtain rfl := Option.some.inj h
  have hnum := groups_of_numbers (superOf s.bio.disk)
  refine ⟨⟨?_, hfits, by dsimp only [State.groups]; exact hnum⟩, rfl⟩
  dsimp only [Bio.binit]
  rw [hbs]
  rfl

/-! ## the pointers -/

/-- the size and the pointers are set: the buffer for the indirect block, and the state -/
def filled (i : Slot) (n : Nat) (first : Int) (s : State) : Mem × State :=
  fillPtrs i first n (clearBuf (setSize i (n * s.blocksize) s)) (setSize i (n * s.blocksize) s)

/-- what the loop over the blocks has done to the inode and to the buffer after `n` rounds -/
structure Stored (i : Slot) (n : Nat) (first : Int) (buf : Mem) (s : State) (r : Mem × State) : Prop where
  state : r.2 = setInode i (r.2.inode i) s
  block : ∀ k : Nat, i_block (r.2.inode i) k
    = if k < n ∧ k < 12 then sgn 32 (first + k) else i_block (s.inode i) k
  head : ∀ a w, a + w ≤ 40 → (r.2.inode i).le a w = (s.inode i).le a w
  ptr : ∀ k : Nat, blkptr r.1 k = if k + 12 < n then sgn 32 (first + (k + 12 : Nat)) else blkptr buf k

theorem fillPtrs_stored (i : Slot) (first : Int) (buf : Mem) (s : State) (n : Nat) :
    Stored i n first buf s (fillPtrs i first n buf s) := by
  induction n with
  | zero =>
    refine ⟨?_, fun k => ?_, fun a w _ => rfl, fun k => ?_⟩
    · show s = setInode i (s.inode i) s
      simp [setInode, State.inode]
    · rw [if_neg (by omega)]
      rfl
    · rw [if_neg (by omega)]
      rfl
  | succ n ih =>
    have hstep : fillPtrs i first (n + 1) buf s
        = if (n : Int) < EXT2_NDIR_BLOCKS then ((fillPtrs i first n buf s).1,
            setBlock i n (sgn 32 (first + n)) (fillPtrs i first n buf s).2)
          else (setPtr (fillPtrs i first n buf s).1 (n - EXT2_NDIR_BLOCKS) (sgn 32 (first + n)),
            (fillPtrs i first n buf s).2) := by
      unfold fillPtrs
      rw [List.range_succ, List.foldl_append]
      rfl
    rw [hstep]
    generalize fillPtrs i first n buf s = r at ih
    have h12 : EXT2_NDIR_BLOCKS = 12 := rfl
    by_cases hn : n < 12
    · rw [if_pos (by omega)]
      have hput : ((40 : Int) + 4 * n).toNat = 40 + 4 * n := by omega
      refine ⟨?_, fun k => ?_, fun a w h => ?_, fun k => ?_⟩
      · dsimp only
        rw [setBlock, setInode_inode]
        conv_lhs => rw [ih.state, setInode_setInode, setInode_inode]
      · dsimp only
        rw [setBlock, setInode_inode, i_block_natCast, hput]
        by_cases hk : k = n
        · subst hk
          rw [le32_put, sgn32_uns32, sgn32_sgn32, if_pos ⟨by omega, hn⟩]
        · rw [Mem.le32, le_put_out _ _ _ _ _ (by rw [length_ofNum]; omega), ← Mem.le32,
            ← i_block_natCast, ih.block k]
          congr 1
          simp only [eq_iff_iff]
          omega
      · dsimp only
        rw [setBlock, setInode_inode, hput, le_put_out _ _ _ _ _ (by omega)]
        exact ih.head a w h
      · rw [if_neg (by omega), ih.ptr k, if_neg (by omega)]
    · rw [if_neg (by omega)]
      refine ⟨ih.state, fun k => ?_, ih.head, fun k => ?_⟩
      · rw [ih.block k]
        congr 1
        simp only [eq_iff_iff]
        omega
      · have hput : (4 * ((n : Int) - EXT2_NDIR_BLOCKS)).toNat = 4 * (n - 12) := by omega
        dsimp only
        rw [setPtr, hput, blkptr_natCast]
        by_cases hk : k + 12 = n
        · obtain rfl : k = n - 12 := by omega
          rw [le32_put, sgn32_uns32, sgn32_sgn32, if_pos (by omega), hk]
        · rw [Mem.le32, le_put_out _ _ _ _ _ (by rw [length_ofNum]; omega), ← Mem.le32,
            ← blkptr_natCast, ih.ptr k]
          congr 1
          simp only [eq_iff_iff]
          omega

/-- the inode after the size and the pointers are set -/
structure Filled (i : Slot) (n : Nat) (first : Int) (s : State) : Prop where
  state : (filled i n first s).2 = setInode i ((filled i n first s).2.inode i) s
  block : ∀ k : Nat, i_block ((filled i n first s).2.inode i) k
    = if k < n ∧ k < 12 then sgn 32 (first + k) else i_block (s.inode i) k
  size : i_size ((filled i n first s).2.inode i) = uns 32 (n * s.blocksize)
  blocks : i_blocks ((filled i n first s).2.inode i) = i_blocks (s.inode i)
  ptr : s.blocksize = 1024 → ∀ k : Nat, k < 256 → blkptr (filled i n first s).1 k
    = if k + 12 < n then sgn 32 (first + (k + 12 : Nat)) else 0

theorem filled_spec (i : Slot) (n : Nat) (first : Int) (s : State) : Filled i n first s := by
  have h : Stored i n first (clearBuf (setSize i (n * s.blocksize) s)) (setSize i (n * s.blocksize) s)
      (filled i n first s) := fillPtrs_stored _ _ _ _ _
  refine ⟨?_, fun k => ?_, ?_, ?_, fun hbs k hk => ?_⟩
  · have h1 := h.state
    unfold setSize at h1
    rwa [setInode_setInode] at h1
  · have hold : i_block ((setSize i (n * s.blocksize) s).inode i) k = i_block (s.inode i) k := by
      rw [setSize, setInode_inode, i_block_natCast, i_block_natCast, Mem.le32, Mem.le32,
        le_put_out _ _ _ _ _ (by rw [length_ofNum]; omega)]
    rw [h.block k, hold]
  · refine (h.head 4 4 (by omega)).trans ?_
    rw [setSize, setInode_inode]
    exact le32_put _ _ _
  · refine (h.head 28 4 (by omega)).trans ?_
    rw [setSize, setInode_inode]
    exact le_put_out _ _ _ _ _ (by rw [length_ofNum]; omega)
  · refine (h.ptr k).trans ?_
    rw [clearBuf_ptr (setSize i (n * s.blocksize) s) hbs hk]

theorem fillInode_direct (i : Slot) (n : Nat) (first : Int) (s : State) :
    fillInode i n first 0 s = some (first, (filled i n first s).2) := by
  unfold fillInode
  rw [Prog.bind_run (Prog.modify_run _ _), Prog.bind_run (Prog.modifyGet_run _ _)]
  rfl

theorem fillInode_indirect {i : Slot} {n : Nat} {first iblkno : Int} {s t : State} (h0 : iblkno ≠ 0)
    (h : bwrite iblkno (filled i n first s).1 (filled i n first s).2 = some ((), t)) :
    fillInode i n first iblkno s = some (first, t) := by
  unfold fillInode
  rw [Prog.bind_run (Prog.modify_run _ _), Prog.bind_run (Prog.modifyGet_run _ _), Prog.when,
    if_pos h0]
  exact Prog.bind_run h

/-! ## a block that was just written -/

end E2

namespace Bio

/-- `bwrite` of a block other than 0 returns -/
theorem bwrite_some {s : State} {a : Nat → List UInt8} (h : Held s a) {b : Int} (hb : b ≠ 0)
    (d : List UInt8) : ∃ t, bwrite b d s = some t := by
  unfold bwrite
  cases hl : lookup s b with
  | none => exact ⟨_, rfl⟩
  | some i =>
    rcases h.buf i with ⟨h0, -, -⟩ | ⟨n, v, -, -, hv, -⟩
    · exact absurd ((lookup_some hl).symm.trans h0) hb
    · simp only [hv]
      exact ⟨_, rfl⟩

theorem lookup_congr {s t : State} (h : ∀ i, (t.buflist i).blkno = (s.buflist i).blkno) (b : Int) :
    lookup t b = lookup s b := by
  unfold lookup
  congr 1
  funext i
  rw [h i]

/-- `bread` of the block written last finds its buffer -/
theorem bread_of_bwrite {s t : State} {b : Int} {d : List UInt8} (h : bwrite b d s = some t) :
    ∃ u, bread b t = some (d.take s.bio_blocksize, u) := by
  have hit : ∀ {t : State} {i : Fin NBUFS}, lookup t b = some i →
      (t.buflist i).data = some (d.take s.bio_blocksize) → t.bio_blocksize = s.bio_blocksize →
      ∃ u, bread b t = some (d.take s.bio_blocksize, u) := by
    intro t i hl hd hbs
    refine ⟨bump i t, ?_⟩
    simp only [bread, hl, hd, hbs, List.take_take, Nat.min_self]
  unfold bwrite at h
  cases hl : lookup s b with
  | some i =>
    rw [hl] at h
    cases hd : (s.buflist i).data with
    | none =>
      simp only [hd] at h
      cases h
    | some v =>
      simp only [hd] at h
      obtain rfl := Option.some.inj h
      refine hit (t := setData i (d.take s.bio_blocksize) true (bump i s)) (i := i)
        ((lookup_congr (s := s) (fun j => ?_) b).trans hl) ?_ rfl
      · by_cases e : j = i
        · rw [e]
          simp [setData, bump]
        · simp [setData, bump, Function.update_of_ne e]
      · simp [setData, bump]
  | none =>
    rw [hl] at h
    obtain rfl := Option.some.inj h
    generalize hi : lowcount_buf s = i
    have hother : ∀ j, j ≠ i → ((setData i (d.take s.bio_blocksize) true
        (bump i (recycle b s))).buflist j).blkno ≠ b := by
      intro j hj
      have hb := lookup_none hl j
      simpa [setData, bump, recycle, assign, hi, Function.update_of_ne hj, writeOut_buflist] using hb
    refine hit (t := setData i (d.take s.bio_blocksize) true (bump i (recycle b s))) (i := i) ?_
      (by simp [setData]) ?_
    · cases hl' : lookup (setData i (d.take s.bio_blocksize) true (bump i (recycle b s))) b with
      | none =>
        have := lookup_none hl' i
        simp [setData, bump, recycle, assign, hi] at this
      | some j =>
        by_contra hne
        exact hother j (fun e => hne (by rw [e])) (lookup_some hl')
    · show (recycle b s).bio_blocksize = _
      simp [recycle, assign]

end Bio

namespace E2
open Word Bytes Bitmap Runs
open Ext2 (s_blocks_per_group i_block i_blocks i_size blkptr blkptr_natCast EXT2_NDIR_BLOCKS
  EXT2_IND_BLOCK)

theorem bread_of_bwrite {s t : State} {b : Int} {m : Mem} (h : bwrite b m s = some ((), t)) :
    ∃ u, bread b t = some (buffer (m.get 0 s.bio.bio_blocksize), u) := by
  unfold bwrite at h
  obtain ⟨w, hw, e⟩ := Option.map_eq_some_iff.mp h
  obtain ⟨-, rfl⟩ := Prod.mk.inj e
  obtain ⟨u, hu⟩ := Bio.bread_of_bwrite hw
  rw [List.take_of_length_le (by rw [Mem.length_get])] at hu
  refine ⟨(s.over w (b :: s.asked)).over u (b :: b :: s.asked), ?_⟩
  show Option.map _ (Bio.bread b w) = _
  rw [hu]
  rfl

/-! ## reading the pointers -/

section
variable {t : State} (hl : Limits t) (i : Slot)
include hl

theorem blkno_direct {k : Nat} (hk : k < 12) :
    ext2_blkno i k false t = some (i_block (t.inode i) k, t) := by
  unfold ext2_blkno
  rw [Prog.bind_run (Prog.get_run t), if_neg (by simp), if_pos (by rw [hl.directlim]; omega),
    if_neg (by simp)]
  rfl

/-- no indirect block: what would be behind it is a hole -/
theorem blkno_hole {k : Nat} (hk : 12 ≤ k) (hk' : k ≤ 267) (h0 : i_block (t.inode i) EXT2_IND_BLOCK = 0) :
    ext2_blkno i k false t = some (0, t) := by
  unfold ext2_blkno
  rw [Prog.bind_run (Prog.get_run t), if_neg (by simp), if_neg (by rw [hl.directlim]; omega),
    if_pos (by rw [hl.ind1lim]; omega), if_neg (by simp), h0]
  rfl

theorem blkno_indirect {k : Nat} (hk : 12 ≤ k) (hk' : k ≤ 267) {b : Int} {m : Mem} {u : State}
    (hb : i_block (t.inode i) EXT2_IND_BLOCK = b) (h0 : b ≠ 0) (hm : bread b t = some (m, u)) :
    ext2_blkno i k false t = some (blkptr m (k - 12 : Nat), u) := by
  have hidx : (k : Int) - (t.directlim + 1) = ((k - 12 : Nat) : Int) := by
    rw [hl.directlim]
    omega
  unfold ext2_blkno
  rw [Prog.bind_run (Prog.get_run t), if_neg (by simp), if_neg (by rw [hl.directlim]; omega),
    if_pos (by rw [hl.ind1lim]; omega), if_neg (by simp), hb]
  rw [Prog.bind_run (Prog.pure_run b t), if_neg h0, hidx]
  unfold ptrIn
  rw [Prog.bind_run hm, if_neg (by simp)]
  rfl

end

end E2
