import Aboot.E2.Cache
import Aboot.Ext2.BlockMap

/-!
# The fields of an inode and of an index block

* `sgn32_uns32`, `le32_put`   an `int` stored and read back;
* `setBlock_block`, `setBlocks_blocks`, ..   what a store into an inode changes, and what it leaves;
* `setBlock_zero`    clearing a pointer that is 0 changes nothing;
* `clearBuf_ptr`, `buffer_ptr`   the entries of an index block.
-/

set_option linter.unusedVariables false

namespace E2
open Word Bytes
open Ext2 (i_block i_blocks i_size blkptr blkptr_natCast)

/-- the level of the block that an entry of `i_block` points to: a block of level 0 is a data block,
and one of level `l + 1` holds the numbers of blocks of level `l` -/
def levelOf (k : Nat) : Nat := k - 11

/-! ## numbers stored and read back -/

theorem sgn32_uns32 (x : Int) : sgn 32 (uns 32 x : Int) = sgn 32 x := by
  obtain ⟨q, hq, -⟩ := uns32_cases x
  obtain ⟨r, hr, hr1, hr2⟩ := sgn32_cases x
  obtain ⟨p, hp, hp1, hp2⟩ := sgn32_cases (uns 32 x : Int)
  omega

theorem sgn32_sgn32 (x : Int) : sgn 32 (sgn 32 x) = sgn 32 x := by
  obtain ⟨q, hq, h1, h2⟩ := sgn32_cases x
  exact sgn32_of_range h1 h2

theorem le32_put (m : Mem) (a : Nat) (x : Int) :
    (m.put a (ofNum (uns 32 x) 4)).le32 a = uns 32 x := by
  have h := le_put_self m a (uns 32 x) 4
  obtain ⟨q, -, hlt⟩ := uns32_cases x
  rw [Mem.le32, h, Nat.mod_eq_of_lt (by norm_num; omega)]

theorem i_block_natCast (ip : Mem) (k : Nat) : i_block ip k = sgn 32 (ip.le32 (40 + 4 * k)) := by
  unfold i_block
  congr 2

theorem i_block_int (ip : Mem) (k : Int) : sgn 32 (i_block ip k) = i_block ip k := by
  unfold i_block
  exact sgn32_sgn32 _

theorem blkptr_int (blk : Mem) (k : Int) : sgn 32 (blkptr blk k) = blkptr blk k := by
  unfold blkptr
  exact sgn32_sgn32 _

theorem no_block (k : Nat) : i_block (fun _ => 0) k = 0 := by
  rw [i_block_natCast]
  simp [Mem.le32, Mem.le]
  decide

theorem setInode_inode (i : Slot) (ip : Mem) (s : State) : (setInode i ip s).inode i = ip := by
  simp [setInode, State.inode]

theorem setInode_setInode (i : Slot) (ip ip' : Mem) (s : State) :
    setInode i ip' (setInode i ip s) = setInode i ip' s := by
  simp [setInode]

/-- an entry of a cleared buffer -/
theorem clearBuf_ptr (s : State) (hs : s.blocksize = 1024) {k : Nat} (hk : k < 256) :
    blkptr (clearBuf s) k = 0 := by
  have hbytes : (clearBuf s).le (4 * k) 4 = Mem.le (fun _ => 0) (4 * k) 4 := by
    apply le_congr
    intro j hj
    have hin := Mem.put_in s.stack 0 (4 * k + j) (List.replicate s.blocksize.toNat 0)
      (by rw [hs, List.length_replicate]; show 4 * k + j < 1024; omega)
    rw [Nat.zero_add, List.getElem_replicate] at hin
    exact hin
  rw [blkptr_natCast, Mem.le32, hbytes]
  simp [Mem.le]
  decide

/-- an entry of a block that was written from a buffer -/
theorem buffer_ptr (m : Mem) {k : Nat} (hk : k < 256) : blkptr (buffer (m.get 0 1024)) k = blkptr m k := by
  have hbytes : (buffer (m.get 0 1024)).le (4 * k) 4 = m.le (4 * k) 4 := by
    apply le_congr
    intro j hj
    exact buffer_get (by omega)
  rw [blkptr_natCast, blkptr_natCast, Mem.le32, Mem.le32, hbytes]

/-- an entry is stored in an index block -/
theorem setPtr_ptr (m : Mem) (j : Nat) (b : Int) (k : Nat) :
    blkptr (setPtr m j b) k = if k = j then sgn 32 b else blkptr m k := by
  have hput : (4 * (j : Int)).toNat = 4 * j := by omega
  rw [setPtr, hput, blkptr_natCast]
  by_cases h : k = j
  · rw [if_pos h, h, le32_put, sgn32_uns32]
  · rw [if_neg h, blkptr_natCast, Mem.le32, Mem.le32,
      le_put_out _ _ _ _ _ (by rw [length_ofNum]; omega)]

/-! ## stores into an inode -/

theorem setBlocks_block (i : Slot) (b : Int) (s : State) (k : Nat) :
    i_block ((setBlocks i b s).inode i) k = i_block (s.inode i) k := by
  rw [setBlocks, setInode_inode, i_block_natCast, i_block_natCast, Mem.le32, Mem.le32,
    le_put_out _ _ _ _ _ (by rw [length_ofNum]; omega)]

theorem setBlocks_blocks (i : Slot) (b : Int) (s : State) :
    i_blocks ((setBlocks i b s).inode i) = uns 32 b := by
  rw [setBlocks, setInode_inode]
  exact le32_put _ _ _

theorem setBlock_block (i : Slot) (j : Nat) (b : Int) (s : State) (k : Nat) :
    i_block ((setBlock i j b s).inode i) k
      = if k = j then sgn 32 b else i_block (s.inode i) k := by
  have hput : ((40 : Int) + 4 * j).toNat = 40 + 4 * j := by omega
  rw [setBlock, setInode_inode, hput, i_block_natCast]
  by_cases h : k = j
  · rw [if_pos h, h, le32_put, sgn32_uns32]
  · rw [if_neg h, i_block_natCast, Mem.le32, Mem.le32,
      le_put_out _ _ _ _ _ (by rw [length_ofNum]; omega)]

theorem setBlock_blocks (i : Slot) (j : Nat) (b : Int) (s : State) :
    i_blocks ((setBlock i j b s).inode i) = i_blocks (s.inode i) := by
  have hput : ((40 : Int) + 4 * j).toNat = 40 + 4 * j := by omega
  rw [setBlock, setInode_inode, hput]
  exact le_put_out _ _ _ _ _ (by rw [length_ofNum]; omega)

theorem setBlock_size (i : Slot) (j : Nat) (b : Int) (s : State) :
    i_size ((setBlock i j b s).inode i) = i_size (s.inode i) := by
  have hput : ((40 : Int) + 4 * j).toNat = 40 + 4 * j := by omega
  rw [setBlock, setInode_inode, hput]
  exact le_put_out _ _ _ _ _ (by rw [length_ofNum]; omega)

theorem setBlocks_size (i : Slot) (b : Int) (s : State) :
    i_size ((setBlocks i b s).inode i) = i_size (s.inode i) := by
  rw [setBlocks, setInode_inode]
  exact le_put_out _ _ _ _ _ (by rw [length_ofNum]; omega)

theorem setSize_size (i : Slot) (x : Int) (s : State) : i_size ((setSize i x s).inode i) = uns 32 x := by
  rw [setSize, setInode_inode]
  exact le32_put _ _ _

theorem setSize_block (i : Slot) (x : Int) (s : State) (k : Nat) :
    i_block ((setSize i x s).inode i) k = i_block (s.inode i) k := by
  rw [setSize, setInode_inode, i_block_natCast, i_block_natCast, Mem.le32, Mem.le32,
    le_put_out _ _ _ _ _ (by rw [length_ofNum]; omega)]

/-- four bytes are cleared -/
theorem put_zeros (m : Mem) (a x : Nat) :
    m.put a (ofNum (uns 32 0) 4) x = if a ≤ x ∧ x < a + 4 then 0 else m x := by
  have h0 : uns 32 0 = 0 := rfl
  by_cases h : a ≤ x ∧ x < a + 4
  · obtain ⟨j, rfl⟩ := Nat.exists_eq_add_of_le h.1
    rw [if_pos h, Mem.put_in _ _ j _ (by rw [length_ofNum]; omega)]
    simp only [h0, ofNum_zero, List.getElem_replicate]
  · rw [if_neg h]
    exact Mem.put_out _ _ _ _ (by rw [length_ofNum]; omega)

/-- a pointer that is 0 is made of zeros -/
theorem put_ofNum_zero {m : Mem} {a : Nat} (h : m.le32 a = 0) : m.put a (ofNum (uns 32 0) 4) = m := by
  have hget : ofNum (uns 32 0) 4 = m.get a 4 := by
    have h0 : num (m.get a 4) = 0 := by
      rw [← le_eq_num]
      exact h
    have e := ofNum_num (m.get a 4)
    rw [h0, Mem.length_get] at e
    exact e
  rw [hget, Mem.put_get_self]

theorem le32_of_sgn {m : Mem} {a : Nat} (h : sgn 32 (m.le32 a) = 0) : m.le32 a = 0 := by
  have hlt := Mem.le32_lt m a
  obtain ⟨q, hq, -, -⟩ := sgn32_cases (m.le32 a : Int)
  omega

/-- an entry that is 0 is stored again -/
theorem setPtr_zero {m : Mem} {j : Nat} (h : blkptr m j = 0) : setPtr m j 0 = m := by
  have hput : (4 * (j : Int)).toNat = 4 * j := by omega
  rw [blkptr_natCast] at h
  rw [setPtr, hput, put_ofNum_zero (le32_of_sgn h)]

theorem setBlock_zero {i : Slot} {k : Nat} {s : State} (h : i_block (s.inode i) k = 0) :
    setBlock i k 0 s = s := by
  have hput : ((40 : Int) + 4 * k).toNat = 40 + 4 * k := by omega
  rw [i_block_natCast] at h
  rw [setBlock, hput, put_ofNum_zero (le32_of_sgn h)]
  simp [setInode, State.inode]

end E2
