import Aboot.Lib.Bitmap
import Aboot.Lib.Prog
import Aboot.Bio.Buffers
import Aboot.Ext2.Impl

/-!
# tools/e2lib.c: the ext2 writer

The variables of the file are the fields of `State`, with the block buffers of bio.c below them;
the file descriptor of the device is the one that bio.c uses.  A function of the source is a
program on this state that has no result when the source does not come back: a null pointer is
followed, a division traps, or a loop over a directory has not ended with the `fuel` it was given.

An inode pointer is an index of `inode_table`.  The messages are left out.  Nothing in the source
depends on `asked`.
-/

namespace E2
open Word Bytes Bitmap
open Ext2 (s_blocks_count s_first_data_block s_blocks_per_group s_inodes_per_group s_magic
  bg_inode_table i_mode i_size i_blocks i_block blkptr d_inode d_rec_len d_name S_ISDIR
  EXT2_NDIR_BLOCKS EXT2_IND_BLOCK EXT2_DIND_BLOCK EXT2_ROOT_INO EXT2_SUPER_MAGIC)

abbrev MAX_OPEN_FILES : Nat := 8
def EXT2_TIND_BLOCK : Int := 14
def sizeof_inode : Nat := 128
def sizeof_super_block : Nat := 1024
def sizeof_group_desc : Nat := 32

/-! ## on-disk structures -/

def s_inodes_count (sb : Mem) : Nat := sb.le32 0
def s_free_blocks_count (sb : Mem) : Nat := sb.le32 12
def s_free_inodes_count (sb : Mem) : Nat := sb.le32 16

def bg_block_bitmap (gds : Mem) (group : Nat) : Nat := gds.le32 (group * 32)
def bg_inode_bitmap (gds : Mem) (group : Nat) : Nat := gds.le32 (group * 32 + 4)
def bg_free_blocks_count (gds : Mem) (group : Nat) : Nat := gds.le16 (group * 32 + 12)
def bg_free_inodes_count (gds : Mem) (group : Nat) : Nat := gds.le16 (group * 32 + 14)
def bg_used_dirs_count (gds : Mem) (group : Nat) : Nat := gds.le16 (group * 32 + 16)

def i_links_count (ip : Mem) : Nat := ip.le16 26

/-- `name_len` of a `struct ext2_dir_entry` has 16 bits -/
def d_name_len (blk : Mem) (dp : Int) : Nat := blk.le16 (dp.toNat + 6)

/-- the space an entry with a name of this length takes -/
def EXT2_DIR_REC_LEN (name_len : Int) : Int := (name_len + 8 + 3) / 4 * 4

/-! ## the variables -/

abbrev Slot := Fin MAX_OPEN_FILES

structure Entry where
  inode : Mem
  inumber : Int
  free : Bool
  old_mode : Nat

structure State where
  sb : Mem
  gds : Mem
  ngroups : Int
  blocksize : Int
  directlim : Int
  ind1lim : Int
  ind2lim : Int
  ptrs_per_blk : Int
  readonly : Bool
  inode_table : Slot → Entry
  bio : Bio.State
  /-- what a local buffer holds before anything is stored in it -/
  stack : Mem
  /-- the block numbers that bio.c was asked for, the last one first -/
  asked : List Int

/-- the bytes of a block in a buffer -/
def buffer (d : List UInt8) : Mem := fun k => d.getD k 0

/-- the state with other buffers -/
def State.over (s : State) (b : Bio.State) (asked : List Int) : State :=
  { s with bio := b, asked := asked }

def bread (blkno : Int) : Prog State Mem := fun s =>
  (Bio.bread blkno s.bio).map fun r => (buffer r.1, s.over r.2 (blkno :: s.asked))

def bwrite (blkno : Int) (blkbuf : Mem) : Prog State Unit := fun s =>
  (Bio.bwrite blkno (blkbuf.get 0 s.bio.bio_blocksize) s.bio).map fun b =>
    ((), s.over b (blkno :: s.asked))

def setInode (i : Slot) (ip : Mem) (s : State) : State :=
  { s with inode_table := Function.update s.inode_table i { s.inode_table i with inode := ip } }

/-- the inode of an inode pointer -/
def State.inode (s : State) (i : Slot) : Mem := (s.inode_table i).inode

/-- `gds[i].bg_free_blocks_count += n; sb.s_free_blocks_count += n` -/
def addFreeBlocks (i : Nat) (n : Int) (s : State) : State :=
  { s with
    gds := s.gds.put (i * 32 + 12) (ofNum (uns 16 (bg_free_blocks_count s.gds i + n)) 2)
    sb := s.sb.put 12 (ofNum (uns 32 (s_free_blocks_count s.sb + n)) 4) }

/-- `gds[i].bg_free_inodes_count += n; sb.s_free_inodes_count += n` -/
def addFreeInodes (i : Nat) (n : Int) (s : State) : State :=
  { s with
    gds := s.gds.put (i * 32 + 14) (ofNum (uns 16 (bg_free_inodes_count s.gds i + n)) 2)
    sb := s.sb.put 16 (ofNum (uns 32 (s_free_inodes_count s.sb + n)) 4) }

/-! ## opening and closing -/

/-- the number of groups: the first data block is not taken off -/
def groups_of (sb : Mem) : Int :=
  sgn 32 (uns 32 ((s_blocks_count sb : Int) + s_blocks_per_group sb - 1)
    / s_blocks_per_group sb : Nat)

/-- the superblock of a device -/
def superOf (disk : Mem) : Mem := fun k => if k < sizeof_super_block then disk (1024 + k) else 0

/-- the group descriptors of a device follow the superblock; `heap` is what `malloc` gave -/
def groupsOf (heap disk : Mem) (ngroups : Int) : Mem :=
  heap.put 0 (disk.get 2048 (ngroups.toNat * sizeof_group_desc))

/-- `ext2_init` on a device, in the state that `ext2_init` finds; `none` is a failure -/
def ext2_init (readonly : Bool) (heap : Mem) (s : State) : Option State :=
  let sb := superOf s.bio.disk
  if s_magic sb ≠ EXT2_SUPER_MAGIC then none
  else if s_first_data_block sb ≠ 1 then none
  else if s_blocks_per_group sb = 0 then none
  else
    let ptrs := sgn 32 (uns 64 (Ext2.block_size sb) / 4 : Nat)
    some
      { sb := sb
        gds := groupsOf heap s.bio.disk (groups_of sb)
        ngroups := groups_of sb
        blocksize := Ext2.block_size sb
        directlim := EXT2_NDIR_BLOCKS - 1
        ptrs_per_blk := ptrs
        ind1lim := sgn 32 (ptrs + (EXT2_NDIR_BLOCKS - 1))
        ind2lim := sgn 32 (ptrs * ptrs + (EXT2_NDIR_BLOCKS - 1))
        readonly := readonly
        inode_table := fun i => { s.inode_table i with free := true, inumber := 0 }
        bio := Bio.binit (Ext2.block_size sb).toNat s.bio
        stack := s.stack
        asked := [] }

/-- where `ext2_close` puts the superblock of a group: an `int` product -/
def superOffset (s : State) (i : Nat) : Int :=
  sgn 32 (((i : Int) * s_blocks_per_group s.sb + 1) * s.blocksize)

/-- the superblock and the group descriptors in memory -/
def superBytes (s : State) : List UInt8 :=
  s.sb.get 0 sizeof_super_block ++ s.gds.get 0 (s.ngroups.toNat * sizeof_group_desc)

/-- the copy for one group, and all dirty buffers -/
def closeGroup (i : Nat) (s : State) : State :=
  { s with bio := Bio.bflush (Bio.write (superBytes s) (Bio.lseek (superOffset s i) s.bio)) }

def ext2_close (s : State) : State :=
  if s.readonly then s
  else (List.range s.ngroups.toNat).foldl (fun s i => closeGroup i s) s

/-! ## bitmaps -/

/-- the first clear bit of a word that is not all ones -/
def zeroBit (lwval : Nat) : Option Nat := (List.range 32).find? fun bit => !lwval.testBit bit

def find_first_zero_bit (addr : Mem) (size : Nat) : Nat :=
  if size = 0 then 0
  else
    ((List.range ((size + 31) / 32)).findSome? fun longword =>
      if word addr longword ≠ 0xffffffff then
        (zeroBit (word addr longword)).map fun bit => longword * 32 + bit
      else none).getD size

def set_bit (addr : Mem) (bitno : Nat) : Mem :=
  store addr (bitno / 32) (word addr (bitno / 32) ||| 2 ^ (bitno % 32))

def clear_bit (addr : Mem) (bitno : Nat) : Mem :=
  store addr (bitno / 32) (word addr (bitno / 32) &&& (0xffffffff ^^^ 2 ^ (bitno % 32)))

/-! ## allocating and freeing -/

/-- the loop over the groups, up to the first one that gives a number -/
def firstGroup (f : Nat → Prog State (Option Int)) : List Nat → Prog State Int
  | [] => pure 0
  | i :: is => do
    match ← f i with
    | some r => pure r
    | none => firstGroup f is

/-- `ext2_balloc` in one group -/
def ballocIn (i : Nat) : Prog State (Option Int) := do
  let s ← get
  if bg_free_blocks_count s.gds i > 0 then
    let blockmap ← bread (sgn 32 (bg_block_bitmap s.gds i))
    let blk := find_first_zero_bit blockmap (s_blocks_per_group s.sb)
    if blk = 0 ∨ blk = s_blocks_per_group s.sb then pure none
    else
      bwrite (sgn 32 (bg_block_bitmap s.gds i)) (set_bit blockmap blk)
      modify (addFreeBlocks i (-1))
      pure (some (sgn 32 (blk + i * s_blocks_per_group s.sb + 1 : Nat)))
  else pure none

def ext2_balloc : Prog State Int := do
  let s ← get
  if s.readonly then pure 0
  else firstGroup ballocIn (List.range s.ngroups.toNat)

def ext2_bfree (blk : Int) : Prog State Unit := do
  let s ← get
  let i := uns 32 (blk - 1) / s_blocks_per_group s.sb
  let blockmap ← bread (sgn 32 (bg_block_bitmap s.gds i))
  bwrite (sgn 32 (bg_block_bitmap s.gds i))
    (clear_bit blockmap (uns 32 (blk - 1) % s_blocks_per_group s.sb))
  modify (addFreeBlocks i 1)

/-- the first word from `j` on that satisfies `p`, among the next `n` -/
def skip (p : Nat → Bool) (j : Nat) : Nat → Nat
  | 0 => j
  | n + 1 => if p j then j else skip p (j + 1) n

/-- the first word of a run of clear words; `longs_per_group` if there is none.  Every round moves
on by a word at least, so that `longs_per_group + 1` rounds are enough. -/
def findRun (m : Mem) (longs_needed : Int) (longs_per_group : Nat) : Nat → Nat → Nat
  | 0, _ => longs_per_group
  | fuel + 1, firstlong =>
    let firstlong := skip (fun j => word m j = 0) firstlong (longs_per_group - firstlong)
    if firstlong = longs_per_group then longs_per_group
    else
      let lastlong := skip (fun j => word m j ≠ 0) firstlong (longs_per_group - firstlong)
      if ((lastlong : Int) - firstlong) < longs_needed then
        findRun m longs_needed longs_per_group fuel lastlong
      else firstlong

/-- mark `n` blocks from bit `blk` on -/
def setBits (m : Mem) (blk n : Nat) : Mem := (List.range n).foldl (fun m j => set_bit m (blk + j)) m

/-- `ext2_contiguous_balloc` in one group -/
def contiguousIn (nblocks : Int) (i : Nat) : Prog State (Option Int) := do
  let s ← get
  let longs_needed := sgn 32 (uns 64 (nblocks + 31) / 32 : Nat)
  let longs_per_group := s_blocks_per_group s.sb / 32
  if nblocks ≤ bg_free_blocks_count s.gds i then
    let blockmap ← bread (sgn 32 (bg_block_bitmap s.gds i))
    let firstlong := findRun blockmap longs_needed longs_per_group (longs_per_group + 1) 0
    if firstlong = longs_per_group then pure none
    else
      let blk := firstlong * 32
      bwrite (sgn 32 (bg_block_bitmap s.gds i)) (setBits blockmap blk nblocks.toNat)
      modify (addFreeBlocks i (-nblocks))
      pure (some (sgn 32 (blk + i * s_blocks_per_group s.sb + 1 : Nat)))
  else pure none

def ext2_contiguous_balloc (nblocks : Int) : Prog State Int := do
  let s ← get
  if s.readonly then pure 0
  else firstGroup (contiguousIn nblocks) (List.range s.ngroups.toNat)

/-- `ext2_ialloc` in one group -/
def iallocIn (i : Nat) : Prog State (Option Int) := do
  let s ← get
  if bg_free_inodes_count s.gds i > 4 then
    let inodemap ← bread (sgn 32 (bg_inode_bitmap s.gds i))
    let ino := find_first_zero_bit inodemap (s_inodes_per_group s.sb)
    if ino = 0 ∨ ino = s_inodes_per_group s.sb then pure none
    else
      bwrite (sgn 32 (bg_inode_bitmap s.gds i)) (set_bit inodemap ino)
      modify (addFreeInodes i (-1))
      pure (some (sgn 32 (ino + i * s_inodes_per_group s.sb + 1 : Nat)))
  else pure none

def ext2_ialloc : Prog State Int := do
  let s ← get
  if s.readonly then pure 0
  else firstGroup iallocIn (List.range s.ngroups.toNat)

def ext2_ifree (ino : Int) : Prog State Unit := do
  let s ← get
  let i := uns 32 (ino - 1) / s_inodes_per_group s.sb
  let inodemap ← bread (sgn 32 (bg_inode_bitmap s.gds i))
  bwrite (sgn 32 (bg_inode_bitmap s.gds i))
    (clear_bit inodemap (uns 32 (ino - 1) % s_inodes_per_group s.sb))
  modify (addFreeInodes i 1)

/-! ## inodes -/

/-- the group that the inode's table is taken from -/
def inodeGroup (s : State) (ino : Int) : Nat := uns 32 ino / s_inodes_per_group s.sb

/-- the offset of an inode in the table of its group, in an `int` -/
def tableOffset (s : State) (ino : Int) : Int :=
  sgn 32 (uns 32 (ino - 1) % s_inodes_per_group s.sb * sizeof_inode : Nat)

/-- `blkoffset`: the offset of the block with the inode -/
def blkoffset (s : State) (ino : Int) : Int :=
  sgn 32 (sgn 32 (bg_inode_table s.gds (inodeGroup s ino) * s.blocksize)
    + Int.tdiv (tableOffset s ino) s.blocksize * s.blocksize)

/-- the block with the inode -/
def inodeBlock (s : State) (ino : Int) : Int := Int.tdiv (blkoffset s ino) s.blocksize

/-- `byteoffset`: where the inode is in its block -/
def byteoffset (s : State) (ino : Int) : Nat := (Int.tmod (tableOffset s ino) s.blocksize).toNat

/-- a division by zero traps -/
def divides (s : State) : Bool := s_inodes_per_group s.sb ≠ 0 ∧ s.blocksize ≠ 0

def setEntry (i : Slot) (e : Entry) (s : State) : State :=
  { s with inode_table := Function.update s.inode_table i e }

def freeSlot (s : State) : Option Slot :=
  (List.finRange MAX_OPEN_FILES).find? fun i => (s.inode_table i).free

def ext2_iget (ino : Int) : Prog State (Option Slot) := do
  let s ← get
  match freeSlot s with
  | none => pure none
  | some i =>
    if divides s then
      let inobuf ← bread (inodeBlock s ino)
      let ip := (s.inode i).put 0 (inobuf.get (byteoffset s ino) sizeof_inode)
      modify (setEntry i { inode := ip, inumber := ino, free := false, old_mode := i_mode ip })
      pure (some i)
    else failure

/-- `gds[group].bg_used_dirs_count += n` -/
def addUsedDirs (group : Nat) (n : Int) (s : State) : State :=
  { s with
    gds := s.gds.put (group * 32 + 16) (ofNum (uns 16 (bg_used_dirs_count s.gds group + n)) 2) }

/-- a directory that was deleted or created is counted in the group -/
def countDirs (group old_mode mode : Nat) (s : State) : State :=
  let s := if S_ISDIR old_mode ∧ ¬ S_ISDIR mode then addUsedDirs group (-1) s else s
  if ¬ S_ISDIR old_mode ∧ S_ISDIR mode then addUsedDirs group 1 s else s

/-- store an inode where it came from -/
def writeInode (i : Slot) (ino : Int) : Prog State Unit := do
  let s ← get
  if divides s then
    let inobuf ← bread (inodeBlock s ino)
    bwrite (inodeBlock s ino) (inobuf.put (byteoffset s ino) ((s.inode i).get 0 sizeof_inode))
    modify (countDirs (inodeGroup s ino) (s.inode_table i).old_mode (i_mode (s.inode i)))
  else failure

def ext2_iput (i : Slot) : Prog State Unit := do
  let s ← get
  let ino := (s.inode_table i).inumber
  Prog.when (i_links_count (s.inode i) = 0) (ext2_ifree ino)
  modify fun s => setEntry i { s.inode_table i with inumber := 0 } s
  Prog.when (s.readonly = false) (writeInode i ino)
  modify fun s => setEntry i { s.inode_table i with free := true } s

/-! ## the blocks of a file -/

/-- store a block number in an indirect block -/
def setPtr (lp : Mem) (k blkno : Int) : Mem := lp.put (4 * k).toNat (ofNum (uns 32 blkno) 4)

/-- `ip->i_block[k] = blkno` -/
def setBlock (i : Slot) (k blkno : Int) (s : State) : State :=
  setInode i ((s.inode i).put (40 + 4 * k).toNat (ofNum (uns 32 blkno) 4)) s

def setSize (i : Slot) (size : Int) (s : State) : State :=
  setInode i ((s.inode i).put 4 (ofNum (uns 32 size) 4)) s

def setBlocks (i : Slot) (n : Int) (s : State) : State :=
  setInode i ((s.inode i).put 28 (ofNum (uns 32 n) 4)) s

/-- one more block is counted in `ip->i_blocks` -/
def addBlock (i : Slot) (s : State) : State :=
  setBlocks i (i_blocks (s.inode i) + Int.tdiv s.blocksize 512) s

/-- a buffer that was cleared -/
def clearBuf (s : State) : Mem := s.stack.put 0 (List.replicate s.blocksize.toNat 0)

/-- the entry `k` of the indirect block `iblkno`; with `checked`, a block that cannot be allocated
is not stored in it -/
def ptrIn (i : Slot) (iblkno k : Int) (allocate checked : Bool) : Prog State Int := do
  let lp ← bread iblkno
  if blkptr lp k = 0 ∧ allocate then
    let blkno ← ext2_balloc
    if checked ∧ blkno = 0 then pure 0
    else
      modify (addBlock i)
      bwrite iblkno (setPtr lp k blkno)
      pure blkno
  else pure (blkptr lp k)

/-- a new indirect block in `ip->i_block[k]`, cleared -/
def newIndirect (i : Slot) (k : Int) : Prog State Int := do
  let iblkno ← ext2_balloc
  if iblkno = 0 then pure 0
  else
    modify fun s => addBlock i (setBlock i k iblkno s)
    let s ← get
    bwrite iblkno (clearBuf s)
    pure iblkno

/-- the indirect block of the entry `k` of the double-indirect block `diblkno` -/
def indirectIn (i : Slot) (diblkno k : Int) (allocate : Bool) : Prog State Int := do
  let lp ← bread diblkno
  if blkptr lp k = 0 ∧ allocate then
    let iblkno ← ext2_balloc
    if iblkno = 0 then pure 0
    else
      modify (addBlock i)
      bwrite diblkno (setPtr lp k iblkno)
      let s ← get
      bwrite iblkno (clearBuf s)
      pure iblkno
  else pure (blkptr lp k)

def ext2_blkno (i : Slot) (blkoff : Int) (allocate : Bool) : Prog State Int := do
  let s ← get
  if allocate ∧ s.readonly then pure 0
  else if blkoff ≤ s.directlim then
    if i_block (s.inode i) blkoff = 0 ∧ allocate then
      let blkno ← ext2_balloc
      modify fun s => addBlock i (setBlock i blkoff blkno s)
      pure blkno
    else pure (i_block (s.inode i) blkoff)
  else if blkoff ≤ s.ind1lim then
    let iblkno ← (if i_block (s.inode i) EXT2_IND_BLOCK = 0 ∧ allocate then newIndirect i EXT2_IND_BLOCK
      else pure (i_block (s.inode i) EXT2_IND_BLOCK))
    if iblkno = 0 then pure 0
    else ptrIn i iblkno (blkoff - (s.directlim + 1)) allocate true
  else if blkoff ≤ s.ind2lim then
    let diblkno ← (if i_block (s.inode i) EXT2_DIND_BLOCK = 0 ∧ allocate
      then newIndirect i EXT2_DIND_BLOCK else pure (i_block (s.inode i) EXT2_DIND_BLOCK))
    if diblkno = 0 then pure 0
    else
      let iblkno ← indirectIn i diblkno (Int.tdiv (blkoff - (s.ind1lim + 1)) s.ptrs_per_blk) allocate
      if iblkno = 0 then pure 0
      else ptrIn i iblkno (Int.tmod (blkoff - (s.ind1lim + 1)) s.ptrs_per_blk) allocate false
  else pure 0

/-- a block of a file into a buffer; a hole reads as zeros -/
def ext2_bread (i : Slot) (blkno : Int) : Prog State Mem := do
  let dev_blkno ← ext2_blkno i blkno false
  if dev_blkno = 0 then
    let s ← get
    pure (clearBuf s)
  else bread dev_blkno

def ext2_bwrite (i : Slot) (blkno : Int) (buf : Mem) : Prog State Unit := do
  let s ← get
  if s.readonly then pure ()
  else
    let dev_blkno ← ext2_blkno i blkno true
    if dev_blkno = 0 then pure () else bwrite dev_blkno buf

/-- free the blocks of an indirect block, and the block itself -/
def ext2_free_indirect : Nat → Int → Prog State Unit
  | 0, indirect_blkno => do
    let indirect_block ← bread indirect_blkno
    let s ← get
    (List.range s.ptrs_per_blk.toNat).forM fun (k : Nat) =>
      Prog.when (blkptr indirect_block k ≠ 0) (ext2_bfree (blkptr indirect_block k))
    ext2_bfree indirect_blkno
  | level + 1, indirect_blkno => do
    let indirect_block ← bread indirect_blkno
    let s ← get
    (List.range s.ptrs_per_blk.toNat).forM fun (k : Nat) =>
      Prog.when (blkptr indirect_block k ≠ 0) (ext2_free_indirect level (blkptr indirect_block k))
    ext2_bfree indirect_blkno

/-- free what one entry of `ip->i_block` points to -/
def truncateBlock (i : Slot) (free : Int → Prog State Unit) (k : Int) : Prog State Unit := do
  let s ← get
  Prog.when (i_block (s.inode i) k ≠ 0) do
    free (i_block (s.inode i) k)
    modify (setBlock i k 0)

def ext2_truncate (i : Slot) : Prog State Unit := do
  (List.range EXT2_NDIR_BLOCKS.toNat).forM fun (k : Nat) => truncateBlock i ext2_bfree k
  truncateBlock i (ext2_free_indirect 0) EXT2_IND_BLOCK
  truncateBlock i (ext2_free_indirect 1) EXT2_DIND_BLOCK
  truncateBlock i (ext2_free_indirect 2) EXT2_TIND_BLOCK
  modify (setSize i 0)

/-- the pointers to the blocks from `firstblock` on: the first ones in the inode, the others in
the indirect block -/
def fillPtrs (i : Slot) (firstblock : Int) (nblocks : Nat) (blkbuf : Mem) (s : State) : Mem × State :=
  (List.range nblocks).foldl
    (fun r (k : Nat) =>
      if (k : Int) < EXT2_NDIR_BLOCKS then (r.1, setBlock i k (sgn 32 (firstblock + k)) r.2)
      else (setPtr r.1 (k - EXT2_NDIR_BLOCKS) (sgn 32 (firstblock + k)), r.2))
    (blkbuf, s)

/-- set the size and the pointers, and write the indirect block if there is one -/
def fillInode (i : Slot) (nblocks firstblock iblkno : Int) : Prog State Int := do
  modify fun s => setSize i (nblocks * s.blocksize) s
  let blkbuf ← modifyGet fun s => fillPtrs i firstblock nblocks.toNat (clearBuf s) s
  Prog.when (iblkno ≠ 0) (bwrite iblkno blkbuf)
  pure firstblock

def ext2_fill_contiguous (i : Slot) (nblocks : Int) : Prog State Int := do
  let s ← get
  if s.ind1lim < nblocks then pure (-1)
  else
    let firstblock ← ext2_contiguous_balloc nblocks
    if firstblock = 0 then pure (-1)
    else
      modify (setBlocks i (nblocks * Int.tdiv s.blocksize 512))
      if s.directlim < nblocks then
        let iblkno ← ext2_balloc
        if iblkno = 0 then
          (List.range nblocks.toNat).forM fun (k : Nat) => ext2_bfree k
          pure (-1)
        else
          modify fun s => setBlock i EXT2_IND_BLOCK iblkno (addBlock i s)
          fillInode i nblocks firstblock iblkno
      else fillInode i nblocks firstblock 0

def ext2_write_bootblock (bb : Mem) : Prog State Unit := bwrite 0 bb

/-! ## directories -/

/-- the entry with a name, in one block: `some none` when the block has none -/
def searchBlock (name : List UInt8) (blocksize : Int) (dirbuf : Mem) : Nat → Int → Option (Option Int)
  | 0, _ => none
  | fuel + 1, blockoffset =>
    if blockoffset < blocksize then
      if d_name_len dirbuf blockoffset = name.length ∧ d_name dirbuf blockoffset name.length = name
      then some (some (d_inode dirbuf blockoffset))
      else searchBlock name blocksize dirbuf fuel (blockoffset + d_rec_len dirbuf blockoffset)
    else some none

/-- the inode number of a name in a directory, negative when there is none -/
def searchDir (fuel : Nat) (i : Slot) (name : List UInt8) : Nat → Nat → Prog State Int
  | 0, _ => failure
  | n + 1, diroffset => do
    let s ← get
    if diroffset < i_size (s.inode i) then
      let dirbuf ← ext2_bread i (sgn 32 (diroffset / uns 32 s.blocksize : Nat))
      match searchBlock name s.blocksize dirbuf fuel 0 with
      | none => failure
      | some next_ino =>
        if 0 ≤ next_ino.getD (-1) then pure (next_ino.getD (-1))
        else searchDir fuel i name n (uns 32 (diroffset + s.blocksize))
    else pure (-1)

/-- the components of a path that are still to be looked up, from a directory on -/
def walk (fuel : Nat) : List (List UInt8) → Option Slot → Prog State (Option Slot)
  | [], dir_inode => pure dir_inode
  | _ :: _, none => failure
  | component :: components, some i => do
    let next_ino ← searchDir fuel i component fuel 0
    ext2_iput i
    if next_ino < 0 then pure none
    else
      let dir_inode ← ext2_iget next_ino
      walk fuel components dir_inode

/-- the components of a path -/
def components (name : List UInt8) : List (List UInt8) :=
  (name.splitOn '/'.toUInt8).filter fun c => c ≠ []

def ext2_namei (fuel : Nat) (name : List UInt8) : Prog State (Option Slot) := do
  let dir_inode ← ext2_iget EXT2_ROOT_INO
  walk fuel (components name) dir_inode

/-- store `rec_len` of the entry at an offset -/
def setRecLen (blk : Mem) (dp len : Int) : Mem := blk.put (dp.toNat + 4) (ofNum (uns 16 len) 2)

/-- store the inode number and the name of the entry at an offset -/
def setName (blk : Mem) (dp : Int) (name : List UInt8) (ino : Int) : Mem :=
  ((blk.put dp.toNat (ofNum (uns 32 ino) 4)).put (dp.toNat + 6) (ofNum name.length 2)).put
    (dp.toNat + 8) name

/-- an entry with room for a name of this length, in one block, and the block with the entry before
it cut to size -/
def findRoom (namelen : Int) (blocksize : Int) (dirbuf : Mem) :
    Nat → Int → Option (Option (Int × Mem))
  | 0, _ => none
  | fuel + 1, dp =>
    if dp < blocksize then
      let len := EXT2_DIR_REC_LEN (d_name_len dirbuf dp)
      if d_inode dirbuf dp = 0 ∧ EXT2_DIR_REC_LEN namelen ≤ d_rec_len dirbuf dp then
        some (some (dp, dirbuf))
      else if d_inode dirbuf dp ≠ 0 ∧ EXT2_DIR_REC_LEN namelen ≤ d_rec_len dirbuf dp - len then
        some (some (dp + len,
          setRecLen (setRecLen dirbuf dp len) (dp + len) (d_rec_len dirbuf dp - len)))
      else findRoom namelen blocksize dirbuf fuel (dp + d_rec_len dirbuf dp)
    else some none

/-- the loop of `ext2_mknod` over the blocks of the directory; `dirbuf` is the block read last -/
def mknodLoop (fuel : Nat) (dip : Slot) (name : List UInt8) (ino : Int) :
    Nat → Nat → Mem → Prog State Unit
  | 0, _, _ => failure
  | n + 1, diroffset, dirbuf => do
    let s ← get
    if diroffset < i_size (s.inode dip) then
      let dirbuf ← ext2_bread dip (sgn 32 (diroffset / uns 32 s.blocksize : Nat))
      match findRoom name.length s.blocksize dirbuf fuel 0 with
      | none => failure
      | some (some (dp, buf)) =>
        ext2_bwrite dip (sgn 32 (diroffset / uns 32 s.blocksize : Nat)) (setName buf dp name ino)
      | some none => mknodLoop fuel dip name ino n (uns 32 (diroffset + s.blocksize)) dirbuf
    else
      ext2_bwrite dip (sgn 32 (i_size (s.inode dip) / uns 32 s.blocksize : Nat))
        (setRecLen (setName dirbuf 0 name ino) 0 s.blocksize)
      modify fun s => setSize dip (i_size (s.inode dip) + s.blocksize) s

def ext2_mknod (fuel : Nat) (dip : Slot) (name : List UInt8) (ino : Int) : Prog State Unit := do
  let s ← get
  mknodLoop fuel dip name ino fuel 0 s.stack

end E2
