import Aboot.Machine

/-!
# fs/ext2.c: the ext2 reader of the boot loader

The static variables of the file are the fields of `State`; every function takes the state and
returns the new one.  An inode pointer is an index of `inode_table`, a directory entry pointer an
offset in `blkbuf`.  `log` records the `cons_read`s that were issued and `no_free_inodes` counts a
message; nothing in the source depends on them, but that the reads are numbered.

Loops that follow what is on the disk take `fuel`; `none` is a loop that has not ended with that
much fuel.  A `longjmp` out of `ext2_mount` (the heap is exhausted) is the value `none`.
-/

namespace Ext2
open Word

abbrev MAX_OPEN_FILES : Nat := 5
def EXT2_SUPER_MAGIC : Nat := 0xEF53
def EXT2_MIN_BLOCK_SIZE : Int := 1024
def EXT2_NDIR_BLOCKS : Int := 12
def EXT2_IND_BLOCK : Int := 12
def EXT2_DIND_BLOCK : Int := 13
def EXT2_ROOT_INO : Int := 2
def EXT4_EXTENTS_FL : Nat := 0x00080000
def EXT4_EXT_MAGIC : Nat := 0xf30a
def sizeof_super_block : Int := 1024
def sizeof_group_desc : Int := 32
def sizeof_inode : Int := 128

/-! ## on-disk structures -/

/-- the fields of a superblock -/
def s_blocks_count (sb : Mem) : Nat := sb.le32 4
def s_first_data_block (sb : Mem) : Nat := sb.le32 20
def s_log_block_size (sb : Mem) : Nat := sb.le32 24
def s_blocks_per_group (sb : Mem) : Nat := sb.le32 32
def s_inodes_per_group (sb : Mem) : Nat := sb.le32 40
def s_magic (sb : Mem) : Nat := sb.le16 56
def s_rev_level (sb : Mem) : Nat := sb.le32 76
def s_inode_size (sb : Mem) : Nat := sb.le16 88

/-- `EXT2_BLOCK_SIZE`: the shift instruction looks at six bits of the count -/
def block_size (sb : Mem) : Int := sgn 32 (1024 * 2 ^ (s_log_block_size sb % 64))

/-- `EXT2_INODE_SIZE` -/
def inode_size (sb : Mem) : Nat := if s_rev_level sb = 0 then 128 else s_inode_size sb

def bg_inode_table (gds : Mem) (group : Nat) : Nat := gds.le32 (group * 32 + 8)

/-- the fields of an inode -/
def i_mode (ip : Mem) : Nat := ip.le16 0
def i_size (ip : Mem) : Nat := ip.le32 4
def i_blocks (ip : Mem) : Nat := ip.le32 28
def i_flags (ip : Mem) : Nat := ip.le32 32
def i_block (ip : Mem) (k : Int) : Int := sgn 32 (ip.le32 (40 + 4 * k).toNat)

def S_ISLNK (mode : Nat) : Bool := mode &&& 0o170000 = 0o120000
def S_ISDIR (mode : Nat) : Bool := mode &&& 0o170000 = 0o040000

/-- the extent header and the first extent, in the `i_block` area -/
def eh_magic (ip : Mem) : Nat := ip.le16 40
def eh_entries (ip : Mem) : Nat := ip.le16 42
def ee_block (ip : Mem) : Nat := ip.le32 52
def ee_len (ip : Mem) : Nat := ip.le16 56
def ee_start (ip : Mem) : Int := (ip.le16 58 : Int) * 2 ^ 32 + ip.le32 60

/-- the fields of the directory entry at an offset of a block -/
def d_inode (blk : Mem) (dp : Int) : Int := sgn 32 (blk.le32 dp.toNat)
def d_rec_len (blk : Mem) (dp : Int) : Int := blk.le16 (dp.toNat + 4)
def d_name_len (blk : Mem) (dp : Int) : Nat := (blk (dp.toNat + 6)).toNat
def d_name (blk : Mem) (dp : Int) (n : Nat) : List UInt8 := blk.get (dp.toNat + 8) n

/-- the `k`-th pointer of an indirect block -/
def blkptr (blk : Mem) (k : Int) : Int := sgn 32 (blk.le32 (4 * k).toNat)

/-! ## the static variables -/

/-- an index of `inode_table`: a `struct ext2_inode *`, or a file descriptor -/
abbrev Slot := Fin MAX_OPEN_FILES

structure Entry where
  inode : Mem
  inumber : Int
  free : Bool
  old_mode : Nat

/-- what a `cons_read` fills -/
inductive Target where
  | super | groups | inode | iblk | diblk | data
deriving DecidableEq

/-- one `cons_read`; `held` is the block number cached for the buffer that it fills -/
structure Read where
  target : Target
  count : Int
  offset : Int
  ret : Int
  held : Int

structure State where
  sb : Mem
  gds : Mem
  root_inode : Option Slot
  ngroups : Int
  directlim : Int
  ind1lim : Int
  ind2lim : Int
  ptrs_per_blk : Int
  blocksize : Int
  blkbuf : Mem
  cached_iblkno : Int
  iblkbuf : Mem
  cached_diblkno : Int
  diblkbuf : Mem
  dev : Int
  partition_offset : Int
  inode_table : Slot → Entry
  diroffset : Int
  blockoffset : Int
  log : List Read
  /-- how often "no free inodes" was printed -/
  no_free_inodes : Nat

namespace State

/-- what the next `cons_read` of the mounted device does -/
def rd (M : Machine) (count offset : Int) (s : State) : ReadRes :=
  M.read s.log.length s.dev count offset

/-- the block number cached for a buffer, -1 for none -/
def held (s : State) : Target → Int
  | .iblk => s.cached_iblkno
  | .diblk => s.cached_diblkno
  | _ => -1

/-- the next `cons_read` is entered in the log -/
def note (M : Machine) (target : Target) (count offset : Int) (s : State) : State :=
  { s with log := s.log ++ [⟨target, count, offset, (s.rd M count offset).ret, s.held target⟩] }

/-- the device offset of a block of the mounted partition -/
def blockOffset (s : State) (n : Int) : Int := s.partition_offset + n * s.blocksize

def setEntry (i : Slot) (e : Entry) (s : State) : State :=
  { s with inode_table := Function.update s.inode_table i e }

end State
open State

/-! ## mounting -/

/-- the device, the partition and the inode table of a new mount -/
def mountStart (cons_dev p_offset : Int) (s : State) : State :=
  { s with
    dev := cons_dev
    partition_offset := p_offset
    inode_table := fun i => { s.inode_table i with free := true, inumber := 0 }
    root_inode := none }

/-- read in the first superblock -/
def readSuper (M : Machine) (s : State) : State :=
  { s.note M .super sizeof_super_block (s.partition_offset + EXT2_MIN_BLOCK_SIZE) with
    sb := s.sb.put 0 (s.rd M sizeof_super_block (s.partition_offset + EXT2_MIN_BLOCK_SIZE)).data }

/-- the number of groups: `unsigned int` arithmetic, assigned to an `int` -/
def groups_of (sb : Mem) : Int :=
  sgn 32 (uns 32 ((s_blocks_count sb : Int) - s_first_data_block sb + s_blocks_per_group sb - 1)
    / s_blocks_per_group sb : Nat)

/-- where the group descriptors start: right after the superblock -/
def groupsOffset (s : State) : Int :=
  s.partition_offset + sgn 32 (s.blocksize * (Int.tdiv EXT2_MIN_BLOCK_SIZE s.blocksize + 1))

/-- read in the group descriptors; the result of the read is not looked at -/
def readGroups (M : Machine) (s : State) : State :=
  { s.note M .groups (s.ngroups * sizeof_group_desc) (groupsOffset s) with
    gds := s.gds.put 0 (s.rd M (s.ngroups * sizeof_group_desc) (groupsOffset s)).data }

/-- the direct/indirect block limits -/
def setLimits (s : State) : State :=
  { s with
    blocksize := block_size s.sb
    directlim := EXT2_NDIR_BLOCKS - 1
    ptrs_per_blk := sgn 32 (uns 64 s.blocksize / 4 : Nat)
    ind1lim := sgn 32 (sgn 32 (uns 64 s.blocksize / 4 : Nat) + (EXT2_NDIR_BLOCKS - 1))
    ind2lim := sgn 32 (sgn 32 (uns 64 s.blocksize / 4 : Nat) * sgn 32 (uns 64 s.blocksize / 4 : Nat)
      + (EXT2_NDIR_BLOCKS - 1)) }

/-- the buffers of a mount and what follows; `p` is the heap pointer after `gds = malloc(..)` -/
def mountBuffers (M : Machine) (p : Nat) (s : State) : Option Int × Nat × State :=
  let s := { s with gds := M.ram p, blocksize := block_size s.sb }
  let p₁ := malloc M.clusters p (uns 64 s.blocksize)
  if out_of_memory p₁ then (none, p₁, s) else
  let s := { s with blkbuf := M.ram p₁ }
  let p₂ := malloc M.clusters p₁ (uns 64 s.blocksize)
  if out_of_memory p₂ then (none, p₂, s) else
  let s := { s with iblkbuf := M.ram p₂ }
  let p₃ := malloc M.clusters p₂ (uns 64 s.blocksize)
  if out_of_memory p₃ then (none, p₃, s) else
  (some 0, p₃, setLimits (readGroups M { s with diblkbuf := M.ram p₃ }))

def mountGroups (M : Machine) (p : Nat) (s : State) : Option Int × Nat × State :=
  let s := { s with ngroups := groups_of s.sb }
  let p := malloc M.clusters p (uns 64 (s.ngroups * sizeof_group_desc))
  if out_of_memory p then (none, p, s) else mountBuffers M p s

/-- `ext2_mount`, with the heap pointer -/
def ext2_mount (M : Machine) (cons_dev p_offset : Int) (p : Nat) (s : State) :
    Option Int × Nat × State :=
  let s := mountStart cons_dev p_offset s
  if (s.rd M sizeof_super_block (s.partition_offset + EXT2_MIN_BLOCK_SIZE)).ret
      ≠ sizeof_super_block then (some (-1), p, readSuper M s)
  else if s_magic (readSuper M s).sb ≠ EXT2_SUPER_MAGIC then (some (-1), p, readSuper M s)
  else mountGroups M p (readSuper M s)

/-! ## inodes -/

/-- the first free entry of the inode table -/
def freeSlot (s : State) : Option Slot :=
  (List.finRange MAX_OPEN_FILES).find? fun i => (s.inode_table i).free

/-- where an inode lives: `unsigned int` arithmetic on the inode number -/
def inodeOffset (s : State) (ino : Int) : Int :=
  s.partition_offset
    + (bg_inode_table s.gds (uns 32 (ino - 1) / s_inodes_per_group s.sb) : Int) * s.blocksize
    + uns 32 ((uns 32 (ino - 1) % s_inodes_per_group s.sb * inode_size s.sb : Nat) : Int)

/-- read an inode into a table entry -/
def readInode (M : Machine) (i : Slot) (ino : Int) (s : State) : State :=
  setEntry i
    { s.inode_table i with
      inode := (s.inode_table i).inode.put 0 (s.rd M sizeof_inode (inodeOffset s ino)).data }
    (s.note M .inode sizeof_inode (inodeOffset s ino))

/-- the table entry is taken -/
def takeSlot (i : Slot) (ino : Int) (s : State) : State :=
  setEntry i
    { s.inode_table i with free := false, inumber := ino, old_mode := i_mode (s.inode_table i).inode }
    s

def ext2_iget (M : Machine) (ino : Int) (s : State) : Option Slot × State :=
  match freeSlot s with
  | none => (none, { s with no_free_inodes := s.no_free_inodes + 1 })
  | some i =>
    if (s.rd M sizeof_inode (inodeOffset s ino)).ret ≠ sizeof_inode then (none, readInode M i ino s)
    else (some i, takeSlot i ino (readInode M i ino s))

def ext2_iput (i : Slot) (s : State) : State :=
  setEntry i { s.inode_table i with inumber := 0, free := true } s

/-! ## mapping file blocks -/

/-- read an indirect block into `iblkbuf` -/
def readIblk (M : Machine) (n : Int) (s : State) : State :=
  { s.note M .iblk s.blocksize (s.blockOffset n) with
    iblkbuf := s.iblkbuf.put 0 (s.rd M s.blocksize (s.blockOffset n)).data }

/-- read a double-indirect block into `diblkbuf` -/
def readDiblk (M : Machine) (n : Int) (s : State) : State :=
  { s.note M .diblk s.blocksize (s.blockOffset n) with
    diblkbuf := s.diblkbuf.put 0 (s.rd M s.blocksize (s.blockOffset n)).data }

/-- bring an indirect block into `iblkbuf`, unless it is the cached one -/
def cacheIblk (M : Machine) (n : Int) (s : State) : Bool × State :=
  if s.cached_iblkno = n then (true, s)
  else if (s.rd M s.blocksize (s.blockOffset n)).ret ≠ s.blocksize then (false, readIblk M n s)
  else (true, { readIblk M n s with cached_iblkno := n })

/-- bring a double-indirect block into `diblkbuf`, unless it is the cached one -/
def cacheDiblk (M : Machine) (n : Int) (s : State) : Bool × State :=
  if s.cached_diblkno = n then (true, s)
  else if (s.rd M s.blocksize (s.blockOffset n)).ret ≠ s.blocksize then (false, readDiblk M n s)
  else (true, { readDiblk M n s with cached_diblkno := n })

/-- the entry `k` of the indirect block `iblkno`; no block, or a failed read, gives 0 -/
def viaIblk (M : Machine) (iblkno k : Int) (s : State) : Int × State :=
  if iblkno = 0 then (0, s)
  else if (cacheIblk M iblkno s).1 then
    (blkptr (cacheIblk M iblkno s).2.iblkbuf k, (cacheIblk M iblkno s).2)
  else (0, (cacheIblk M iblkno s).2)

/-- the entry `k` of the block found through the double-indirect block `diblkno` -/
def viaDiblk (M : Machine) (diblkno k : Int) (s : State) : Int × State :=
  if diblkno = 0 then (0, s)
  else if (cacheDiblk M diblkno s).1 then
    viaIblk M (blkptr (cacheDiblk M diblkno s).2.diblkbuf (Int.tdiv k s.ptrs_per_blk))
      (Int.tmod k s.ptrs_per_blk) (cacheDiblk M diblkno s).2
  else (0, (cacheDiblk M diblkno s).2)

def ext2_blkno (M : Machine) (i : Slot) (blkoff : Int) (s : State) : Int × State :=
  if blkoff ≤ s.directlim then (i_block (s.inode_table i).inode blkoff, s)
  else if blkoff ≤ s.ind1lim then
    viaIblk M (i_block (s.inode_table i).inode EXT2_IND_BLOCK) (blkoff - (s.directlim + 1)) s
  else if blkoff ≤ s.ind2lim then
    viaDiblk M (i_block (s.inode_table i).inode EXT2_DIND_BLOCK) (blkoff - (s.ind1lim + 1)) s
  else (0, s)

/-! ## reading file blocks -/

/-- a run of blocks that is read, or zero-filled, in one go: its first file block, the mapped block
number, the number of blocks, whether it is a `memset` and the bytes stored in the buffer -/
structure Run where
  blkno : Int
  dev_blkno : Int
  ncontig : Nat
  zeroed : Bool
  data : List UInt8

/-- `value returned`, what was stored in the buffer run by run, and the new state -/
structure BreadRes where
  ret : Int
  runs : List Run
  st : State

/-- the bytes stored in the buffer -/
def BreadRes.data (r : BreadRes) : List UInt8 := r.runs.flatMap Run.data

def ext4_breadi (M : Machine) (i : Slot) (blkno nblks : Int) (s : State) : BreadRes :=
  let ip := (s.inode_table i).inode
  if eh_magic ip ≠ EXT4_EXT_MAGIC then ⟨-1, [], s⟩
  else if eh_entries ip ≠ 1 then ⟨-1, [], s⟩
  else if ee_block ip ≠ 0 then ⟨-1, [], s⟩
  else if ee_len ip < nblks then ⟨-1, [], s⟩
  else
    let nblks := if ee_len ip < blkno + nblks then ee_len ip - blkno else nblks
    let offset := s.blockOffset (ee_start ip + blkno)
    let r := s.rd M (nblks * s.blocksize) offset
    let run : Run := ⟨blkno, ee_start ip + blkno, nblks.toNat, false, r.data⟩
    if r.ret ≠ nblks * s.blocksize then ⟨-1, [run], s.note M .data (nblks * s.blocksize) offset⟩
    else ⟨sgn 32 r.ret, [run], s.note M .data (nblks * s.blocksize) offset⟩

/-- the `do .. while` that groups contiguous blocks: `n` blocks are left, `nc` are in the group -/
def group (M : Machine) (i : Slot) (dev_blkno : Int) :
    (n : Nat) → (blkno : Int) → (nc : Nat) → State → Nat × Nat × State
  | 0, _, nc, s => (0, nc, s)
  | n + 1, blkno, nc, s =>
    if (ext2_blkno M i (sgn 32 blkno) s).1 = dev_blkno + nc then
      group M i dev_blkno n (blkno + 1) (nc + 1) (ext2_blkno M i (sgn 32 blkno) s).2
    else (n + 1, nc, (ext2_blkno M i (sgn 32 blkno) s).2)

/-- the group that starts at `blkno`, of `n + 1` blocks that are left: the mapped block number, the
blocks left after it, its length and the state -/
def nextGroup (M : Machine) (i : Slot) (n : Nat) (blkno : Int) (s : State) :
    Int × Nat × Nat × State :=
  let r := ext2_blkno M i (sgn 32 blkno) s
  (r.1, group M i r.1 n (blkno + 1) 1 r.2)

/-- the `while (nblks)` loop; every round takes at least one block, so `fuel = n` rounds do -/
def breadLoop (M : Machine) (i : Slot) :
    (fuel : Nat) → (n : Nat) → (blkno tot_bytes : Int) → State → BreadRes
  | 0, _, _, tot_bytes, s => ⟨sgn 32 tot_bytes, [], s⟩
  | _ + 1, 0, _, tot_bytes, s => ⟨sgn 32 tot_bytes, [], s⟩
  | fuel + 1, n + 1, blkno, tot_bytes, s =>
    let (dev_blkno, left, nc, s) := nextGroup M i n blkno s
    let nbytes := nc * s.blocksize
    if dev_blkno = 0 then
      let r := breadLoop M i fuel left (blkno + nc) (tot_bytes + nbytes) s
      { r with runs := ⟨blkno, 0, nc, true, List.replicate nbytes.toNat 0⟩ :: r.runs }
    else
      let rd := s.rd M nbytes (s.blockOffset dev_blkno)
      let s := s.note M .data nbytes (s.blockOffset dev_blkno)
      if rd.ret ≠ nbytes then ⟨-1, [⟨blkno, dev_blkno, nc, false, rd.data⟩], s⟩
      else
        let r := breadLoop M i fuel left (blkno + nc) (tot_bytes + nbytes) s
        { r with runs := ⟨blkno, dev_blkno, nc, false, rd.data⟩ :: r.runs }

/-- the number of blocks to read: a request that ends past the file is cut to its end -/
def clampBlks (s : State) (i : Slot) (blkno nblks : Int) : Int :=
  if (i_size (s.inode_table i).inode : Int) < sgn 64 ((blkno + nblks) * s.blocksize) then
    (uns 32 (i_size (s.inode_table i).inode + s.blocksize) / uns 32 s.blocksize : Nat) - blkno
  else nblks

def ext2_breadi (M : Machine) (i : Slot) (blkno nblks : Int) (s : State) : BreadRes :=
  if i_flags (s.inode_table i).inode &&& EXT4_EXTENTS_FL ≠ 0 then ⟨-1, [], s⟩
  else
    breadLoop M i (uns 64 (clampBlks s i blkno nblks)) (uns 64 (clampBlks s i blkno nblks)) blkno 0 s

def extn_breadi (M : Machine) (i : Slot) (blkno nblks : Int) (s : State) : BreadRes :=
  if i_flags (s.inode_table i).inode &&& EXT4_EXTENTS_FL ≠ 0 then ext4_breadi M i blkno nblks s
  else ext2_breadi M i blkno nblks s

def ext2_bread (M : Machine) (fd : Slot) (blkno nblks : Int) (s : State) : BreadRes :=
  extn_breadi M fd blkno nblks s

/-! ## directories -/

/-- `extn_breadi` of one block into `blkbuf` -/
def breadBlkbuf (M : Machine) (i : Slot) (blkno : Int) (s : State) : Int × State :=
  let r := extn_breadi M i blkno 1 s
  (r.ret, { r.st with blkbuf := r.st.blkbuf.put 0 r.data })

/-- the entry at `blockoffset`, which moves on to the next one -/
def nextEntry (s : State) : Option Int × State :=
  (some s.blockoffset, { s with blockoffset := s.blockoffset + d_rec_len s.blkbuf s.blockoffset })

/-- the next block of the directory, when `blockoffset` has reached the end of this one -/
def nextDirBlock (M : Machine) (i : Slot) (s : State) : Option Int × State :=
  let s := { s with diroffset := sgn 32 (s.diroffset + s.blocksize) }
  if i_size (s.inode_table i).inode ≤ uns 32 s.diroffset then (none, s)
  else if (breadBlkbuf M i (Int.tdiv s.diroffset s.blocksize) s).1 < 0 then
    (none, (breadBlkbuf M i (Int.tdiv s.diroffset s.blocksize) s).2)
  else nextEntry { (breadBlkbuf M i (Int.tdiv s.diroffset s.blocksize) s).2 with blockoffset := 0 }

/-- the directory entry that follows, in the block in `blkbuf` or in the next block -/
def readdirStep (M : Machine) (i : Slot) (s : State) : Option Int × State :=
  if s.blocksize ≤ s.blockoffset then nextDirBlock M i s else nextEntry s

def ext2_readdiri (M : Machine) (i : Slot) (rewind : Bool) (s : State) : Option Int × State :=
  if rewind then
    let s := { s with diroffset := 0, blockoffset := 0 }
    if (breadBlkbuf M i 0 s).1 < 0 then (none, (breadBlkbuf M i 0 s).2)
    else readdirStep M i (breadBlkbuf M i 0 s).2
  else readdirStep M i s

/-- `ext2_readdir`: the name is terminated in place -/
def ext2_readdir (M : Machine) (fd : Slot) (rewind : Bool) (s : State) :
    Option (List UInt8) × State :=
  if S_ISDIR (i_mode (s.inode_table fd).inode) then
    match ext2_readdiri M fd rewind s with
    | (none, s) => (none, s)
    | (some dp, s) =>
      (some (d_name s.blkbuf dp (d_name_len s.blkbuf dp)),
        { s with blkbuf := s.blkbuf.put (dp.toNat + 8 + d_name_len s.blkbuf dp) [0] })
  else (none, s)

/-! ## path names -/

/-- the components that `strtok(name, "/")` goes through -/
def components (name : List UInt8) : List (List UInt8) :=
  (name.splitOnP (· == '/'.toUInt8)).filter fun c => c ≠ []

/-- search a directory for a component: its inode number, or -1 -/
def searchDir (M : Machine) (i : Slot) (component : List UInt8) :
    (fuel : Nat) → (rewind : Bool) → State → Option (Int × State)
  | 0, _, _ => none
  | fuel + 1, rewind, s =>
    match ext2_readdiri M i rewind s with
    | (none, s) => some (-1, s)
    | (some dp, s) =>
      if d_name_len s.blkbuf dp = component.length ∧
          d_name s.blkbuf dp component.length = component then
        some (d_inode s.blkbuf dp, s)
      else searchDir M i component fuel false s

/-- done with a directory: every inode but the root's is released -/
def releaseDir (i : Slot) (s : State) : State :=
  if s.root_inode = some i then s else ext2_iput i s

/-- walk through the components from a directory -/
def walk (M : Machine) (fuel : Nat) :
    List (List UInt8) → Slot → State → Option (Option Slot × State)
  | [], i, s => some (some i, s)
  | c :: cs, i, s =>
    match searchDir M i c fuel true s with
    | none => none
    | some (next_ino, s) =>
      let s := releaseDir i s
      if next_ino < 0 then some (none, s)
      else
        match ext2_iget M next_ino s with
        | (none, s) => some (none, s)
        | (some j, s) => walk M fuel cs j s

/-- the root inode is read once and then kept -/
def getRoot (M : Machine) (s : State) : State :=
  match s.root_inode with
  | some _ => s
  | none => { (ext2_iget M EXT2_ROOT_INO s).2 with root_inode := (ext2_iget M EXT2_ROOT_INO s).1 }

def ext2_namei (M : Machine) (fuel : Nat) (name : List UInt8) (s : State) :
    Option (Option Slot × State) :=
  match (getRoot M s).root_inode with
  | none => some (none, getRoot M s)
  | some root => walk M fuel (components name) root (getRoot M s)

/-- the NUL-terminated string at an address -/
def cstr (m : Mem) : (fuel : Nat) → (a : Nat) → Option (List UInt8)
  | 0, _ => none
  | fuel + 1, a => if m a = 0 then some [] else (cstr m fuel (a + 1)).map (m a :: ·)

/-- `strrchr` of lib/string.c: the last position from 1 on -/
def strrchr (s : List UInt8) (c : UInt8) : Option Nat :=
  (List.range s.length).reverse.find? fun k => 1 ≤ k ∧ s[k]? = some c

/-- the text of a link: in the block of the file, or in the inode -/
def linkText (M : Machine) (fuel : Nat) (i : Slot) (s : State) :
    Option (Option (List UInt8) × State) :=
  if i_blocks (s.inode_table i).inode ≠ 0 then
    if (breadBlkbuf M i 0 s).1 = -1 then some (none, (breadBlkbuf M i 0 s).2)
    else (cstr (breadBlkbuf M i 0 s).2.blkbuf fuel 0).map fun t => (some t, (breadBlkbuf M i 0 s).2)
  else (cstr (s.inode_table i).inode fuel 40).map fun t => (some t, s)

/-- a relative link is resolved in the directory part of `base` -/
def resolve (base linkto : List UInt8) : List UInt8 :=
  if linkto.head? = some '/'.toUInt8 then linkto
  else
    match strrchr base '/'.toUInt8 with
    | some k => base.take (k + 1) ++ linkto
    | none => linkto

def ext2_follow_link (M : Machine) (fuel : Nat) (i : Slot) (base : List UInt8) (s : State) :
    Option (Option Slot × State) :=
  match linkText M fuel i s with
  | none => none
  | some (none, s) => some (none, s)
  | some (some linkto, s) => ext2_namei M fuel (resolve base linkto) s

/-- the loop of `ext2_open` that follows symbolic links -/
def followLinks (M : Machine) (filename : List UInt8) (depth : Nat) :
    (fuel : Nat) → Slot → State → Option (Option Slot × State)
  | 0, _, _ => none
  | fuel + 1, i, s =>
    if S_ISLNK (i_mode (s.inode_table i).inode) then
      match ext2_follow_link M depth i filename s with
      | none => none
      | some (none, s) => some (none, s)
      | some (some j, s) => followLinks M filename depth fuel j s
    else some (some i, s)

/-- `ext2_open`: a file descriptor, or `none` for -1 -/
def ext2_open (M : Machine) (fuel : Nat) (filename : List UInt8) (s : State) :
    Option (Option Slot × State) :=
  match ext2_namei M fuel filename s with
  | none => none
  | some (none, s) => some (none, s)
  | some (some i, s) => followLinks M filename fuel fuel i s

def ext2_close (fd : Slot) (s : State) : State :=
  if s.root_inode = some fd then s else ext2_iput fd s

end Ext2
