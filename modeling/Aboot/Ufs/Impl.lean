import Aboot.Lib.CString
import Aboot.Lib.Raise
import Aboot.Machine

/-!
# fs/ufs.c: the UFS reader of the boot loader

The static variables are the fields of `State`; what `block_map` works on is its `Core`.  The table of
open files has one entry, which is never taken: a file descriptor is 0.

A function may be left: by the `longjmp` of `malloc`, by following a null pointer, and here also when
its fuel is used up; the state is the one it was left in.  `calls` records the calls of `block_map` and
`reads` counts the `cons_read`s; nothing in the source depends on them, but that the reads are numbered.
-/

set_option linter.unusedVariables false

namespace Ufs
open Word CString

def DEV_BSIZE : Int := 512
def SBSIZE : Int := 8192
def SBLOCK : Int := 16
def MAXBSIZE : Int := 8192
def FS_MAGIC : Int := 0x011954
def sizeof_fs : Int := 1380
def sizeof_dinode : Nat := 128
def NDADDR : Int := 12
abbrev NIADDR : Nat := 3
def ROOTINO : Nat := 2
abbrev MAXPATHLEN : Nat := 1024
def MAXSYMLINKS : Nat := 8
def FS_SYMLINK_LOOP : Int := 5003

/-! ## on-disk structures -/

/-- the `int` at an address -/
def int (m : Mem) (a : Nat) : Int := sgn 32 (m.le32 a)

/-- the fields of a superblock -/
def fs_iblkno (fs : Mem) : Int := int fs 16
def fs_cgoffset (fs : Mem) : Int := int fs 24
def fs_cgmask (fs : Mem) : Int := int fs 28
def fs_bsize (fs : Mem) : Int := int fs 48
def fs_fsize (fs : Mem) : Int := int fs 52
def fs_bmask (fs : Mem) : Int := int fs 72
def fs_fmask (fs : Mem) : Int := int fs 76
def fs_bshift (fs : Mem) : Nat := fs.le32 80
def fs_fshift (fs : Mem) : Nat := fs.le32 84
def fs_fragshift (fs : Mem) : Nat := fs.le32 96
def fs_fsbtodb (fs : Mem) : Nat := fs.le32 100
def fs_nindir (fs : Mem) : Int := int fs 116
def fs_inopb (fs : Mem) : Nat := fs.le32 120
def fs_ipg (fs : Mem) : Nat := fs.le32 184
def fs_fpg (fs : Mem) : Int := int fs 188
def fs_magic (fs : Mem) : Int := int fs 1372

/-- the factor of a shift: the shift instruction looks at six bits of the count -/
def shift (n : Nat) : Int := 2 ^ (n % 64)

def fsbtodb (fs : Mem) (b : Int) : Int := sgn 32 (b * shift (fs_fsbtodb fs))

/-- the cylinder group of an inode, and the block it is in: `unsigned int` arithmetic -/
def itog (fs : Mem) (x : Nat) : Nat := x / fs_ipg fs
def itoo (fs : Mem) (x : Nat) : Nat := x % fs_inopb fs
def itod (fs : Mem) (x : Nat) : Int :=
  sgn 32 (fs_fpg fs * itog fs x
    + fs_cgoffset fs * (itog fs x &&& uns 32 (-(fs_cgmask fs) - 1) : Nat)
    + fs_iblkno fs + x % fs_ipg fs / fs_inopb fs * shift (fs_fragshift fs))

/-- `loc & ~fs->fs_bmask` -/
def blkoff (fs : Mem) (loc : Int) : Int := sgn 64 (uns 64 loc &&& uns 64 (-(fs_bmask fs) - 1) : Nat)

def fragroundup (fs : Mem) (size : Int) : Int :=
  sgn 64 (uns 64 (size + fs_fsize fs - 1) &&& uns 64 (fs_fmask fs) : Nat)

def numfrags (fs : Mem) (loc : Int) : Int := loc / shift (fs_fshift fs)

/-- the fields of an inode -/
def IFMT : Nat := 0o170000
def IFDIR : Nat := 0o040000
def IFLNK : Nat := 0o120000
def IC_FASTLINK : Nat := 1
def i_mode (ic : Mem) : Nat := ic.le16 0
def i_size (ic : Mem) : Int := sgn 64 (ic.le64 8)
def i_flags (ic : Mem) : Nat := ic.le32 100
def i_symlink (ic : Mem) (n : Nat) : List UInt8 := ic.get 40 n
def i_ib (ic : Mem) (level : Nat) : Int := int ic (88 + 4 * level)

/-- the size of a file block -/
def blksize (fs ic : Mem) (lbn : Int) : Int :=
  if NDADDR ≤ lbn ∨ sgn 64 ((lbn + 1) * shift (fs_bshift fs)) ≤ i_size ic then fs_bsize fs
  else fragroundup fs (blkoff fs (i_size ic))

/-- the fields of the directory entry at an offset of a block -/
def d_ino (buf : Mem) (dp : Int) : Nat := buf.le32 dp.toNat
def d_reclen (buf : Mem) (dp : Int) : Nat := buf.le16 (dp.toNat + 4)
def d_namlen (buf : Mem) (dp : Int) : Nat := buf.le16 (dp.toNat + 6)
def d_name (buf : Mem) (dp : Int) (n : Nat) : List UInt8 := buf.get (dp.toNat + 8) n

/-- the `idx`-th pointer of an index block -/
def ind_p (buf : Mem) (idx : Int) : Int := int buf (4 * idx).toNat

/-! ## the static variables -/

/-- `struct file`; a buffer that is null is `none` -/
structure Entry where
  i_ic : Mem
  f_nindir : Nat → Int
  f_blk : Nat → Option Mem
  f_blkno : Nat → Int
  f_buf : Mem

structure Core where
  dev : Int
  partition_offset : Int
  fs : Mem
  file : Entry
  /-- what memory holds at `inode_table[k]`, an index below 0 -/
  below : Int → Int
  free_mem_ptr : Nat
  reads : Nat

structure State where
  core : Core
  namebuf : Mem
  strtok : Option Nat
  /-- the calls of `block_map`: where they were made, and for which file block -/
  calls : List (Core × Int)

/-- how a function is left -/
inductive Exit
  | memory
  | null
  | fuel
deriving DecidableEq

abbrev Run (α : Type) := EStateM Exit Core α

/-- a pointer of the inode; below the inode is other memory -/
def Core.i_db (c : Core) (k : Int) : Int :=
  if -10 ≤ k then int c.file.i_ic (40 + 4 * k).toNat else c.below k

/-- the device offset of a fragment: `int` arithmetic up to the last sum -/
def Core.offset (c : Core) (b : Int) : Int := sgn 32 (fsbtodb c.fs b * DEV_BSIZE) + c.partition_offset

def Core.setBlk (c : Core) (level : Nat) (m : Mem) : Core :=
  { c with file := { c.file with f_blk := fun l => if l = level then some m else c.file.f_blk l } }

def Core.setBlkno (c : Core) (level : Nat) (n : Int) : Core :=
  { c with file := { c.file with f_blkno := fun l => if l = level then n else c.file.f_blkno l } }

def Core.setBuf (c : Core) (m : Mem) : Core := { c with file := { c.file with f_buf := m } }

section
variable (M : Machine)

/-! ## block_map -/

def alloc (size : Int) : Run Nat := do
  let c ← get
  let p := malloc M.clusters c.free_mem_ptr (uns 64 size)
  set { c with free_mem_ptr := p }
  if out_of_memory p then throw .memory else pure p

/-- a `cons_read` of the mounted device -/
def cons_read (count offset : Int) : Run ReadRes := do
  let c ← get
  set { c with reads := c.reads + 1 }
  pure (M.read c.reads c.dev count offset)

/-- read an index block, which is not the one in the buffer -/
def readIndex (level : Nat) (n : Int) : Run Bool := do
  let c ← get
  let p ← alloc M (fs_bsize c.fs)
  let r ← cons_read M (fs_bsize c.fs) (c.offset n)
  modify fun c => c.setBlk level ((M.ram p).put 0 r.data)
  if r.ret ≠ fs_bsize c.fs then pure false
  else do
    modify fun c => c.setBlkno level n
    pure true

/-- have an index block in the buffer of its level; `false` is a read error -/
def fill (level : Nat) (n : Int) : Run Bool := do
  let c ← get
  if c.file.f_blkno level = n then pure true else readIndex M level n

/-- go down from an index block; a null buffer is what is at address 0 -/
def mapFrom : (level : Nat) → (ind_block_num file_block : Int) → Run Int
  | 0, n, k =>
    if n = 0 then pure 0
    else do
      if ← fill M 0 n then
        let c ← get
        pure (ind_p ((c.file.f_blk 0).getD (M.ram 0)) k)
      else pure (-1)
  | level + 1, n, k =>
    if n = 0 then pure 0
    else do
      if ← fill M (level + 1) n then
        let c ← get
        mapFrom level
          (ind_p ((c.file.f_blk (level + 1)).getD (M.ram 0)) (k.tdiv (c.file.f_nindir level)))
          (k.tmod (c.file.f_nindir level))
      else pure (-1)

/-- the level of a block behind the direct ones, and its number there -/
def findLevel (f_nindir : Nat → Int) : (left level : Nat) → (k : Int) → Option (Nat × Int)
  | 0, _, _ => none
  | left + 1, level, k =>
    if k < f_nindir level then some (level, k)
    else findLevel f_nindir left (level + 1) (sgn 32 (k - f_nindir level))

def block_map (file_block : Int) : Run Int := do
  let c ← get
  if file_block < NDADDR then pure (c.i_db file_block)
  else
    match findLevel c.file.f_nindir NIADDR 0 (file_block - NDADDR) with
    | none => pure (-1)
    | some (level, k) => mapFrom M level (i_ib c.file.i_ic level) k

/-- a program on the variables that `block_map` works on -/
def lift {α : Type} (x : Run α) : EStateM Exit State α := fun s =>
  match x s.core with
  | .ok a c => .ok a { s with core := c }
  | .error e c => .error e { s with core := c }

abbrev Prog (α : Type) := EStateM Exit State α

/-- a call of `block_map` for a `long`, which is entered in `calls` -/
def map (blkno : Int) : Prog Int := do
  modify fun s => { s with calls := s.calls ++ [(s.core, sgn 32 blkno)] }
  lift (block_map M (sgn 32 blkno))

/-! ## breadi -/

/-- the blocks that are next to each other: what is left to read, the next block and the bytes -/
def group (disk_block : Int) : (nblks : Nat) → (blkno nbytes ncontig : Int) → Prog (Nat × Int × Int)
  | 0, blkno, nbytes, _ => pure (0, blkno, nbytes)
  | n + 1, blkno, nbytes, ncontig => do
    let s ← get
    let block_size := blksize s.core.fs s.core.file.i_ic blkno
    let ncontig := ncontig + numfrags s.core.fs block_size
    if n = 0 then pure (0, blkno + 1, nbytes + block_size)
    else do
      let b ← map M (blkno + 1)
      if b = disk_block + ncontig then group disk_block n (blkno + 1) (nbytes + block_size) ncontig
      else pure (n, blkno + 1, nbytes + block_size)

/-- read blocks that are next to each other, or clear the buffer for a hole -/
def readGroup (disk_block nbytes : Int) : Prog (Option (List UInt8)) := do
  if disk_block = 0 then pure (some (List.replicate nbytes.toNat 0))
  else do
    let s ← get
    let r ← lift (cons_read M nbytes (s.core.offset disk_block))
    if r.ret ≠ nbytes then pure none else pure (some r.data)

/-- the loop of `breadi`: the value returned and the bytes stored; there are as many rounds as blocks,
at most -/
def breadiLoop : (rounds nblks : Nat) → (blkno tot_bytes : Int) → (stored : List UInt8) →
    Prog (Int × List UInt8)
  | 0, _, _, tot_bytes, stored => pure (sgn 32 tot_bytes, stored)
  | rounds + 1, nblks, blkno, tot_bytes, stored =>
    if nblks = 0 then pure (sgn 32 tot_bytes, stored)
    else do
      let disk_block ← map M blkno
      let g ← group M disk_block nblks blkno 0 0
      match ← readGroup M disk_block g.2.2 with
      | none => pure (-1, stored)
      | some data => breadiLoop rounds g.1 g.2.1 (tot_bytes + g.2.2) (stored ++ data)

def breadi (blkno : Int) (nblks : Nat) : Prog (Int × List UInt8) := breadiLoop M nblks nblks blkno 0 []

/-! ## the path -/

/-- the inode of a number; the value returned is 0, or 1 for a read error -/
def read_inode (inumber : Nat) : Run Int := do
  let c ← get
  let r ← cons_read M (fs_bsize c.fs) (c.offset (itod c.fs inumber))
  modify fun c => c.setBuf (c.file.f_buf.put 0 r.data)
  if r.ret ≠ fs_bsize c.fs then pure 1
  else do
    modify fun c =>
      { c with
        file := { c.file with
          i_ic := fun k => c.file.f_buf (itoo c.fs inumber * sizeof_dinode + k)
          f_blk := fun l => if l < NIADDR then none else c.file.f_blk l
          f_blkno := fun l => if l < NIADDR then -1 else c.file.f_blkno l } }
    pure 0

/-- the entries of a directory block: the inode number of the first with the name, `none` if there is no
such entry -/
def searchBlock (name : List UInt8) (buf : Mem) (bsize : Int) : (fuel : Nat) → (blockoffset : Int) →
    Option (Option Nat)
  | 0, _ => none
  | fuel + 1, o =>
    if o < bsize then
      if d_ino buf o ≠ 0 ∧ d_namlen buf o = name.length ∧
          d_name buf o (name.length + 1) = name ++ [0] then some (some (d_ino buf o))
      else searchBlock name buf bsize fuel (o + d_reclen buf o)
    else some none

def searchDir (name : List UInt8) : (fuel : Nat) → (offset : Int) → Prog (Option Nat)
  | 0, _ => throw .fuel
  | fuel + 1, offset => do
    let s ← get
    if offset < i_size s.core.file.i_ic then do
      let r ← breadi M (offset.tdiv (fs_bsize s.core.fs)) 1
      modify fun s => { s with core := s.core.setBuf (s.core.file.f_buf.put 0 r.2) }
      if r.1 < 0 then pure none
      else do
        let s ← get
        match searchBlock name s.core.file.f_buf (fs_bsize s.core.fs) fuel 0 with
        | none => throw .fuel
        | some (some ino) => pure (some ino)
        | some none => searchDir name fuel (offset + fs_bsize s.core.fs)
    else pure none

def search_dir (fuel : Nat) (name : List UInt8) : Prog (Option Nat) := searchDir M name fuel 0

def slash : UInt8 := 47

/-- the string at an offset of `namebuf` -/
def State.str (s : State) (a : Nat) : List UInt8 := CString.str (MAXPATHLEN + 1) s.namebuf a

/-- the rest of `strtok(.., "/")`, from where the name starts or slashes before it -/
def tokenAt (sbegin : Nat) (s : State) : Option Nat × State :=
  let a := sbegin + ((s.str sbegin).takeWhile (· = slash)).length
  if s.str a = [] then (none, { s with strtok := none })
  else
    let n := ((s.str a).takeWhile (· ≠ slash)).length
    if n < (s.str a).length then
      (some a, { s with namebuf := s.namebuf.put (a + n) [0], strtok := some (a + n + 1) })
    else (some a, { s with strtok := none })

/-- `strtok(namebuf, "/")`, or `strtok(NULL, "/")` -/
def strtok (begin : Option Nat) : Prog (Option Nat) :=
  modifyGet fun s =>
    match begin.or s.strtok with
    | none => (none, s)
    | some a => tokenAt a s

/-- put the text of a symbolic link into `namebuf`, before what `cp` points at; an error is the value
that is returned -/
def readLink (nlinks : Nat) (cp : Option Nat) : Prog (Option Int) := do
  match cp with
  | none => throw .null
  | some a => do
    let s ← get
    let ic := s.core.file.i_ic
    let link_len := sgn 32 (i_size ic)
    let rest := s.str a ++ [0]
    if (MAXPATHLEN : Int) - 1 ≤ link_len + rest.length then pure (some (-1))
    else if MAXSYMLINKS < nlinks + 1 then pure (some FS_SYMLINK_LOOP)
    else do
      set { s with namebuf := s.namebuf.put link_len.toNat rest }
      if i_flags ic &&& IC_FASTLINK ≠ 0 then do
        modify fun s => { s with namebuf := s.namebuf.put 0 (i_symlink ic link_len.toNat) }
        pure none
      else do
        let disk_block ← map M 0
        let s ← get
        let r ← lift (cons_read M (MAXPATHLEN + 1) (s.core.offset disk_block))
        modify fun s => { s with namebuf := s.namebuf.put 0 r.data }
        if r.ret ≠ MAXPATHLEN + 1 then pure (some (-1)) else pure none

/-- the inode of a component, and of the place where a symbolic link goes on; an error is the value that
is returned, otherwise it is the inode number, the number of links and `cp` -/
def enter (parent inumber nlinks : Nat) (cp : Option Nat) : Prog (Int ⊕ Nat × Nat × Option Nat) := do
  let r ← lift (read_inode M inumber)
  if r ≠ 0 then pure (.inl (-1))
  else do
    let s ← get
    if i_mode s.core.file.i_ic &&& IFMT ≠ IFLNK then pure (.inr (inumber, nlinks, cp))
    else
      match ← readLink M nlinks cp with
      | some e => pure (.inl e)
      | none => do
        let s ← get
        let inumber := if s.namebuf 0 ≠ slash then parent else ROOTINO
        let r ← lift (read_inode M inumber)
        if r ≠ 0 then pure (.inl (-1)) else pure (.inr (inumber, nlinks + 1, some 0))

/-- the components of the path; `some` is an error that is returned -/
def walk : (fuel : Nat) → (inumber nlinks : Nat) → (cp component : Option Nat) → Prog (Option Int)
  | 0, _, _, _, _ => throw .fuel
  | fuel + 1, inumber, nlinks, cp, component =>
    match component with
    | none => pure none
    | some a => do
      let s ← get
      if i_mode s.core.file.i_ic &&& IFMT ≠ IFDIR then pure (some (-1))
      else
        match ← search_dir M fuel (s.str a) with
        | none => pure (some (-1))
        | some ino =>
          match ← enter M inumber ino nlinks cp with
          | .inl e => pure (some e)
          | .inr (inumber, nlinks, cp) => do
            let component ← strtok none
            walk fuel inumber nlinks cp component

/-- the numbers of blocks that the levels map: `mult *= NINDIR(fs)` -/
def levels (fs : Mem) : Nat → Int
  | 0 => sgn 32 (fs_nindir fs)
  | level + 1 => sgn 32 (levels fs level * fs_nindir fs)

/-- calculate indirect block levels -/
def setLevels : Prog Unit :=
  modify fun s =>
    { s with core :=
      { s.core with file :=
        { s.core.file with
          f_nindir := fun l => if l < NIADDR then levels s.core.fs l else s.core.file.f_nindir l } } }

def ufs_open (fuel : Nat) (path : List UInt8) : Prog Int := do
  if path = [] then pure (-1)
  else do
    let s ← get
    let p ← lift (alloc M (fs_bsize s.core.fs))
    modify fun s => { s with core := s.core.setBuf (M.ram p), namebuf := strcpy s.namebuf 0 path }
    let r ← lift (read_inode M ROOTINO)
    if r < 0 then pure (-1)
    else do
      let component ← strtok (some 0)
      match ← walk M fuel ROOTINO 0 none component with
      | some e => pure e
      | none => do
        setLevels
        pure 0

def ufs_bread (blkno : Int) (nblks : Nat) : Prog (Int × List UInt8) := breadi M blkno nblks

/-- nothing is open that `ufs_close` could close -/
def ufs_close : Prog Unit := pure ()

/-! ## mounting -/

/-- the table of open files, cleared -/
def cleared : Entry where
  i_ic _ := 0
  f_nindir _ := 0
  f_blk _ := none
  f_blkno _ := 0
  f_buf := M.ram 0

def ufs_mount (cons_dev p_offset : Int) : Prog Int := do
  modify fun s =>
    { s with
      core := { s.core with file := cleared M, dev := cons_dev, partition_offset := p_offset }
      calls := [] }
  let r ← lift (cons_read M SBSIZE (SBLOCK * DEV_BSIZE + p_offset))
  modify fun s => { s with core := { s.core with fs := s.core.fs.put 0 r.data } }
  if r.ret ≠ SBSIZE then pure (-1)
  else do
    let s ← get
    if fs_magic s.core.fs ≠ FS_MAGIC ∨ MAXBSIZE < fs_bsize s.core.fs ∨
        fs_bsize s.core.fs < sizeof_fs then pure (-1)
    else pure 0

/-- what the boot loader does with a mounted file system -/
inductive Op where
  | open (path : List UInt8)
  | bread (blkno : Int) (nblks : Nat)
  | close

/-- the program of an operation -/
def Op.prog (fuel : Nat) : Op → Prog Unit
  | .open path => do
    let _ ← ufs_open M fuel path
    pure ()
  | .bread blkno nblks => do
    let _ ← ufs_bread M blkno nblks
    pure ()
  | .close => ufs_close

/-- the state after an operation, however it is left -/
def step (fuel : Nat) (s : State) (op : Op) : State :=
  match op.prog M fuel s with
  | .ok _ t => t
  | .error _ t => t

end

end Ufs
