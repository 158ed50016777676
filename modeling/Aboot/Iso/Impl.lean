import Aboot.Lib.Prog
import Aboot.Machine

/-!
# lib/isolib.c: the ISO 9660 reader

The static variables of the file are the fields of `State`, with the device of fs/iso.c and the heap
pointer of utils.c.  A function of the source is a program on this state that has no result when the
source does not come back: a loop has not ended with the `fuel` it was given, a null pointer is
followed, or `malloc` takes its error path, a `longjmp`.

An inode pointer is an index of `inode_table`.  A directory record, a system-use entry and a
component of a link are positions in a memory.  The messages, `i_file_format` and the fields of the
superblock that only messages use are left out; `s_mode` is the constant that `iso_read_super` sets.
`log` records the device reads; nothing in the source depends on it, but that the reads are numbered.

What the stack holds where a function has an array that it does not clear is `stack` of `Env`, by the
number of device reads so far.
-/

namespace Iso
open Word

abbrev MAX_OPEN_FILES : Nat := 5
def ISOFS_BLOCK_BITS : Nat := 11
def ISOFS_BLOCK_SIZE : Nat := 2048
def ISO_VD_PRIMARY : Nat := 1
def HS_STANDARD_ID : List UInt8 := "CDROM".toList.map Char.toUInt8
def ISO_STANDARD_ID : List UInt8 := "CD001".toList.map Char.toUInt8
def sizeof_iso_directory_record : Nat := 33
def S_IFDIR : Nat := 0o040000
def S_IFREG : Nat := 0o100000
def S_IRUGO : Nat := 0o444
def S_IXUGO : Nat := 0o111

def S_ISDIR (mode : Int) : Bool := uns 32 mode &&& 0o170000 = 0o040000
def S_ISLNK (mode : Int) : Bool := uns 32 mode &&& 0o170000 = 0o120000

/-- the machine, and what is left on its stack -/
structure Env extends Machine where
  stack : Nat → Mem

/-! ## on-disk structures -/

def isonum_711 (m : Mem) (p : Nat) : Nat := (m p).toNat
def isonum_723 (m : Mem) (p : Nat) : Nat := m.le16 p
def isonum_733 (m : Mem) (p : Nat) : Int := sgn 32 (m.le32 p)

/-- the fields of a directory record -/
def de_length (m : Mem) (de : Nat) : Nat := isonum_711 m de
def de_ext_attr_length (m : Mem) (de : Nat) : Nat := isonum_711 m (de + 1)
def de_extent (m : Mem) (de : Nat) : Int := isonum_733 m (de + 2)
def de_size (m : Mem) (de : Nat) : Int := isonum_733 m (de + 10)
def de_flags (m : Mem) (de high_sierra : Nat) : Nat := (m (de + 25 - high_sierra)).toNat
def de_interleave (m : Mem) (de : Nat) : Nat := isonum_711 m (de + 27)
def de_name_len (m : Mem) (de : Nat) : Nat := isonum_711 m (de + 32)
/-- where the name of a record starts -/
def de_name (de : Nat) : Nat := de + 33

/-- the fields of a system-use entry -/
def rr_sig (m : Mem) (rr : Nat) : UInt8 × UInt8 := (m rr, m (rr + 1))
def rr_len (m : Mem) (rr : Nat) : Nat := (m (rr + 2)).toNat
/-- the first byte after the header: the flags of RR, SL and NM, the magic of SP -/
def rr_flags (m : Mem) (rr : Nat) : Nat := (m (rr + 4)).toNat
def SP_magic (m : Mem) (rr : Nat) : UInt8 × UInt8 := (m (rr + 4), m (rr + 5))
def PX_mode (m : Mem) (rr : Nat) : Int := isonum_733 m (rr + 4)
def PX_n_links (m : Mem) (rr : Nat) : Int := isonum_733 m (rr + 12)
/-- where the components of SL start, and where the name of NM starts -/
def rr_body (rr : Nat) : Nat := rr + 5

/-- the fields of a component of a link -/
def slp_flags (m : Mem) (slp : Nat) : Nat := (m slp).toNat
def slp_len (m : Mem) (slp : Nat) : Nat := (m (slp + 1)).toNat
def slp_text (slp : Nat) : Nat := slp + 2

def RR_PX : Nat := 1
def RR_SL : Nat := 4
def RR_NM : Nat := 8
def RR_CL : Nat := 16
def RR_TF : Nat := 128

/-- the two letters of a signature -/
def SIG (a b : Char) : UInt8 × UInt8 := (a.toUInt8, b.toUInt8)

/-! ## the static variables -/

/-- an index of `inode_table`: a `struct iso_inode *`, or a file descriptor -/
abbrev Slot := Fin MAX_OPEN_FILES

structure Entry where
  i_first_extent : Nat
  i_backlink : Nat
  inumber : Int
  free : Bool
  size : Nat
  nlink : Int
  mode : Int

structure SuperBlock where
  s_firstdatazone : Int
  s_log_zone_size : Nat
  s_high_sierra : Nat
  s_mapping : UInt8
  s_rock : Bool
  s_cruft : UInt8
  s_blocksize : Nat
  s_blocksize_bits : Nat
  s_unhide : UInt8

/-- one device read -/
structure Read where
  count : Int
  offset : Int
  ret : Int

structure State where
  inode_table : Slot → Entry
  root_inode : Int
  sb : SuperBlock
  data_block : Mem
  big_data_block : Mem
  blockoffset : Nat
  diroffset : Nat
  cd_device : Int
  free_mem_ptr : Nat
  log : List Read

namespace State

def setEntry (i : Slot) (e : Entry) (s : State) : State :=
  { s with inode_table := Function.update s.inode_table i e }

end State
open State

/-! ## the device and the heap -/

/-- `iso_dev_read`: what the read returned and stored -/
def iso_dev_read (E : Env) (offset size : Int) : Prog State ReadRes :=
  modifyGet fun s =>
    let r := E.read s.log.length s.cd_device size offset
    (r, { s with log := s.log ++ [⟨size, offset, r.ret⟩] })

/-- `malloc`, of which the memory at the new block is seen -/
def alloc (E : Env) (size : Int) : Prog State Mem := do
  let s ← get
  let p := malloc E.clusters s.free_mem_ptr (uns 64 size)
  if out_of_memory p then failure
  else do
    modify fun s => { s with free_mem_ptr := p }
    pure (E.ram p)

/-- a block of the device is read into `data_block` -/
def readBlock (E : Env) (block : Int) : Prog State Bool := do
  let s ← get
  let r ← iso_dev_read E (uns 32 (block * s.sb.s_blocksize)) s.sb.s_blocksize
  modify fun s => { s with data_block := s.data_block.put 0 r.data }
  pure (decide (r.ret = s.sb.s_blocksize))

/-! ## strings -/

/-- the end of a string: the first NUL -/
def strEnd (m : Mem) : (fuel : Nat) → (p : Nat) → Prog State Nat
  | 0, _ => failure
  | fuel + 1, p => if m p = 0 then pure p else strEnd m fuel (p + 1)

/-- the bytes that the loop of `strncat` stores: it ends with a NUL of the source, or when the count
is used up, and then nothing ends the string -/
def ncat (m : Mem) : (fuel : Nat) → (src count : Nat) → Prog State (List UInt8)
  | _, _, 0 => pure []
  | 0, _, _ => failure
  | fuel + 1, src, count + 1 =>
    if m src = 0 then pure [0]
    else do
      let l ← ncat m fuel (src + 1) count
      pure (m src :: l)

/-- `strncat` of lib/string.c -/
def strncat (fuel : Nat) (dest m : Mem) (src count : Nat) : Prog State Mem :=
  if count = 0 then pure dest
  else do
    let e ← strEnd dest fuel 0
    let l ← ncat m fuel src count
    pure (dest.put e l)

/-- `strcat` of a literal -/
def strcat (fuel : Nat) (dest : Mem) (src : List UInt8) : Prog State Mem := do
  let e ← strEnd dest fuel 0
  pure (dest.put e (src ++ [0]))

/-- the string at a position -/
def cstr (m : Mem) (fuel p : Nat) : Prog State (List UInt8) := do
  let e ← strEnd m fuel p
  pure (m.get p (e - p))

/-! ## Rock Ridge -/

/-- the continuation area that a CE entry names; no extent, no area -/
structure Cont where
  extent : Int
  offset : Int
  size : Int

def noCont : Cont := ⟨0, 0, 0⟩

/-- `CHECK_CE` -/
def checkCE (m : Mem) (rr : Nat) : Cont :=
  ⟨isonum_733 m (rr + 4), isonum_733 m (rr + 12), isonum_733 m (rr + 20)⟩

/-- `SETUP_ROCK_RIDGE`: where the system-use area of a record starts -/
def setupLen (m : Mem) (de : Nat) : Nat :=
  let len := sizeof_iso_directory_record + de_name_len m de
  if len % 2 = 1 then len + 1 else len

/-- how a loop over entries goes on: `goto out`, or the next entry -/
inductive Flow (α : Type) where
  | next (a : α)
  | out (a : α)

/-- the loop over the entries of an area; an entry of length 0 ends it, with `zero` -/
def walkArea {α : Type} (zero : α → Flow α) (step : Mem → Nat → α → Prog State (Flow α)) (m : Mem) :
    (fuel : Nat) → (chr : Nat) → (len : Int) → α → Prog State (Flow α)
  | 0, _, _, a => pure (.next a)
  | fuel + 1, chr, len, a =>
    if len ≤ 1 then pure (.next a)
    else if rr_len m chr = 0 then pure (zero a)
    else do
      match ← step m chr a with
      | .out a => pure (.out a)
      | .next a => walkArea zero step m fuel (chr + rr_len m chr) (len - rr_len m chr) a

/-- `MAYBE_CONTINUE`: the continuation area, if there is one and it can be read -/
def maybeContinue (E : Env) (c : Cont) : Prog State (Option Mem) :=
  if c.extent = 0 then pure none
  else do
    let buffer ← alloc E c.size
    let r ← iso_dev_read E (sgn 32 (c.extent * ISOFS_BLOCK_SIZE + c.offset)) c.size
    pure (if r.ret = c.size then some (buffer.put 0 r.data) else none)

/-- an area and the continuation areas that follow it; every entry is handled by `step` -/
def walkAreas {α : Type} (E : Env) (cont : α → Cont) (clear : α → α)
    (step : Mem → Nat → α → Prog State (Flow α)) :
    (fuel : Nat) → (m : Mem) → (chr : Nat) → (len : Int) → α → Prog State (Flow α)
  | 0, _, _, _, _ => failure
  | fuel + 1, m, chr, len, a => do
    match ← walkArea Flow.out step m len.toNat chr len a with
    | .out a => pure (.out a)
    | .next a =>
      match ← maybeContinue E (cont a) with
      | none => pure (.next a)
      | some buffer => walkAreas E cont clear step fuel buffer 0 (cont a).size (clear a)

/-! ### the inode -/

/-- what `parse_rock_ridge_inode` sets -/
structure Parsed where
  mode : Int
  nlink : Int
  size : Nat
  symlink_len : Nat
  cont : Cont

/-- the characters that a component of a link adds -/
def slpSize (m : Mem) (slp : Nat) : Nat :=
  match slp_flags m slp &&& 0xfe with
  | 0 => slp_len m slp
  | 2 => 1
  | 4 => 2
  | 8 => 1
  | _ => 0

/-- whether a slash follows a component that is not the last one of its entry -/
def slashAfter (m : Mem) (slp : Nat) : Bool :=
  slp_flags m slp &&& 0xfe ≠ 8 ∧ slp_flags m slp &&& 1 = 0

/-- whether a slash follows the last component of the entry `rr` -/
def slashEnd (m : Mem) (rr slp : Nat) : Bool := rr_flags m rr &&& 1 ≠ 0 ∧ slp_flags m slp &&& 1 = 0

/-- the loop over the components of an SL entry that adds up the size, an `unsigned` -/
def slLen (m : Mem) (rr : Nat) : (fuel : Nat) → (slen : Int) → (slp size : Nat) → Nat
  | 0, _, _, size => size
  | fuel + 1, slen, slp, size =>
    if slen ≤ 1 then size
    else
      let size := uns 32 (size + slpSize m slp : Nat)
      if slen - (slp_len m slp + 2) < 2 then
        if slashEnd m rr slp then uns 32 (size + 1 : Nat) else size
      else
        slLen m rr fuel (slen - (slp_len m slp + 2)) (slp + slp_len m slp + 2)
          (if slashAfter m slp then uns 32 (size + 1 : Nat) else size)

/-- `CHECK_SP` -/
def checkSP (m : Mem) (rr : Nat) : Bool := SP_magic m rr = (0xbe, 0xef)

/-- one entry, for the inode -/
def parseStep (m : Mem) (rr : Nat) (a : Parsed) : Prog State (Flow Parsed) :=
  pure (
    if rr_sig m rr = SIG 'R' 'R' then
      if rr_flags m rr &&& (RR_PX ||| RR_TF ||| RR_SL ||| RR_CL) = 0 then .out a else .next a
    else if rr_sig m rr = SIG 'S' 'P' then if checkSP m rr then .next a else .out a
    else if rr_sig m rr = SIG 'C' 'E' then .next { a with cont := checkCE m rr }
    else if rr_sig m rr = SIG 'P' 'X' then
      .next { a with mode := PX_mode m rr, nlink := PX_n_links m rr }
    else if rr_sig m rr = SIG 'S' 'L' then
      .next { a with
        size := slLen m rr (rr_len m rr) (rr_len m rr - 5) (rr_body rr) a.symlink_len
        symlink_len := slLen m rr (rr_len m rr) (rr_len m rr - 5) (rr_body rr) a.symlink_len }
    else if rr_sig m rr = SIG 'R' 'E' then .out a
    else .next a)

def clearParsed (a : Parsed) : Parsed := { a with cont := noCont }

/-- `parse_rock_ridge_inode` of the record `de` in `m`: mode, link count and size after it -/
def parse_rock_ridge_inode (E : Env) (fuel : Nat) (m : Mem) (de : Nat) (mode nlink : Int) (size : Nat) :
    Prog State Parsed := do
  let s ← get
  if s.sb.s_rock then
    match ← walkAreas E Parsed.cont clearParsed parseStep fuel m (de + setupLen m de)
        ((de_length m de : Int) - setupLen m de) ⟨mode, nlink, size, 0, noCont⟩ with
    | .out a => pure a
    | .next a => pure a
  else pure ⟨mode, nlink, size, 0, noCont⟩

/-! ### the text of a link -/

/-- the link text so far, and the continuation area -/
structure Link where
  rpnt : Option Mem
  cont : Cont

/-- one component is appended -/
def slpText (fuel : Nat) (rpnt m : Mem) (slp : Nat) : Prog State Mem :=
  match slp_flags m slp &&& 0xfe with
  | 0 => strncat fuel rpnt m (slp_text slp) (slp_len m slp)
  | 2 => strcat fuel rpnt ['.'.toUInt8]
  | 4 => strcat fuel rpnt ['.'.toUInt8, '.'.toUInt8]
  | 8 => strcat fuel rpnt ['/'.toUInt8]
  | _ => pure rpnt

/-- a slash is appended under a condition -/
def slash (fuel : Nat) (c : Bool) (rpnt : Mem) : Prog State Mem :=
  if c then strcat fuel rpnt ['/'.toUInt8] else pure rpnt

/-- the buffer of the text, of `size + 1` bytes, is allocated for the first component -/
def linkBuffer (E : Env) (size : Nat) : Option Mem → Prog State Mem
  | some rpnt => pure rpnt
  | none => do
    let buffer ← alloc E (uns 32 (size + 1 : Nat))
    pure (buffer.put 0 [0])

/-- the loop over the components of an SL entry that appends their texts -/
def slText (E : Env) (depth size : Nat) (m : Mem) (rr : Nat) :
    (fuel : Nat) → (slen : Int) → (slp : Nat) → Option Mem → Prog State (Option Mem)
  | 0, _, _, rpnt => pure rpnt
  | fuel + 1, slen, slp, rpnt =>
    if slen ≤ 1 then pure rpnt
    else do
      let rpnt ← linkBuffer E size rpnt
      let rpnt ← slpText depth rpnt m slp
      if slen - (slp_len m slp + 2) < 2 then do
        let rpnt ← slash depth (slashEnd m rr slp) rpnt
        pure (some rpnt)
      else do
        let rpnt ← slash depth (slashAfter m slp) rpnt
        slText E depth size m rr fuel (slen - (slp_len m slp + 2)) (slp + slp_len m slp + 2)
          (some rpnt)

/-- one entry, for the text of a link -/
def linkStep (E : Env) (depth size : Nat) (m : Mem) (rr : Nat) (a : Link) : Prog State (Flow Link) :=
  if rr_sig m rr = SIG 'R' 'R' then
    pure (if rr_flags m rr &&& RR_SL = 0 then .out a else .next a)
  else if rr_sig m rr = SIG 'S' 'P' then pure (if checkSP m rr then .next a else .out a)
  else if rr_sig m rr = SIG 'S' 'L' then do
    let rpnt ← slText E depth size m rr (rr_len m rr) (rr_len m rr - 5) (rr_body rr) a.rpnt
    pure (.next { a with rpnt := rpnt })
  else if rr_sig m rr = SIG 'C' 'E' then pure (.next { a with cont := checkCE m rr })
  else pure (.next a)

def clearLink (a : Link) : Link := { a with cont := noCont }

/-- `get_rock_ridge_symlink`: the memory of the text, or none -/
def get_rock_ridge_symlink (E : Env) (fuel : Nat) (i : Slot) : Prog State (Option Mem) := do
  let s ← get
  if s.sb.s_rock then do
    let block := (s.inode_table i).inumber / 2 ^ ISOFS_BLOCK_BITS
    let blockoffset := uns 32 (s.inode_table i).inumber % ISOFS_BLOCK_SIZE
    let buf ← alloc E ISOFS_BLOCK_SIZE
    let r ← iso_dev_read E (sgn 32 (block * 2 ^ ISOFS_BLOCK_BITS)) ISOFS_BLOCK_SIZE
    let buf := buf.put 0 r.data
    if r.ret ≠ ISOFS_BLOCK_SIZE then pure none
    else if ISOFS_BLOCK_SIZE < blockoffset + de_length buf blockoffset then pure none
    else do
      match ← walkAreas E Link.cont clearLink (linkStep E fuel (s.inode_table i).size) fuel buf
          (blockoffset + setupLen buf blockoffset)
          ((de_length buf blockoffset : Int) - setupLen buf blockoffset) ⟨none, noCont⟩ with
      | .out _ => pure none
      | .next a => pure a.rpnt
  else pure none

/-! ### the name -/

/-- the name so far, its counted length, whether it was cut, and the continuation area -/
structure Name where
  retname : Mem
  retnamlen : Int
  truncate : Bool
  cont : Cont

/-- an NM entry: the name is appended, cut at 254 characters -/
def nameAppend (fuel : Nat) (m : Mem) (rr : Nat) (a : Name) : Prog State Name := do
  let strlen ← strEnd a.retname fuel 0
  if 254 ≤ uns 64 ((strlen : Int) + rr_len m rr - 5) then do
    let i := sgn 32 (254 - strlen)
    let retname ← strncat fuel a.retname m (rr_body rr) (uns 64 i)
    pure { a with retname := retname, retnamlen := a.retnamlen + i, truncate := true }
  else do
    let retname ← strncat fuel a.retname m (rr_body rr) (uns 64 ((rr_len m rr : Int) - 5))
    pure { a with retname := retname, retnamlen := a.retnamlen + rr_len m rr - 5 }

/-- one entry, for the name -/
def nameStep (fuel : Nat) (m : Mem) (rr : Nat) (a : Name) : Prog State (Flow Name) :=
  if rr_sig m rr = SIG 'R' 'R' then
    pure (if rr_flags m rr &&& RR_NM = 0 then .out a else .next a)
  else if rr_sig m rr = SIG 'S' 'P' then pure (if checkSP m rr then .next a else .out a)
  else if rr_sig m rr = SIG 'C' 'E' then pure (.next { a with cont := checkCE m rr })
  else if rr_sig m rr = SIG 'N' 'M' then
    if a.truncate ∨ rr_flags m rr &&& 6 ≠ 0 ∨ rr_flags m rr &&& 0xfe ≠ 0 then pure (.next a)
    else do
      let a ← nameAppend fuel m rr a
      pure (.next a)
  else if rr_sig m rr = SIG 'R' 'E' then pure (.out a)
  else pure (.next a)

/-- the areas of a name: they go on at `cont_offset` of the buffer, which was read from there (an
offset below 0 is taken as 0) -/
def nameAreas (E : Env) (depth : Nat) :
    (fuel : Nat) → (m : Mem) → (chr : Nat) → (len : Int) → Name → Prog State (Flow Name)
  | 0, _, _, _, _ => failure
  | fuel + 1, m, chr, len, a => do
    match ← walkArea Flow.next (nameStep depth) m len.toNat chr len a with
    | .out a => pure (.out a)
    | .next a =>
      if a.cont.extent = 0 then pure (.next a)
      else
        match ← maybeContinue E a.cont with
        | none => pure (.out a)
        | some buffer =>
          nameAreas E depth fuel buffer a.cont.offset.toNat a.cont.size { a with cont := noCont }

/-- `get_rock_ridge_filename` of the record `de` in `m`: the length, 0 for no name, and `retname` -/
def get_rock_ridge_filename (E : Env) (fuel : Nat) (m : Mem) (de : Nat) : Prog State (Int × Mem) := do
  let s ← get
  let retname := E.stack s.log.length
  if s.sb.s_rock then
    match ← nameAreas E fuel fuel m (de + setupLen m de) ((de_length m de : Int) - setupLen m de)
        ⟨retname.put 0 [0], 0, false, noCont⟩ with
    | .out a => pure (0, a.retname)
    | .next a => pure (a.retnamlen, a.retname)
  else pure (0, retname)

/-! ## inodes -/

/-- `iso_bmap` -/
def iso_bmap (s : State) (i : Slot) (block : Int) : Int :=
  if block < 0 then 0
  else sgn 32 ((s.inode_table i).i_first_extent / 2 ^ s.sb.s_blocksize_bits + block)

/-- the number of blocks to read: a request that ends past the file is cut to its end -/
def clampBlks (s : State) (i : Slot) (blkno nblks : Int) : Int :=
  if ((s.inode_table i).size : Int) < sgn 64 ((blkno + nblks) * s.sb.s_blocksize) then
    Int.tdiv ((s.inode_table i).size + s.sb.s_blocksize) s.sb.s_blocksize - blkno
  else nblks

/-- `iso_breadi`: the value returned and the bytes stored in the buffer -/
def iso_breadi (E : Env) (i : Slot) (blkno nblks : Int) : Prog State (Int × List UInt8) := do
  let s ← get
  if (s.inode_table i).i_first_extent = 0 then pure (-1, [])
  else if iso_bmap s i (sgn 32 blkno) = 0 then pure (-1, [])
  else do
    let r ← iso_dev_read E (iso_bmap s i (sgn 32 blkno) * s.sb.s_blocksize)
      (clampBlks s i blkno nblks * s.sb.s_blocksize)
    pure (sgn 32 r.ret, r.data)

def iso_bread (E : Env) (fd : Slot) (blkno nblks : Int) : Prog State (Int × List UInt8) :=
  iso_breadi E fd blkno nblks

def iso_iput (i : Slot) : Prog State Unit :=
  modify fun s => s.setEntry i { s.inode_table i with inumber := 0, free := true }

/-- the first free entry of the inode table -/
def freeSlot (s : State) : Option Slot :=
  (List.finRange MAX_OPEN_FILES).find? fun i => (s.inode_table i).free

/-- the record of an inode: in `data_block`, or put together in `big_data_block` when it goes on in
the next block; none if a block cannot be read -/
def rawInode (E : Env) (ino : Int) : Prog State (Option (Mem × Nat)) := do
  let s ← get
  let block := ino / 2 ^ s.sb.s_blocksize_bits
  let offset := uns 32 ino &&& (s.sb.s_blocksize - 1)
  let ok ← readBlock E block
  if ok then do
    let s ← get
    let len := de_length s.data_block offset
    if s.sb.s_blocksize < offset + len then do
      let frag1 := s.sb.s_blocksize - offset
      modify fun s => { s with
        big_data_block := s.big_data_block.put 0 (s.data_block.get offset frag1) }
      let ok ← readBlock E (block + 1)
      if ok then do
        modify fun s => { s with
          big_data_block := s.big_data_block.put frag1
            (s.data_block.get 0 (offset + len - s.sb.s_blocksize)) }
        let s ← get
        pure (some (s.big_data_block, 0))
      else pure none
    else pure (some (s.data_block, offset))
  else pure none

/-- a name without a period before its version: its file is executable -/
def executable (m : Mem) (de : Nat) : Bool :=
  let name := m.get (de_name de) (de_name_len m de)
  match name.find? fun c => c = '.'.toUInt8 ∨ c = ';'.toUInt8 with
  | none => true
  | some c => c = ';'.toUInt8

/-- the mode of a record -/
def recordMode (sb : SuperBlock) (m : Mem) (de : Nat) : Int :=
  if de_flags m de sb.s_high_sierra &&& 2 ≠ 0 then ((S_IRUGO ||| S_IXUGO ||| S_IFDIR : Nat) : Int)
  else ((S_IRUGO ||| S_IFREG ||| (if executable m de then S_IXUGO else 0) : Nat) : Int)

/-- a size above 700000000 turns on the option for broken disks -/
def cruft (sb : SuperBlock) (size : Nat) : SuperBlock :=
  if 700000000 < size ∧ sb.s_cruft = 'n'.toUInt8 then { sb with s_cruft := 'y'.toUInt8 } else sb

/-- the size of a record -/
def recordSize (sb : SuperBlock) (m : Mem) (de : Nat) : Nat :=
  let size := uns 32 (de_size m de)
  let size := if sb.s_cruft = 'y'.toUInt8 then size % 2 ^ 24 else size
  if de_interleave m de ≠ 0 then 0 else size

/-- where the file of a record starts -/
def recordExtent (sb : SuperBlock) (m : Mem) (de : Nat) : Nat :=
  uns 32 ((de_extent m de + de_ext_attr_length m de) * 2 ^ sb.s_log_zone_size)

/-- the entry `i` is filled from the record `de` in `m`, and taken -/
def fillInode (E : Env) (fuel : Nat) (i : Slot) (ino : Int) (m : Mem) (de : Nat) :
    Prog State Unit := do
  modify fun s => { s with sb := cruft s.sb (uns 32 (de_size m de)) }
  let s ← get
  let a ← parse_rock_ridge_inode E fuel m de (recordMode s.sb m de) 1 (recordSize s.sb m de)
  modify fun t => t.setEntry i
    { i_first_extent := recordExtent s.sb m de
      i_backlink := 0xffffffff
      inumber := ino
      free := false
      size := a.size
      nlink := a.nlink
      mode := a.mode }

/-- `iso_iget`, that does `nofree` if there is no free entry -/
def igetOr (nofree : Prog State (Option Slot)) (E : Env) (fuel : Nat) (ino : Int) :
    Prog State (Option Slot) := do
  let s ← get
  match freeSlot s with
  | none => nofree
  | some i =>
    match ← rawInode E ino with
    | none => pure none
    | some (m, de) => do
      fillInode E fuel i ino m de
      pure (some i)

/-- `iso_iget`: none without a free entry, or when the inode cannot be read -/
def iso_iget (E : Env) (fuel : Nat) (ino : Int) : Prog State (Option Slot) :=
  igetOr (pure none) E fuel ino

/-! ## looking up names -/

/-- a buffer with directory records -/
inductive Buf where
  | data | big
deriving DecidableEq

def State.buf (s : State) : Buf → Mem
  | .data => s.data_block
  | .big => s.big_data_block

def State.setBuf (s : State) (m : Mem) : Buf → State
  | .data => { s with data_block := m }
  | .big => { s with big_data_block := m }

/-- `iso_match` of `name` with the `dlen` characters at `compare` -/
def iso_match (name : List UInt8) (m : Mem) (compare : Nat) (dlen : Int) : Bool :=
  if dlen = 1 ∧ m compare = 0 then name = [] ∨ name = ['.'.toUInt8]
  else if dlen = 1 ∧ m compare = 1 then name = ['.'.toUInt8, '.'.toUInt8]
  else dlen = name.length ∧ m.get compare name.length = name

def toLower (c : UInt8) : UInt8 :=
  if 'A'.toUInt8 ≤ c ∧ c ≤ 'Z'.toUInt8 then c ||| 0x20 else c

/-- the loop that maps a name to lower case in place and drops its version; the length of the name -/
def mapName (p : Nat) : (n : Nat) → (i dlen : Nat) → Mem → Nat × Mem
  | 0, _, dlen, m => (dlen, m)
  | n + 1, i, dlen, m =>
    let c := toLower (m (p + i))
    if c = ';'.toUInt8 ∧ i + 2 = dlen ∧ m (p + i + 1) = '1'.toUInt8 then (dlen - 2, m)
    else mapName p n (i + 1) dlen (m.put (p + i) [if c = ';'.toUInt8 then '.'.toUInt8 else c])

/-- the name of the record `de` is put in its place: the Rock Ridge name, or the mapped one -/
def effectiveName (E : Env) (fuel : Nat) (b : Buf) (de namelen : Nat) : Prog State Int := do
  let s ← get
  let (dlen, retname) ← get_rock_ridge_filename E fuel (s.buf b) de
  if dlen ≠ 0 then do
    let name ← cstr retname fuel 0
    modify fun s => s.setBuf ((s.buf b).put (de_name de) (name ++ [0])) b
    pure dlen
  else
    let len := de_name_len (s.buf b) de
    if s.sb.s_mapping = 'n'.toUInt8 then do
      let r := mapName (de_name de) len 0 len (s.buf b)
      modify fun s => s.setBuf r.2 b
      pure (if r.2 (de_name de + r.1 - 1) = '.'.toUInt8 ∧ namelen + 1 = r.1 then (r.1 : Int) - 1
        else r.1)
    else pure len

/-- where `iso_find_entry` is: the block in `data_block`, the position in the directory and in it -/
structure Cursor where
  block : Int
  f_pos : Nat
  offset : Nat

/-- the block of a directory position is read into `data_block` -/
def readDirBlock (E : Env) (dir : Slot) (f_pos : Nat) : Prog State (Option Int × Bool) := do
  let s ← get
  let block := iso_bmap s dir (sgn 32 (f_pos / 2 ^ s.sb.s_blocksize_bits : Nat))
  if block = 0 then pure (none, false)
  else do
    let ok ← readBlock E block
    pure (some block, ok)

/-- the inode number and the back link of a record -/
def recordNumber (s : State) (dir : Slot) (m : Mem) (de inode_number : Nat) : Nat × Nat :=
  let itp := s.inode_table dir
  if m (de_name de) = 0 ∧ de_name_len m de = 1 then (uns 32 itp.inumber, 0)
  else if m (de_name de) = 1 ∧ de_name_len m de = 1 then
    if sgn 32 s.sb.s_firstdatazone ≠ itp.inumber then (recordExtent s.sb m de, 0)
    else (uns 32 itp.inumber, 0)
  else (inode_number, uns 32 itp.inumber)

/-- what a search comes to: the value returned, `*ino` and `*ino_back` -/
structure Found where
  ret : Int
  ino : Nat
  ino_back : Nat

/-- a record at `de` in `b`, that was read at `inode_number`: it is the one looked for, or not -/
def matchRecord (E : Env) (fuel : Nat) (dir : Slot) (name : List UInt8) (b : Buf)
    (de inode_number : Nat) : Prog State (Option Found) := do
  let s ← get
  let num := recordNumber s dir (s.buf b) de inode_number
  let dlen ← effectiveName E fuel b de name.length
  let s ← get
  if (de_flags (s.buf b) de s.sb.s_high_sierra &&& 5 = 0 ∨ s.sb.s_unhide = 'y'.toUInt8) ∧
      iso_match name (s.buf b) (de_name de) dlen then
    pure (some (if sgn 32 num.1 = -1 then ⟨-1, 0, 0⟩ else ⟨0, num.1, num.2⟩))
  else pure none

/-- the loop over the records of a directory; a block that cannot be read in the middle of a record
is reported as success, with the inode number 0 -/
def findLoop (E : Env) (depth : Nat) (dir : Slot) (name : List UInt8) :
    (fuel : Nat) → Cursor → Prog State Found
  | 0, _ => failure
  | fuel + 1, c => do
    let s ← get
    if (s.inode_table dir).size ≤ c.f_pos then pure ⟨-1, 0, 0⟩
    else
      let inode_number := uns 32 (c.block * 2 ^ s.sb.s_blocksize_bits
        + (c.offset &&& (s.sb.s_blocksize - 1) : Nat))
      let len := de_length s.data_block c.offset
      if len = 0 then do
        let f_pos := uns 32 (c.f_pos / ISOFS_BLOCK_SIZE * ISOFS_BLOCK_SIZE + ISOFS_BLOCK_SIZE : Nat)
        match ← readDirBlock E dir f_pos with
        | (some block, true) => findLoop E depth dir name fuel ⟨block, f_pos, 0⟩
        | _ => pure ⟨-1, 0, 0⟩
      else
        let f_pos := uns 32 (c.f_pos + len : Nat)
        if c.offset + len < s.sb.s_blocksize then do
          match ← matchRecord E depth dir name .data c.offset inode_number with
          | some r => pure r
          | none => findLoop E depth dir name fuel ⟨c.block, f_pos, c.offset + len⟩
        else do
          let frag1 := s.sb.s_blocksize - c.offset
          let offset := f_pos &&& (s.sb.s_blocksize - 1)
          modify fun s => { s with
            big_data_block := s.big_data_block.put 0 (s.data_block.get c.offset frag1) }
          match ← readDirBlock E dir f_pos with
          | (none, _) => pure ⟨-1, 0, 0⟩
          | (some _, false) => pure ⟨0, 0, 0⟩
          | (some block, true) => do
            modify fun s => { s with
              big_data_block := s.big_data_block.put frag1 (s.data_block.get 0 offset) }
            match ← matchRecord E depth dir name .big 0 inode_number with
            | some r => pure r
            | none => findLoop E depth dir name fuel ⟨block, f_pos, offset⟩

def iso_find_entry (E : Env) (fuel : Nat) (dir : Slot) (name : List UInt8) : Prog State Found := do
  let s ← get
  if (s.inode_table dir).i_first_extent = 0 then pure ⟨-1, 0, 0⟩
  else
    match ← readDirBlock E dir 0 with
    | (some block, true) => findLoop E fuel dir name fuel ⟨block, 0, 0⟩
    | _ => pure ⟨-1, 0, 0⟩

/-! The functions that look up a path are over the function `iget` that gets an inode, which is
`iso_iget` in `iso_open`. -/

section
variable (iget : Int → Prog State (Option Slot))

/-- the directories on the way are opened one after the other; a missing one is not released -/
def lookupDirs (E : Env) (fuel : Nat) : List (List UInt8) → Slot → Prog State (Option Slot)
  | [], dir => pure (some dir)
  | c :: cs, dir => do
    let r ← iso_find_entry E fuel dir c
    if r.ret ≠ 0 then pure none
    else do
      iso_iput dir
      match ← iget (sgn 32 r.ino) with
      | none => pure none
      | some dir => lookupDirs E fuel cs dir

/-- the last component of a name is looked up in `dir` -/
def lookupLast (E : Env) (fuel : Nat) (c : List UInt8) (dir : Slot) : Prog State (Option Slot) := do
  let r ← iso_find_entry E fuel dir c
  if r.ret ≠ 0 then do
    iso_iput dir
    pure none
  else do
    match ← iget (sgn 32 r.ino) with
    | none => do
      iso_iput dir
      pure none
    | some result => do
      modify fun s => s.setEntry result { s.inode_table result with i_backlink := r.ino_back }
      iso_iput dir
      pure (some result)

/-- the components of a name: the directories on the way, and the last one -/
def components (name : List UInt8) : List (List UInt8) := name.splitOnP (· == '/'.toUInt8)

def iso_lookup (E : Env) (fuel : Nat) (dir : Slot) (name : List UInt8) : Prog State (Option Slot) := do
  let s ← get
  if S_ISDIR (s.inode_table dir).mode then do
    match ← lookupDirs iget E fuel (components name).dropLast dir with
    | none => pure none
    | some dir => lookupLast iget E fuel ((components name).getLastD []) dir
  else do
    iso_iput dir
    pure none

/-- `strrchr` of lib/string.c: the last position from 1 on -/
def strrchr (s : List UInt8) (c : UInt8) : Option Nat :=
  (List.range s.length).reverse.find? fun k => 1 ≤ k ∧ s[k]? = some c

/-- a relative link is resolved in the directory part of `basename` -/
def resolve (basename linkto : List UInt8) : List UInt8 :=
  if linkto.head? = some '/'.toUInt8 then linkto
  else
    match strrchr basename '/'.toUInt8 with
    | some k => basename.take (k + 1) ++ linkto
    | none => linkto

/-- `iso_follow_link`: the root is taken first; an early return does not release it -/
def iso_follow_link (E : Env) (fuel : Nat) (i : Slot) (basename : List UInt8) :
    Prog State (Option Slot) := do
  let s ← get
  let root ← iget (sgn 32 s.root_inode)
  let s ← get
  if ¬ S_ISLNK (s.inode_table i).mode then pure none
  else if (s.inode_table i).size = 0 then pure none
  else do
    match ← get_rock_ridge_symlink E fuel i with
    | none => pure none
    | some rpnt => do
      let linkto ← cstr (rpnt.put (s.inode_table i).size [0]) fuel 0
      match root with
      | none => failure
      | some root => do
        let result ← iso_lookup iget E fuel root (resolve basename linkto)
        iso_iput root
        pure result

/-- the loop of `iso_open` that follows symbolic links -/
def followLinks (E : Env) (depth : Nat) (filename : List UInt8) :
    (fuel : Nat) → Option Slot → Prog State (Option Slot)
  | _, none => pure none
  | 0, some _ => failure
  | fuel + 1, some i => do
    let s ← get
    if S_ISLNK (s.inode_table i).mode then do
      let r ← iso_follow_link iget E depth i filename
      iso_iput i
      followLinks E depth filename fuel r
    else pure (some i)

/-- `iso_open` with any `iget` -/
def openWith (E : Env) (fuel : Nat) (filename : List UInt8) : Prog State (Option Slot) := do
  let s ← get
  match ← iget (sgn 32 s.root_inode) with
  | none => pure none
  | some root => do
    let r ← iso_lookup iget E fuel root filename
    followLinks iget E fuel filename fuel r

end

/-- `iso_open`: a file descriptor, or `none` for -1 -/
def iso_open (E : Env) (fuel : Nat) (filename : List UInt8) : Prog State (Option Slot) :=
  openWith (iso_iget E fuel) E fuel filename

def iso_close (fd : Slot) : Prog State Unit := iso_iput fd

/-! ## mounting -/

/-- the root directory record and the zone size of a primary descriptor in `data_block` -/
structure Volume where
  high_sierra : Bool
  logical_block_size : Nat
  rootp : Nat

/-- what a block of the volume descriptors is: the primary one, none that ends the search, or
another one -/
def descriptor (m : Mem) : Option (Option Volume) :=
  if m.get 9 5 = HS_STANDARD_ID then
    if isonum_711 m 8 ≠ ISO_VD_PRIMARY then some none
    else some (some ⟨true, isonum_723 m 136, 180⟩)
  else if m.get 1 5 = ISO_STANDARD_ID then
    if isonum_711 m 0 ≠ ISO_VD_PRIMARY then some none
    else some (some ⟨false, isonum_723 m 128, 156⟩)
  else none

/-- the search for the primary descriptor -/
def findVolume (E : Env) : (n : Nat) → (iso_blknum : Nat) → Prog State (Option Volume)
  | 0, _ => pure none
  | n + 1, iso_blknum => do
    let s ← get
    let r ← iso_dev_read E (iso_blknum * 2048 : Nat) s.sb.s_blocksize
    modify fun s => { s with data_block := s.data_block.put 0 r.data }
    if r.ret ≠ s.sb.s_blocksize then pure none
    else do
      let s ← get
      match descriptor s.data_block with
      | some v => pure v
      | none => findVolume E n (iso_blknum + 1)

/-- the zone size as a shift -/
def zoneShift (n : Nat) : Option Nat :=
  if n = 512 then some 9 else if n = 1024 then some 10 else if n = 2048 then some 11 else none

/-- the inode table and the block size of a new mount -/
def superStart (s : State) : State :=
  { s with
    inode_table := fun i => { s.inode_table i with free := true, inumber := 0 }
    sb := { s.sb with s_blocksize := 1024, s_blocksize_bits := 10, s_high_sierra := 0 } }

/-- the fields of the superblock of a volume with the zone shift `z` -/
def superEnd (v : Volume) (z : Nat) (s : State) : State :=
  let extent := sgn 32 (isonum_733 s.data_block (v.rootp + 2) * 2 ^ z)
  { s with
    root_inode := extent
    sb := { s.sb with
      s_high_sierra := if v.high_sierra then 1 else 0
      s_firstdatazone := extent
      s_log_zone_size := z
      s_mapping := 'n'.toUInt8
      s_rock := !v.high_sierra
      s_cruft := 'n'.toUInt8
      s_unhide := 'n'.toUInt8 } }

def iso_read_super (E : Env) : Prog State Int := do
  modify superStart
  match ← findVolume E 84 16 with
  | none => pure (-1)
  | some v =>
    match zoneShift v.logical_block_size with
    | none => pure (-1)
    | some z => do
      modify (superEnd v z)
      pure 0

/-- `iso_mount` of fs/iso.c -/
def iso_mount (E : Env) (cons_dev : Int) : Prog State Int := do
  modify fun s => { s with cd_device := cons_dev }
  iso_read_super E

end Iso
