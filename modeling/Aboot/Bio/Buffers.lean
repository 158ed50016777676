import Aboot.Lib.Mem
import Aboot.Lib.Word

/-!
# tools/bio.c: the block buffers of the ext2 writer

`bread`, `bwrite` and `bflush` keep the blocks used last in `NBUFS` buffers.  A buffer is written
back to the device when it is recycled for another block, or by `bflush`.  The data area of a
buffer is allocated when the buffer is first used; `none` stands for the null pointer, and a copy
from or to it has no result.

The device is the file open as `bio_fd`: its bytes and the position `lseek` leaves.  Its reads and
writes succeed.
-/

namespace Bio
open Word

abbrev NBUFS : Nat := 32

structure Buf where
  blkno : Int
  last_access : Int
  dirty : Bool
  data : Option (List UInt8)

structure State where
  bio_counter : Int
  bio_blocksize : Nat
  buflist : Fin NBUFS → Buf
  disk : Mem
  pos : Nat

/-! ## the device -/

/-- `lseek` to a negative offset fails and leaves the position alone -/
def lseek (off : Int) (s : State) : State :=
  if 0 ≤ off then { s with pos := off.toNat } else s

def write (d : List UInt8) (s : State) : State :=
  { s with disk := s.disk.put s.pos d, pos := s.pos + d.length }

def read (n : Nat) (s : State) : List UInt8 × State :=
  (s.disk.get s.pos n, { s with pos := s.pos + n })

/-- the `int` product that is passed to `lseek` -/
def offsetOf (s : State) (blkno : Int) : Int := sgn 32 (blkno * s.bio_blocksize)

/-! ## the buffers -/

def setBuf (i : Fin NBUFS) (b : Buf) (s : State) : State :=
  { s with buflist := Function.update s.buflist i b }

def binit (blocksize : Nat) (s : State) : State :=
  { s with
    bio_blocksize := blocksize
    buflist := fun _ => { blkno := 0, last_access := 0, dirty := false, data := none } }

/-- write a buffer out if it is dirty -/
def writeOut (i : Fin NBUFS) (s : State) : State :=
  if (s.buflist i).dirty then
    setBuf i { s.buflist i with dirty := false }
      (write (((s.buflist i).data.getD []).take s.bio_blocksize)
        (lseek (offsetOf s (s.buflist i).blkno) s))
  else s

def bflush (s : State) : State :=
  (List.finRange NBUFS).foldl (fun s i => writeOut i s) s

/-- the first buffer with this block number -/
def lookup (s : State) (blkno : Int) : Option (Fin NBUFS) :=
  (List.finRange NBUFS).find? fun i => (s.buflist i).blkno == blkno

/-- the first buffer with the lowest access count -/
def lowcount_buf (s : State) : Fin NBUFS :=
  (List.finRange NBUFS).tail.foldl
    (fun low i => if (s.buflist i).last_access < (s.buflist low).last_access then i else low) 0

/-- `buflist[i].last_access = ++bio_counter` -/
def bump (i : Fin NBUFS) (s : State) : State :=
  setBuf i { s.buflist i with last_access := sgn 32 (s.bio_counter + 1) }
    { s with bio_counter := sgn 32 (s.bio_counter + 1) }

/-- the recycled buffer takes over a block; `setData` allocates its data area if it has none -/
def assign (i : Fin NBUFS) (blkno : Int) (s : State) : State :=
  setBuf i { s.buflist i with blkno := blkno } s

/-- store into the data area of a buffer -/
def setData (i : Fin NBUFS) (d : List UInt8) (dirty : Bool) (s : State) : State :=
  setBuf i { s.buflist i with data := some d, dirty := dirty } s

/-- a block that is not in memory: the buffer used longest ago is written out and recycled -/
def recycle (blkno : Int) (s : State) : State :=
  assign (lowcount_buf s) blkno (writeOut (lowcount_buf s) s)

/-- read the block of the recycled buffer `i` into it -/
def fillBuf (i : Fin NBUFS) (blkno : Int) (s : State) : List UInt8 × State :=
  let r := read s.bio_blocksize (lseek (offsetOf s blkno) s)
  (r.1, bump i (setData i r.1 (s.buflist i).dirty r.2))

def bread (blkno : Int) (s : State) : Option (List UInt8 × State) :=
  match lookup s blkno with
  | some i =>
    match (s.buflist i).data with
    | none => none
    | some d => some (d.take s.bio_blocksize, bump i s)
  | none => some (fillBuf (lowcount_buf s) blkno (recycle blkno s))

def bwrite (blkno : Int) (blkbuf : List UInt8) (s : State) : Option State :=
  match lookup s blkno with
  | some i =>
    match (s.buflist i).data with
    | none => none
    | some _ => some (setData i (blkbuf.take s.bio_blocksize) true (bump i s))
  | none =>
    some (setData (lowcount_buf s) (blkbuf.take s.bio_blocksize) true
      (bump (lowcount_buf s) (recycle blkno s)))

/-! ## sequences of calls -/

inductive Op where
  | bread (blkno : Nat)
  | bwrite (blkno : Nat) (blkbuf : List UInt8)
  | bflush

/-- one call, with the block that it returns -/
def step (op : Op) (s : State) : Option (List (List UInt8) × State) :=
  match op with
  | .bread b => (bread b s).map fun r => ([r.1], r.2)
  | .bwrite b d => (bwrite b d s).map fun s' => ([], s')
  | .bflush => some ([], bflush s)

/-- a sequence of calls, with the blocks that its `bread`s return -/
def run : List Op → State → Option (List (List UInt8) × State)
  | [], s => some ([], s)
  | op :: ops, s =>
    match step op s with
    | none => none
    | some (d, s') => (run ops s').map fun r => (d ++ r.1, r.2)

/-! ## what the sequence means for a plain array of blocks -/

/-- the array after a call -/
def Op.apply (a : Nat → List UInt8) : Op → (Nat → List UInt8)
  | .bread _ => a
  | .bwrite b d => Function.update a b d
  | .bflush => a

/-- the latest data of every block -/
def latest (a : Nat → List UInt8) (ops : List Op) : Nat → List UInt8 := ops.foldl Op.apply a

/-- the blocks that the `bread`s of a sequence should return -/
def reads (a : Nat → List UInt8) : List Op → List (List UInt8)
  | [] => []
  | .bread b :: ops => a b :: reads a ops
  | op :: ops => reads (op.apply a) ops

/-- block numbers from 1 on, below the 2 GB limit of the `int` offset; whole blocks are written -/
def Op.ok (blocksize : Nat) : Op → Prop
  | .bread b => 1 ≤ b ∧ (b + 1) * blocksize ≤ 2147483648
  | .bwrite b d => 1 ≤ b ∧ (b + 1) * blocksize ≤ 2147483648 ∧ d.length = blocksize
  | .bflush => True

/-- the blocks of the device -/
def dblock (s : State) (b : Nat) : List UInt8 := s.disk.get (b * s.bio_blocksize) s.bio_blocksize

end Bio
