import Aboot.Net.Wrap
import Aboot.Lib.CString
import Aboot.Load.Impl

/-!
# net.c: the loader of a network boot image

The whole image is in memory, the header from the first multiple of 512 after the loader's own end
on.  `load_kernel` finds the parts, copies the initrd and then the kernel to the top of the free
memory, decompresses the kernel from there and settles the kernel's arguments.

A result `none` is a call that does not return: a `memcpy` of a negative length, a `longjmp` out of
the decompressor (nothing in net.c is there to catch it) or a prompt that nobody answers.
-/

set_option linter.unusedVariables false

namespace Net
open Word Netwrap

def BOOT_ADDR : Nat := 0x20000000

/-- `static char *src`: where `net_bread` reads -/
structure Fs where
  src : Nat
deriving DecidableEq, Repr

/-- the variables of net.c and of aboot.c that `load_kernel` uses -/
structure State where
  load : Load.State Fs
  kern_src : Nat
  ird_src : Nat
  header_size : Int
  kern_size : Int
  ird_size : Int
  boot_file : Mem
  kernel_args : Mem

namespace State

def mem (s : State) : Mem := s.load.mem

def free_mem_ptr (s : State) : Nat := s.load.elf.free_mem_ptr

def setFree (a : Nat) (s : State) : State :=
  { s with load := { s.load with elf := { s.load.elf with free_mem_ptr := a } } }

def setSrc (a : Nat) (s : State) : State := { s with load := { s.load with fs := ⟨a⟩ } }

/-- `memcpy(dest, src, n)` -/
def memcpy (dest src n : Nat) (s : State) : State :=
  { s with load := s.load.store dest (s.mem.get src n) }

end State

/-- an `int` of the header -/
def int (m : Mem) (a : Nat) : Int := sgn 32 (m.le32 a)

/-! ## net_bread, read_initrd -/

def blocksize : Int := 512

/-- `nbytes` bytes from `src` on, which then moves on -/
def copyFrom (nbytes : Int) (buf : Nat) (s : State) : Option (Int × State) :=
  if nbytes < 0 then none
  else some (nbytes, (s.memcpy buf s.load.fs.src nbytes.toNat).setSrc (uns 64 (s.load.fs.src + nbytes)))

/-- the number of bytes is an `int` -/
def net_bread (nblks : Int) (buf : Nat) (s : State) : Option (Int × State) :=
  copyFrom (sgn 32 (blocksize * nblks)) buf s

/-- the initrd's place is the new heap pointer, and its blocks are read there -/
def initrdAt (initrd_start initrd_size : Nat) (nblocks : Int) (s : State) : Option (Int × State) :=
  let s := { s with load := { s.load with
    initrd_start := initrd_start
    initrd_size := initrd_size } }
  match net_bread nblocks initrd_start (s.setFree initrd_start) with
  | none => none
  | some (_, s) => some (0, s)

def read_initrd (s : State) : Option (Int × State) :=
  initrdAt (uns 64 ((s.free_mem_ptr : Int) - align_pagesize (uns 64 s.ird_size)))
    (uns 64 s.ird_size) (sgn 32 (align_512 (uns 64 s.ird_size) / 512 : Nat)) s

/-! ## load_kernel -/

/-- the parts of the image, for a loader that ends at `end_` -/
def findParts (end_ : Nat) (s : State) : State :=
  let header := align_512 end_
  let header_size := int s.mem header
  let kern_src := align_512 (uns 64 (header + header_size))
  let kern_size := int s.mem (header + 4)
  let ird_src := align_512 (uns 64 (kern_src + kern_size))
  { s with
    header_size := header_size
    kern_src := kern_src
    kern_size := kern_size
    ird_src := ird_src
    ird_size := int s.mem (header + 8) }

/-- the heap starts at the end of memory, at a whole page -/
def pageFree (clusters : List Cluster) (s : State) : State :=
  s.setFree (Load.heapTop clusters s.free_mem_ptr &&& 0xffffffffffffe000)

def loadInitrd (s : State) : Option (Int × State) :=
  if s.ird_size ≠ 0 then read_initrd (s.setSrc s.ird_src) else some (0, s)

def network : List UInt8 := "network".toList.map Char.toUInt8

/-- the kernel moves to a safe place before it is decompressed -/
def moveKernel (s : State) : Option State :=
  let s := { s with boot_file := CString.strcpy s.boot_file 0 network }
  let src := uns 64 ((s.free_mem_ptr : Int) - align_pagesize (uns 64 s.kern_size))
  let s := (s.setSrc src).setFree src
  if s.kern_size < 0 then none else some (s.memcpy src s.kern_src s.kern_size.toNat)

/-- `load_kernel` up to the decompression -/
def unpack (clusters : List Cluster) (end_ : Nat) (s : State) : Option State :=
  (loadInitrd (pageFree clusters (findParts end_ s))).bind fun r => moveKernel r.2

/-- `strncpy` of string.c: up to and with the NUL, if there is one within `count` bytes -/
def strncpy (dest : Mem) (m : Mem) (a count : Nat) : Mem :=
  let str := CString.str count m a
  dest.put 0 (if str.length < count then str ++ [0] else str)

/-- the arguments in the header are used when there are no others -/
def takeArgs (end_ : Nat) (s : State) : State :=
  let boot_arg := align_512 end_ + 12
  if s.kernel_args 0 = 0 ∧ s.mem boot_arg ≠ 0 then
    { s with kernel_args := strncpy s.kernel_args s.mem boot_arg (uns 64 (s.header_size - 12)) }
  else s

/-- `getline` of utils.c, on the characters that are typed -/
def getline (maxlen : Nat) : List UInt8 → (len : Nat) → Mem → Option (Mem × List UInt8)
  | [], _, _ => none
  | c :: typed, len, buf =>
    if c = 13 ∨ c = 10 then some (buf.put len [0], typed)
    else if c = 0 then getline maxlen typed len buf
    else if c = 8 ∨ c = 127 then getline maxlen typed (len - 1) buf
    else if len < maxlen - 1 ∧ 32 ≤ c ∧ c < 128 then
      getline maxlen typed (len + 1) (buf.put len [c])
    else getline maxlen typed len buf

/-- the letter `i`, and nothing else -/
def interactive (args : Mem) : Prop := args 0 = 'i'.toUInt8 ∧ args 1 = 0

instance (args : Mem) : Decidable (interactive args) := inferInstanceAs (Decidable (_ ∧ _))

/-- the loop that asks for arguments; every line takes a character at least -/
def prompt : (fuel : Nat) → (args : Mem) → (typed : List UInt8) → Option Mem
  | 0, _, _ => none
  | fuel + 1, args, typed =>
    if interactive args then
      match getline 256 typed 0 args with
      | none => none
      | some (args, typed) => prompt fuel args typed
    else some args

/-- the decompression, and the bss cleared -/
def decompress (M : Machine) (inflate : Load.State Fs → Load.Inflated Fs) (s : State) : Option State :=
  match Load.uncompress_kernel M (fun (_ : Unit) _ => inflate s.load) () s.load with
  | (none, _) => none
  | (some _, load) => some { s with load := Load.clearBss load }

def load_kernel (M : Machine) (inflate : Load.State Fs → Load.Inflated Fs) (end_ : Nat)
    (typed : List UInt8) (s : State) : Option (Int × State) :=
  (unpack M.clusters end_ s).bind fun s =>
  (decompress M inflate s).bind fun s =>
  (prompt (typed.length + 1) (takeArgs end_ s).kernel_args typed).map fun args =>
  (0, { takeArgs end_ s with kernel_args := args })

end Net
