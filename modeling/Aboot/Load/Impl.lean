import Aboot.Lib.MemCopy
import Aboot.Load.Table

/-!
# disk.c, zip/misc.c: loading a kernel and its initrd

The loader is over any file system layer `BootFs`: `mount_fs` and the entries of `struct bootfs`,
with a state of their own.  The decompressor is seen through the windows that it hands to
`flush_window` and whether it ends or leaves through `unzip_error`.

`mem` is the memory that segments, bss and initrd are stored in, with the table of segments and the
decompressor's window, which the loaders read while they store.

An outcome `none` is a `longjmp`, or a call that does not return; `stuck` is set by a `memcpy` of a
negative length, which is one of almost 2^64 bytes.  `writes` records the ranges that the loaders
store to, and `copies` the `memcpy`s of `flush_window`; nothing in the source depends on these.
-/

namespace Load
open Word

/-- `mount_fs` and the mounted `struct bootfs`, over states `σ` and file descriptors `φ` -/
structure BootFs (σ φ : Type) where
  blocksize : σ → Int
  /-- the heap pointer goes through `mount`, which may allocate -/
  mount : (boot_part : Int) → (free_mem_ptr : Nat) → σ → Option Bool × Nat × σ
  /-- `none` does not return -/
  open_ : List UInt8 → σ → Option (Option φ × σ)
  bread : φ → (blkno nblks : Int) → σ → ReadRes × σ
  close : φ → σ → σ
  readdir : φ → (rewind : Bool) → σ → Option (List UInt8) × σ
  st_size : φ → σ → Nat

/-- one `memcpy(dest, window + src, len)` of `flush_window`, and the `outcnt` it was called with -/
structure Copy where
  dest : Nat
  src : Nat
  len : Nat
  outcnt : Nat
deriving DecidableEq, Repr

/-- the state of the loader -/
structure State (σ : Type) where
  elf : Elf
  fs : σ
  mem : Mem
  initrd_start : Nat
  initrd_size : Nat
  /-- how many `cons_read`s the loader has issued itself -/
  nreads : Nat
  writes : List (Nat × Nat)
  copies : List Copy
  stuck : Bool

namespace State
variable {σ : Type}

/-- store bytes at an address -/
def store (a : Nat) (bs : List UInt8) (s : State σ) : State σ :=
  { s with mem := s.mem.put a bs, writes := s.writes ++ [(a, bs.length)] }

end State
open State

section
variable {σ φ : Type} (M : Machine) (fs : BootFs σ φ)

/-! ## load_raw -/

def SECT_SIZE : Int := 512
def BOOT_SECTOR : Int := 2

/-- the sector after the boot loader of `aboot_size` bytes -/
def ksect (aboot_size : Nat) : Int := ((aboot_size + 511) / 512 : Nat) + BOOT_SECTOR

/-- `is_loadable_elf`, which leaves its table in memory -/
def loadable (buf : Mem) (blocksize : Int) (s : State σ) : Option Bool × State σ :=
  let r := is_loadable_elf M.clusters buf blocksize s.elf
  (r.1,
    { s with
      elf := r.2
      mem := if headerFine buf blocksize ∧ r.1.isSome then storeTable r.2 s.mem else s.mem })

/-- read `chunks[i]` from the disk; `false` when the read is not complete -/
def rawSegment (dev kstart : Int) (i : Nat) (s : State σ) : Bool × State σ :=
  let seg := chunkAt s.mem s.elf.table i
  let r := M.read s.nreads dev (sgn 64 seg.size) (sgn 64 (seg.offset + kstart))
  let s := { s.store seg.addr r.data with nreads := s.nreads + 1 }
  -- the size is read again
  (r.ret = sgn 64 (chunkAt s.mem s.elf.table i).size, s)

/-- the loop of `load_raw`: `left` segments, from `chunks[i]` on -/
def rawSegments (dev kstart : Int) : (left i : Nat) → State σ → Int × State σ
  | 0, _, s => (0, s)
  | left + 1, i, s =>
    match rawSegment M dev kstart i s with
    | (false, s) => (-1, s)
    | (true, s) => rawSegments dev kstart left (i + 1) s

def load_raw (aboot_size : Nat) (dev : Int) (s : State σ) : Option Int × State σ :=
  let kstart := ksect aboot_size * SECT_SIZE
  let p := malloc M.clusters s.elf.free_mem_ptr (uns 64 SECT_SIZE)
  if out_of_memory p then (none, { s with elf := { s.elf with free_mem_ptr := p, exhausted := true } })
  else
  let s := { s with elf := { s.elf with free_mem_ptr := p } }
  let r := M.read s.nreads dev SECT_SIZE kstart
  let s := { s with nreads := s.nreads + 1 }
  if r.ret ≠ SECT_SIZE then (some (-1), s) else
  match loadable M ((M.ram p).put 0 r.data) SECT_SIZE s with
  | (none, s) => (none, s)
  | (some false, s) => (some (-1), s)
  | (some true, s) =>
    let r := rawSegments M dev kstart s.elf.nchunks 0 s
    (some r.1, r.2)

/-! ## load_uncompressed -/

/-- the unaligned bits of an offset: `offset & (blocksize - 1)` -/
def unaligned (bs : Int) (offset : Nat) : Nat := offset &&& uns 64 (bs - 1)

/-- the blocks of a segment, with the unaligned bits of its offset -/
def nblocks (bs : Int) (seg : Segment) : Int :=
  sgn 64 (uns 64 ((seg.size : Int) + unaligned bs seg.offset + bs - 1) / uns 64 bs : Nat)

/-- `memmove(dest, dest + d, n)` -/
def shiftDown (a d n : Nat) (s : State σ) : State σ := s.store a (s.mem.get (a + d) n)

/-- read `chunks[i]` from the file; `false` when the read is not complete -/
def readSegment (fd : φ) (i : Nat) (s : State σ) : Bool × State σ :=
  let bs := fs.blocksize s.fs
  let seg := chunkAt s.mem s.elf.table i
  let r := fs.bread fd (sgn 64 (seg.offset / uns 64 bs : Nat)) (nblocks bs seg) s.fs
  let s := { s.store seg.addr r.1.data with fs := r.2 }
  if r.1.ret ≠ nblocks bs seg * bs then (false, s)
  else
    -- the offset and the size are read again
    let now := chunkAt s.mem s.elf.table i
    if unaligned bs now.offset ≠ 0 then
      (true, shiftDown seg.addr (unaligned bs now.offset) now.size s)
    else (true, s)

/-- the loop of `load_uncompressed`: `left` segments, from `chunks[i]` on -/
def readSegments (fd : φ) : (left i : Nat) → State σ → Int × State σ
  | 0, _, s => (0, s)
  | left + 1, i, s =>
    match readSegment fs fd i s with
    | (false, s) => (-1, s)
    | (true, s) => readSegments fd left (i + 1) s

def load_uncompressed (fd : φ) (s : State σ) : Option Int × State σ :=
  let bs := fs.blocksize s.fs
  let p := malloc M.clusters s.elf.free_mem_ptr (uns 64 bs)
  if out_of_memory p then (none, { s with elf := { s.elf with free_mem_ptr := p, exhausted := true } })
  else
  let s := { s with elf := { s.elf with free_mem_ptr := p } }
  let r := fs.bread fd 0 1 s.fs
  let s := { s with fs := r.2 }
  if r.1.ret ≠ bs then (some (-1), s) else
  match loadable M ((M.ram p).put 0 r.1.data) bs s with
  | (none, s) => (none, s)
  | (some false, s) => (some (-1), s)
  | (some true, s) =>
    let r := readSegments fs fd s.elf.nchunks 0 s
    (some r.1, r.2)

/-! ## flush_window -/

def WSIZE : Nat := 0x8000
def INBUFSIZ : Nat := 0x20000

/-- the position of `file_offset` within a segment -/
def chunk_offset (file_offset : Nat) (seg : Segment) : Int := sgn 64 ((file_offset : Int) - seg.offset)

/-- the place in the window where the segment starts -/
def srcOf (file_offset : Nat) (seg : Segment) : Int :=
  if chunk_offset file_offset seg < 0 then sgn 64 (-chunk_offset file_offset seg) else 0

def destOf (file_offset : Nat) (seg : Segment) : Nat :=
  if chunk_offset file_offset seg < 0 then seg.addr
  else uns 64 (seg.addr + chunk_offset file_offset seg)

def to_copy (file_offset outcnt : Nat) (seg : Segment) : Int :=
  let n := sgn 64 ((seg.offset : Int) + seg.size - file_offset)
  if (outcnt : Int) < n then outcnt else n

/-- the decompressor's own variables -/
structure Zip where
  bytes_out : Nat
  /-- the pointer `window` -/
  window : Nat
  chunk : Nat
  file_offset : Nat
deriving DecidableEq, Repr

/-- one `memcpy` out of the window -/
def copyOut (window : Nat) (s : State σ) (c : Copy) : State σ :=
  { s with
    mem := s.mem.copy c.dest (window + c.src) c.len
    writes := s.writes ++ [(c.dest, c.len)]
    copies := s.copies ++ [c] }

/-- the copy for a segment, `outcnt` bytes of the window being left of `n` -/
def copyOf (n file_offset outcnt : Nat) (seg : Segment) : Copy :=
  ⟨destOf file_offset seg, uns 64 (srcOf file_offset seg), uns 64 (to_copy file_offset outcnt seg), n⟩

/-- the loop of `flush_window`, with `left` segments from `chunks[chunk]` on: `n` is the `outcnt` it
was called with, `outcnt` what is left.  It gives `chunk` and `file_offset`. -/
def flushLoop (n window : Nat) :
    (left chunk file_offset outcnt : Nat) → State σ → Option (Nat × Nat) × State σ
  | 0, chunk, f, _, s => (some (chunk, f), s)
  | left + 1, chunk, f, outcnt, s =>
    let seg := chunkAt s.mem s.elf.table chunk
    if (outcnt : Int) ≤ srcOf f seg then (some (chunk, uns 64 (f + outcnt : Nat)), s)
    else
      let k := to_copy f outcnt seg
      let s := copyOut window s (copyOf n f outcnt seg)
      if k < 0 then (none, { s with stuck := true })
      else if k < outcnt then
        flushLoop n window left (chunk + 1) (uns 64 (f + k)) (uns 32 (outcnt - k)) s
      else (some (chunk, uns 64 (f + k)), s)

/-- the part of `flush_window` that follows the headers -/
def flushCopies (outcnt : Nat) (z : Zip) (s : State σ) : Option Zip × State σ :=
  let r := flushLoop outcnt z.window (s.elf.nchunks - z.chunk) z.chunk z.file_offset outcnt s
  (r.1.map fun p => ⟨uns 64 (z.bytes_out + outcnt : Nat), z.window, p.1, p.2⟩, r.2)

/-- the decompressor has filled its window -/
def fillWindow (window : Nat) (bytes : Mem) (outcnt : Nat) (s : State σ) : State σ :=
  { s with mem := s.mem.paste window outcnt bytes }

/-- `flush_window` with `outcnt` bytes in the window; `none` is `unzip_error` -/
def flush_window (bytes : Mem) (outcnt : Nat) (z : Zip) (s : State σ) : Option Zip × State σ :=
  if outcnt = 0 then (some z, s)
  else if z.bytes_out = 0 then
    match loadable M bytes outcnt (fillWindow z.window bytes outcnt s) with
    | (some true, s) => flushCopies outcnt z s
    | (_, s) => (none, s)
  else flushCopies outcnt z (fillWindow z.window bytes outcnt s)

/-- a window that the decompressor flushes: what it has allocated and read until then -/
structure Window (σ : Type) where
  bytes : Mem
  outcnt : Nat
  mallocs : List Nat
  fs : σ

/-- what the decompressor does with a file: the windows it flushes, and whether it then comes to
its end or leaves through `unzip_error` -/
structure Inflated (σ : Type) where
  windows : List (Window σ)
  ok : Bool
  mallocs : List Nat
  fs : σ

/-- the heap pointer after some `malloc`s; `none` when the heap is exhausted -/
def mallocs (clusters : List Cluster) : List Nat → Nat → Option Nat × Nat
  | [], p => (some p, p)
  | n :: ns, p =>
    if out_of_memory (malloc clusters p n) then (none, malloc clusters p n)
    else mallocs clusters ns (malloc clusters p n)

/-- the decompressor has allocated memory and read from the file -/
def allocated (ns : List Nat) (fs : σ) (s : State σ) : Bool × State σ :=
  let r := mallocs M.clusters ns s.elf.free_mem_ptr
  (r.1.isSome,
    { s with
      fs := fs
      elf := { s.elf with free_mem_ptr := r.2, exhausted := s.elf.exhausted || r.1.isNone } })

/-- the windows that are flushed, one after the other -/
def flushAll : List (Window σ) → Zip → State σ → Option Zip × State σ
  | [], z, s => (some z, s)
  | w :: ws, z, s =>
    if (allocated M w.mallocs w.fs s).1 then
      match flush_window M w.bytes w.outcnt z (allocated M w.mallocs w.fs s).2 with
      | (none, s) => (none, s)
      | (some z, s) => flushAll ws z s
    else (none, (allocated M w.mallocs w.fs s).2)

/-- `uncompress_kernel`; `none` is a `longjmp` out of the decompressor -/
def uncompress_kernel (inflate : φ → σ → Inflated σ) (fd : φ) (s : State σ) :
    Option Int × State σ :=
  let a := allocated M [INBUFSIZ, WSIZE] s.fs s
  if a.1 = false then (none, a.2)
  else
  let r := inflate fd s.fs
  match flushAll M r.windows ⟨0, a.2.elf.free_mem_ptr, 0, 0⟩ a.2 with
  | (none, s) => (none, s)
  | (some _, s) =>
    let a := allocated M r.mallocs r.fs s
    if a.1 ∧ r.ok then (some 1, a.2) else (none, a.2)

/-! ## load -/

/-- does a file name end in `.gz`? -/
def gzName (filename : List UInt8) : Bool :=
  3 < filename.length ∧ filename.drop (filename.length - 3) = ".gz".toList.map Char.toUInt8

/-- the methods of `read_kernel`; `true` is the compressed one -/
def readMethod (inflate : φ → σ → Inflated σ) (method : Bool) (fd : φ) (s : State σ) :
    Option Int × State σ :=
  if method then uncompress_kernel M inflate fd s else load_uncompressed M fs fd s

/-- the loop of `read_kernel`; a `longjmp` leads to the next method, and `none` does not return -/
def readAttempts (inflate : φ → σ → Inflated σ) (filename : List UInt8) :
    (attempts : Nat) → (method : Bool) → State σ → Option Int × State σ
  | 0, _, s => (some (-1), s)
  | n + 1, method, s =>
    match fs.open_ filename s.fs with
    | none => (none, s)
    | some (none, f) => (some (-1), { s with fs := f })
    | some (some fd, f) =>
      match readMethod M fs inflate method fd { s with fs := f } with
      | (some res, s) =>
        let s := { s with fs := fs.close fd s.fs }
        if 0 ≤ res then (some 0, s) else readAttempts inflate filename n (!method) s
      | (none, s) => if s.stuck then (none, s) else readAttempts inflate filename n (!method) s

def read_kernel (inflate : φ → σ → Inflated σ) (filename : List UInt8) (s : State σ) :
    Option Int × State σ :=
  readAttempts M fs inflate filename 2 (gzName filename) s

/-- page aligned, downward -/
def pageDown (a : Nat) : Nat := a / PAGE_SIZE * PAGE_SIZE

/-- the heap pointer, which starts at the end of memory -/
def heapTop (clusters : List Cluster) (free_mem_ptr : Nat) : Nat :=
  if free_mem_ptr = 0 then memory_end clusters else free_mem_ptr

/-- the blocks of the initrd, an `int` -/
def initrdBlocks (bs : Int) (size : Nat) : Int :=
  let n := sgn 32 (size / uns 64 bs : Nat)
  if uns 32 n &&& uns 32 (bs - 1) ≠ 0 then sgn 32 (n + 1) else n

/-- where the initrd goes -/
def initrdStart (clusters : List Cluster) (free_mem_ptr size : Nat) : Nat :=
  pageDown (uns 64 ((heapTop clusters free_mem_ptr : Int) - size))

def read_initrd (initrd_file : List UInt8) (s : State σ) : Option Int × State σ :=
  match fs.open_ initrd_file s.fs with
  | none => (none, s)
  | some (none, f) => (some (-1), { s with fs := f })
  | some (some fd, f) =>
    let size := fs.st_size fd f
    let start := initrdStart M.clusters s.elf.free_mem_ptr size
    let n := initrdBlocks (fs.blocksize f) size
    let r := fs.bread fd 0 n f
    let s := { s.store start r.1.data with
      fs := r.2
      initrd_start := start
      initrd_size := size
      elf := { s.elf with free_mem_ptr := start } }
    if r.1.ret ≠ sgn 32 (n * fs.blocksize f) then (some (-1), s) else (some 0, s)

/-- what is to be booted, and how -/
structure Boot where
  dev : Int
  aboot_size : Nat
  boot_file : List UInt8
  initrd_file : List UInt8
  boot_part : Int

/-- `bfs = mount_fs(dev, boot_part)` -/
def mountBoot (b : Boot) (s : State σ) : Option Bool × State σ :=
  let r := fs.mount b.boot_part s.elf.free_mem_ptr s.fs
  (r.1,
    { s with
      fs := r.2.2
      elf := { s.elf with free_mem_ptr := r.2.1, exhausted := s.elf.exhausted || r.1.isNone } })

/-- load the segments of the kernel -/
def loadKernel (inflate : φ → σ → Inflated σ) (b : Boot) (s : State σ) : Option Int × State σ :=
  if b.boot_file = ['-'.toUInt8] then load_raw M b.aboot_size b.dev s
  else
    match mountBoot fs b s with
    | (none, s) => (none, s)
    | (some false, s) => (some (-1), s)
    | (some true, s) => read_kernel M fs inflate b.boot_file s

/-- clear the bss -/
def clearBss (s : State σ) : State σ :=
  s.store s.elf.bss_start (List.replicate (uns 64 s.elf.bss_size) 0)

/-- mount once more and load the initrd, if one is asked for -/
def loadInitrd (b : Boot) (s : State σ) : Option Int × State σ :=
  if b.initrd_file = [] then (some 0, s)
  else
    match mountBoot fs b s with
    | (none, s) => (none, s)
    | (some false, s) => (some (-1), s)
    | (some true, s) => read_initrd M fs b.initrd_file s

/-- `load`; `none` when it does not return -/
def load (inflate : φ → σ → Inflated σ) (b : Boot) (s : State σ) : Option Int × State σ :=
  match loadKernel M fs inflate b s with
  | (none, s) => (none, s)
  | (some r, s) => if r < 0 then (some (-1), s) else loadInitrd M fs b (clearBss s)

end

end Load
