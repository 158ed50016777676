import Aboot.Lib.Device
import Aboot.Machine

/-!
# netwrap.h, netabootwrap.c: packing a network boot image

The image is the boot loader, a header, the kernel and an optional initrd, each from the next
multiple of 512 on.  The header is a record of three `int`s and the kernel's arguments, and only as
much of it is written as it uses.

* `netabootwrap`       the program, after its switches;
* `Pack`               what it is asked to pack;
* `Pack.contents`      the image as a memory;
* `netabootwrap_run`   it writes that image.
-/

set_option linter.unusedVariables false

namespace Netwrap
open Word Prog Device
open Bytes (ofNum)

/-! ## netwrap.h -/

/-- `(v + 511) & ~511` -/
def align_512 (v : Nat) : Nat := uns 64 (v + 511 : Nat) &&& 0xfffffffffffffe00

/-- `(v + (PAGE_SIZE-1)) & ~(PAGE_SIZE-1)` -/
def align_pagesize (v : Nat) : Nat := uns 64 (v + (PAGE_SIZE - 1) : Nat) &&& 0xffffffffffffe000

/-- the next multiple of 512 -/
def up (v : Nat) : Nat := (v + 511) / 512 * 512

/-- the next multiple of the page size -/
def upPage (v : Nat) : Nat := (v + 8191) / 8192 * 8192

theorem align_512_eq {v : Nat} (h : v < 18446744073709551104) : align_512 v = up v := by
  unfold align_512 up
  rw [uns64_natCast (by omega)]
  exact and_mask (w := 64) (k := 9) (by omega) (by omega)

theorem align_pagesize_eq {v : Nat} (h : v < 18446744073709543424) : align_pagesize v = upPage v := by
  have e : PAGE_SIZE - 1 = 8191 := rfl
  unfold align_pagesize upPage
  rw [e, uns64_natCast (by omega)]
  exact and_mask (w := 64) (k := 13) (by omega) (by omega)

/-! ## netabootwrap.c -/

/-- the size of a file, an `int`; a small file ends the program -/
def open_file (file : File) : Prog Device Int :=
  if file.bytes.length ≤ 10 * 1024 then failure else pure (sgn 32 file.bytes.length)

def append_file (file : File) (buf : Mem) : Prog Device Unit := do
  let _ ← copy 4096 file.bytes.length file.bytes buf
  pure ()

/-- the size of the initrd; its variable starts at zero -/
def initrdSize : Option File → Prog Device Int
  | none => pure 0
  | some file => open_file file

/-- the local `struct header`, over what the stack held: `header_size`, `kern_size`, `ird_size` and
`boot_arg`, and the size once more when there are arguments -/
def fillHeader (stack : Mem) (ksz isz : Int) (barg : Option (List UInt8)) : Mem :=
  let hdr := ((stack.put 0 (ofNum 12 4)).put 4 (ofNum (uns 32 ksz) 4)).put 8 (ofNum (uns 32 isz) 4)
  match barg with
  | none => hdr
  | some arg => (hdr.put 12 (arg ++ [0])).put 0 (ofNum (12 + (arg.length + 1)) 4)

/-- `hdr.header_size` -/
def headerSize : Option (List UInt8) → Nat
  | none => 12
  | some arg => 12 + (arg.length + 1)

/-- `strlen(barg)`, when there is one -/
def argLength : Option (List UInt8) → Nat
  | none => 0
  | some arg => arg.length

/-- `lseek(tfd, align_512((unsigned long)lseek(tfd, 0, SEEK_CUR)), SEEK_SET)` -/
def seekAligned : Prog Device Unit := do
  let s ← get
  let _ ← lseek (sgn 64 (align_512 s.pos))
  pure ()

def appendInitrd (buf : Mem) : Option File → Prog Device Unit
  | none => pure ()
  | some file => do
    seekAligned
    append_file file buf

/-- `main`, on the new target file; the results of `lseek` are ignored -/
def netabootwrap (stack buf : Mem) (bootloader : List UInt8) (kernel : File) (initrd : Option File)
    (barg : Option (List UInt8)) : Prog Device Unit := do
  let ksz ← open_file kernel
  let isz ← initrdSize initrd
  write bootloader
  when (200 ≤ argLength barg) failure
  let _ ← lseek (sgn 64 (align_512 bootloader.length))
  write ((fillHeader stack ksz isz barg).get 0 (headerSize barg))
  seekAligned
  append_file kernel buf
  appendInitrd buf initrd

/-- the size of a new file: the end of what was written farthest -/
def fileSize (s : Device) : Nat := s.writes.foldr (fun x n => max (x.1 + x.2.length) n) 0

theorem fileSize_le {s : Device} {x : Nat × List UInt8} (h : x ∈ s.writes) :
    x.1 + x.2.length ≤ fileSize s := by
  unfold fileSize
  generalize s.writes = w at h
  induction w with
  | nil => cases h
  | cons y w ih =>
    rw [List.foldr_cons]
    rcases List.mem_cons.mp h with rfl | h
    · exact le_max_left _ _
    · exact le_trans (ih h) (le_max_right _ _)

/-! ## what is packed -/

/-- a file that can be bound into an image -/
structure Part extends File where
  large : 10240 < bytes.length
  int_size : bytes.length < 2147483648

/-- what netabootwrap is asked to pack -/
structure Pack where
  bootloader : List UInt8
  kernel : Part
  initrd : Option Part
  barg : Option (List UInt8)
  short : argLength barg < 200
  no_nul : ∀ arg, barg = some arg → 0 ∉ arg
  /-- the boot loader is a C array -/
  low : bootloader.length < 4611686018427387904

namespace Pack
variable (p : Pack)

/-- the place of the header in the file -/
def header : Nat := up p.bootloader.length

/-- the place of the kernel in the file -/
def kern : Nat := up (p.header + headerSize p.barg)

/-- the place after the kernel, where an initrd goes -/
def ird : Nat := up (p.kern + p.kernel.bytes.length)

def irdSize : Nat :=
  match p.initrd with
  | none => 0
  | some file => file.bytes.length

/-- the header's bytes -/
def hdr (stack : Mem) : List UInt8 :=
  (fillHeader stack p.kernel.bytes.length p.irdSize p.barg).get 0 (headerSize p.barg)

/-- the image up to the end of the kernel -/
def body (stack : Mem) : Mem :=
  (((Mem.put (fun _ => 0) 0 p.bootloader).put p.header (p.hdr stack))).put p.kern p.kernel.bytes

/-- the image -/
def contents (stack : Mem) : Mem :=
  match p.initrd with
  | none => p.body stack
  | some file => (p.body stack).put p.ird file.bytes

theorem headerSize_bounds : 12 ≤ headerSize p.barg ∧ headerSize p.barg < 213 := by
  have h := p.short
  generalize p.barg = barg at h
  cases barg with
  | none => exact ⟨le_refl _, by decide⟩
  | some arg =>
    replace h : arg.length < 200 := h
    show 12 ≤ 12 + (arg.length + 1) ∧ 12 + (arg.length + 1) < 213
    omega

theorem le_up (v : Nat) : v ≤ up v ∧ up v < v + 512 := by
  unfold up
  omega

theorem places : p.bootloader.length ≤ p.header ∧ p.header + headerSize p.barg ≤ p.kern ∧
    p.kern + p.kernel.bytes.length ≤ p.ird ∧ p.ird < 4611686018427387904 + 2147500000 := by
  have h1 := le_up p.bootloader.length
  have h2 := le_up (p.header + headerSize p.barg)
  have h3 := le_up (p.kern + p.kernel.bytes.length)
  have h4 := p.kernel.int_size
  have h5 := p.low
  have h6 := p.headerSize_bounds
  unfold ird kern header at *
  omega

end Pack

/-! ## the run -/

theorem open_file_run (file : Part) (s : Device) :
    open_file file.toFile s = some ((file.bytes.length : Int), s) := by
  have h1 := file.large
  have h2 := file.int_size
  unfold open_file
  rw [if_neg (by omega), sgn32_of_range (by omega) (by omega)]
  rfl

theorem initrdSize_run (p : Pack) (s : Device) :
    initrdSize (p.initrd.map Part.toFile) s = some ((p.irdSize : Int), s) := by
  unfold Pack.irdSize
  cases p.initrd with
  | none => rfl
  | some file => exact open_file_run file s

theorem seekAligned_run {s : Device} (h : s.pos < 9223372036854775000) :
    seekAligned s = some ((), { s with pos := up s.pos }) := by
  have hu := Pack.le_up s.pos
  unfold seekAligned
  rw [bind_run (get_run s), align_512_eq (by omega), sgn64_natCast (by omega),
    bind_run (lseek_run _)]
  rfl

theorem append_file_run (file : File) (buf : Mem) (s : Device) : ∃ w,
    append_file file buf s
      = some ((), ⟨s.bytes.put s.pos file.bytes, s.pos + file.bytes.length, w ++ s.writes⟩) ∧
    Covers w s.pos (s.pos + file.bytes.length) := by
  obtain ⟨buf', w, hrun, hw⟩ := copy_run (show 0 < 4096 by omega) file.bytes.length file.bytes
    buf s (le_refl _)
  refine ⟨w, ?_, hw⟩
  unfold append_file
  rw [bind_run hrun]
  rfl

/-- the last write of a file that is appended ends at the position -/
theorem le_fileSize {s : Device} {w w' : List (Nat × List UInt8)} {a n : Nat}
    (hs : s.writes = w ++ w') (hw : Covers w a (a + n)) (hn : 0 < n) : a + n ≤ fileSize s := by
  obtain ⟨x, hx, -, h2⟩ := hw.all (a + n - 1) (by omega) (by omega)
  have := fileSize_le (s := s) (x := x) (by rw [hs]; exact List.mem_append_left _ hx)
  omega

/-- the loader and the header are written, and the file stands where the kernel goes -/
theorem netabootwrap_header (p : Pack) (stack buf : Mem) :
    netabootwrap stack buf p.bootloader p.kernel.toFile (p.initrd.map Part.toFile) p.barg
      (opened fun _ => 0)
    = (append_file p.kernel.toFile buf >>= fun _ => appendInitrd buf (p.initrd.map Part.toFile))
      ⟨(Mem.put (fun _ => 0) 0 p.bootloader).put p.header (p.hdr stack), p.kern,
        [(p.header, p.hdr stack), (0, p.bootloader)]⟩ := by
  have hpl := p.places
  have hup := Pack.le_up p.bootloader.length
  have hpos := p.headerSize_bounds
  have hlow := p.low
  have hshort : (when (200 ≤ argLength p.barg) failure : Prog Device Unit) = pure () :=
    if_neg (by have := p.short; omega)
  have hlen : ((fillHeader stack p.kernel.bytes.length p.irdSize p.barg).get 0
      (headerSize p.barg)).length = headerSize p.barg := Mem.length_get _ _ _
  unfold netabootwrap
  rw [bind_run (open_file_run p.kernel _), bind_run (initrdSize_run p _), bind_run (write_run _),
    hshort, bind_run (pure_run _ _), align_512_eq (by omega), sgn64_natCast (by omega),
    bind_run (lseek_run _), bind_run (write_run _), hlen]
  refine (bind_run (seekAligned_run ?_)).trans rfl
  show p.header + headerSize p.barg < _
  omega

theorem netabootwrap_run (p : Pack) (stack buf : Mem) : ∃ d,
    netabootwrap stack buf p.bootloader p.kernel.toFile (p.initrd.map Part.toFile) p.barg
      (opened fun _ => 0) = some ((), d) ∧
    d.bytes = p.contents stack ∧ p.kern + p.kernel.bytes.length ≤ fileSize d ∧
    ∀ file, p.initrd = some file → p.ird + file.bytes.length ≤ fileSize d := by
  have hpl := p.places
  have hk := p.kernel.large
  obtain ⟨w, hrun, hw⟩ := append_file_run p.kernel.toFile buf
    ⟨((Mem.put (fun _ => 0) 0 p.bootloader).put p.header (p.hdr stack)), p.kern,
      [(p.header, p.hdr stack), (0, p.bootloader)]⟩
  rw [netabootwrap_header, bind_run hrun]
  unfold Pack.contents
  cases hi : p.initrd with
  | none =>
    refine ⟨_, rfl, rfl, ?_, fun file h => by cases h⟩
    exact le_fileSize rfl hw (by omega)
  | some file =>
    have hf := file.large
    obtain ⟨w', hrun', hw'⟩ := append_file_run file.toFile buf
      ⟨p.body stack, p.ird, w ++ [(p.header, p.hdr stack), (0, p.bootloader)]⟩
    have hend : p.ird + file.bytes.length ≤ fileSize ⟨(p.body stack).put p.ird file.bytes,
        p.ird + file.bytes.length, w' ++ (w ++ [(p.header, p.hdr stack), (0, p.bootloader)])⟩ :=
      le_fileSize rfl hw' (by omega)
    refine ⟨_, ?_, rfl, le_trans ?_ hend, ?_⟩
    · show (seekAligned >>= fun _ => append_file file.toFile buf) _ = _
      refine (bind_run (seekAligned_run ?_)).trans hrun'
      show p.kern + p.kernel.bytes.length < _
      omega
    · omega
    · intro file' h
      obtain rfl : file = file' := Option.some.inj h
      exact hend

end Netwrap
