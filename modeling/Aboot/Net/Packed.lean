import Aboot.Net.Impl

/-!
# net.c: an image decodes to what was packed

* `Pack.contents_header`, ..    the bytes of the image, part by part;
* `findParts_packed`      the loader finds the parts where the wrapper put them;
* `read_initrd_run`       the initrd is copied below the heap pointer;
* `unpack_packed`         both parts are copied, and the image stays;
* `image_decodes`         sizes, contents, the copies and the kernel's arguments.
-/

set_option linter.unusedVariables false

namespace Netwrap.Pack
open Word
open Bytes (ofNum)

/-! ## the image, part by part -/

variable (p : Pack) (stack : Mem)

/-- an initrd comes after everything else -/
theorem contents_low {k : Nat} (h : k < p.ird) : p.contents stack k = p.body stack k := by
  unfold contents
  cases p.initrd with
  | none => rfl
  | some file => exact Mem.put_out _ _ _ _ (Or.inl h)

theorem contents_kern : (p.contents stack).get p.kern p.kernel.bytes.length = p.kernel.bytes := by
  have hpl := p.places
  have e : (p.contents stack).get p.kern p.kernel.bytes.length
      = (p.body stack).get p.kern p.kernel.bytes.length :=
    Mem.get_eq_of_forall _ _ _ _ fun k hk => contents_low p stack (by omega)
  rw [e]
  exact Mem.get_put_self _ _ _

theorem contents_ird {file : Part} (h : p.initrd = some file) :
    (p.contents stack).get p.ird file.bytes.length = file.bytes := by
  unfold contents
  rw [h]
  exact Mem.get_put_self _ _ _

/-- the header's bytes, and the hole after it -/
theorem contents_header {k : Nat} (h : p.header + k < p.kern) :
    p.contents stack (p.header + k)
      = if k < headerSize p.barg then fillHeader stack p.kernel.bytes.length p.irdSize p.barg k
        else 0 := by
  have hpl := p.places
  have hlen : (p.hdr stack).length = headerSize p.barg := Mem.length_get _ _ _
  rw [contents_low p stack (by omega), body, Mem.put_out _ _ _ _ (Or.inl h)]
  split
  · rename_i hk
    rw [Mem.put_in _ _ _ _ (by omega)]
    simp [hdr, Mem.get]
  · rename_i hk
    rw [Mem.put_out _ _ _ _ (by omega), Mem.put_out _ _ _ _ (by omega)]

theorem kern_gap : p.header + 12 < p.kern ∧ p.kern ≤ p.header + 512 := by
  have h := p.headerSize_bounds
  unfold kern header up
  omega

/-! ## the header's fields -/

theorem fillHeader_size (ksz isz : Int) : (fillHeader stack ksz isz p.barg).le32 0 = headerSize p.barg := by
  have h := p.headerSize_bounds
  unfold fillHeader Mem.le32
  generalize p.barg = barg at h
  cases barg with
  | none =>
    dsimp only
    rw [Bytes.le_put_out _ _ _ _ _ (by omega), Bytes.le_put_out _ _ _ _ _ (by omega),
      Bytes.le_put_self]
    rfl
  | some arg =>
    dsimp only
    rw [Bytes.le_put_self]
    unfold headerSize at h ⊢
    dsimp only at h ⊢
    omega

theorem fillHeader_kern (ksz isz : Int) :
    (fillHeader stack ksz isz p.barg).le32 4 = uns 32 ksz % 256 ^ 4 := by
  unfold fillHeader Mem.le32
  cases p.barg with
  | none =>
    dsimp only
    rw [Bytes.le_put_out _ _ _ _ _ (by omega), Bytes.le_put_self]
  | some arg =>
    dsimp only
    rw [Bytes.le_put_out _ _ _ _ _ (by rw [Bytes.length_ofNum]; omega),
      Bytes.le_put_out _ _ _ _ _ (by omega), Bytes.le_put_out _ _ _ _ _ (by omega),
      Bytes.le_put_self]

theorem fillHeader_ird (ksz isz : Int) :
    (fillHeader stack ksz isz p.barg).le32 8 = uns 32 isz % 256 ^ 4 := by
  unfold fillHeader Mem.le32
  cases p.barg with
  | none =>
    dsimp only
    rw [Bytes.le_put_self]
  | some arg =>
    dsimp only
    rw [Bytes.le_put_out _ _ _ _ _ (by rw [Bytes.length_ofNum]; omega),
      Bytes.le_put_out _ _ _ _ _ (by omega), Bytes.le_put_self]

/-- the arguments and their NUL -/
theorem fillHeader_arg {arg : List UInt8} (h : p.barg = some arg) (ksz isz : Int) {k : Nat}
    (hk : k < arg.length + 1) :
    fillHeader stack ksz isz p.barg (12 + k) = (arg ++ [0]).getD k 0 := by
  have hlen : k < (arg ++ [0]).length := by simpa using hk
  unfold fillHeader
  rw [h]
  dsimp only
  rw [Mem.put_out _ _ _ _ (by rw [Bytes.length_ofNum]; omega), Mem.put_in _ _ _ _ hlen,
    List.getD_eq_getElem _ _ hlen]

/-- the arguments as the image has them, or a NUL where they would be -/
theorem contents_arg {k : Nat} (hk : k ≤ argLength p.barg) :
    p.contents stack (p.header + (12 + k)) = (p.barg.getD []).getD k 0 := by
  have hgap := p.kern_gap
  have hpl := p.places
  have hsz := p.headerSize_bounds
  cases hb : p.barg with
  | none =>
    rw [hb] at hk hpl
    replace hk : k = 0 := Nat.le_zero.mp hk
    subst hk
    rw [contents_header p stack (by omega), hb]
    rfl
  | some arg =>
    rw [hb] at hk hpl
    replace hk : k ≤ arg.length := hk
    replace hpl : p.header + (12 + (arg.length + 1)) ≤ p.kern := hpl.2.1
    rw [contents_header p stack (by omega), if_pos (by rw [hb]; show 12 + k < 12 + (arg.length + 1); omega),
      fillHeader_arg p stack hb _ _ (by omega)]
    show (arg ++ [0]).getD k 0 = arg.getD k 0
    rcases Nat.lt_or_ge k arg.length with h | h
    · rw [List.getD_append _ _ _ _ h]
    · obtain rfl : k = arg.length := by omega
      simp

end Netwrap.Pack

namespace Net
open Word Netwrap

/-! ## the loader finds the parts -/

/-- a loader that ends at `end_`, as the wrapper has it -/
structure Fits (p : Pack) (end_ : Nat) : Prop where
  above : BOOT_ADDR ≤ end_
  same : up p.bootloader.length = up (end_ - BOOT_ADDR)

/-- the whole file is loaded at `BOOT_ADDR` -/
def Loaded (d : Device) (m : Mem) : Prop := ∀ k, k < fileSize d → m (BOOT_ADDR + k) = d.bytes k

theorem Fits.header {p : Pack} {end_ : Nat} (h : Fits p end_) :
    align_512 end_ = BOOT_ADDR + p.header := by
  have hb : BOOT_ADDR = 512 * 1048576 := rfl
  have h1 := h.above
  have h2 := h.same
  have h3 := p.places
  have h4 : p.header = up p.bootloader.length := rfl
  have h5 := Pack.le_up (end_ - BOOT_ADDR)
  rw [align_512_eq (by omega), h4, h2]
  unfold up
  omega

/-- the memory holds a packed image -/
structure Holds (p : Pack) (stack m : Mem) : Prop where
  kern : ∀ k, k < p.kern + p.kernel.bytes.length → m (BOOT_ADDR + k) = p.contents stack k
  ird : ∀ file, p.initrd = some file → ∀ k, k < p.ird + file.bytes.length →
    m (BOOT_ADDR + k) = p.contents stack k

theorem Holds.le32 {p : Pack} {stack m : Mem} (h : Holds p stack m) {k : Nat} (hk : k ≤ 8) :
    m.le32 (BOOT_ADDR + p.header + k)
      = (fillHeader stack p.kernel.bytes.length p.irdSize p.barg).le32 k := by
  have hgap := p.kern_gap
  have hsz := p.headerSize_bounds
  refine Bytes.le_shift fun j hj => ?_
  rw [Nat.add_assoc, Nat.add_assoc, h.kern _ (by omega), Pack.contents_header p stack (by omega),
    if_pos (by omega)]

theorem int_of_le32 {m : Mem} {a n : Nat} (h : m.le32 a = n) (hn : n < 2147483648) :
    int m a = n := by
  unfold int
  rw [h, sgn32_of_range (by omega) (by omega)]

theorem Pack.irdSize_lt (p : Pack) : p.irdSize < 2147483648 := by
  unfold Pack.irdSize
  cases p.initrd with
  | none => decide
  | some file => exact file.int_size

/-- the parts are found where the wrapper put them -/
theorem findParts_packed {p : Pack} {stack : Mem} {end_ : Nat} (hfit : Fits p end_) {s : State}
    (h : Holds p stack s.mem) :
    findParts end_ s = { s with
      header_size := headerSize p.barg
      kern_src := BOOT_ADDR + p.kern
      kern_size := p.kernel.bytes.length
      ird_src := BOOT_ADDR + p.ird
      ird_size := p.irdSize } := by
  have hb : BOOT_ADDR = 512 * 1048576 := rfl
  have hpl := p.places
  have hsz := p.headerSize_bounds
  have hk := p.kernel.int_size
  have hi := Pack.irdSize_lt p
  have e1 : int s.mem (BOOT_ADDR + p.header) = headerSize p.barg := by
    refine int_of_le32 ?_ (by omega)
    rw [← Pack.fillHeader_size p stack p.kernel.bytes.length p.irdSize]
    exact h.le32 (k := 0) (by omega)
  have e2 : int s.mem (BOOT_ADDR + p.header + 4) = p.kernel.bytes.length := by
    refine int_of_le32 ?_ hk
    rw [h.le32 (by omega), Pack.fillHeader_kern, uns32_natCast (by omega)]
    omega
  have e3 : int s.mem (BOOT_ADDR + p.header + 8) = p.irdSize := by
    refine int_of_le32 ?_ hi
    rw [h.le32 (by omega), Pack.fillHeader_ird, uns32_natCast (by omega)]
    omega
  have e4 : align_512 (uns 64 ((BOOT_ADDR + p.header : Nat) + (headerSize p.barg : Int)))
      = BOOT_ADDR + p.kern := by
    rw [← Int.natCast_add, uns64_natCast (by omega), align_512_eq (by omega)]
    unfold Pack.kern up
    omega
  have e5 : align_512 (uns 64 ((BOOT_ADDR + p.kern : Nat) + (p.kernel.bytes.length : Int)))
      = BOOT_ADDR + p.ird := by
    rw [← Int.natCast_add, uns64_natCast (by omega), align_512_eq (by omega)]
    unfold Pack.ird up
    omega
  unfold findParts
  rw [hfit.header]
  dsimp only
  rw [e1, e2, e3, e4, e5]

/-! ## the copies -/

/-- the heap pointer that the copies are made below -/
def top (clusters : List Cluster) (s : State) : Nat :=
  Load.heapTop clusters s.free_mem_ptr &&& 0xffffffffffffe000

theorem top_le (clusters : List Cluster) (s : State) :
    top clusters s ≤ Load.heapTop clusters s.free_mem_ptr ∧ top clusters s < 18446744073709551616 := by
  have h : top clusters s ≤ 0xffffffffffffe000 := Nat.and_le_right
  exact ⟨Nat.and_le_left, by omega⟩

/-- the variables that the copies leave alone -/
structure SameParts (s t : State) : Prop where
  kern_src : t.kern_src = s.kern_src
  kern_size : t.kern_size = s.kern_size
  ird_src : t.ird_src = s.ird_src
  ird_size : t.ird_size = s.ird_size
  header_size : t.header_size = s.header_size
  kernel_args : t.kernel_args = s.kernel_args

theorem SameParts.trans {s t u : State} (h : SameParts s t) (h' : SameParts t u) : SameParts s u :=
  ⟨h'.1.trans h.1, h'.2.trans h.2, h'.3.trans h.3, h'.4.trans h.4, h'.5.trans h.5, h'.6.trans h.6⟩

/-- what the copy of an initrd of `n` bytes from `src` to `a` has done -/
structure Copied (n src a : Nat) (s t : State) : Prop where
  same : SameParts s t
  mem : t.mem = s.mem.put a (s.mem.get src (up n))
  writes : t.load.writes = s.load.writes ++ [(a, up n)]
  elf : t.load.elf = { s.load.elf with free_mem_ptr := a }
  start : t.load.initrd_start = a
  size : t.load.initrd_size = n

theorem uns64_sub {a b : Nat} (h : b ≤ a) (ha : a < 18446744073709551616) :
    uns 64 ((a : Int) - b) = a - b := by
  rw [← Int.natCast_sub h, uns64_natCast (by omega)]

theorem up_blocks {n : Nat} (h : n < 2147483648) :
    sgn 32 (up n / 512 : Nat) = ((n + 511) / 512 : Nat) := by
  unfold up
  rw [Nat.mul_div_cancel _ (by omega), sgn32_of_range (by omega) (by omega)]

/-- the `int` of `net_bread` holds the blocks of a smaller initrd -/
theorem nbytes_eq {n : Nat} (h : n ≤ 2147483136) :
    sgn 32 (blocksize * ((n + 511) / 512 : Nat)) = (up n : Nat) := by
  have e : blocksize * ((n + 511) / 512 : Nat) = (up n : Nat) := by
    rw [show blocksize = 512 from rfl]
    unfold up
    omega
  have hup := Pack.le_up n
  have hle : up n < 2147483648 := by
    unfold up
    omega
  rw [e, sgn32_of_range (by omega) (by omega)]

theorem nbytes_neg {n : Nat} (h : 2147483136 < n) (h' : n < 2147483648) :
    sgn 32 (blocksize * ((n + 511) / 512 : Nat)) < 0 := by
  have e : blocksize * ((n + 511) / 512 : Nat) = 2147483648 := by
    rw [show blocksize = 512 from rfl]
    omega
  rw [e]
  decide

/-- whole blocks of the initrd are copied to whole pages -/
theorem read_initrd_run {s : State} {n : Nat} (hn : s.ird_size = n) (hle : n ≤ 2147483136)
    (hfree : s.free_mem_ptr < 18446744073709551616) (hroom : upPage n ≤ s.free_mem_ptr) :
    ∃ t, read_initrd s = some (0, t) ∧ Copied n s.load.fs.src (s.free_mem_ptr - upPage n) s t := by
  have e1 : uns 64 s.ird_size = n := by rw [hn, uns64_natCast (by omega)]
  have hpos : ¬ ((up n : Nat) : Int) < 0 := by omega
  unfold read_initrd
  rw [e1, align_pagesize_eq (by omega), uns64_sub hroom hfree, align_512_eq (by omega),
    up_blocks (by omega), initrdAt, net_bread, nbytes_eq hle, copyFrom, if_neg hpos]
  refine ⟨_, rfl, ⟨rfl, rfl, rfl, rfl, rfl, rfl⟩, rfl, ?_, rfl, rfl, rfl⟩
  show s.load.writes ++ [(_, (Mem.get _ _ _).length)] = _
  rw [Mem.length_get, Int.toNat_natCast]

/-- the blocks of a large initrd have a negative length -/
theorem read_initrd_none {s : State} {n : Nat} (hn : s.ird_size = n) (hlt : 2147483136 < n)
    (hle : n < 2147483648) : read_initrd s = none := by
  have e1 : uns 64 s.ird_size = n := by rw [hn, uns64_natCast (by omega)]
  unfold read_initrd
  rw [e1, align_512_eq (by omega), up_blocks hle, initrdAt, net_bread, copyFrom,
    if_pos (nbytes_neg hlt hle)]

/-- the kernel is copied to whole pages -/
theorem moveKernel_run {s : State} {n : Nat} (hn : s.kern_size = n) (hlt : n < 2147483648)
    (hfree : s.free_mem_ptr < 18446744073709551616) (hroom : upPage n ≤ s.free_mem_ptr) :
    ∃ t, moveKernel s = some t ∧ SameParts s t ∧
      t.mem = s.mem.put (s.free_mem_ptr - upPage n) (s.mem.get s.kern_src n) ∧
      t.load.writes = s.load.writes ++ [(s.free_mem_ptr - upPage n, n)] ∧
      t.load.fs.src = s.free_mem_ptr - upPage n ∧ t.load.initrd_start = s.load.initrd_start ∧
      t.load.initrd_size = s.load.initrd_size ∧
      t.load.elf = { s.load.elf with free_mem_ptr := s.free_mem_ptr - upPage n } := by
  have e1 : uns 64 s.kern_size = n := by rw [hn, uns64_natCast (by omega)]
  have e3 : ({ s with boot_file := CString.strcpy s.boot_file 0 network } : State).free_mem_ptr
      = s.free_mem_ptr := rfl
  unfold moveKernel
  dsimp only
  rw [e1, align_pagesize_eq (by omega), e3, uns64_sub hroom hfree, State.setSrc, State.setFree]
  dsimp only
  rw [hn, if_neg (by omega), Int.toNat_natCast]
  refine ⟨_, rfl, ⟨rfl, hn.symm, rfl, rfl, rfl, rfl⟩, rfl, ?_, rfl, rfl, rfl, rfl⟩
  show s.load.writes ++ [(_, (Mem.get _ _ _).length)] = _
  rw [Mem.length_get]

/-! ## the parts after the copies -/

/-- the image in memory, up to the end of its last block -/
def Pack.imageEnd (p : Pack) : Nat := BOOT_ADDR + p.ird + up p.irdSize

/-- the image and the two copies fit below the heap pointer -/
def Room (p : Pack) (clusters : List Cluster) (s : State) : Prop :=
  Pack.imageEnd p + upPage p.irdSize + upPage p.kernel.bytes.length ≤ top clusters s

/-- the loader's state when the parts are copied -/
structure Unpacked (p : Pack) (clusters : List Cluster) (s t : State) : Prop where
  header_size : t.header_size = headerSize p.barg
  kern_size : t.kern_size = p.kernel.bytes.length
  ird_size : t.ird_size = p.irdSize
  /-- the kernel in the image -/
  kern : s.mem.get t.kern_src p.kernel.bytes.length = p.kernel.bytes
  /-- the initrd in the image -/
  ird : ∀ file, p.initrd = some file → s.mem.get t.ird_src file.bytes.length = file.bytes
  /-- the copy of the initrd -/
  initrd : ∀ file, p.initrd = some file →
    t.mem.get t.load.initrd_start file.bytes.length = file.bytes ∧
      t.load.initrd_size = file.bytes.length
  /-- the copy of the kernel, which is then decompressed -/
  moved : t.mem.get t.load.fs.src p.kernel.bytes.length = p.kernel.bytes
  /-- the stores of the initrd, and then of the kernel -/
  writes : ∃ w, t.load.writes
      = s.load.writes ++ w ++ [(t.load.fs.src, p.kernel.bytes.length)] ∧
    ∀ x ∈ w, t.load.initrd_start ≤ x.1 ∧ x.1 + x.2 ≤ top clusters s
  /-- the image itself stays -/
  image : ∀ x, x < Pack.imageEnd p → t.mem x = s.mem x
  place : Pack.imageEnd p ≤ t.load.fs.src ∧ t.load.fs.src ≤ top clusters s
  elf : t.load.elf = { s.load.elf with free_mem_ptr := t.load.fs.src }
  kernel_args : t.kernel_args = s.kernel_args

/-- the state in which the parts are found and the heap starts at a page -/
def found (p : Pack) (clusters : List Cluster) (s : State) : State :=
  State.setFree (top clusters s) { s with
    header_size := headerSize p.barg
    kern_src := BOOT_ADDR + p.kern
    kern_size := p.kernel.bytes.length
    ird_src := BOOT_ADDR + p.ird
    ird_size := p.irdSize }

theorem pageFree_packed {p : Pack} {stack : Mem} {end_ : Nat} (hfit : Fits p end_) {s : State}
    (h : Holds p stack s.mem) (clusters : List Cluster) :
    pageFree clusters (findParts end_ s) = found p clusters s := by
  rw [findParts_packed hfit h]
  rfl

theorem Holds.get_kern {p : Pack} {stack m : Mem} (h : Holds p stack m) :
    m.get (BOOT_ADDR + p.kern) p.kernel.bytes.length = p.kernel.bytes := by
  have e := Pack.contents_kern p stack
  refine Eq.trans (List.map_congr_left fun k hk => ?_) e
  rw [Nat.add_assoc]
  have := List.mem_range.mp hk
  exact h.kern _ (by omega)

theorem Holds.get_ird {p : Pack} {stack m : Mem} (h : Holds p stack m) {file : Part}
    (hf : p.initrd = some file) : m.get (BOOT_ADDR + p.ird) file.bytes.length = file.bytes := by
  have e := Pack.contents_ird p stack hf
  refine Eq.trans (List.map_congr_left fun k hk => ?_) e
  rw [Nat.add_assoc]
  have := List.mem_range.mp hk
  exact h.ird file hf _ (by omega)

/-- what `loadInitrd` leaves for the kernel -/
structure InitrdDone (p : Pack) (clusters : List Cluster) (s t : State) : Prop where
  same : SameParts (found p clusters s) t
  elf : t.load.elf = { s.load.elf with free_mem_ptr := top clusters s - upPage p.irdSize }
  low : ∀ x, x < t.free_mem_ptr → t.mem x = s.mem x
  initrd : ∀ file, p.initrd = some file → t.load.initrd_start = t.free_mem_ptr ∧
    t.load.initrd_size = file.bytes.length ∧
    t.mem.get t.load.initrd_start file.bytes.length = file.bytes
  writes : ∃ w, t.load.writes = s.load.writes ++ w ∧
    ∀ x ∈ w, t.load.initrd_start ≤ x.1 ∧ x.1 + x.2 ≤ top clusters s

theorem InitrdDone.free {p : Pack} {clusters : List Cluster} {s t : State}
    (h : InitrdDone p clusters s t) : t.free_mem_ptr = top clusters s - upPage p.irdSize :=
  congrArg Load.Elf.free_mem_ptr h.elf

theorem get_put_prefix (m m' : Mem) (a b : Nat) {n k : Nat} (h : n ≤ k) :
    (m.put a (m'.get b k)).get a n = m'.get b n := by
  refine List.map_congr_left fun j hj => ?_
  have hj' := List.mem_range.mp hj
  rw [Mem.put_in _ _ _ _ (by rw [Mem.length_get]; omega)]
  simp [Mem.get]

theorem loadInitrd_packed {p : Pack} {stack : Mem} {s : State} (h : Holds p stack s.mem)
    (clusters : List Cluster) (hird : p.irdSize ≤ 2147483136)
    (hroom : upPage p.irdSize ≤ top clusters s) :
    ∃ t, loadInitrd (found p clusters s) = some (0, t) ∧ InitrdDone p clusters s t := by
  have htop := top_le clusters s
  unfold loadInitrd
  cases hi : p.initrd with
  | none =>
    have hz : p.irdSize = 0 := by unfold Pack.irdSize; rw [hi]
    have hn : ¬ (found p clusters s).ird_size ≠ 0 := by
      show ¬ ((p.irdSize : Int) ≠ 0)
      omega
    rw [if_neg hn]
    refine ⟨_, rfl, ⟨rfl, rfl, rfl, rfl, rfl, rfl⟩, ?_, fun _ _ => rfl,
      fun file hf => (by rw [hi] at hf; cases hf), [], (List.append_nil _).symm,
      fun x hx => (by cases hx)⟩
    rw [hz]
    rfl
  | some file =>
    have hz : p.irdSize = file.bytes.length := by unfold Pack.irdSize; rw [hi]
    have hlarge := file.large
    have hn : (found p clusters s).ird_size ≠ 0 := by
      show (p.irdSize : Int) ≠ 0
      omega
    have hpage : up p.irdSize ≤ upPage p.irdSize := by
      unfold up upPage
      omega
    have hlen : file.bytes.length ≤ up p.irdSize := by
      rw [hz]
      exact (Pack.le_up _).1
    rw [if_pos hn]
    obtain ⟨t, hrun, hc⟩ := read_initrd_run
      (s := (found p clusters s).setSrc (found p clusters s).ird_src) (n := p.irdSize) rfl hird
      htop.2 hroom
    have hmem : t.mem = s.mem.put (top clusters s - upPage p.irdSize)
      (s.mem.get (BOOT_ADDR + p.ird) (up p.irdSize)) := hc.mem
    have helf : t.load.elf
      = { s.load.elf with free_mem_ptr := top clusters s - upPage p.irdSize } := hc.elf
    have hfree : t.free_mem_ptr = top clusters s - upPage p.irdSize :=
      congrArg Load.Elf.free_mem_ptr helf
    have hstart : t.load.initrd_start = top clusters s - upPage p.irdSize := hc.start
    refine ⟨t, hrun, ⟨hc.same.1, hc.same.2, hc.same.3, hc.same.4, hc.same.5, hc.same.6⟩, helf,
      fun x hx => ?_, fun file' hf => ?_, [(top clusters s - upPage p.irdSize, up p.irdSize)],
      hc.writes, fun x hx => ?_⟩
    · rw [hmem, Mem.put_out _ _ _ _ (by omega)]
    · obtain rfl : file = file' := by rw [hi] at hf; exact Option.some.inj hf
      refine ⟨by rw [hstart, hfree], by rw [hc.size, hz], ?_⟩
      rw [hmem, hstart, get_put_prefix _ _ _ _ hlen]
      exact h.get_ird hi
    · rw [List.mem_singleton.mp hx, hstart]
      exact ⟨le_refl _, by dsimp only; omega⟩

theorem InitrdDone.kern_src {p : Pack} {clusters : List Cluster} {s t : State}
    (h : InitrdDone p clusters s t) : t.kern_src = BOOT_ADDR + p.kern := h.same.kern_src

theorem InitrdDone.ird_src {p : Pack} {clusters : List Cluster} {s t : State}
    (h : InitrdDone p clusters s t) : t.ird_src = BOOT_ADDR + p.ird := h.same.ird_src

theorem unpack_packed {p : Pack} {stack : Mem} {end_ : Nat} (hfit : Fits p end_) {s : State}
    (h : Holds p stack s.mem) (clusters : List Cluster) (hird : p.irdSize ≤ 2147483136)
    (hroom : Room p clusters s) :
    ∃ t, unpack clusters end_ s = some t ∧ Unpacked p clusters s t := by
  obtain ⟨-, htop⟩ := top_le clusters s
  have hroom' : Pack.imageEnd p + upPage p.irdSize + upPage p.kernel.bytes.length
    ≤ top clusters s := hroom
  have hpage : p.kernel.bytes.length ≤ upPage p.kernel.bytes.length := by
    unfold upPage
    omega
  have hpl := p.places
  have hend : BOOT_ADDR + p.kern + p.kernel.bytes.length ≤ Pack.imageEnd p := by
    unfold Pack.imageEnd
    omega
  obtain ⟨t, hrun, hd⟩ := loadInitrd_packed h clusters hird (by omega)
  have hks : t.kern_size = p.kernel.bytes.length := hd.same.kern_size
  obtain ⟨u, hmove, hs, hmem, hw, hsrc, hst, hsz, helf⟩ := moveKernel_run hks p.kernel.int_size
    (by have := hd.free; omega) (by have := hd.free; omega)
  have hkern : t.mem.get t.kern_src p.kernel.bytes.length = p.kernel.bytes := by
    rw [hd.kern_src]
    refine Eq.trans (Mem.get_eq_of_forall _ _ _ _ fun k hk => ?_) h.get_kern
    have hf := hd.free
    exact hd.low _ (by omega)
  obtain ⟨w, hw1, hw2⟩ := hd.writes
  refine ⟨u, ?_, ?_⟩
  · unfold unpack
    rw [pageFree_packed hfit h, hrun, Option.bind_some, hmove]
  · refine ⟨?_, ?_, ?_, ?_, ?_, ?_, ?_, ⟨w, ?_, ?_⟩, ?_, ?_, ?_, ?_⟩
    · exact hs.header_size.trans hd.same.header_size
    · exact hs.kern_size.trans hks
    · exact hs.ird_size.trans hd.same.ird_size
    · rw [hs.kern_src, hd.kern_src]
      exact h.get_kern
    · intro file hf
      rw [hs.ird_src, hd.ird_src]
      exact h.get_ird hf
    · intro file hf
      obtain ⟨h1, h2, h3⟩ := hd.initrd file hf
      refine ⟨?_, hsz.trans h2⟩
      rw [hst, hmem, Mem.get_put_out, h3]
      right
      rw [Mem.length_get, h1]
      have := hd.free
      omega
    · rw [hsrc, hmem, get_put_prefix _ _ _ _ (le_refl _), hkern]
    · rw [hw, hw1, hsrc]
    · intro x hx
      rw [hst]
      exact hw2 x hx
    · intro x hx
      have hf := hd.free
      rw [hmem, Mem.put_out _ _ _ _ (by omega)]
      exact hd.low x (by omega)
    · have hf := hd.free
      rw [hsrc]
      omega
    · rw [helf, hd.elf, hsrc]
    · exact hs.kernel_args.trans hd.same.kernel_args

end Net
