import Aboot.Load.Source

/-!
# Where the initrd goes

`read_initrd` puts the initrd as high in memory as the heap allows: at the page of the heap pointer
less the size of the file.  It compares that with neither the memory clusters nor the kernel.

* `phys_page`           the page frame of an address is that of its page;
* `initrdFile`          the heap pointer and the size of the file that `read_initrd` sees;
* `load_initrd`         a load with an initrd;
* `initrd_apart_iff`    when the initrd is in usable memory and apart from the kernel;
* `initrd_on_kernel`    a load that returns 0 with the initrd on the kernel.
-/

set_option linter.unusedVariables false

namespace Load
open Word State

/-! ## pages and ranges -/

/-- a page frame of a cluster that is free for the system -/
def FreePage (clusters : List Cluster) (pfn : Nat) : Prop :=
  ∃ c ∈ clusters, c.usage = 0 ∧ c.start_pfn ≤ pfn ∧ pfn < c.start_pfn + c.numpages

/-- the page frame of an address -/
def pfnOf (a : Nat) : Nat := phys_start a / 2 ^ PAGE_SHIFT

/-- the sign extension of a page's address is that of a page -/
theorem extended_page {a : Nat} (ha : a % 8192 = 0) :
    ∃ q, sgn 64 ((a : Int) * 2 ^ 23) / 2 ^ 23 = 8192 * q := by
  obtain ⟨k, rfl⟩ := Nat.dvd_of_mod_eq_zero ha
  refine ⟨k - 268435456 * Int.bdiv (((8192 * k : Nat) : Int) * 2 ^ 23) (2 ^ 64), ?_⟩
  rw [sgn, Int.bmod_eq_self_sub_mul_bdiv]
  generalize Int.bdiv (((8192 * k : Nat) : Int) * 2 ^ 23) (2 ^ 64) = t
  have e : ((8192 * k : Nat) : Int) * 2 ^ 23 - ((2 ^ 64 : Nat) : Int) * t
      = 8192 * (k - 268435456 * t) * 2 ^ 23 := by
    push_cast
    ring
  rw [e]
  exact Int.mul_ediv_cancel _ (by norm_num)

theorem phys_page {a r : Nat} (ha : a % PAGE_SIZE = 0) (hr : r < PAGE_SIZE) :
    pfnOf (a + r) = pfnOf a := by
  unfold PAGE_SIZE at ha hr
  have h1 : sgn 64 ((a + r : Nat) : Int) = sgn 64 a + r := by
    unfold sgn
    rw [Int.bmod_def, Int.bmod_def]
    norm_num
    split <;> split <;> omega
  have h2 : sgn 64 (((a + r : Nat) : Int) * 2 ^ 23) / 2 ^ 23 = sgn 64 ((a : Int) * 2 ^ 23) / 2 ^ 23 + r := by
    unfold sgn
    rw [Int.bmod_def, Int.bmod_def]
    norm_num
    split <;> split <;> omega
  have h3 : (sgn 64 (a : Int) + r) / 2 ^ 41 = sgn 64 (a : Int) / 2 ^ 41 := by
    unfold sgn
    rw [Int.bmod_def]
    norm_num
    split <;> omega
  obtain ⟨q, hq⟩ := extended_page ha
  unfold pfnOf phys_start PAGE_SHIFT
  rw [h1, h2, h3, hq]
  split
  · unfold uns
    norm_num
    omega
  · omega

/-! ## the initrd and the kernel -/

/-- the ranges of a bss and of segments -/
def rangesOf (r : (Nat × Nat) × List Segment) : List (Nat × Nat) :=
  r.1 :: r.2.map fun s => (s.addr, s.size)

/-- the ranges that a kernel takes: its segments and its bss -/
def kernelRanges (v : Elf) : List (Nat × Nat) := rangesOf v.parts

/-- the pages of the initrd are free for the system, and no byte of it is one of the kernel -/
def Apart {σ : Type} (clusters : List Cluster) (s : State σ) : Prop :=
  ∀ x, s.initrd_start ≤ x → x < s.initrd_start + s.initrd_size →
    FreePage clusters (pfnOf x) ∧ ∀ t ∈ kernelRanges s.elf, ¬ (t.1 ≤ x ∧ x < t.1 + t.2)

/-- there is room for `size` bytes under the heap pointer `p`: as many pages as they take, from the
page of `p - size` on, are free for the system, and the bytes are apart from some ranges -/
def Room (clusters : List Cluster) (ranges : List (Nat × Nat)) (p size : Nat) : Prop :=
  (∀ j < (size + (PAGE_SIZE - 1)) / PAGE_SIZE,
    FreePage clusters (pfnOf (initrdStart clusters p size + j * PAGE_SIZE))) ∧
  ∀ t ∈ ranges, ApartFrom (initrdStart clusters p size, size) t

theorem initrdStart_aligned (clusters : List Cluster) (p size : Nat) :
    initrdStart clusters p size % PAGE_SIZE = 0 := by
  rw [initrdStart, pageDown]
  exact Nat.mul_mod_left _ _

/-- the bytes of a range are in free pages when its pages are -/
theorem free_iff_pages {clusters : List Cluster} {a size : Nat} (ha : a % PAGE_SIZE = 0) :
    (∀ x, a ≤ x → x < a + size → FreePage clusters (pfnOf x)) ↔
      ∀ j < (size + (PAGE_SIZE - 1)) / PAGE_SIZE, FreePage clusters (pfnOf (a + j * PAGE_SIZE)) := by
  constructor
  · intro h j hj
    refine h _ (Nat.le_add_right _ _) ?_
    unfold PAGE_SIZE at *
    omega
  · intro h x h1 h2
    have hpage : pfnOf x = pfnOf (a + (x - a) / PAGE_SIZE * PAGE_SIZE) := by
      have := phys_page (a := a + (x - a) / PAGE_SIZE * PAGE_SIZE) (r := (x - a) % PAGE_SIZE)
        (by rw [Nat.add_mul_mod_self_right]; exact ha) (Nat.mod_lt _ (by decide))
      have hx : a + (x - a) / PAGE_SIZE * PAGE_SIZE + (x - a) % PAGE_SIZE = x := by
        unfold PAGE_SIZE
        omega
      rw [hx] at this
      exact this
    rw [hpage]
    refine h _ ?_
    unfold PAGE_SIZE
    omega

section
variable {σ φ : Type} {M : Machine} {fs : BootFs σ φ}

theorem apart_iff_room {clusters : List Cluster} {s : State σ} {ranges : List (Nat × Nat)} {p size : Nat}
    (hstart : s.initrd_start = initrdStart clusters p size) (hsize : s.initrd_size = size)
    (hk : kernelRanges s.elf = ranges) : Apart clusters s ↔ Room clusters ranges p size := by
  rw [Room, ← free_iff_pages (initrdStart_aligned _ _ _), Apart, hstart, hsize, hk]
  simp only [apartFrom_iff]
  constructor
  · intro h
    exact ⟨fun x h1 h2 => (h x h1 h2).1, fun t ht x h1 h2 => (h x h1 h2).2 t ht⟩
  · intro h x h1 h2
    exact ⟨h.1 x h1 h2, fun t ht => h.2 t ht x h1 h2⟩

/-! ## load -/

/-- the heap pointer and the size of the file that `read_initrd` sees, when the kernel has left the
heap pointer `p` and the file system `f` -/
def initrdFile (fs : BootFs σ φ) (b : Boot) (p : Nat) (f : σ) : Option (Nat × Nat) :=
  match fs.mount b.boot_part p f with
  | (some true, q, f) =>
    match fs.open_ b.initrd_file f with
    | some (some fd, f) => some (q, fs.st_size fd f)
    | _ => none
  | _ => none

/-- `read_initrd` when it finds its file -/
theorem read_initrd_found {file : List UInt8} {s s' : State σ} {r : Int}
    (h : read_initrd M fs file s = (some r, s')) (hr : 0 ≤ r) :
    ∃ fd f, fs.open_ file s.fs = some (some fd, f) ∧
      s'.initrd_start = initrdStart M.clusters s.elf.free_mem_ptr (fs.st_size fd f) ∧
      s'.initrd_size = fs.st_size fd f ∧ s'.elf.parts = s.elf.parts := by
  unfold read_initrd at h
  split at h
  · cases h
  · simp only [Option.some.injEq, Prod.mk.injEq] at h
    omega
  · rename_i fd f hopen
    simp only at h
    split at h <;>
    · obtain ⟨-, rfl⟩ := Prod.mk.inj h
      exact ⟨fd, f, hopen, rfl, rfl, rfl⟩

theorem loadInitrd_found {b : Boot} (hb : b.initrd_file ≠ []) {s s' : State σ}
    (h : loadInitrd M fs b s = (some 0, s')) :
    ∃ p size, initrdFile fs b s.elf.free_mem_ptr s.fs = some (p, size) ∧
      s'.initrd_start = initrdStart M.clusters p size ∧ s'.initrd_size = size ∧
      s'.elf.parts = s.elf.parts := by
  rw [loadInitrd, if_neg hb, mountBoot] at h
  unfold initrdFile
  generalize fs.mount b.boot_part s.elf.free_mem_ptr s.fs = m at h ⊢
  obtain ⟨a, q, f⟩ := m
  rcases a with _ | _ | _
  · cases h
  · simp at h
  · obtain ⟨fd, f', hopen, h1, h2, h3⟩ := read_initrd_found h (le_refl 0)
    simp only at hopen
    simp only [hopen]
    exact ⟨_, _, rfl, h1, h2, h3⟩

/-- a load with an initrd: the kernel comes from `src`, whose load begins in the state `t` -/
theorem load_initrd {inflate : φ → σ → Inflated σ} {b : Boot} {s s' : State σ}
    (hb : b.initrd_file ≠ []) (h : load M fs inflate b s = (some 0, s')) :
    ∃ src t p size, KernelFrom M fs inflate b s src t ∧
      initrdFile fs b (heapAfter M.clusters src.sizes t.elf.free_mem_ptr)
        (loadKernel M fs inflate b s).2.fs = some (p, size) ∧
      s'.initrd_start = initrdStart M.clusters p size ∧ s'.initrd_size = size ∧
      s'.elf.parts = partsAfter src.headers t.elf.parts := by
  unfold load at h
  generalize hk : loadKernel M fs inflate b s = k at h ⊢
  obtain ⟨_ | r, s₀⟩ := k
  · cases h
  · simp only at h ⊢
    by_cases hr : r < 0
    · simp [if_pos hr] at h
    · rw [if_neg hr] at h
      obtain ⟨src, t, hfrom, hleaves⟩ := loadKernel_leaves hk (not_lt.mp hr)
      obtain ⟨p, size, hfile, h1, h2, h3⟩ := loadInitrd_found hb h
      have hfile : initrdFile fs b s₀.elf.free_mem_ptr s₀.fs = some (p, size) := hfile
      rw [hleaves.heap] at hfile
      exact ⟨src, t, p, size, hfrom, hfile, h1, h2, h3.trans hleaves.parts⟩

/-- **When the initrd is in usable memory and apart from the kernel**, for every load that returns 0
with an initrd.  The load of the kernel begins in the state `t`; from the heap pointer there, less what
is allocated, and from the headers of the kernel it follows whether there is room. -/
theorem initrd_apart_iff (M : Machine) (fs : BootFs σ φ) (inflate : φ → σ → Inflated σ) (b : Boot)
    (s s' : State σ) (hb : b.initrd_file ≠ []) (h : load M fs inflate b s = (some 0, s')) :
    ∃ src t p size, KernelFrom M fs inflate b s src t ∧
      initrdFile fs b (heapAfter M.clusters src.sizes t.elf.free_mem_ptr)
        (loadKernel M fs inflate b s).2.fs = some (p, size) ∧
      (Apart M.clusters s' ↔
        Room M.clusters (rangesOf (partsAfter src.headers t.elf.parts)) p size) := by
  obtain ⟨src, t, p, size, hfrom, hfile, h1, h2, h3⟩ := load_initrd hb h
  exact ⟨src, t, p, size, hfrom, hfile, apart_iff_room h1 h2 (congrArg rangesOf h3)⟩

end

/-! ## two loads -/

/-- two segments and a bss of 8000 bytes -/
def bssKernel : Nat → UInt8 :=
  image [⟨PT_LOAD, 176, START_ADDR, 3, 3⟩, ⟨PT_LOAD, 179, START_ADDR + 16, 2, 8002⟩] [7, 8, 9, 10, 11]

/-- a machine with this kernel on its disk and memory up to the page `top` -/
def topMachine (top : Nat) : Machine :=
  Machine.faultless (fun _ x => bssKernel (x - 1024).toNat) (fun _ _ => 0)
    [⟨0, 256, 1⟩, ⟨256, top - 256, 0⟩]

def topBoot : Boot := ⟨0, 0, ['-'.toUInt8], ['i'.toUInt8], 2⟩

/-- a raw boot of it with an initrd of 8192 bytes from partition 2 -/
def topLoad (top : Nat) : Option Int × State Unit :=
  load (topMachine top) (oneFile 512 8192 fun _ => 0) (fun _ _ => ⟨[], false, [], ()⟩) topBoot
    (powerOn ())

theorem initrd_apart_top :
    ∃ s', topLoad 1024 = (some 0, s') ∧ s'.initrd_start = 0xfffffc00007fc000 ∧
      Apart (topMachine 1024).clusters s' := by
  have h0 : (topLoad 1024).1 = some 0 := by decide +kernel
  have h1 : (topLoad 1024).2.initrd_start = 0xfffffc00007fc000 := by decide +kernel
  have hsrc : rangesOf (partsAfter (rawSource (topMachine 1024) 0 0 (powerOn ())).headers
        (powerOn ()).elf.parts)
      = [(START_ADDR + 18, 8000), (START_ADDR, 3), (START_ADDR + 16, 2)] := by decide +kernel
  have hheap : heapAfter (topMachine 1024).clusters
      (rawSource (topMachine 1024) 0 0 (powerOn ())).sizes 0 = 0xfffffc00007ffdd0 := by decide +kernel
  generalize hr : topLoad 1024 = r at h0 h1 ⊢
  obtain ⟨n, s'⟩ := r
  obtain rfl : n = some 0 := h0
  refine ⟨s', rfl, h1, ?_⟩
  obtain ⟨src, t, p, size, hfrom, hfile, hiff⟩ := initrd_apart_iff (topMachine 1024)
    (oneFile 512 8192 fun _ => 0) (fun _ _ => ⟨[], false, [], ()⟩) topBoot (powerOn ()) s' (by decide) hr
  rcases hfrom with ⟨-, rfl, rfl⟩ | ⟨hne, -⟩
  · have hp : (heapAfter (topMachine 1024).clusters
        (rawSource (topMachine 1024) 0 0 (powerOn ())).sizes 0, 8192) = (p, size) := Option.some.inj hfile
    rw [hheap] at hp
    obtain ⟨rfl, rfl⟩ := Prod.mk.inj hp
    rw [hiff]
    refine ⟨fun j hj => ⟨⟨256, 768, 0⟩, by simp [topMachine, Machine.faultless], rfl, ?_⟩, ?_⟩
    · revert j
      decide +kernel
    · exact hsrc ▸ by decide +kernel
  · exact absurd rfl hne

/-- the memory ends two pages above the start of the kernel: the initrd is put on it -/
theorem initrd_on_kernel :
    ∃ s', topLoad 394 = (some 0, s') ∧ s'.initrd_start = START_ADDR ∧ s'.initrd_size = 8192 ∧
      s'.elf.segments = [⟨START_ADDR, 176, 3⟩, ⟨START_ADDR + 16, 179, 2⟩] ∧
      ¬ Apart (topMachine 394).clusters s' := by
  have h0 : ((topLoad 394).1, (topLoad 394).2.initrd_start, (topLoad 394).2.initrd_size,
      (topLoad 394).2.elf.segments)
      = (some 0, START_ADDR, 8192, [⟨START_ADDR, 176, 3⟩, ⟨START_ADDR + 16, 179, 2⟩]) := by
    decide +kernel
  generalize topLoad 394 = r at h0
  obtain ⟨n, s'⟩ := r
  simp only [Prod.mk.injEq] at h0
  obtain ⟨rfl, h2, h3, h4⟩ := h0
  refine ⟨s', rfl, h2, h3, h4, fun h => ?_⟩
  have hx := (h START_ADDR (by rw [h2]) (by rw [h2, h3]; omega)).2 (START_ADDR, 3)
    (by rw [kernelRanges, rangesOf, Elf.parts, h4]; simp)
  exact hx ⟨le_refl _, by simp⟩

end Load
