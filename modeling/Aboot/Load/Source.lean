import Aboot.Load.Placed
import Aboot.Load.Plan

/-!
# What a load allocates, and the ranges of its kernel

The heap pointer after a load follows from the sizes that are allocated, and the ranges of the kernel
from the headers that are accepted.

* `Source`             the headers of a kernel and the sizes of its `malloc`s;
* `Leaves`             the variables after a load are those of a source;
* `flushAll_leaves`    the windows of a compressed kernel;
* `readMethod_leaves`  an attempt of `read_kernel` that returns;
* `Tried`              the attempt that loads the kernel;
* `loadKernel_leaves`  the kernel of a load, by either path.
-/

namespace Load
open Word State

/-- the bss and the segments -/
def Elf.parts (v : Elf) : (Nat × Nat) × List Segment := (v.bss, v.segments)

/-- the bss and the segments after headers were accepted, one after the other -/
def partsAfter (headers : List Mem) (r : (Nat × Nat) × List Segment) : (Nat × Nat) × List Segment :=
  headers.foldl (fun r buf => (bssOf (phdrs buf) r.1, segmentsOf (phdrs buf))) r

/-- the heap pointer after `malloc`s -/
def heapAfter (clusters : List Cluster) (sizes : List Nat) (p : Nat) : Nat :=
  sizes.foldl (malloc clusters) p

/-- the headers that are accepted in a load, and the sizes that it allocates -/
structure Source where
  headers : List Mem
  sizes : List Nat

/-- one after the other -/
def Source.append (a b : Source) : Source := ⟨a.headers ++ b.headers, a.sizes ++ b.sizes⟩

/-- headers in a buffer: the table of segments is allocated -/
def Source.table (buf : Mem) : Source := ⟨[buf], [sizeof_segment * e_phnum buf]⟩

/-- the variables after a load are those of a source -/
structure Leaves (clusters : List Cluster) (src : Source) (v v' : Elf) : Prop where
  parts : v'.parts = partsAfter src.headers v.parts
  heap : v'.free_mem_ptr = heapAfter clusters src.sizes v.free_mem_ptr

section
variable {clusters : List Cluster} {v w v' : Elf}

theorem Leaves.trans {a b : Source} (h1 : Leaves clusters a v w) (h2 : Leaves clusters b w v') :
    Leaves clusters (a.append b) v v' where
  parts := by rw [h2.parts, h1.parts]; exact (List.foldl_append).symm
  heap := by rw [h2.heap, h1.heap]; exact (List.foldl_append).symm

/-- a `malloc` -/
theorem Leaves.alloc (clusters : List Cluster) (v : Elf) (n : Nat) :
    Leaves clusters ⟨[], [n]⟩ v { v with free_mem_ptr := malloc clusters v.free_mem_ptr n } :=
  ⟨rfl, rfl⟩

end

section
variable {σ φ : Type} {M : Machine} {fs : BootFs σ φ}

theorem loadable_leaves {buf : Mem} {bs : Int} {s s' : State σ}
    (h : loadable M buf bs s = (some true, s')) :
    Leaves M.clusters (Source.table buf) s.elf s'.elf := by
  obtain ⟨h1, rfl⟩ := Prod.mk.inj h
  have hv : is_loadable_elf M.clusters buf bs s.elf
      = (some true, (is_loadable_elf M.clusters buf bs s.elf).2) := Prod.ext h1 rfl
  have ht := is_loadable_elf_table hv
  exact ⟨Prod.ext ht.bss ht.segments, ht.heap.trans ht.table⟩

/-! ## both plain paths -/

/-- the kernel of a raw boot -/
def rawSource (M : Machine) (aboot_size : Nat) (dev : Int) (s : State σ) : Source :=
  Source.append ⟨[], [512]⟩ (Source.table (rawHeader M aboot_size dev s))

theorem load_raw_leaves {aboot_size : Nat} {dev : Int} {s s' : State σ} {r : Int}
    (h : load_raw M aboot_size dev s = (some r, s')) (hr : 0 ≤ r) :
    Leaves M.clusters (rawSource M aboot_size dev s) s.elf s'.elf := by
  unfold load_raw at h
  simp only at h
  split at h
  · cases h
  · split at h
    · obtain ⟨h, -⟩ := Prod.mk.inj h
      obtain rfl := Option.some.inj h
      exact absurd hr (by decide)
    · split at h
      · cases h
      · obtain ⟨h, -⟩ := Prod.mk.inj h
        obtain rfl := Option.some.inj h
        exact absurd hr (by decide)
      · rename_i s1 hl
        have htab := loadable_leaves hl
        obtain ⟨-, rfl⟩ := Prod.mk.inj h
        rw [rawSegments_elf]
        exact (Leaves.alloc M.clusters s.elf 512).trans htab

/-- the kernel of a plain file -/
def fileSource (M : Machine) (fs : BootFs σ φ) (fd : φ) (s : State σ) : Source :=
  Source.append ⟨[], [uns 64 (fs.blocksize s.fs)]⟩ (Source.table (fileHeader M fs fd s))

theorem load_uncompressed_leaves {fd : φ} {s s' : State σ} {r : Int}
    (h : load_uncompressed M fs fd s = (some r, s')) (hr : 0 ≤ r) :
    Leaves M.clusters (fileSource M fs fd s) s.elf s'.elf := by
  unfold load_uncompressed at h
  simp only at h
  split at h
  · cases h
  · split at h
    · obtain ⟨h, -⟩ := Prod.mk.inj h
      obtain rfl := Option.some.inj h
      exact absurd hr (by decide)
    · split at h
      · cases h
      · obtain ⟨h, -⟩ := Prod.mk.inj h
        obtain rfl := Option.some.inj h
        exact absurd hr (by decide)
      · rename_i s1 hl
        have htab := loadable_leaves hl
        obtain ⟨-, rfl⟩ := Prod.mk.inj h
        rw [readSegments_elf]
        exact (Leaves.alloc M.clusters s.elf (uns 64 (fs.blocksize s.fs))).trans htab

/-! ## a compressed kernel -/

theorem mallocs_some {clusters : List Cluster} (ns : List Nat) :
    ∀ p, (mallocs clusters ns p).1.isSome → (mallocs clusters ns p).2 = heapAfter clusters ns p := by
  induction ns with
  | nil => intro p _; rfl
  | cons n ns ih =>
    intro p h
    unfold mallocs at h ⊢
    split at h
    · cases h
    · rename_i hout
      rw [if_neg hout]
      exact ih _ h

theorem allocated_leaves {ns : List Nat} {f : σ} {s : State σ}
    (h : (allocated M ns f s).1 = true) :
    Leaves M.clusters ⟨[], ns⟩ s.elf (allocated M ns f s).2.elf :=
  ⟨rfl, mallocs_some ns _ h⟩

/-- the windows of a compressed kernel, `bytes_out` bytes of which are out: the first bytes are those
of its headers -/
def windowsSource : (bytes_out : Nat) → List (Window σ) → Source
  | _, [] => ⟨[], []⟩
  | n, w :: ws =>
    let rest := windowsSource (uns 64 (n + w.outcnt : Nat)) ws
    Source.append ⟨[], w.mallocs⟩
      (if w.outcnt ≠ 0 ∧ n = 0 then (Source.table w.bytes).append rest else rest)

/-- a window that is flushed -/
theorem flush_window_leaves {bytes : Mem} {n : Nat} {z z' : Zip} {s s' : State σ}
    (h : flush_window M bytes n z s = (some z', s')) (hz : z.bytes_out < 18446744073709551616) :
    z'.bytes_out = uns 64 (z.bytes_out + n : Nat) ∧
      Leaves M.clusters (if n ≠ 0 ∧ z.bytes_out = 0 then Source.table bytes else ⟨[], []⟩) s.elf s'.elf := by
  have hcopies {a : State σ} (h : flushCopies n z a = (some z', s')) :
      z'.bytes_out = uns 64 (z.bytes_out + n : Nat) ∧ s'.elf = a.elf := by
    unfold flushCopies at h
    obtain ⟨h1, rfl⟩ := Prod.mk.inj h
    obtain ⟨p, -, rfl⟩ := Option.map_eq_some_iff.mp h1
    exact ⟨rfl, flushLoop_elf _ _ _ _ _ _ _⟩
  unfold flush_window at h
  split at h
  · rename_i hn
    obtain ⟨h1, rfl⟩ := Prod.mk.inj h
    obtain rfl := Option.some.inj h1
    rw [if_neg fun hc => hc.1 hn, hn, Nat.add_zero, uns64_natCast hz]
    exact ⟨rfl, rfl, rfl⟩
  · rename_i hn
    split at h
    · rename_i h0
      split at h
      · rename_i s1 hl
        obtain ⟨h1, h2⟩ := hcopies h
        have hl := loadable_leaves hl
        rw [if_pos ⟨hn, h0⟩, h2]
        exact ⟨h1, hl.parts, hl.heap⟩
      · cases h
    · rename_i h0
      obtain ⟨h1, h2⟩ := hcopies h
      rw [if_neg fun hc => h0 hc.2, h2]
      exact ⟨h1, rfl, rfl⟩

theorem flushAll_leaves (ws : List (Window σ)) :
    ∀ (z z' : Zip) (s s' : State σ), flushAll M ws z s = (some z', s') →
      z.bytes_out < 18446744073709551616 →
      Leaves M.clusters (windowsSource z.bytes_out ws) s.elf s'.elf := by
  induction ws with
  | nil =>
    intro z z' s s' h _
    obtain ⟨-, rfl⟩ := Prod.mk.inj h
    exact ⟨rfl, rfl⟩
  | cons w ws ih =>
    intro z z' s s' h hz
    unfold flushAll at h
    split at h
    · rename_i ha
      have h1 := allocated_leaves ha
      split at h
      · cases h
      · rename_i z1 s1 hw
        obtain ⟨hb, h2⟩ := flush_window_leaves hw hz
        have h3 := ih z1 z' s1 s' h (by rw [hb]; exact uns64_lt _)
        rw [hb] at h3
        refine h1.trans ?_
        split
        · rename_i hc
          rw [if_pos hc] at h2
          exact h2.trans h3
        · rename_i hc
          rw [if_neg hc] at h2
          exact h2.trans h3
    · cases h

/-- the kernel of a compressed file -/
def zippedSource (r : Inflated σ) : Source :=
  Source.append ⟨[], [INBUFSIZ, WSIZE]⟩ ((windowsSource 0 r.windows).append ⟨[], r.mallocs⟩)

theorem uncompress_kernel_leaves {inflate : φ → σ → Inflated σ} {fd : φ} {s s' : State σ} {r : Int}
    (h : uncompress_kernel M inflate fd s = (some r, s')) :
    Leaves M.clusters (zippedSource (inflate fd s.fs)) s.elf s'.elf := by
  unfold uncompress_kernel at h
  simp only at h
  split at h
  · cases h
  · rename_i ha
    have h1 := allocated_leaves (Bool.not_eq_false _ ▸ ha)
    split at h
    · cases h
    · rename_i z s1 hf
      have h2 := flushAll_leaves _ _ _ _ _ hf (Nat.zero_lt_succ _)
      split at h
      · rename_i hb
        obtain ⟨-, rfl⟩ := Prod.mk.inj h
        exact h1.trans (h2.trans (allocated_leaves hb.1))
      · cases h

/-! ## the attempts -/

/-- the kernel of an attempt of `read_kernel` -/
def methodSource (M : Machine) (fs : BootFs σ φ) (inflate : φ → σ → Inflated σ) (method : Bool)
    (fd : φ) (s : State σ) : Source :=
  if method then zippedSource (inflate fd s.fs) else fileSource M fs fd s

theorem readMethod_leaves {inflate : φ → σ → Inflated σ} {method : Bool} {fd : φ} {s s' : State σ}
    {r : Int} (h : readMethod M fs inflate method fd s = (some r, s')) (hr : 0 ≤ r) :
    Leaves M.clusters (methodSource M fs inflate method fd s) s.elf s'.elf := by
  cases method with
  | false => exact load_uncompressed_leaves h hr
  | true => exact uncompress_kernel_leaves h

/-- the attempt of `read_kernel` that loads the kernel: its method, its file descriptor and the state
in which it begins.  An attempt before it has failed. -/
inductive Tried (M : Machine) (fs : BootFs σ φ) (inflate : φ → σ → Inflated σ) (filename : List UInt8) :
    (attempts : Nat) → (method : Bool) → State σ → Bool → φ → State σ → Prop
  | loads {n : Nat} {method : Bool} {s s' : State σ} {fd : φ} {f : σ} {r : Int}
      (hopen : fs.open_ filename s.fs = some (some fd, f))
      (h : readMethod M fs inflate method fd { s with fs := f } = (some r, s')) (hr : 0 ≤ r) :
      Tried M fs inflate filename (n + 1) method s method fd { s with fs := f }
  | fails {n : Nat} {method m : Bool} {s s' t : State σ} {fd d : φ} {f : σ} {r : Int}
      (hopen : fs.open_ filename s.fs = some (some fd, f))
      (h : readMethod M fs inflate method fd { s with fs := f } = (some r, s')) (hr : r < 0)
      (hnext : Tried M fs inflate filename n (!method) { s' with fs := fs.close fd s'.fs } m d t) :
      Tried M fs inflate filename (n + 1) method s m d t
  | jumps {n : Nat} {method m : Bool} {s s' t : State σ} {fd d : φ} {f : σ}
      (hopen : fs.open_ filename s.fs = some (some fd, f))
      (h : readMethod M fs inflate method fd { s with fs := f } = (none, s'))
      (hnext : Tried M fs inflate filename n (!method) s' m d t) :
      Tried M fs inflate filename (n + 1) method s m d t

theorem readAttempts_leaves {inflate : φ → σ → Inflated σ} {filename : List UInt8} (n : Nat) :
    ∀ (method : Bool) (s s' : State σ) (r : Int),
      readAttempts M fs inflate filename n method s = (some r, s') → 0 ≤ r →
      ∃ m fd t, Tried M fs inflate filename n method s m fd t ∧
        Leaves M.clusters (methodSource M fs inflate m fd t) t.elf s'.elf := by
  induction n with
  | zero =>
    intro method s s' r h hr
    obtain ⟨h, -⟩ := Prod.mk.inj h
    obtain rfl := Option.some.inj h
    exact absurd hr (by decide)
  | succ n ih =>
    intro method s s' r h hr
    unfold readAttempts at h
    split at h
    · cases h
    · obtain ⟨h, -⟩ := Prod.mk.inj h
      obtain rfl := Option.some.inj h
      exact absurd hr (by decide)
    · rename_i fd f hopen
      split at h
      · rename_i res s1 hm
        simp only at h
        split at h
        · rename_i hres
          obtain ⟨-, rfl⟩ := Prod.mk.inj h
          have hl := readMethod_leaves hm hres
          exact ⟨_, _, _, .loads hopen hm hres, hl.parts, hl.heap⟩
        · rename_i hres
          obtain ⟨m, d, t, ht, hl⟩ := ih _ _ _ _ h hr
          exact ⟨m, d, t, .fails hopen hm (not_le.mp hres) ht, hl⟩
      · rename_i s1 hm
        split at h
        · cases h
        · obtain ⟨m, d, t, ht, hl⟩ := ih _ _ _ _ h hr
          exact ⟨m, d, t, .jumps hopen hm ht, hl⟩

/-- where the kernel of a load comes from: its source, and the state in which its load begins -/
def KernelFrom (M : Machine) (fs : BootFs σ φ) (inflate : φ → σ → Inflated σ) (b : Boot)
    (s : State σ) (src : Source) (t : State σ) : Prop :=
  (b.boot_file = ['-'.toUInt8] ∧ t = s ∧ src = rawSource M b.aboot_size b.dev s) ∨
    b.boot_file ≠ ['-'.toUInt8] ∧ ∃ method fd,
      Tried M fs inflate b.boot_file 2 (gzName b.boot_file) (mountBoot fs b s).2 method fd t ∧
        src = methodSource M fs inflate method fd t

theorem loadKernel_leaves {inflate : φ → σ → Inflated σ} {b : Boot} {s s' : State σ} {r : Int}
    (h : loadKernel M fs inflate b s = (some r, s')) (hr : 0 ≤ r) :
    ∃ src t, KernelFrom M fs inflate b s src t ∧ Leaves M.clusters src t.elf s'.elf := by
  unfold loadKernel at h
  split at h
  · rename_i hfile
    exact ⟨_, _, Or.inl ⟨hfile, rfl, rfl⟩, load_raw_leaves h hr⟩
  · rename_i hfile
    split at h
    · cases h
    · obtain ⟨h, -⟩ := Prod.mk.inj h
      obtain rfl := Option.some.inj h
      exact absurd hr (by decide)
    · rename_i s1 hmount
      obtain ⟨m, fd, t, ht, hl⟩ := readAttempts_leaves 2 _ _ _ _ h hr
      exact ⟨_, t, Or.inr ⟨hfile, m, fd, by rw [hmount]; exact ht, rfl⟩, hl⟩

end

end Load
