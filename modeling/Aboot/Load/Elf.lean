import Aboot.Machine

/-!
# aboot.c: the program headers

`is_loadable_elf` and what it leaves: the table of segments, the bss and the entry point.

* `Phdr`, `Ehdr`       the fields of the headers in a buffer;
* `loadPhdrs`          the loop over the program headers;
* `loadPhdrs_spec`     every segment of an accepted table was checked;
* `is_loadable_elf_spec`   the same of a whole buffer.

`checked` records the ranges for which `check_memory` was called and returned 0, and `exhausted`
that `malloc` has taken its error exit; nothing in the source depends on them.
-/

set_option linter.unusedVariables false

namespace Load
open Word

/-- an entry of `chunks` -/
structure Segment where
  addr : Nat
  offset : Nat
  size : Nat
deriving DecidableEq, Repr

/-- one past the last byte of a segment in the file -/
def Segment.fileEnd (s : Segment) : Nat := s.offset + s.size

/-- the variables of aboot.c that `is_loadable_elf` sets, and the heap -/
structure Elf where
  /-- the pointer `chunks` -/
  table : Nat
  /-- what was stored there -/
  chunks : List Segment
  nchunks : Nat
  start_addr : Nat
  entry_addr : Nat
  bss_start : Nat
  bss_size : Int
  free_mem_ptr : Nat
  checked : List Segment
  exhausted : Bool
deriving DecidableEq, Repr

/-- the segments of the table: `chunks[0 .. nchunks)` -/
def Elf.segments (v : Elf) : List Segment := v.chunks.take v.nchunks

def START_ADDR : Nat := 0xfffffc0000310000

/-- the variables at power-on -/
def Elf.powerOn : Elf := ⟨0, [], 0, START_ADDR, START_ADDR, 0, 0, 0, [], false⟩

/-! ## the headers -/

def PT_LOAD : Nat := 1
def ET_EXEC : Nat := 2
def EM_ALPHA : Nat := 0x9026
def ELFCLASS64 : UInt8 := 2
def ELFDATA2LSB : UInt8 := 1
def sizeof_Phdr : Nat := 56
def sizeof_segment : Nat := 24

def e_type (buf : Mem) : Nat := buf.le16 16
def e_machine (buf : Mem) : Nat := buf.le16 18
def e_entry (buf : Mem) : Nat := buf.le64 24
def e_phoff (buf : Mem) : Nat := buf.le64 32
def e_phnum (buf : Mem) : Nat := buf.le16 56

structure Phdr where
  p_type : Nat
  p_offset : Nat
  p_vaddr : Nat
  p_filesz : Nat
  p_memsz : Nat
deriving DecidableEq, Repr

/-- the program header `i`; the pointer may run around the address space -/
def phdr (buf : Mem) (i : Nat) : Phdr :=
  let a := uns 64 (e_phoff buf + i * sizeof_Phdr : Nat)
  ⟨buf.le32 a, buf.le64 (a + 8), buf.le64 (a + 16), buf.le64 (a + 32), buf.le64 (a + 40)⟩

/-- the segment of a program header -/
def Phdr.segment (ph : Phdr) : Segment := ⟨ph.p_vaddr, ph.p_offset, ph.p_filesz⟩

/-- the loop over the program headers -/
def loadPhdrs (clusters : List Cluster) : List Phdr → Elf → Bool × Elf
  | [], v => (true, { v with nchunks := v.chunks.length })
  | ph :: phs, v =>
    if ph.p_type ≠ PT_LOAD then loadPhdrs clusters phs v
    else
      let v' := { v with chunks := v.chunks ++ [ph.segment] }
      if check_memory clusters ph.p_vaddr ph.p_filesz ≠ 0 then (false, v')
      else
        let v' := { v' with checked := v.checked ++ [ph.segment] }
        if ph.p_filesz < ph.p_memsz then
          if 0 < v.bss_size then (false, v')
          else
            loadPhdrs clusters phs
              { v' with
                bss_start := uns 64 (ph.p_vaddr + ph.p_filesz : Nat)
                bss_size := sgn 64 ((ph.p_memsz : Int) - ph.p_filesz) }
        else loadPhdrs clusters phs v'

/-- is it an executable for this machine, with its program headers in the first block? -/
def headerFine (buf : Mem) (blocksize : Int) : Bool :=
  buf 0 = 0x7f ∧ buf 1 = 'E'.toUInt8 ∧ buf 2 = 'L'.toUInt8 ∧ buf 3 = 'F'.toUInt8 ∧
    buf 4 = ELFCLASS64 ∧ buf 5 = ELFDATA2LSB ∧ e_machine buf = EM_ALPHA ∧ e_type buf = ET_EXEC ∧
    uns 64 (e_phoff buf + e_phnum buf * sizeof_Phdr : Nat) ≤ uns 32 blocksize

/-- the program headers of a buffer -/
def phdrs (buf : Mem) : List Phdr := (List.range (e_phnum buf)).map (phdr buf)

/-- `is_loadable_elf`; `none` is the error exit of `malloc` -/
def is_loadable_elf (clusters : List Cluster) (buf : Mem) (blocksize : Int) (v : Elf) :
    Option Bool × Elf :=
  if headerFine buf blocksize then
    let p := malloc clusters v.free_mem_ptr (sizeof_segment * e_phnum buf)
    if out_of_memory p then (none, { v with free_mem_ptr := p, exhausted := true })
    else
      let r := loadPhdrs clusters (phdrs buf)
        { v with
          free_mem_ptr := p
          table := p
          chunks := []
          start_addr := (phdr buf 0).p_vaddr
          entry_addr := e_entry buf }
      (some r.1, r.2)
  else (some false, v)

/-! ## what is accepted -/

/-- the segments of the program headers -/
def segmentsOf (phs : List Phdr) : List Segment :=
  (phs.filter fun ph => ph.p_type = PT_LOAD).map Phdr.segment

/-- what an accepted table is: the segments of the program headers, each of them checked -/
structure Accepted (clusters : List Cluster) (segs : List Segment) (v v' : Elf) : Prop where
  chunks : v'.chunks = v.chunks ++ segs
  nchunks : v'.nchunks = v'.chunks.length
  checked : v'.checked = v.checked ++ segs
  free : ∀ s ∈ segs, check_memory clusters s.addr s.size = 0

/-- one more segment before the others -/
theorem Accepted.cons {clusters : List Cluster} {segs : List Segment} {s : Segment} {v w v' : Elf}
    (h1 : w.chunks = v.chunks ++ [s]) (h2 : w.checked = v.checked ++ [s])
    (hc : check_memory clusters s.addr s.size = 0) (h : Accepted clusters segs w v') :
    Accepted clusters (s :: segs) v v' where
  chunks := by rw [h.chunks, h1, List.append_assoc]; rfl
  nchunks := h.nchunks
  checked := by rw [h.checked, h2, List.append_assoc]; rfl
  free := List.forall_mem_cons.mpr ⟨hc, h.free⟩

theorem loadPhdrs_spec {clusters : List Cluster} (phs : List Phdr) :
    ∀ v : Elf, (loadPhdrs clusters phs v).1 = true →
      Accepted clusters (segmentsOf phs) v (loadPhdrs clusters phs v).2 := by
  induction phs with
  | nil =>
    intro v h
    exact ⟨(List.append_nil _).symm, rfl, (List.append_nil _).symm, by simp [segmentsOf]⟩
  | cons ph phs ih =>
    intro v h
    unfold loadPhdrs at h ⊢
    by_cases ht : ph.p_type ≠ PT_LOAD
    · rw [if_pos ht] at h ⊢
      have e : segmentsOf (ph :: phs) = segmentsOf phs := by simp [segmentsOf, ht]
      rw [e]
      exact ih v h
    · have e : segmentsOf (ph :: phs) = ph.segment :: segmentsOf phs := by
        simp only [not_not] at ht
        simp [segmentsOf, ht]
      rw [if_neg ht] at h ⊢
      rw [e]
      simp only at h ⊢
      by_cases hc : check_memory clusters ph.p_vaddr ph.p_filesz ≠ 0
      · rw [if_pos hc] at h; cases h
      rw [if_neg hc] at h ⊢
      have hc := not_not.mp hc
      by_cases hm : ph.p_filesz < ph.p_memsz
      · rw [if_pos hm] at h ⊢
        by_cases hb : 0 < v.bss_size
        · rw [if_pos hb] at h; cases h
        · rw [if_neg hb] at h ⊢
          exact Accepted.cons rfl rfl hc (ih _ h)
      · rw [if_neg hm] at h ⊢
        exact Accepted.cons rfl rfl hc (ih _ h)

/-- an accepted buffer: its segments are the table, and each of them was checked -/
theorem is_loadable_elf_spec {clusters : List Cluster} {buf : Mem} {blocksize : Int} {v v' : Elf}
    (h : is_loadable_elf clusters buf blocksize v = (some true, v')) :
    v'.segments = segmentsOf (phdrs buf) ∧ v'.checked = v.checked ++ v'.segments ∧
      ∀ s ∈ v'.segments, check_memory clusters s.addr s.size = 0 := by
  unfold is_loadable_elf at h
  split at h
  · simp only at h
    split at h
    · cases h
    · obtain ⟨h1, h2⟩ := Prod.mk.inj h
      have ha := loadPhdrs_spec (phdrs buf) _ (Option.some.inj h1)
      rw [h2] at ha
      have hseg : v'.segments = segmentsOf (phdrs buf) := by
        rw [Elf.segments, ha.nchunks, List.take_length, ha.chunks]
        rfl
      rw [hseg]
      exact ⟨rfl, ha.checked, ha.free⟩
  · cases h

end Load
