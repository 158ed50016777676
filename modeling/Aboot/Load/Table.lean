import Aboot.Lib.Bytes
import Aboot.Load.Elf

/-!
# aboot.c: the table of segments in memory

`chunks` is a block of the heap.  `is_loadable_elf` stores the entries, and the loaders read them
from there again, field by field, while they store the segments.

* `chunkAt`           the entry that is read at an index;
* `storeTable`        the table that `is_loadable_elf` leaves;
* `Holds`             the entries from an index on are those of a list;
* `holds_storeTable`  they are right after `is_loadable_elf`;
* `Holds.congr`       they stay as long as nothing is stored to them.
-/

namespace Load
open Word Bytes

/-- two ranges with no common byte: one of them is empty, or one ends before the other starts -/
def ApartFrom (r t : Nat × Nat) : Prop := r.2 = 0 ∨ t.2 = 0 ∨ r.1 + r.2 ≤ t.1 ∨ t.1 + t.2 ≤ r.1

instance (r t : Nat × Nat) : Decidable (ApartFrom r t) := inferInstanceAs (Decidable (_ ∨ _))

theorem apartFrom_iff {r t : Nat × Nat} :
    ApartFrom r t ↔ ∀ x, r.1 ≤ x → x < r.1 + r.2 → ¬ (t.1 ≤ x ∧ x < t.1 + t.2) := by
  unfold ApartFrom
  constructor
  · intro h x h1 h2
    omega
  · intro h
    have h1 := h r.1
    have h2 := h t.1
    omega

/-- a byte of the one range is outside the other -/
theorem ApartFrom.out {r t : Nat × Nat} (h : ApartFrom r t) {x : Nat} (h1 : t.1 ≤ x)
    (h2 : x < t.1 + t.2) : x < r.1 ∨ r.1 + r.2 ≤ x := by
  unfold ApartFrom at h
  omega

theorem ApartFrom.shorter {a n k : Nat} {t : Nat × Nat} (h : ApartFrom (a, n) t) (hk : k ≤ n) :
    ApartFrom (a, k) t := by
  unfold ApartFrom at *
  simp only at *
  omega

/-! ## the entries -/

/-- the bytes of an entry -/
def Segment.encode (s : Segment) : List UInt8 := ofNum s.addr 8 ++ ofNum s.offset 8 ++ ofNum s.size 8

/-- `chunks[i]`, in a table at `table` -/
@[irreducible]
def chunkAt (m : Mem) (table i : Nat) : Segment :=
  ⟨m.le64 (table + sizeof_segment * i), m.le64 (table + sizeof_segment * i + 8),
    m.le64 (table + sizeof_segment * i + 16)⟩

theorem chunkAt_offset (m : Mem) (table i : Nat) :
    (chunkAt m table i).offset = m.le64 (table + sizeof_segment * i + 8) := by
  rw [chunkAt]

theorem chunkAt_size (m : Mem) (table i : Nat) :
    (chunkAt m table i).size = m.le64 (table + sizeof_segment * i + 16) := by
  rw [chunkAt]

/-- the entries are stored -/
def storeTable (v : Elf) (m : Mem) : Mem := m.put v.table (v.chunks.flatMap Segment.encode)

/-- the fields of a segment are 64-bit numbers -/
structure Segment.Fits (s : Segment) : Prop where
  addr : s.addr < 18446744073709551616
  offset : s.offset < 18446744073709551616
  size : s.size < 18446744073709551616

@[simp] theorem Segment.length_encode (s : Segment) : s.encode.length = sizeof_segment := by
  simp [Segment.encode, sizeof_segment]

theorem chunkAt_congr {m m' : Mem} {table i : Nat}
    (h : ∀ x, table + sizeof_segment * i ≤ x → x < table + sizeof_segment * (i + 1) → m x = m' x) :
    chunkAt m table i = chunkAt m' table i := by
  unfold sizeof_segment at h
  have hle (off : Nat) (hoff : off + 8 ≤ 24) :
      m.le (table + 24 * i + off) 8 = m'.le (table + 24 * i + off) 8 :=
    Bytes.le_congr fun j hj => h _ (by omega) (by omega)
  unfold chunkAt Mem.le64 sizeof_segment
  rw [← Nat.add_zero (table + 24 * i), hle 0 (by omega), Nat.add_zero, hle 8 (by omega),
    hle 16 (by omega)]

/-- an entry that was stored is read back -/
theorem chunkAt_put (m : Mem) (table i : Nat) {s : Segment} (hs : s.Fits) :
    chunkAt (m.put (table + sizeof_segment * i) s.encode) table i = s := by
  generalize ha : table + sizeof_segment * i = a
  have h1 : (m.put a s.encode).le64 a = s.addr := by
    rw [Segment.encode, List.append_assoc, ← Mem.put_append, Mem.le64, le_put_out _ _ _ _ _
      (Or.inl (by rw [length_ofNum])), le_put_self]
    exact Nat.mod_eq_of_lt hs.addr
  have h2 : (m.put a s.encode).le64 (a + 8) = s.offset := by
    rw [Segment.encode, ← Mem.put_append, Mem.le64, le_put_out _ _ _ _ _
      (Or.inl (by simp [length_ofNum])), ← Mem.put_append, length_ofNum, le_put_self]
    exact Nat.mod_eq_of_lt hs.offset
  have h3 : (m.put a s.encode).le64 (a + 16) = s.size := by
    rw [Segment.encode, ← Mem.put_append, Mem.le64, List.length_append, length_ofNum, length_ofNum,
      le_put_self]
    exact Nat.mod_eq_of_lt hs.size
  rw [chunkAt, ha, h1, h2, h3]

/-! ## the table -/

/-- the entries from `chunks[i]` on are those of a list -/
def Holds (m : Mem) (table : Nat) : (i : Nat) → List Segment → Prop
  | _, [] => True
  | i, s :: segs => chunkAt m table i = s ∧ Holds m table (i + 1) segs

/-- they stay when nothing is stored to them -/
theorem Holds.congr {m m' : Mem} {table : Nat} (segs : List Segment) :
    ∀ i, (∀ x, table + sizeof_segment * i ≤ x → x < table + sizeof_segment * (i + segs.length) →
      m' x = m x) → Holds m table i segs → Holds m' table i segs := by
  induction segs with
  | nil => intro i _ _; trivial
  | cons s segs ih =>
    intro i h hm
    unfold sizeof_segment at h
    rw [List.length_cons] at h
    refine ⟨?_, ih (i + 1) (fun x h1 h2 => h x ?_ ?_) hm.2⟩
    · rw [@chunkAt_congr _ m _ _ fun x h1 h2 => h x h1 (by unfold sizeof_segment at h2; omega)]
      exact hm.1
    · unfold sizeof_segment at h1
      omega
    · unfold sizeof_segment at h2
      omega

/-- nothing is stored to the entries from `chunks[i]` on -/
theorem Holds.put {m : Mem} {table i a : Nat} {segs : List Segment} {bs : List UInt8}
    (hm : Holds m table i segs)
    (h : ApartFrom (a, bs.length) (table + sizeof_segment * i, sizeof_segment * segs.length)) :
    Holds (m.put a bs) table i segs := by
  refine hm.congr segs i fun x h1 h2 => Mem.put_out m a x bs (h.out h1 ?_)
  rw [Nat.mul_add, ← Nat.add_assoc] at h2
  exact h2

theorem holds_put_table (table : Nat) (segs : List Segment) (hs : ∀ s ∈ segs, s.Fits) :
    ∀ (m : Mem) (i : Nat), Holds (m.put (table + sizeof_segment * i) (segs.flatMap Segment.encode))
      table i segs := by
  induction segs with
  | nil => intro m i; trivial
  | cons s segs ih =>
    intro m i
    have hnext : table + sizeof_segment * i + s.encode.length = table + sizeof_segment * (i + 1) := by
      rw [Segment.length_encode, Nat.mul_succ, Nat.add_assoc]
    rw [List.flatMap_cons, ← Mem.put_append, hnext]
    refine ⟨?_, ih (fun t ht => hs t (List.mem_cons_of_mem _ ht)) _ (i + 1)⟩
    rw [@chunkAt_congr _ (m.put (table + sizeof_segment * i) s.encode) _ _ fun x _ h2 =>
      Mem.put_out _ _ x _ (Or.inl h2)]
    exact chunkAt_put m table i (hs s List.mem_cons_self)

theorem length_flatMap_encode (segs : List Segment) :
    (segs.flatMap Segment.encode).length = sizeof_segment * segs.length := by
  induction segs with
  | nil => rfl
  | cons s segs ih =>
    rw [List.flatMap_cons, List.length_append, ih, Segment.length_encode, List.length_cons,
      Nat.mul_succ, Nat.add_comm]

/-- right after `is_loadable_elf` -/
theorem holds_storeTable {v : Elf} (m : Mem) (hs : ∀ s ∈ v.chunks, s.Fits) :
    Holds (storeTable v m) v.table 0 v.chunks := holds_put_table v.table v.chunks hs m 0

/-- the segments of program headers fit their fields -/
theorem fits_segmentsOf (buf : Mem) : ∀ s ∈ segmentsOf (phdrs buf), s.Fits := by
  intro s hs
  obtain ⟨ph, hph, rfl⟩ := List.mem_map.mp hs
  obtain ⟨i, -, rfl⟩ := List.mem_map.mp (List.mem_filter.mp hph).1
  exact ⟨Mem.le_lt _ 8 _, Mem.le_lt _ 8 _, Mem.le_lt _ 8 _⟩

/-- the range of the bss: that of the last program header that has one, or the one of before -/
def bssOf : List Phdr → Nat × Nat → Nat × Nat
  | [], r => r
  | ph :: phs, r =>
    bssOf phs (if ph.p_type = PT_LOAD ∧ ph.p_filesz < ph.p_memsz then
      (uns 64 (ph.p_vaddr + ph.p_filesz : Nat), ph.p_memsz - ph.p_filesz) else r)

/-- the range that is cleared -/
def Elf.bss (v : Elf) : Nat × Nat := (v.bss_start, uns 64 v.bss_size)

/-- an accepted buffer: the table is a block of the heap, with the segments of the program headers -/
structure Table (clusters : List Cluster) (buf : Mem) (v v' : Elf) : Prop where
  table : v'.table = malloc clusters v.free_mem_ptr (sizeof_segment * e_phnum buf)
  heap : v'.free_mem_ptr = v'.table
  chunks : v'.chunks = segmentsOf (phdrs buf)
  nchunks : v'.nchunks = v'.chunks.length
  checked : v'.checked = v.checked ++ segmentsOf (phdrs buf)
  bss : v'.bss = bssOf (phdrs buf) v.bss

theorem Table.segments {clusters : List Cluster} {buf : Mem} {w v : Elf}
    (h : Table clusters buf w v) : v.segments = segmentsOf (phdrs buf) := by
  rw [Elf.segments, h.nchunks, List.take_length, h.chunks]

theorem Table.count {clusters : List Cluster} {buf : Mem} {w v : Elf}
    (h : Table clusters buf w v) : v.segments.length = v.nchunks := by
  rw [Elf.segments, h.nchunks, List.take_length]

/-- its entries are in memory -/
theorem Table.holds {clusters : List Cluster} {buf : Mem} {w v : Elf}
    (h : Table clusters buf w v) (m : Mem) : Holds (storeTable v m) v.table 0 v.segments := by
  have hs : v.segments = v.chunks := by rw [Elf.segments, h.nchunks, List.take_length]
  rw [hs]
  exact holds_storeTable m (by rw [h.chunks]; exact fits_segmentsOf buf)

theorem loadPhdrs_heap {clusters : List Cluster} (phs : List Phdr) :
    ∀ v : Elf, (loadPhdrs clusters phs v).2.table = v.table ∧
      (loadPhdrs clusters phs v).2.free_mem_ptr = v.free_mem_ptr := by
  induction phs with
  | nil => intro v; exact ⟨rfl, rfl⟩
  | cons ph phs ih =>
    intro v
    unfold loadPhdrs
    simp only
    split
    · exact ih v
    · split
      · exact ⟨rfl, rfl⟩
      · split
        · split
          · exact ⟨rfl, rfl⟩
          · exact ih _
        · exact ih _

/-- the size of a bss fits a signed word, or comes out as it should when it is taken as unsigned -/
theorem uns64_sgn64_sub {a b : Nat} (h : b < a) (ha : a < 18446744073709551616) :
    uns 64 (sgn 64 ((a : Int) - b)) = a - b := by
  obtain ⟨q, hq, h1, h2⟩ := sgn64_cases ((a : Int) - b)
  obtain ⟨q', hq', h3⟩ := uns64_cases (sgn 64 ((a : Int) - b))
  omega

theorem loadPhdrs_bss {clusters : List Cluster} (phs : List Phdr) :
    ∀ v : Elf, (∀ ph ∈ phs, ph.p_memsz < 18446744073709551616) → (loadPhdrs clusters phs v).1 = true →
      (loadPhdrs clusters phs v).2.bss = bssOf phs v.bss := by
  induction phs with
  | nil => intro v _ _; rfl
  | cons ph phs ih =>
    intro v hlt h
    obtain ⟨hph, hlt⟩ := List.forall_mem_cons.mp hlt
    unfold loadPhdrs at h ⊢
    unfold bssOf
    by_cases ht : ph.p_type ≠ PT_LOAD
    · rw [if_pos ht] at h ⊢
      rw [if_neg fun hb => ht hb.1]
      exact ih v hlt h
    rw [if_neg ht] at h ⊢
    simp only at h ⊢
    by_cases hc : check_memory clusters ph.p_vaddr ph.p_filesz ≠ 0
    · rw [if_pos hc] at h
      cases h
    rw [if_neg hc] at h ⊢
    by_cases hm : ph.p_filesz < ph.p_memsz
    · rw [if_pos hm] at h ⊢
      by_cases hb : 0 < v.bss_size
      · rw [if_pos hb] at h
        cases h
      rw [if_neg hb] at h ⊢
      rw [ih _ hlt h, if_pos (And.intro (not_not.mp ht) hm), Elf.bss, uns64_sgn64_sub hm hph]
    · rw [if_neg hm] at h ⊢
      rw [if_neg fun hb : ph.p_type = PT_LOAD ∧ ph.p_filesz < ph.p_memsz => hm hb.2]
      exact ih _ hlt h

/-- an accepted header has passed the tests -/
theorem is_loadable_elf_fine {clusters : List Cluster} {buf : Mem} {blocksize : Int} {v v' : Elf}
    (h : is_loadable_elf clusters buf blocksize v = (some true, v')) : headerFine buf blocksize = true := by
  unfold is_loadable_elf at h
  split at h
  · assumption
  · cases h

theorem is_loadable_elf_table {clusters : List Cluster} {buf : Mem} {blocksize : Int} {v v' : Elf}
    (h : is_loadable_elf clusters buf blocksize v = (some true, v')) :
    Table clusters buf v v' := by
  have hlt : ∀ ph ∈ phdrs buf, ph.p_memsz < 18446744073709551616 := by
    intro ph hph
    obtain ⟨i, -, rfl⟩ := List.mem_map.mp hph
    exact Mem.le_lt _ 8 _
  unfold is_loadable_elf at h
  split at h
  · simp only at h
    split at h
    · cases h
    · obtain ⟨h1, h2⟩ := Prod.mk.inj h
      have ha := loadPhdrs_spec (phdrs buf) _ (Option.some.inj h1)
      have hh := @loadPhdrs_heap clusters (phdrs buf) { v with
        free_mem_ptr := malloc clusters v.free_mem_ptr (sizeof_segment * e_phnum buf)
        table := malloc clusters v.free_mem_ptr (sizeof_segment * e_phnum buf)
        chunks := []
        start_addr := (phdr buf 0).p_vaddr
        entry_addr := e_entry buf }
      have hb := loadPhdrs_bss (phdrs buf) _ hlt (Option.some.inj h1)
      rw [h2] at ha hh hb
      exact ⟨hh.1, hh.2.trans hh.1.symm, ha.chunks, ha.nchunks, ha.checked, hb⟩
  · cases h

end Load
