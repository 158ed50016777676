import Aboot.Lib.Reader
import Aboot.Load.Elf

/-!
# aboot.c: what is_loadable_elf reads

`is_loadable_elf` once more, as a program that can get at the buffer only by reading it, so that its
reads are all there.

* `is_loadable_elf_val`   it is the function of `Load.Elf`;
* `InBounds`              when every read lies in the buffer;
* `is_loadable_elf_within_iff`   that it is exactly then.

The sum that is compared with the size of the buffer can run around the address space, and
`phdrs[0]` is read when the table is empty.
-/

set_option linter.unusedVariables false

namespace Load
open Word

/-! ## the source -/

/-- the tests of the header, in the order of the source -/
def headerTests (blocksize : Int) : List (Reader Bool) :=
  [do return (← Reader.byte 0) = 0x7f,
   do return (← Reader.byte 1) = 'E'.toUInt8,
   do return (← Reader.byte 2) = 'L'.toUInt8,
   do return (← Reader.byte 3) = 'F'.toUInt8,
   do return (← Reader.byte 4) = ELFCLASS64,
   do return (← Reader.byte 5) = ELFDATA2LSB,
   do return (← Reader.le 2 18) = EM_ALPHA,
   do return (← Reader.le 2 16) = ET_EXEC,
   do return uns 64 ((← Reader.le 8 32) + (← Reader.le 2 56) * sizeof_Phdr : Nat) ≤ uns 32 blocksize]

/-- the loop over the program headers that begin at `phoff` -/
def readPhdrs (clusters : List Cluster) (phoff : Nat) : List Nat → Elf → Reader (Bool × Elf)
  | [], v => pure (true, { v with nchunks := v.chunks.length })
  | i :: is, v => do
    let a := uns 64 (phoff + i * sizeof_Phdr : Nat)
    if (← Reader.le 4 a) ≠ PT_LOAD then readPhdrs clusters phoff is v
    else do
      let addr ← Reader.le 8 (a + 16)
      let offset ← Reader.le 8 (a + 8)
      let size ← Reader.le 8 (a + 32)
      let v' := { v with chunks := v.chunks ++ [⟨addr, offset, size⟩] }
      if check_memory clusters addr size ≠ 0 then pure (false, v')
      else do
        let v' := { v' with checked := v.checked ++ [⟨addr, offset, size⟩] }
        let memsz ← Reader.le 8 (a + 40)
        if size < memsz then
          if 0 < v.bss_size then pure (false, v')
          else
            readPhdrs clusters phoff is
              { v' with
                bss_start := uns 64 (addr + size : Nat)
                bss_size := sgn 64 ((memsz : Int) - size) }
        else readPhdrs clusters phoff is v'

/-- `is_loadable_elf`, with its reads -/
def read_loadable_elf (clusters : List Cluster) (blocksize : Int) (v : Elf) :
    Reader (Option Bool × Elf) := do
  if ← Reader.allOf (headerTests blocksize) then
    let phoff ← Reader.le 8 32
    let phnum ← Reader.le 2 56
    let p := malloc clusters v.free_mem_ptr (sizeof_segment * phnum)
    if out_of_memory p then pure (none, { v with free_mem_ptr := p, exhausted := true })
    else do
      -- phdrs[0] is read whether there is one or not
      let start ← Reader.le 8 (uns 64 (phoff + 0 * sizeof_Phdr : Nat) + 16)
      let entry ← Reader.le 8 24
      let r ← readPhdrs clusters phoff (List.range phnum)
        { v with
          free_mem_ptr := p
          table := p
          chunks := []
          start_addr := start
          entry_addr := entry }
      pure (some r.1, r.2)
  else pure (some false, v)

/-! ## the same function -/

theorem readPhdrs_val {clusters : List Cluster} {buf : Mem} (is : List Nat) (v : Elf) :
    (readPhdrs clusters (e_phoff buf) is v).val buf
      = loadPhdrs clusters (is.map (phdr buf)) v := by
  induction is generalizing v with
  | nil => rfl
  | cons i is ih =>
    rw [readPhdrs, List.map_cons, loadPhdrs, Reader.val_bind, Reader.val_ite]
    refine ite_congr rfl (fun _ => ih v) fun _ => ?_
    rw [Reader.val_bind, Reader.val_bind, Reader.val_bind, Reader.val_ite]
    refine ite_congr rfl (fun _ => rfl) fun _ => ?_
    rw [Reader.val_bind, Reader.val_ite]
    refine ite_congr rfl (fun _ => ?_) fun _ => ih _
    rw [Reader.val_ite]
    exact ite_congr rfl (fun _ => rfl) fun _ => ih _

theorem headerTests_val (buf : Mem) (blocksize : Int) :
    (Reader.allOf (headerTests blocksize)).val buf = headerFine buf blocksize := by
  rw [Reader.allOf_val]
  simp only [headerTests, headerFine, List.all_cons, List.all_nil, Bool.and_true, Bool.decide_and]
  rfl

/-- the function of `Load.Elf` -/
theorem is_loadable_elf_val (clusters : List Cluster) (buf : Mem) (blocksize : Int) (v : Elf) :
    (read_loadable_elf clusters blocksize v).val buf = is_loadable_elf clusters buf blocksize v := by
  unfold read_loadable_elf is_loadable_elf
  rw [Reader.val_bind, Reader.val_ite, headerTests_val]
  refine ite_congr rfl (fun _ => ?_) fun _ => rfl
  rw [Reader.val_bind, Reader.val_bind, Reader.val_ite]
  refine ite_congr rfl (fun _ => rfl) fun _ => ?_
  rw [Reader.val_bind, Reader.val_bind, Reader.val_bind]
  exact congrArg (fun r : Bool × Elf => (some r.1, r.2)) (readPhdrs_val (List.range (e_phnum buf)) _)

/-! ## when the reads are in bounds -/

/-- where the bytes end that a test of the header reads, and whether it lets through -/
def headerEnds (buf : Mem) (blocksize : Int) : List (Nat × Bool) :=
  [(1, buf 0 = 0x7f), (2, buf 1 = 'E'.toUInt8), (3, buf 2 = 'L'.toUInt8), (4, buf 3 = 'F'.toUInt8),
   (5, buf 4 = ELFCLASS64), (6, buf 5 = ELFDATA2LSB), (20, e_machine buf = EM_ALPHA),
   (18, e_type buf = ET_EXEC),
   (58, uns 64 (e_phoff buf + e_phnum buf * sizeof_Phdr : Nat) ≤ uns 32 blocksize)]

/-- the header ends in the buffer, or a test turns it away before; and the table of an accepted
header, or its first entry when it is empty up to the address, ends in the buffer as well -/
def InBounds (clusters : List Cluster) (buf : Mem) (n : Nat) (v : Elf) : Prop :=
  Reader.EndsIn n (headerEnds buf n) ∧
    (headerFine buf n = true →
      out_of_memory (malloc clusters v.free_mem_ptr (sizeof_segment * e_phnum buf)) = false →
      e_phoff buf + (if e_phnum buf = 0 then 24 else e_phnum buf * sizeof_Phdr) ≤ n)

section
variable {clusters : List Cluster} {buf : Mem} {n : Nat} {v : Elf}

/-- an accepted header has passed the tests -/
theorem headerEnds_passed {blocksize : Int} (h : headerFine buf blocksize = true) :
    ∀ e ∈ headerEnds buf blocksize, e.2 = true := by
  simp only [headerFine, decide_eq_true_eq] at h
  simpa [headerEnds] using h

/-- a buffer that the whole header fits in -/
theorem endsIn_of_le (h : 58 ≤ n) (blocksize : Int) :
    Reader.EndsIn n (headerEnds buf blocksize) := by
  simp only [headerEnds, Reader.EndsIn]
  refine ⟨by omega, fun _ => ⟨by omega, fun _ => ⟨by omega, fun _ => ⟨by omega, fun _ =>
    ⟨by omega, fun _ => ⟨by omega, fun _ => ⟨by omega, fun _ => ⟨by omega, fun _ =>
    ⟨h, fun _ => trivial⟩⟩⟩⟩⟩⟩⟩⟩⟩

/-- a read at a place in the header -/
theorem header_within (hn : n < 4294967296) {e len : Nat} (hlen : 0 < len) (he : e + len ≤ 58) :
    (∀ a ∈ [(⟨e, len⟩ : Access)], a.Within n) ↔ e + len ≤ n := by
  rw [List.forall_mem_singleton, Access.within_iff (by omega) (by show e + len ≤ _; omega) hlen]

/-- the tests read within the buffer when those that are come to end in it -/
theorem headerTests_within (hn : n < 4294967296) :
    (∀ a ∈ (Reader.allOf (headerTests n)).log buf, a.Within n)
      ↔ Reader.EndsIn n (headerEnds buf n) := by
  have hlast : (∀ a ∈ [(⟨32, 8⟩ : Access), ⟨56, 2⟩], a.Within n) ↔ 58 ≤ n := by
    rw [List.forall_mem_cons, header_within hn (by decide) (by decide),
      Access.within_iff (by omega) (by decide) (by decide)]
    show 40 ≤ n ∧ 58 ≤ n ↔ 58 ≤ n
    omega
  have hone {e len : Nat} (h1 : 0 < len) (h2 : e + len ≤ 58) := @header_within n hn e len h1 h2
  apply Reader.allOf_within_iff
  refine .cons ⟨hone (by decide) (by decide), rfl⟩ (.cons ⟨hone (by decide) (by decide), rfl⟩
    (.cons ⟨hone (by decide) (by decide), rfl⟩ (.cons ⟨hone (by decide) (by decide), rfl⟩
    (.cons ⟨hone (by decide) (by decide), rfl⟩ (.cons ⟨hone (by decide) (by decide), rfl⟩
    (.cons ⟨hone (by decide) (by decide), rfl⟩ (.cons ⟨hone (by decide) (by decide), rfl⟩
    (.cons ⟨hlast, rfl⟩ .nil))))))))

/-- the header of a program header that lies in the buffer -/
theorem phdr_within {phoff i : Nat} (hn : n < 4294967296) (h : phoff + i * sizeof_Phdr + 56 ≤ n)
    {off len : Nat} (hlen : off + len ≤ 56) :
    Access.Within n ⟨uns 64 (phoff + i * sizeof_Phdr : Nat) + off, len⟩ := by
  apply Access.within_of_le (by omega)
  rw [uns64_natCast (by omega)]
  show phoff + i * sizeof_Phdr + off + len ≤ n
  omega

/-- the loop reads within a table that lies in the buffer -/
theorem readPhdrs_within {phoff : Nat} (hn : n < 4294967296) (is : List Nat)
    (h : ∀ i ∈ is, phoff + i * sizeof_Phdr + 56 ≤ n) (v : Elf) :
    ∀ a ∈ (readPhdrs clusters phoff is v).log buf, a.Within n := by
  induction is generalizing v with
  | nil => intro a ha; cases ha
  | cons i is ih =>
    obtain ⟨hi, his⟩ := List.forall_mem_cons.mp h
    have hone {off len : Nat} (hlen : off + len ≤ 56) := @phdr_within n phoff i hn hi off len hlen
    have hrest := ih his
    have hnil : ∀ a ∈ ([] : List Access), a.Within n := fun a ha => by cases ha
    have hsing (off len : Nat) (hlen : off + len ≤ 56) := List.forall_mem_singleton.mpr (hone hlen)
    rw [readPhdrs, Reader.log_bind, Reader.log_ite]
    refine List.forall_mem_append.mpr ⟨hsing 0 4 (by decide), ?_⟩
    split
    · exact hrest v
    rw [Reader.log_bind, Reader.log_bind, Reader.log_bind, Reader.log_ite]
    refine List.forall_mem_append.mpr ⟨hsing 16 8 (by decide), List.forall_mem_append.mpr
      ⟨hsing 8 8 (by decide), List.forall_mem_append.mpr ⟨hsing 32 8 (by decide), ?_⟩⟩⟩
    split
    · exact hnil
    rw [Reader.log_bind, Reader.log_ite, Reader.log_ite]
    refine List.forall_mem_append.mpr ⟨hsing 40 8 (by decide), ?_⟩
    split
    · split
      · exact hnil
      · exact hrest _
    · exact hrest _

/-- the reads of `phdrs[0]` and of the loop -/
theorem table_within {phoff phnum : Nat} (hn : n < 4294967296) (hoff : phoff < 18446744073709551616)
    (hnum : phnum < 65536) (hfine : uns 64 (phoff + phnum * sizeof_Phdr : Nat) ≤ n) (v : Elf) :
    (Access.Within n ⟨uns 64 (phoff + 0 * sizeof_Phdr : Nat) + 16, 8⟩ ∧
      ∀ a ∈ (readPhdrs clusters phoff (List.range phnum) v).log buf, a.Within n) ↔
      phoff + (if phnum = 0 then 24 else phnum * sizeof_Phdr) ≤ n := by
  by_cases h0 : phnum = 0
  · subst h0
    rw [Nat.zero_mul, Nat.add_zero, uns64_natCast hoff] at hfine
    rw [if_pos rfl, Nat.zero_mul, Nat.add_zero phoff, uns64_natCast hoff,
      Access.within_iff (by omega) (by show phoff + 16 + 8 ≤ _; omega) (Nat.zero_lt_succ 7)]
    exact ⟨fun h => h.1, fun h => ⟨h, fun a ha => by cases ha⟩⟩
  · rw [if_neg h0]
    constructor
    · rintro ⟨-, h⟩
      by_contra hgt
      -- the sum has run around, so that the table begins far above the buffer
      have hlow : n < phoff := by
        obtain ⟨q, hq, hlt⟩ := uns64_cases (phoff + phnum * sizeof_Phdr : Nat)
        unfold sizeof_Phdr at *
        omega
      have hfirst : (⟨phoff, 4⟩ : Access) ∈ (readPhdrs clusters phoff (List.range phnum) v).log buf := by
        obtain ⟨m, rfl⟩ := Nat.exists_eq_succ_of_ne_zero h0
        rw [List.range_succ_eq_map, readPhdrs, Nat.zero_mul, Nat.add_zero, uns64_natCast hoff]
        exact List.mem_append_left _ (List.mem_singleton.mpr rfl)
      have hbyte := h _ hfirst 0 (Nat.zero_lt_succ 3)
      rw [Nat.add_zero, uns64_natCast hoff] at hbyte
      omega
    · intro h
      have hpos : 0 < phnum := Nat.pos_of_ne_zero h0
      have hle : ∀ i ∈ List.range phnum, phoff + i * sizeof_Phdr + 56 ≤ n := by
        intro i hi
        have := List.mem_range.mp hi
        unfold sizeof_Phdr at *
        omega
      exact ⟨phdr_within hn (hle 0 (List.mem_range.mpr hpos)) (by decide),
        readPhdrs_within hn _ hle v⟩

end

theorem reads_within_iff (clusters : List Cluster) (buf : Mem) (n : Nat) (v : Elf)
    (hn : n < 4294967296) :
    (∀ a ∈ (read_loadable_elf clusters n v).log buf, a.Within n) ↔ InBounds clusters buf n v := by
  have hsize : uns 32 (n : Int) = n := uns32_natCast hn
  rw [read_loadable_elf, Reader.log_bind, List.forall_mem_append, headerTests_within hn, InBounds,
    Reader.log_ite, headerTests_val]
  refine and_congr_right fun hends => ?_
  cases hf : headerFine buf n with
  | false => simp
  | true =>
    have h58 : 58 ≤ n := by
      have hlast := hends.forall (headerEnds_passed hf) (58, _) (List.mem_of_getElem? (i := 8) rfl)
      exact hlast
    have hone {e len : Nat} (h1 : 0 < len) (h2 : e + len ≤ 58) :
        ∀ a ∈ [(⟨e, len⟩ : Access)], a.Within n := (header_within hn h1 h2).mpr (by omega)
    have hsum : uns 64 (e_phoff buf + e_phnum buf * sizeof_Phdr : Nat) ≤ n := by
      have := headerEnds_passed hf (58, _) (List.mem_of_getElem? (i := 8) rfl)
      rw [decide_eq_true_eq, hsize] at this
      exact this
    have hread : ∀ as : List Access, (∀ a ∈ [(⟨32, 8⟩ : Access)] ++ ([⟨56, 2⟩] ++ as), a.Within n) ↔
        ∀ a ∈ as, a.Within n := by
      intro as
      rw [List.forall_mem_append, List.forall_mem_append, iff_true_intro (hone (by decide) (by decide)),
        iff_true_intro (hone (by decide) (by decide)), true_and, true_and]
    rw [if_pos rfl, forall_prop_of_true rfl, Reader.log_bind, Reader.log_bind, Reader.log_ite]
    refine (hread _).trans ?_
    split
    · rename_i hout
      have hout : out_of_memory (malloc clusters v.free_mem_ptr (sizeof_segment * e_phnum buf)) = true :=
        hout
      rw [hout]
      exact iff_of_true (fun a ha => by cases ha) fun h => by cases h
    · rename_i hout
      have hout : out_of_memory (malloc clusters v.free_mem_ptr (sizeof_segment * e_phnum buf)) = false :=
        Bool.eq_false_iff.mpr hout
      have htab := @table_within clusters buf n (e_phoff buf) (e_phnum buf) hn (Mem.le_lt buf 8 32)
        (Mem.le16_lt buf 56) hsum
      rw [hout, forall_prop_of_true rfl]
      rw [Reader.log_bind, Reader.log_bind, Reader.log_bind, Reader.log_pure, List.append_nil]
      have hentry : ∀ a ∈ [(⟨24, 8⟩ : Access)], a.Within n := hone (by decide) (by decide)
      exact (List.forall_mem_append.trans (and_congr List.forall_mem_singleton
        (List.forall_mem_append.trans (and_iff_right hentry)))).trans (htab _)

/-- **is_loadable_elf reads within its buffer** exactly when the header ends in it, or is turned away
before, and the table of an accepted header ends in it without running around the address space;
an empty table counts as an entry up to its address. -/
theorem is_loadable_elf_within_iff (clusters : List Cluster) (buf : Mem) (n : Nat) (v : Elf)
    (hn : n < 4294967296) :
    (∀ a ∈ (read_loadable_elf clusters n v).log buf, a.Within n) ↔ InBounds clusters buf n v :=
  reads_within_iff clusters buf n v hn

/-- a header of a buffer, with the fields that decide -/
def sampleHeader (phoff phnum : Nat) : Mem :=
  fun i => ([0x7f, 69, 76, 70, 2, 1, 0, 0, 0, 0, 0, 0, 0, 0, 0, 0, 2, 0, 0x26, 0x90] ++
    List.replicate 12 0 ++ [(phoff % 256).toUInt8, (phoff / 256).toUInt8] ++ List.replicate 22 0 ++
    [phnum.toUInt8]).getD i 0

/-- a table of one entry right behind the header -/
theorem is_loadable_elf_within_one :
    headerFine (sampleHeader 64 1) 512 = true ∧
      ∀ a ∈ (read_loadable_elf [⟨256, 64, 0⟩] 512 Elf.powerOn).log (sampleHeader 64 1), a.Within 512 :=
  ⟨by decide, (is_loadable_elf_within_iff [⟨256, 64, 0⟩] (sampleHeader 64 1) 512 Elf.powerOn (by decide)).mpr
    ⟨endsIn_of_le (by decide) _, fun _ _ => by decide⟩⟩

/-- an empty table at the end of the buffer: `phdrs[0]` is read behind it -/
theorem is_loadable_elf_empty_table :
    ¬ ∀ a ∈ (read_loadable_elf [⟨256, 64, 0⟩] 512 Elf.powerOn).log (sampleHeader 512 0), a.Within 512 := by
  decide

end Load
