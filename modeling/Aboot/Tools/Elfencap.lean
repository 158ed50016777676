import Aboot.Lib.Bytes
import Aboot.Load.Elf

/-!
# tools/elfencap.c: a file wrapped up as an ELF executable

`elfencap` puts an ELF header and one program header in front of its input.  It clears both
headers and then stores the fields it needs, and `p_type` is not among them.

* `elfencap`   what the program writes for an input;
* `Loads`      the boot loader takes the output as one segment, which is the input;
* `elfencap_headers`   what `is_loadable_elf` sees of the headers;
* `never_loads`        it accepts the output and finds no segment to load.
-/

set_option linter.unusedVariables false

namespace Elfencap
open Load Bytes

def EV_CURRENT : Nat := 1

/-- the entry point and the address of the segment -/
def LOAD_ADDR : Nat := 0xfffffc0000310000

/-- the ELF header: `e_ident` and the fields after it -/
def ehdr : List UInt8 :=
  [0x7f, 'E'.toUInt8, 'L'.toUInt8, 'F'.toUInt8, ELFCLASS64, ELFDATA2LSB, UInt8.ofNat EV_CURRENT]
    ++ List.replicate 9 0
    ++ ofNum ET_EXEC 2          -- e_type
    ++ ofNum EM_ALPHA 2         -- e_machine
    ++ ofNum EV_CURRENT 4       -- e_version
    ++ ofNum LOAD_ADDR 8        -- e_entry
    ++ ofNum 64 8               -- e_phoff
    ++ List.replicate 16 0      -- e_shoff, e_flags, e_ehsize, e_phentsize
    ++ ofNum 1 2                -- e_phnum
    ++ List.replicate 6 0       -- e_shentsize, e_shnum, e_shstrndx

/-- the program header up to `p_filesz`; `p_type` keeps the zero of the `memset` -/
def phdrHead : List UInt8 :=
  List.replicate 8 0            -- p_type, p_flags
    ++ ofNum 120 8              -- p_offset
    ++ ofNum LOAD_ADDR 8        -- p_vaddr
    ++ List.replicate 8 0       -- p_paddr

/-- the program header for a file of `st_size` bytes -/
def phdr (st_size : Nat) : List UInt8 :=
  phdrHead
    ++ ofNum st_size 8          -- p_filesz
    ++ ofNum st_size 8          -- p_memsz
    ++ List.replicate 8 0       -- p_align

/-- what elfencap writes: the two headers, then the input, copied in pieces -/
def elfencap (X : List UInt8) : List UInt8 := ehdr ++ phdr X.length ++ X

/-- the first block of the output, as the loader has it in its buffer -/
def Holds (X : List UInt8) (buf : Mem) : Prop :=
  ∀ k, k < 120 → (elfencap X)[k]? = some (buf k)

/-- the loader accepts the output with one segment, which is the input at its address -/
def Loads (clusters : List Cluster) (X : List UInt8) (buf : Mem) (blocksize : Int) (v : Elf) :
    Prop :=
  ∃ (v' : Elf) (offset : Nat), is_loadable_elf clusters buf blocksize v = (some true, v') ∧
    v'.segments = [⟨LOAD_ADDR, offset, X.length⟩] ∧
    ((elfencap X).drop offset).take X.length = X

/-! ## what the loader sees -/

theorem elfencap_getElem? (X : List UInt8) (k : Nat) (hk : k < 96) :
    (elfencap X)[k]? = (ehdr ++ phdrHead)[k]? := by
  have hl : (ehdr ++ phdrHead).length = 96 := by decide
  have e : elfencap X = (ehdr ++ phdrHead)
      ++ (ofNum X.length 8 ++ ofNum X.length 8 ++ List.replicate 8 0 ++ X) := by
    simp only [elfencap, phdr, List.append_assoc]
  rw [e, List.getElem?_append_left (by omega)]

/-- a number of the first 96 bytes -/
theorem le_of_holds {X : List UInt8} {buf : Mem} (h : Holds X buf) (a k : Nat) (hk : a + k ≤ 96) :
    buf.le a k = Mem.le (fun j => (ehdr ++ phdrHead).getD j 0) a k := by
  apply le_congr
  intro j hj
  have h1 := h (a + j) (by omega)
  rw [elfencap_getElem? X (a + j) (by omega)] at h1
  simp only [List.getD_eq_getElem?_getD, h1, Option.getD_some]

/-- there is one program header, and it is not a segment to load -/
theorem elfencap_headers {X : List UInt8} {buf : Mem} (h : Holds X buf) :
    segmentsOf (phdrs buf) = [] := by
  have hn : e_phnum buf = 1 := by
    rw [e_phnum, Mem.le16, le_of_holds h 56 2 (by decide)]
    decide
  have ho : e_phoff buf = 64 := by
    rw [e_phoff, Mem.le64, le_of_holds h 32 8 (by decide)]
    decide
  have ht : (Load.phdr buf 0).p_type = 0 := by
    have ha : Word.uns 64 ((64 + 0 * sizeof_Phdr : Nat) : Int) = 64 := by decide
    rw [Load.phdr, ho]
    simp only [ha]
    rw [Mem.le32, le_of_holds h 64 4 (by decide)]
    decide
  simp only [phdrs, hn, segmentsOf, List.range_one, List.map_cons, List.map_nil]
  rw [List.filter_cons_of_neg (by simp [ht, PT_LOAD])]
  rfl

theorem no_segment {X : List UInt8} {buf : Mem} (h : Holds X buf) {clusters : List Cluster}
    {blocksize : Int} {v v' : Elf}
    (ha : is_loadable_elf clusters buf blocksize v = (some true, v')) : v'.segments = [] :=
  (is_loadable_elf_spec ha).1.trans (elfencap_headers h)

/-- **elfencap's output is never loaded**, whatever its input is: when the loader accepts it, the
table of segments is empty, so that the input is not placed at its address. -/
theorem never_loads (X : List UInt8) (buf : Mem) (h : Holds X buf) (clusters : List Cluster)
    (blocksize : Int) (v : Elf) :
    (∀ v', is_loadable_elf clusters buf blocksize v = (some true, v') → v'.segments = []) ∧
      ¬ Loads clusters X buf blocksize v := by
  refine ⟨fun v' ha => no_segment h ha, ?_⟩
  rintro ⟨v', offset, ha, hs, -⟩
  rw [no_segment h ha] at hs
  cases hs

/-! ## an input of one byte -/

/-- the output for the input `[7]`, in a buffer -/
def oneByte : Mem := fun k => (elfencap [7]).getD k 0

theorem oneByte_holds : Holds [7] oneByte := by
  intro k hk
  have hl : (elfencap [7]).length = 121 := by decide
  have hlt : k < (elfencap [7]).length := by omega
  simp only [oneByte, List.getD_eq_getElem?_getD, List.getElem?_eq_getElem hlt, Option.getD_some]

/-- memory with free pages from page 256 on -/
def oneClusters : List Cluster := [⟨0, 256, 1⟩, ⟨256, 768, 0⟩]

theorem never_loads_one : Holds [7] oneByte ∧ ¬ Loads oneClusters [7] oneByte 512 Elf.powerOn :=
  ⟨oneByte_holds, (never_loads [7] oneByte oneByte_holds oneClusters 512 Elf.powerOn).2⟩

/-- the memory check accepts the segment and the loader accepts the file, with nothing in it -/
theorem one_accepted_empty :
    Holds [7] oneByte ∧ check_memory oneClusters LOAD_ADDR 1 = 0 ∧
      (is_loadable_elf oneClusters oneByte 512 Elf.powerOn).1 = some true ∧
      (is_loadable_elf oneClusters oneByte 512 Elf.powerOn).2.segments = [] ∧
      ¬ Loads oneClusters [7] oneByte 512 Elf.powerOn := by
  have h1 : (is_loadable_elf oneClusters oneByte 512 Elf.powerOn).1 = some true := by
    decide +kernel
  have h2 : (is_loadable_elf oneClusters oneByte 512 Elf.powerOn).2.segments = [] := by
    decide +kernel
  refine ⟨oneByte_holds, by decide +kernel, h1, h2, ?_⟩
  rintro ⟨v', offset, ha, hs, -⟩
  rw [ha] at h2
  rw [h2] at hs
  cases hs

end Elfencap
