import Aboot.Load.Elf
import Aboot.Lib.Device

/-!
# tools/objstrip.c: a bootable file from an executable

The output is the part of the executable that is loaded, followed by zeros for its bss; with `-b` it
is padded to whole sectors.  An ECOFF header is seen through what is taken from it.

* `copyOut_eq`, `zeroFill_eq`   the two loops;
* `Linked`              an executable that is linked at `BOOT_ADDR` and ends at `_end`;
* `objstrip_length`     the size of the output.
-/

set_option linter.unusedVariables false

namespace Objstrip
open Word Bytes
open Load (e_type e_machine e_entry e_phoff ET_EXEC EM_ALPHA sizeof_Phdr)

def BLOCK_SIZE : Nat := 512
def BOOT_ADDR : Nat := 0x20000000
def sizeof_buf : Nat := 8192

/-- where the image is in the file, and its size in memory and in the file -/
structure Extent where
  offset : Int
  mem_size : Nat
  fil_size : Nat

def isElf (buf : Mem) : Bool :=
  buf 0 = 0x7f ∧ buf 1 = 'E'.toUInt8 ∧ buf 2 = 'L'.toUInt8 ∧ buf 3 = 'F'.toUInt8

/-- the extent of a program header in `buf`; an entry point behind the start is the start -/
def phdrExtent (e_entry : Nat) (buf : Mem) : Extent :=
  let offset := sgn 64 (buf.le64 8)
  let delta := e_entry - buf.le64 16
  if buf.le64 16 < e_entry then
    ⟨sgn 64 (offset + delta), uns 64 ((buf.le64 40 : Int) - delta), uns 64 ((buf.le64 32 : Int) - delta)⟩
  else ⟨offset, buf.le64 40, buf.le64 32⟩

/-- the program header is read where `lseek` leaves the position: its result is not looked at -/
def elfExtent (file : File) (buf : Mem) : Option Extent :=
  if e_type buf ≠ ET_EXEC then none
  else if e_machine buf ≠ EM_ALPHA then none
  else
    let pos := if 0 ≤ sgn 64 (e_phoff buf) then e_phoff buf else min sizeof_buf file.bytes.length
    let ph := (file.bytes.drop pos).take sizeof_Phdr
    if ph.length ≠ sizeof_Phdr then none else some (phdrExtent (e_entry buf) (buf.put 0 ph))

/-- copy `tocopy` bytes of the input through the buffer; a short read is an error -/
def copyOut : Nat → Nat → List UInt8 → Option (List UInt8)
  | 0, _, _ => some []
  | fuel + 1, tocopy, input =>
    if tocopy = 0 then some []
    else
      let n := min tocopy sizeof_buf
      if (input.take n).length ≠ n then none
      else (copyOut fuel (tocopy - n) (input.drop n)).map fun out => input.take n ++ out

def zeroFill : Nat → Nat → List UInt8
  | 0, _ => []
  | fuel + 1, tocopy =>
    if tocopy = 0 then []
    else List.replicate (min tocopy sizeof_buf) 0 ++ zeroFill fuel (tocopy - min tocopy sizeof_buf)

/-- the output for an extent; a `pad` of 0 is no padding -/
def strip (pad : Nat) (file : File) (e : Extent) : Option (List UInt8) :=
  if e.offset < 0 then none
  else
    let mem_size := if pad = 0 then e.mem_size
      else uns 64 (uns 64 (e.mem_size + pad - 1) / pad * pad : Nat)
    let tocopy := uns 64 ((mem_size : Int) - e.fil_size)
    (copyOut e.fil_size e.fil_size (file.bytes.drop e.offset.toNat)).map fun out =>
      out ++ zeroFill tocopy tocopy

/-- `objstrip file`; `stack` is what the buffer has at the start, and `ecoff` what an ECOFF header
gives -/
def objstrip (stack : Mem) (ecoff : Mem → Option Extent) (pad : Nat) (file : File) :
    Option (List UInt8) :=
  let buf := stack.put 0 (file.bytes.take sizeof_buf)
  (if isElf buf then elfExtent file buf else ecoff buf).bind (strip pad file)

/-! ## the loops -/

theorem copyOut_eq (fuel : Nat) : ∀ (n : Nat) (input out : List UInt8), n ≤ fuel →
    copyOut fuel n input = some out → out = input.take n ∧ n ≤ input.length := by
  induction fuel with
  | zero =>
    intro n input out hn h
    obtain rfl : n = 0 := by omega
    exact ⟨(Option.some.inj h).symm, Nat.zero_le _⟩
  | succ fuel ih =>
    intro n input out hn h
    unfold copyOut at h
    by_cases h0 : n = 0
    · rw [if_pos h0] at h
      rw [h0]
      exact ⟨(Option.some.inj h).symm, Nat.zero_le _⟩
    rw [if_neg h0] at h
    by_cases hlen : (input.take (min n sizeof_buf)).length ≠ min n sizeof_buf
    · rw [if_pos hlen] at h
      cases h
    rw [if_neg hlen] at h
    have hlen := not_not.mp hlen
    rw [List.length_take] at hlen
    obtain ⟨rest, hrest, rfl⟩ := Option.map_eq_some_iff.mp h
    have hpos : 0 < min n sizeof_buf := Nat.lt_min.mpr ⟨by omega, by decide⟩
    obtain ⟨rfl, hle⟩ := ih (n - min n sizeof_buf) (input.drop (min n sizeof_buf)) rest (by omega) hrest
    have hmin : min n sizeof_buf ≤ n := Nat.min_le_left _ _
    rw [List.length_drop] at hle
    refine ⟨?_, by omega⟩
    rw [← List.take_add]
    congr 1
    omega

theorem zeroFill_eq (fuel : Nat) : ∀ n, n ≤ fuel → zeroFill fuel n = List.replicate n 0 := by
  induction fuel with
  | zero =>
    intro n hn
    obtain rfl : n = 0 := by omega
    rfl
  | succ fuel ih =>
    intro n hn
    unfold zeroFill
    by_cases h0 : n = 0
    · rw [if_pos h0, h0]
      rfl
    · have hpos : 0 < min n sizeof_buf := Nat.lt_min.mpr ⟨by omega, by decide⟩
      have hmin : min n sizeof_buf ≤ n := Nat.min_le_left _ _
      rw [if_neg h0, ih _ (by omega), List.replicate_append_replicate]
      congr 1
      omega

/-! ## an image that is linked at `BOOT_ADDR` -/

/-- an executable with one segment from its entry point `BOOT_ADDR` to `_end` -/
structure Linked (image : File) (_end : Nat) : Prop where
  header : 64 ≤ image.bytes.length
  elf : isElf image.mem = true
  entry : e_entry image.mem = BOOT_ADDR
  phdr : e_phoff image.mem + sizeof_Phdr ≤ image.bytes.length
  vaddr : image.mem.le64 (e_phoff image.mem + 16) = BOOT_ADDR
  memsz : image.mem.le64 (e_phoff image.mem + 40) = _end - BOOT_ADDR
  filesz : image.mem.le64 (e_phoff image.mem + 32)
    ≤ image.mem.le64 (e_phoff image.mem + 40)
  nonempty : BOOT_ADDR < _end
  address : _end < 18446744073709551616

theorem put_take {stack : Mem} {file : File} {n k : Nat} (hk : k < n) (hlen : k < file.bytes.length) :
    stack.put 0 (file.bytes.take n) k = file.mem k := by
  have hin : k < (file.bytes.take n).length := by
    rw [List.length_take]
    omega
  have h := Mem.put_in stack 0 k _ hin
  rw [Nat.zero_add] at h
  rw [h, List.getElem_take, File.mem, List.getD_eq_getElem _ _ hlen]

/-- the header in the buffer is that of the file -/
theorem header_eq {image : File} (stack : Mem) (h : 64 ≤ image.bytes.length) {a k : Nat}
    (ha : a + k ≤ 64) :
    (stack.put 0 (image.bytes.take sizeof_buf)).le a k = image.mem.le a k :=
  le_congr fun j hj => put_take (by unfold sizeof_buf; omega) (by omega)

/-- the program header in the buffer is that of the file -/
theorem phdr_eq {image : File} (stack : Mem) {pos a k : Nat} (h : pos + sizeof_Phdr ≤ image.bytes.length)
    (ha : a + k ≤ sizeof_Phdr) :
    (stack.put 0 ((image.bytes.drop pos).take sizeof_Phdr)).le a k = image.mem.le (pos + a) k := by
  refine le_shift fun j hj => ?_
  have hlen : a + j < ((image.bytes.drop pos).take sizeof_Phdr).length := by
    rw [List.length_take, List.length_drop]
    omega
  have hp := Mem.put_in stack 0 (a + j) _ hlen
  rw [Nat.zero_add] at hp
  rw [hp, List.getElem_take, List.getElem_drop, File.mem, List.getD_eq_getElem _ _ (by omega)]
  congr 1
  omega

theorem strip_length {pad : Nat} {file : File} {e : Extent} {out : List UInt8}
    (h : strip pad file e = some out) (hpad : 0 < pad) (hfil : e.fil_size ≤ e.mem_size)
    (hmem : e.mem_size + pad < 18446744073709551616) :
    out.length = (e.mem_size + pad - 1) / pad * pad := by
  unfold strip at h
  dsimp only at h
  by_cases hoff : e.offset < 0
  · rw [if_pos hoff] at h
    cases h
  rw [if_neg hoff, if_neg (by omega)] at h
  have hsum : ((e.mem_size : Int) + pad - 1) = ((e.mem_size + pad - 1 : Nat) : Int) := by omega
  have hle : (e.mem_size + pad - 1) / pad * pad ≤ e.mem_size + pad - 1 := Nat.div_mul_le_self _ _
  have hge : e.mem_size ≤ (e.mem_size + pad - 1) / pad * pad := by
    have h1 := Nat.div_add_mod' (e.mem_size + pad - 1) pad
    have h2 := Nat.mod_lt (e.mem_size + pad - 1) hpad
    omega
  have hround : uns 64 (uns 64 ((e.mem_size : Int) + pad - 1) / pad * pad : Nat)
      = (e.mem_size + pad - 1) / pad * pad := by
    have hmem64 : uns 64 ((e.mem_size : Int) + pad - 1) = e.mem_size + pad - 1 := by
      rw [hsum]
      exact uns64_natCast (by omega)
    rw [hmem64]
    exact uns64_natCast (by omega)
  rw [hround] at h
  generalize (e.mem_size + pad - 1) / pad * pad = r at h hle hge ⊢
  have hsub : ((r : Int) - e.fil_size) = ((r - e.fil_size : Nat) : Int) := by omega
  rw [hsub, uns64_natCast (by omega)] at h
  obtain ⟨body, hbody, rfl⟩ := Option.map_eq_some_iff.mp h
  obtain ⟨rfl, hlen⟩ := copyOut_eq _ _ _ _ (le_refl _) hbody
  rw [zeroFill_eq _ _ (le_refl _), List.length_append, List.length_take, List.length_replicate]
  omega

/-- with `-b` the output is the image in whole sectors -/
theorem objstrip_length {stack : Mem} {ecoff : Mem → Option Extent} {image : File} {_end : Nat}
    {out : List UInt8} (hl : Linked image _end)
    (h : objstrip stack ecoff BLOCK_SIZE image = some out) :
    out.length = (_end - BOOT_ADDR + 511) / 512 * 512 := by
  have hbyte : ∀ k, k < 64 → stack.put 0 (image.bytes.take sizeof_buf) k = image.mem k :=
    fun k hk => put_take (by unfold sizeof_buf; omega) (by have := hl.header; omega)
  have helf : isElf (stack.put 0 (image.bytes.take sizeof_buf)) = true := by
    rw [← hl.elf]
    unfold isElf
    rw [hbyte 0 (by decide), hbyte 1 (by decide), hbyte 2 (by decide), hbyte 3 (by decide)]
  have hoff : e_phoff (stack.put 0 (image.bytes.take sizeof_buf)) = e_phoff image.mem :=
    header_eq (a := 32) (k := 8) stack hl.header (by decide)
  have hent : e_entry (stack.put 0 (image.bytes.take sizeof_buf)) = BOOT_ADDR :=
    (header_eq (a := 24) (k := 8) stack hl.header (by decide)).trans hl.entry
  have hpos : 0 ≤ sgn 64 (e_phoff image.mem) := by
    have h1 := hl.phdr
    have h2 := image.size_lt
    rw [sgn64_natCast (by omega)]
    exact Int.natCast_nonneg _
  unfold objstrip at h
  dsimp only at h
  rw [if_pos helf] at h
  obtain ⟨e, he, hs⟩ := Option.bind_eq_some_iff.mp h
  unfold elfExtent at he
  rw [hoff, hent, if_pos hpos] at he
  generalize hbuf : stack.put 0 (image.bytes.take sizeof_buf) = buf at he
  by_cases h1 : e_type buf ≠ ET_EXEC
  · rw [if_pos h1] at he
    cases he
  rw [if_neg h1] at he
  by_cases h2 : e_machine buf ≠ EM_ALPHA
  · rw [if_pos h2] at he
    cases he
  rw [if_neg h2] at he
  dsimp only at he
  by_cases h3 : ((image.bytes.drop (e_phoff image.mem)).take sizeof_Phdr).length ≠ sizeof_Phdr
  · rw [if_pos h3] at he
    cases he
  rw [if_neg h3] at he
  have hv : (buf.put 0 ((image.bytes.drop (e_phoff image.mem)).take sizeof_Phdr)).le64 16
      = BOOT_ADDR := (phdr_eq (a := 16) (k := 8) buf hl.phdr (by decide)).trans hl.vaddr
  have hm : (buf.put 0 ((image.bytes.drop (e_phoff image.mem)).take sizeof_Phdr)).le64 40
      = _end - BOOT_ADDR := (phdr_eq (a := 40) (k := 8) buf hl.phdr (by decide)).trans hl.memsz
  have hf : (buf.put 0 ((image.bytes.drop (e_phoff image.mem)).take sizeof_Phdr)).le64 32
      ≤ _end - BOOT_ADDR := by
    have hle := hl.filesz
    rw [hl.memsz] at hle
    exact (phdr_eq (a := 32) (k := 8) buf hl.phdr (by decide)).le.trans hle
  unfold phdrExtent at he
  rw [hv, if_neg (lt_irrefl _)] at he
  rw [← Option.some.inj he] at hs
  have haddr := hl.address
  have hlen := strip_length hs (by decide) (by dsimp only; rw [hm]; exact hf)
    (by dsimp only; rw [hm]; unfold BOOT_ADDR BLOCK_SIZE; omega)
  dsimp only at hlen
  rw [hlen, hm]
  unfold BLOCK_SIZE
  omega

end Objstrip
