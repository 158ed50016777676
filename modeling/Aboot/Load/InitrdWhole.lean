import Aboot.Load.Initrd
import Mathlib.Tactic.IntervalCases

/-!
# Whether the initrd is loaded whole

`read_initrd` rounds up by the low bits of the NUMBER of whole blocks, where those of the size are
meant.  One block too few is read when that number is a multiple of the block size, and one too
many when the size is a multiple of it and the number is not.

* `initrdBlocks_eq`    the blocks that are read;
* `stored_below_iff`   when all that is read is below the heap pointer;
* `initrd_whole_iff`   when the initrd is whole and nothing from the heap pointer on is written.
-/

set_option linter.unusedVariables false

namespace Load
open Word State

/-- a `bread` of the first blocks that returns their size has stored them: bytes `F`, in blocks of
`bs` -/
def ReadsBlocks {σ φ : Type} (fs : BootFs σ φ) (fd : φ) (bs : Nat) (F : Nat → UInt8) (f : σ) : Prop :=
  ∀ n : Int, (fs.bread fd 0 n f).1.ret = sgn 32 (n * bs) →
    (fs.bread fd 0 n f).1.data = (List.range (n.toNat * bs)).map F

/-- the initrd has the bytes of the file, on a page of its own, and the ranges that were stored to
are below `top` -/
structure Whole {σ : Type} (F : Nat → UInt8) (size top : Nat) (s s' : State σ) : Prop where
  bytes : ∀ k < size, s'.mem (s'.initrd_start + k) = F k
  aligned : s'.initrd_start % PAGE_SIZE = 0
  below : ∃ ws, s'.writes = s.writes ++ ws ∧ ∀ r ∈ ws, ∀ x, r.1 ≤ x → x < r.1 + r.2 → x < top

/-- the size of the blocks that are read: the whole blocks of the file, and one more when their
number is no multiple of `bs`; the number is an `int` -/
def readSize (bs size : Nat) : Nat :=
  (sgn 32 (if size / bs % bs = 0 then size / bs else size / bs + 1 : Nat)).toNat * bs

/-- what is not read is there already; and nothing is read, or there is room under the heap pointer
for the file, and in the page of its start for what is read past it -/
def Loads (m : Mem) (F : Nat → UInt8) (start bs size top : Nat) : Prop :=
  (∀ k, readSize bs size ≤ k → k < size → m (start + k) = F k) ∧
    (readSize bs size = 0 ∨
      (size ≤ top ∧ readSize bs size ≤ size + (top - size) % PAGE_SIZE))

/-! ## the blocks -/

section
variable {e : Nat} (he : e ≤ 13)
include he

theorem initrdBlocks_eq (size : Nat) : initrdBlocks ((2 ^ e : Nat) : Int) size
    = sgn 32 (if size / 2 ^ e % 2 ^ e = 0 then size / 2 ^ e else size / 2 ^ e + 1 : Nat) := by
  have hpos : 0 < 2 ^ e := Nat.two_pow_pos e
  have hle : 2 ^ e ≤ 8192 := Nat.pow_le_pow_right (by omega) he
  have hdvd : 2 ^ e ∣ 4294967296 := Nat.pow_dvd_pow 2 (show e ≤ 32 by omega)
  have hcast : ((2 ^ e : Nat) : Int) - 1 = ((2 ^ e - 1 : Nat) : Int) := by omega
  have hlow : uns 32 (sgn 32 (size / 2 ^ e : Nat)) &&& (2 ^ e - 1) = size / 2 ^ e % 2 ^ e := by
    obtain ⟨q, h1, -, -⟩ := sgn32_cases (size / 2 ^ e : Nat)
    obtain ⟨q', h2, h3⟩ := uns32_cases (sgn 32 (size / 2 ^ e : Nat))
    have hmod : uns 32 (sgn 32 (size / 2 ^ e : Nat)) = size / 2 ^ e % 4294967296 := by omega
    rw [Nat.and_two_pow_sub_one_eq_mod, hmod, Nat.mod_mod_of_dvd _ hdvd]
  unfold initrdBlocks
  rw [uns64_natCast (by omega), hcast, uns32_natCast (by omega)]
  simp only [hlow]
  by_cases h0 : size / 2 ^ e % 2 ^ e = 0
  · rw [if_pos h0, if_neg (by omega)]
  · rw [if_neg h0, if_pos h0]
    rw [Int.natCast_add]
    exact Int.bmod_add_bmod

/-- a size next to the end of the address space has a number of blocks that is no positive `int` -/
theorem readSize_large {size : Nat} (h1 : 18446744073709543424 < size)
    (h2 : size < 18446744073709551616) : readSize (2 ^ e) size = 0 := by
  have hnum : sgn 32 (if size / 2 ^ e % 2 ^ e = 0 then size / 2 ^ e else size / 2 ^ e + 1 : Nat) ≤ 0 := by
    obtain ⟨q, hq, hlo, hhi⟩ :=
      sgn32_cases (if size / 2 ^ e % 2 ^ e = 0 then size / 2 ^ e else size / 2 ^ e + 1 : Nat)
    have hcases : (if size / 2 ^ e % 2 ^ e = 0 then size / 2 ^ e else size / 2 ^ e + 1)
        = size / 2 ^ e ∨ (if size / 2 ^ e % 2 ^ e = 0 then size / 2 ^ e else size / 2 ^ e + 1)
        = size / 2 ^ e + 1 := by
      split
      · exact Or.inl rfl
      · exact Or.inr rfl
    generalize (if size / 2 ^ e % 2 ^ e = 0 then size / 2 ^ e else size / 2 ^ e + 1) = n at *
    interval_cases e <;> norm_num at hcases <;> omega
  unfold readSize
  rw [Int.toNat_of_nonpos hnum, Nat.zero_mul]

/-! ## where they are stored -/

/-- all that is read is below the heap pointer -/
theorem stored_below_iff {clusters : List Cluster} {p size : Nat}
    (hp : heapTop clusters p < 18446744073709551616) (hsize : size < 18446744073709551616) :
    (readSize (2 ^ e) size = 0 ∨
        initrdStart clusters p size + readSize (2 ^ e) size ≤ heapTop clusters p) ↔
      (readSize (2 ^ e) size = 0 ∨ (size ≤ heapTop clusters p ∧
        readSize (2 ^ e) size ≤ size + (heapTop clusters p - size) % PAGE_SIZE)) := by
  refine or_congr_right' fun h0 => ?_
  unfold initrdStart pageDown PAGE_SIZE
  obtain ⟨q, hq, hlt⟩ := uns64_cases ((heapTop clusters p : Int) - size)
  by_cases hle : size ≤ heapTop clusters p
  · have hsub : uns 64 ((heapTop clusters p : Int) - size) = heapTop clusters p - size := by omega
    rw [hsub]
    omega
  · -- the start wraps around
    have hlarge : size ≤ 18446744073709543424 := by
      by_contra hgt
      exact h0 (readSize_large he (by omega) hsize)
    omega

end

/-! ## read_initrd -/

section
variable {σ φ : Type} {M : Machine} {fs : BootFs σ φ}

/-- a `read_initrd` that returns 0 has stored the blocks and nothing else -/
theorem read_initrd_stored {file : List UInt8} {s s' : State σ} {fd : φ} {f : σ}
    (hopen : fs.open_ file s.fs = some (some fd, f)) {e : Nat} (he : e ≤ 13)
    (hbs : fs.blocksize f = (2 ^ e : Nat)) {F : Nat → UInt8}
    (hbread : ReadsBlocks fs fd (2 ^ e) F f) (h : read_initrd M fs file s = (some 0, s')) :
    s'.initrd_start = initrdStart M.clusters s.elf.free_mem_ptr (fs.st_size fd f) ∧
      s'.mem = s.mem.put s'.initrd_start ((List.range (readSize (2 ^ e) (fs.st_size fd f))).map F) ∧
      s'.writes = s.writes ++ [(s'.initrd_start, readSize (2 ^ e) (fs.st_size fd f))] := by
  unfold read_initrd at h
  rw [hopen] at h
  simp only [hbs] at h
  split at h
  · cases h
  · rename_i hret
    obtain ⟨-, rfl⟩ := Prod.mk.inj h
    have hdata := hbread _ (not_not.mp hret)
    rw [initrdBlocks_eq he] at hdata ⊢
    have hlen : (fs.bread fd 0 (sgn 32 (if fs.st_size fd f / 2 ^ e % 2 ^ e = 0 then
        fs.st_size fd f / 2 ^ e else fs.st_size fd f / 2 ^ e + 1 : Nat)) f).1.data.length
        = readSize (2 ^ e) (fs.st_size fd f) := by
      rw [hdata, List.length_map, List.length_range]
      rfl
    refine ⟨rfl, ?_, ?_⟩
    · show s.mem.put _ _ = _
      rw [hdata]
      rfl
    · show s.writes ++ [(_, _)] = _
      rw [hlen]

/-- **When the initrd is loaded whole and in its own space.**  For every file, every power of two up
to the page size as block size and every heap pointer, when `read_initrd` returns 0. -/
theorem initrd_whole_iff (M : Machine) (fs : BootFs σ φ) (file : List UInt8) (s s' : State σ) (fd : φ)
    (f : σ) (hopen : fs.open_ file s.fs = some (some fd, f)) (e : Nat) (he : e ≤ 13)
    (hbs : fs.blocksize f = (2 ^ e : Nat)) (F : Nat → UInt8)
    (hbread : ReadsBlocks fs fd (2 ^ e) F f) (hsize : fs.st_size fd f < 18446744073709551616)
    (hp : s.elf.free_mem_ptr < 18446744073709551616)
    (h : read_initrd M fs file s = (some 0, s')) :
    Whole F (fs.st_size fd f) (heapTop M.clusters s.elf.free_mem_ptr) s s' ↔
      Loads s.mem F (initrdStart M.clusters s.elf.free_mem_ptr (fs.st_size fd f)) (2 ^ e)
        (fs.st_size fd f) (heapTop M.clusters s.elf.free_mem_ptr) := by
  obtain ⟨hstart, hmem, hwrites⟩ := read_initrd_stored hopen he hbs hbread h
  have htop : heapTop M.clusters s.elf.free_mem_ptr < 18446744073709551616 := by
    unfold heapTop
    split
    · exact uns64_lt _
    · exact hp
  unfold Loads
  rw [← stored_below_iff he htop hsize, ← hstart]
  constructor
  · rintro ⟨hbytes, -, ws, hws, hbelow⟩
    refine ⟨fun k h1 h2 => ?_, ?_⟩
    · rw [← hbytes k h2, hmem, Mem.put_out]
      right
      rw [List.length_map, List.length_range]
      omega
    · obtain rfl := List.append_cancel_left (hwrites.symm.trans hws)
      have hlast := hbelow _ (List.mem_singleton.mpr rfl)
        (s'.initrd_start + readSize (2 ^ e) (fs.st_size fd f) - 1)
      simp only at hlast
      omega
  · rintro ⟨hrest, hbelow⟩
    refine ⟨fun k hk => ?_, ?_, _, hwrites, fun r hr x h1 h2 => ?_⟩
    · rw [hmem]
      by_cases hin : k < readSize (2 ^ e) (fs.st_size fd f)
      · rw [Mem.put_in _ _ _ _ (by simpa using hin), List.getElem_map, List.getElem_range]
      · rw [Mem.put_out, hrest k (by omega) hk]
        right
        rw [List.length_map, List.length_range]
        omega
    · rw [hstart]
      exact initrdStart_aligned _ _ _
    · obtain rfl := List.mem_singleton.mp hr
      simp only at h1 h2
      omega

end

/-! ## two files -/

theorem oneFile_reads (bs size : Nat) (F : Nat → UInt8) : ReadsBlocks (oneFile bs size F) () bs F () := by
  intro n _
  have hlen : (n * (bs : Int)).toNat = n.toNat * bs := by
    rcases Int.le_total 0 n with hn | hn
    · obtain ⟨m, rfl⟩ := Int.eq_ofNat_of_zero_le hn
      rw [← Int.natCast_mul, Int.toNat_natCast, Int.toNat_natCast]
    · have hmul : n * (bs : Int) ≤ 0 := Int.mul_nonpos_of_nonpos_of_nonneg hn (Int.natCast_nonneg bs)
      rw [Int.toNat_of_nonpos hmul, Int.toNat_of_nonpos hn, Nat.zero_mul]
  simp only [oneFile, hlen, Int.toNat_zero, Nat.zero_mul, Nat.zero_add]

/-- a file of three bytes in blocks of two: four bytes are read -/
def threeBytes : Option Int × State Unit :=
  read_initrd (topMachine 1024) (oneFile 2 3 fun k => k.toUInt8) [] (powerOn ())

theorem initrd_whole_iff_three : ∃ s', threeBytes = (some 0, s') ∧
    (Whole (fun k => k.toUInt8) 3 (heapTop (topMachine 1024).clusters 0) (powerOn ()) s' ↔
      Loads (fun _ => 0) (fun k => k.toUInt8) (initrdStart (topMachine 1024).clusters 0 3) 2 3
        (heapTop (topMachine 1024).clusters 0)) := by
  have h0 : threeBytes.1 = some 0 := by decide +kernel
  generalize hr : threeBytes = r at h0
  obtain ⟨n, s'⟩ := r
  obtain rfl : n = some 0 := h0
  exact ⟨s', rfl, initrd_whole_iff (topMachine 1024) (oneFile 2 3 fun k => k.toUInt8) [] (powerOn ())
    s' () () rfl 1 (by decide) rfl _ (oneFile_reads 2 3 _) (show 3 < 18446744073709551616 by decide)
    (show 0 < 18446744073709551616 by decide) hr⟩

/-- a file of one byte in blocks of 1024: nothing is read, and 0 is returned -/
def oneByte : Option Int × State Unit :=
  read_initrd (topMachine 1024) (oneFile 1024 1 fun _ => 7) [] (powerOn ())

theorem initrd_not_read : ReadsBlocks (oneFile 1024 1 fun _ => 7) () 1024 (fun _ => 7) () ∧
    ∃ s', oneByte = (some 0, s') ∧ s'.mem s'.initrd_start = 0 ∧
      ¬ Whole (fun _ => 7) 1 (heapTop (topMachine 1024).clusters 0) (powerOn ()) s' := by
  refine ⟨oneFile_reads 1024 1 _, oneByte.2, ?_⟩
  have h0 : oneByte.1 = some 0 := by decide +kernel
  have hmem : oneByte.2.mem oneByte.2.initrd_start = 0 := by decide +kernel
  refine ⟨Prod.ext h0 rfl, hmem, fun h => ?_⟩
  have hbyte := h.bytes 0 (by decide)
  rw [Nat.add_zero, hmem] at hbyte
  exact absurd hbyte (by decide)

end Load
