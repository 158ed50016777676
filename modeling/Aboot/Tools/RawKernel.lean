import Aboot.Load.Dummy
import Aboot.Tools.Objstrip
import Aboot.Tools.Swriteboot

/-!
# A raw kernel from the installer to the boot loader

`objstrip -b` makes the boot file of whole sectors, `swriteboot` stores the kernel right behind it,
and `load_raw` and `dummy_bread` look for it behind the boot loader in memory.

* `sectors_eq`, `kernelBytes_eq`   sizes in sectors;
* `stored_kernel`   the kernel on the device;
* `RawFound`        the kernel is where both readers look, and only checked sectors were written;
* `raw_kernel_iff`  when that is so.
-/

set_option linter.unusedVariables false

namespace Swriteboot
open Word Bytes Prog BootBlock Disklabel
open Objstrip (BOOT_ADDR Linked objstrip Extent)

/-! ## sizes -/

theorem sectors_eq {file : File} (h : file.bytes.length + 511 < 9223372036854775808) :
    sectors file = (file.bytes.length + 511) / 512 := by
  have e : ((file.bytes.length : Int) + (SECT_SIZE : Nat) - 1)
      = ((file.bytes.length + 511 : Nat) : Int) := by
    push_cast
    omega
  unfold sectors
  rw [e, sgn64_natCast h]
  show uns 64 (Int.tdiv ((file.bytes.length + 511 : Nat) : Int) (512 : Nat)) = _
  rw [← Int.ofNat_tdiv]
  exact uns64_natCast (by omega)

theorem kernelsize_eq {K : File} (h : K.bytes.length + 511 < 9223372036854775808) :
    kernelsize (some K) = (K.bytes.length + 511) / 512 := by
  rw [kernelsize, Option.map_some, Option.getD_some]
  exact sectors_eq h

theorem sectors_pos {file : File} (h : file.bytes ≠ []) : 0 < sectors file := by
  have hlen := List.length_pos_iff.mpr h
  have hlt := file.size_lt
  obtain ⟨q, hq, h1, h2⟩ := sgn64_cases ((file.bytes.length : Int) + (SECT_SIZE : Nat) - 1)
  unfold sectors
  generalize sgn 64 ((file.bytes.length : Int) + (SECT_SIZE : Nat) - 1) = v at hq h1 h2 ⊢
  obtain ⟨r, hr, hr1⟩ := uns64_cases (Int.tdiv v (SECT_SIZE : Nat))
  have hv : 512 ≤ v ∨ v ≤ -512 := by
    have e : ((SECT_SIZE : Nat) : Int) = 512 := rfl
    omega
  have hdiv : Int.tdiv v 512 ≠ 0 ∧ -9223372036854775808 ≤ Int.tdiv v 512 ∧
      Int.tdiv v 512 < 9223372036854775808 := by
    rcases hv with hv | hv
    · rw [Int.tdiv_eq_ediv_of_nonneg (by omega)]
      omega
    · have hneg : Int.tdiv v 512 = -(-v / 512) := by
        rw [← Int.tdiv_eq_ediv_of_nonneg (show 0 ≤ -v by omega), Int.neg_tdiv, neg_neg]
      rw [hneg]
      omega
  have e : Int.tdiv v (SECT_SIZE : Nat) = Int.tdiv v 512 := rfl
  rw [e] at hr hr1 ⊢
  omega

/-- a kernel is copied whole -/
theorem kernelBytes_eq (K : File) : kernelBytes (some K) = K.bytes := by
  unfold kernelBytes
  by_cases h : K.bytes = []
  · dsimp only
    rw [h]
    split <;> rfl
  · exact if_pos (sectors_pos h)

theorem stored_kernel {m : Mem} {bootfile K : File} {j : Nat} (hj : j < K.bytes.length) :
    stored m bootfile (some K) (1024 + (j + bootfile.bytes.length)) = K.bytes[j] := by
  rw [stored_image (by rw [List.length_append, kernelBytes_eq]; omega)]
  simp only [kernelBytes_eq]
  exact (List.getElem_append_right' bootfile.bytes hj).symm

/-! ## where the kernel is found -/

/-- the sectors of a boot loader that ends at `_end`, in bytes -/
def loaderBytes (_end : Nat) : Nat := (_end - BOOT_ADDR + 511) / 512 * 512

/-- byte `j` of the kernel is behind the boot loader, where `load_raw` and `dummy_bread` read it;
outside sector 0 only sectors that `overlaplabel` was asked for were written -/
structure RawFound (t : Device) (bootfile K : File) (_end : Nat) : Prop where
  placed : ∀ j (h : j < K.bytes.length),
    t.bytes (BOOT_SECTOR * 512 + loaderBytes _end + j) = K.bytes[j]
  offset : Load.ksect (_end - BOOT_ADDR) * Load.SECT_SIZE
    = ((BOOT_SECTOR * 512 + loaderBytes _end : Nat) : Int)
  raw : ∀ (M : Machine) (dev : Int), (∀ off : Nat, M.bytes dev off = t.bytes off) →
    ∀ j (h : j < K.bytes.length),
      Load.rawFile M dev (Load.ksect (_end - BOOT_ADDR) * Load.SECT_SIZE) j = K.bytes[j]
  dummy : ∀ (M : Machine) (s : Dummy.State), (∀ off : Nat, M.bytes s.dev off = t.bytes off) →
    Dummy.Started (_end - BOOT_ADDR) s → ∀ blkno nblks : Nat,
    (Dummy.dummy_bread M (_end - BOOT_ADDR) blkno nblks s).1.ret ≠ -1 →
    ∀ k (h : blkno * 8192 + k < K.bytes.length), k < nblks * 8192 →
      (Dummy.dummy_bread M (_end - BOOT_ADDR) blkno nblks s).1.data[k]?
        = some K.bytes[blkno * 8192 + k]
  inside : ∀ w ∈ t.writes, ∀ k, k < w.2.length → 512 ≤ w.1 + k →
    BOOT_SECTOR ≤ (w.1 + k) / 512 ∧ (((w.1 + k) / 512 : Nat) : Int) < endplace bootfile (some K)

theorem ksect_loader (_end : Nat) : Load.ksect (_end - BOOT_ADDR) * Load.SECT_SIZE
    = ((BOOT_SECTOR * 512 + loaderBytes _end : Nat) : Int) := by
  unfold Load.ksect Load.SECT_SIZE Load.BOOT_SECTOR loaderBytes BOOT_SECTOR
  push_cast
  ring

/-- a kernel that was stored behind a boot loader of whole sectors is found by both readers -/
theorem found_of_placed {t : Device} {bootfile K : File} {_end : Nat}
    (hsize : _end - BOOT_ADDR < 9223372036854775808)
    (hp : ∀ j (h : j < K.bytes.length),
      t.bytes (BOOT_SECTOR * 512 + loaderBytes _end + j) = K.bytes[j])
    (hi : ∀ w ∈ t.writes, ∀ k, k < w.2.length → 512 ≤ w.1 + k →
      BOOT_SECTOR ≤ (w.1 + k) / 512 ∧
        (((w.1 + k) / 512 : Nat) : Int) < endplace bootfile (some K)) :
    RawFound t bootfile K _end := by
  refine ⟨hp, ksect_loader _end, fun M dev hdev j hj => ?_, ?_, hi⟩
  · rw [← hp j hj, ← hdev, Load.rawFile, ksect_loader]
    rfl
  · intro M s hdev hstart blkno nblks hret k hk hlt
    rw [Dummy.dummy_bread_data hstart hsize hret, ksect_loader, ← hp _ hk, ← hdev]
    have hcount : ((nblks : Int) * Dummy.BLOCKSIZE).toNat = nblks * 8192 := by
      show ((nblks : Int) * (8192 : Nat)).toNat = _
      rw [← Int.natCast_mul, Int.toNat_natCast]
    have hoff : ((BOOT_SECTOR * 512 + loaderBytes _end : Nat) : Int) + ((blkno : Int) * Dummy.BLOCKSIZE + k)
        = ((BOOT_SECTOR * 512 + loaderBytes _end + (blkno * 8192 + k) : Nat) : Int) := by
      have e : Dummy.BLOCKSIZE = 8192 := rfl
      rw [e]
      push_cast
      ring
    rw [hcount, List.getElem?_map, List.getElem?_range hlt, Option.map_some, hoff]

/-- what the three programs leave: a boot file of whole sectors, the device, and its writes -/
structure Done (t : Device) (bootfile K : File) (_end : Nat) : Prop where
  length : bootfile.bytes.length = loaderBytes _end
  whole : 512 ≤ bootfile.bytes.length ∧ bootfile.bytes.length % 512 = 0
  size : _end - BOOT_ADDR < 9223372036854775808
  placed : ∀ j (h : j < K.bytes.length), t.bytes (BOOT_SECTOR * 512 + loaderBytes _end + j) = K.bytes[j]
  writes : ∃ part, Placed t.writes (bootfile.bytes.length + K.bytes.length) part

theorem done_of_run {stack label sbuf disk : Mem} {ecoff : Mem → Option Extent}
    {opts : List Opt} {image bootfile K : File} {_end : Nat} {t : Device}
    (hlink : Linked image _end)
    (hstrip : objstrip sbuf ecoff Objstrip.BLOCK_SIZE image = some bootfile.bytes)
    (hrun : swriteboot stack label opts bootfile (some K) (Device.opened disk) = some ((), t)) :
    Done t bootfile K _end := by
  have hlen : bootfile.bytes.length = loaderBytes _end := Objstrip.objstrip_length hlink hstrip
  have hwhole : 512 ≤ bootfile.bytes.length ∧ bootfile.bytes.length % 512 = 0 := by
    have := hlink.nonempty
    rw [hlen]
    unfold loaderBytes
    omega
  have hsize : _end - BOOT_ADDR < 9223372036854775808 := by
    have h1 := bootfile.size_lt
    rw [hlen] at h1
    unfold loaderBytes at h1
    omega
  obtain ⟨o, ho, hacc⟩ := swriteboot_cond hrun
  obtain ⟨buf, n, w, hrun', hw, -⟩ := swriteboot_run stack ho hacc
  rw [hrun', Option.some.injEq, Prod.mk.injEq] at hrun
  obtain rfl := hrun.2
  rw [kernelBytes_eq] at hw
  refine ⟨hlen, hwhole, hsize, fun j hj => ?_, _, (List.append_nil w).symm ▸ hw⟩
  have hx : BOOT_SECTOR * 512 + loaderBytes _end + j = 1024 + (j + bootfile.bytes.length) := by
    rw [hlen]
    unfold BOOT_SECTOR
    omega
  rw [hx]
  dsimp only
  rw [withSum_out (by omega), configured_out (by omega), stored_kernel hj]

section
variable {t : Device} {bootfile K : File} {_end : Nat} (hd : Done t bootfile K _end)
include hd

theorem Done.found
    (hsmall : BOOT_SECTOR + loaderBytes _end / 512 + (K.bytes.length + 511) / 512 < 2147483648) :
    RawFound t bootfile K _end := by
  have hB : BOOT_SECTOR = 2 := rfl
  have hwhole := hd.whole
  rw [← hd.length, hB] at hsmall
  have hend : endplace bootfile (some K)
      = ((2 + bootfile.bytes.length / 512 + (K.bytes.length + 511) / 512 : Nat) : Int) := by
    unfold endplace
    rw [sectors_eq (by omega), kernelsize_eq (by omega), hB, sgn32_of_range (by omega) (by omega)]
    omega
  refine found_of_placed hd.size hd.placed ?_
  intro x hx k hk h512
  obtain ⟨part, hw⟩ := hd.writes
  rw [hend, hB]
  rcases hw.inside x hx with hin | ⟨h1, h2⟩ | ⟨-, h1, h2⟩
  · omega
  · omega
  · omega

/-- the last byte that was written is in a sector that no `int` reaches -/
theorem Done.not_found
    (hbig : 2147483648 ≤ BOOT_SECTOR + loaderBytes _end / 512 + (K.bytes.length + 511) / 512) :
    ¬ RawFound t bootfile K _end := by
  intro hf
  have hwhole := hd.whole
  obtain ⟨part, hw⟩ := hd.writes
  obtain ⟨x, hx, h1, h2⟩ := hw.all (1024 + (bootfile.bytes.length + K.bytes.length) - 1)
    (by omega) (by omega)
  have hin := (hf.inside x hx
    (1024 + (bootfile.bytes.length + K.bytes.length) - 1 - x.1) (by omega) (by omega)).2
  have hsector : (x.1 + (1024 + (bootfile.bytes.length + K.bytes.length) - 1 - x.1)) / 512
      = 2 + bootfile.bytes.length / 512 + (K.bytes.length + 511) / 512 - 1 := by omega
  rw [hsector] at hin
  obtain ⟨q, -, -, hlt⟩ := sgn32_cases (sectors bootfile + BOOT_SECTOR + kernelsize (some K) : Nat)
  unfold endplace at hin
  generalize sgn 32 (sectors bootfile + BOOT_SECTOR + kernelsize (some K) : Nat) = e at hin hlt
  rw [← hd.length, show BOOT_SECTOR = 2 from rfl] at hbig
  omega

end

/-- **the raw kernel is found where it was put.**  The boot file was made by `objstrip -b` from a
loader that is linked at `BOOT_ADDR`; then after a successful `swriteboot` the kernel is behind it for
both readers, and the writes stay in the checked sectors exactly if there are less than 2^31 of
them. -/
theorem raw_kernel_iff (stack label sbuf disk : Mem) (ecoff : Mem → Option Extent)
    (opts : List Opt) (image bootfile K : File) (_end : Nat) (t : Device)
    (hlink : Linked image _end)
    (hstrip : objstrip sbuf ecoff Objstrip.BLOCK_SIZE image = some bootfile.bytes)
    (hrun : swriteboot stack label opts bootfile (some K) (Device.opened disk) = some ((), t)) :
    RawFound t bootfile K _end ↔
      BOOT_SECTOR + loaderBytes _end / 512 + (K.bytes.length + 511) / 512 < 2147483648 := by
  have hd := done_of_run hlink hstrip hrun
  constructor
  · intro hf
    by_contra hbig
    exact hd.not_found (by omega) hf
  · exact hd.found

/-! ## a loader of one byte -/

/-- an executable with one byte of bss at `BOOT_ADDR` -/
def tinyImage : File where
  bytes := (record [(0, 0x464c457f, 4), (16, 2, 2), (18, 0x9026, 2), (24, 0x20000000, 8), (32, 64, 8),
    (56, 1, 2), (64, 1, 4), (80, 0x20000000, 8), (104, 1, 8)]).get 0 120
  size_lt := by rw [Mem.length_get]; decide

def tinyBoot : File where
  bytes := List.replicate 512 0
  size_lt := by rw [List.length_replicate]; decide

/-- a disk with a label and no partitions -/
def labelDisk : Mem := record [(64, 0x82564557, 4), (196, 0x82564557, 4)]

theorem tiny_linked : Linked tinyImage 0x20000001 := by
  refine ⟨by decide +kernel, by decide +kernel, by decide +kernel, by decide +kernel,
    by decide +kernel, by decide +kernel, by decide +kernel, by decide, by decide⟩

theorem tiny_stripped : objstrip (fun _ => 0) (fun _ => none) Objstrip.BLOCK_SIZE tinyImage
    = some tinyBoot.bytes := by decide +kernel

/-- any kernel is installed on the disk without partitions -/
theorem labelDisk_run (K : File) : ∃ t,
    swriteboot (fun _ => 0) (fun _ => 0) [] tinyBoot (some K) (Device.opened labelDisk)
      = some ((), t) := by
  have hnone : d_npartitions (labelOf (fun _ => 0) labelDisk) = 0 := by decide +kernel
  have hacc : Accepted (fun _ => 0) labelDisk ⟨0, 0⟩ tinyBoot (some K) := by
    refine ⟨by decide +kernel, ?_⟩
    unfold overlaplabel
    rw [hnone]
    rfl
  obtain ⟨buf, n, w, hrun, -⟩ := swriteboot_run (fun _ => 0) (s := Device.opened labelDisk)
    (show getopt [] = some ⟨0, 0⟩ from rfl) hacc
  exact ⟨_, hrun⟩

/-- a kernel of three bytes -/
theorem raw_kernel_tiny : ∃ t, swriteboot (fun _ => 0) (fun _ => 0) [] tinyBoot
      (some ⟨[7, 8, 9], by decide⟩) (Device.opened labelDisk) = some ((), t) ∧
    RawFound t tinyBoot ⟨[7, 8, 9], by decide⟩ 0x20000001 := by
  obtain ⟨t, hrun⟩ := labelDisk_run ⟨[7, 8, 9], by decide⟩
  refine ⟨t, hrun, ?_⟩
  exact (raw_kernel_iff _ _ (fun _ => 0) _ (fun _ => none) _ tinyImage _ _ _ t tiny_linked
    tiny_stripped hrun).mpr (by decide)

theorem not_found_far {K : File} (h : K.bytes.length = 1099511627776) : ∃ t,
    swriteboot (fun _ => 0) (fun _ => 0) [] tinyBoot (some K) (Device.opened labelDisk)
      = some ((), t) ∧ ¬ RawFound t tinyBoot K 0x20000001 := by
  obtain ⟨t, hrun⟩ := labelDisk_run K
  refine ⟨t, hrun, (done_of_run tiny_linked tiny_stripped hrun).not_found ?_⟩
  rw [h]
  decide

/-- a kernel of 1 TB: the end of its sectors is negative for `overlaplabel` -/
theorem raw_kernel_far : ∃ K t, Linked tinyImage 0x20000001 ∧
    objstrip (fun _ => 0) (fun _ => none) Objstrip.BLOCK_SIZE tinyImage = some tinyBoot.bytes ∧
    swriteboot (fun _ => 0) (fun _ => 0) [] tinyBoot (some K) (Device.opened labelDisk)
      = some ((), t) ∧ ¬ RawFound t tinyBoot K 0x20000001 := by
  obtain ⟨zeros, hlen⟩ : ∃ l : List UInt8, l.length = 1099511627776 :=
    ⟨List.replicate 1099511627776 0, List.length_replicate⟩
  obtain ⟨t, ht⟩ := not_found_far (K := ⟨zeros, by rw [hlen]; decide⟩) hlen
  exact ⟨_, t, tiny_linked, tiny_stripped, ht⟩

end Swriteboot
