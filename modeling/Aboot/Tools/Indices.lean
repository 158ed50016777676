import Aboot.Options.Impl
import Aboot.Tools.Swriteboot

/-!
# The partition table and its users

The table has `MAXPARTITIONS` entries, and the label its own count, which is read from the disk.  Each
user is modelled with the entries that it looks at: `mount_fs` of disk.c, `overlaplabel` of library.c
and `print_disklabel` of sdisklabel.c.

* `Selected`             the partition numbers that `mount_fs` is called with;
* `overlapLoop_eq`       the loop of `overlaplabel`, with the partitions that it comes to;
* `InRange`              every entry that is looked at is in the table;
* `in_range_iff`         when that is so.
-/

set_option linter.unusedVariables false

namespace Disklabel
open Word Options

def MAXPARTITIONS : Nat := 8
def FS_EXT2 : Int := 8
def FS_BSDFFS : Int := 7

def p_fstype (d : Mem) (x : Nat) : Nat := (d (148 + 16 * x + 12)).toNat
def d_secsize (d : Mem) : Nat := d.le32 40

/-! ## disk.c -/

inductive BootFs where
  | dummyfs | ext2fs | iso | ufs

def BootFs.fs_type : BootFs → Int
  | .dummyfs => 0
  | .ext2fs => FS_EXT2
  | .iso => -1
  | .ufs => FS_BSDFFS

def bootfs : List BootFs := [.ext2fs, .iso, .ufs]

/-- `get_disklabel`, with the bytes that were read from the start of the device: a short read leaves
`label` as it is -/
def get_disklabel (label : Option Mem) (lsect : List UInt8) : Option Mem :=
  if lsect.length ≠ LABELOFFSET + sizeof_disklabel then label
  else
    let d : Mem := fun k => sectorOf lsect (LABELOFFSET + k)
    if d_magic d = DISKLABELMAGIC ∧ d_magic2 d = DISKLABELMAGIC then some d else none

/-- the file system of a partition that is in the table, if it can be mounted at its offset -/
def mountPart (mount : BootFs → Int → Bool) (d : Mem) (x : Nat) : Option BootFs :=
  match bootfs.find? fun fs => fs.fs_type = (p_fstype d x : Int) with
  | none => none
  | some fs => if mount fs (sgn 64 (p_offset d x * d_secsize d : Nat)) then some fs else none

/-- `mount_fs`: the file system, and the entry of the table that was looked at; `mount` says whether a
file system can be mounted at an offset -/
def mount_fs (mount : BootFs → Int → Bool) (label : Option Mem) (partition : Int) :
    Option BootFs × Option Nat :=
  if partition = 0 then (if mount .dummyfs 0 then some .dummyfs else none, none)
  else
    match label with
    | none => (bootfs.find? fun fs => mount fs 0, none)
    | some d =>
      if uns 32 (partition - 1) ≥ d_npartitions d then (none, none)
      else (mountPart mount d (uns 32 (partition - 1)), some (uns 32 (partition - 1)))

/-- the partition numbers that are selected: the default, one in the flags, one typed after `p`, or the
number before the boot file -/
inductive Selected : Int → Prop where
  | default : Selected 1
  | flags (v : Options.Vars) : v.config_file_partition = 1 → Selected (parseFlags v).config_file_partition
  | prompt (buf : List UInt8) (n : Int) : partArg buf = some n → Selected n
  | file (v : Options.Vars) : Selected v.config_file_partition → Selected (parsePart v).boot_part

/-! ## library.c and sdisklabel.c -/

/-- `k` rounds of the loop of `overlaplabel` from partition `x` on: what it returns, and the values of
`x` that it comes to -/
def overlapLoop (d : Mem) (offset endplace : Int) (force : Nat) :
    (k : Nat) → (x : Nat) → Option Nat × List Nat
  | 0, _ => (none, [])
  | k + 1, x =>
    if force.testBit x = false ∧
        (let part_offset := sgn 32 (p_offset d x)
          let part_end := sgn 32 (p_offset d x + p_size d x)
          part_end > 0 ∧ does_overlap part_offset part_end offset endplace) then
      (some x, [x])
    else
      let r := overlapLoop d offset endplace force k (x + 1)
      (r.1, x :: r.2)

/-- the values of `x` in the shifts `1U << x` -/
def overlapShifts (d : Mem) (offset endplace : Int) (force : Nat) : List Nat :=
  (overlapLoop d offset endplace force (d_npartitions d) 0).2

/-- the entries that are looked at: not those in the set `force` -/
def overlapIndices (d : Mem) (offset endplace : Int) (force : Nat) : List Nat :=
  (overlapShifts d offset endplace force).filter fun x => force.testBit x = false

/-- what `print_disklabel` prints: the number of each partition, its type, its offset and its size -/
def print_disklabel (d : Mem) : List (Nat × Nat × Nat × Nat) :=
  (List.range (d_npartitions d)).map fun x => (x, p_fstype d x, p_offset d x, p_size d x)

theorem overlapLoop_eq (d : Mem) (offset endplace : Int) (force : Nat) :
    (overlapLoop d offset endplace force (d_npartitions d) 0).1 = overlaplabel d offset endplace force := by
  have h : ∀ k x, (overlapLoop d offset endplace force k x).1 = (List.range' x k).find? fun x =>
      force.testBit x = false ∧
        let part_offset := sgn 32 (p_offset d x)
        let part_end := sgn 32 (p_offset d x + p_size d x)
        part_end > 0 ∧ does_overlap part_offset part_end offset endplace := by
    intro k
    induction k with
    | zero => exact fun x => rfl
    | succ k ih =>
      intro x
      rw [List.range'_succ, List.find?_cons, overlapLoop]
      split
      · rename_i hp
        rw [decide_eq_true hp]
      · rename_i hp
        rw [decide_eq_false hp]
        exact ih (x + 1)
  rw [h, overlaplabel, List.range_eq_range']

/-- the loop comes to the partitions below the count only -/
theorem overlapLoop_le {d : Mem} {offset endplace : Int} {force : Nat} (k : Nat) :
    ∀ x, ∀ y ∈ (overlapLoop d offset endplace force k x).2, y < x + k := by
  induction k with
  | zero =>
    intro x y hy
    cases hy
  | succ k ih =>
    intro x y hy
    rw [overlapLoop] at hy
    split at hy
    · have := List.mem_singleton.mp hy
      omega
    · rcases List.mem_cons.mp hy with rfl | hy
      · omega
      · have := ih (x + 1) y hy
        omega

/-- an area at the end of the `int`s overlaps with no partition, so that the loop comes to all -/
theorem overlapShifts_all (d : Mem) : overlapShifts d 2147483647 2147483647 0
    = List.range (d_npartitions d) := by
  have hno : ∀ a e : Int, e ≤ 2147483647 → does_overlap a e 2147483647 2147483647 = false := by
    intro a e he
    unfold does_overlap
    rw [decide_eq_false_iff_not]
    omega
  have h : ∀ k x, (overlapLoop d 2147483647 2147483647 0 k x).2 = List.range' x k := by
    intro k
    induction k with
    | zero => exact fun x => rfl
    | succ k ih =>
      intro x
      rw [List.range'_succ, overlapLoop, if_neg]
      · rw [← ih (x + 1)]
      · rintro ⟨-, -, ho⟩
        obtain ⟨q, -, -, hlt⟩ := sgn32_cases (p_offset d x + p_size d x)
        rw [hno _ _ (by omega)] at ho
        cases ho
  rw [overlapShifts, h, List.range_eq_range']

/-! ## the table -/

/-- every entry of the table that is looked at is there, and every shift is one of 32 bits -/
structure InRange (d : Mem) : Prop where
  mount : ∀ mount partition x, Selected partition →
    (mount_fs mount (some d) partition).2 = some x → x < MAXPARTITIONS
  overlap : ∀ offset endplace force, ∀ x ∈ overlapIndices d offset endplace force, x < MAXPARTITIONS
  shift : ∀ offset endplace force, ∀ x ∈ overlapShifts d offset endplace force, x < 32
  print : ∀ e ∈ print_disklabel d, e.1 < MAXPARTITIONS

theorem InRange.of_count {d : Mem} (h : d_npartitions d ≤ MAXPARTITIONS) : InRange d := by
  have h8 : MAXPARTITIONS = 8 := rfl
  have hshift : ∀ offset endplace force, ∀ x ∈ overlapShifts d offset endplace force, x < MAXPARTITIONS := by
    intro offset endplace force x hx
    have := overlapLoop_le (d_npartitions d) 0 x hx
    omega
  refine ⟨fun mount partition x hs hx => ?_, fun offset endplace force x hx => ?_,
    fun offset endplace force x hx => ?_, fun e he => ?_⟩
  · unfold mount_fs at hx
    split at hx
    · cases hx
    · dsimp only at hx
      split at hx
      · cases hx
      · have := Option.some.inj hx
        omega
  · exact hshift offset endplace force x (List.mem_filter.mp hx).1
  · have := hshift offset endplace force x hx
    omega
  · obtain ⟨x, hx, rfl⟩ := List.mem_map.mp he
    have := List.mem_range.mp hx
    show x < MAXPARTITIONS
    omega

/-- **the entries that are looked at are in the table** exactly if the label counts no more of them than
there are -/
theorem in_range_iff {d : Mem} (hvalid : d_magic d = DISKLABELMAGIC ∧ d_magic2 d = DISKLABELMAGIC) :
    InRange d ↔ d_npartitions d ≤ MAXPARTITIONS := by
  constructor
  · intro h
    by_contra hbig
    have hx : MAXPARTITIONS ∈ overlapIndices d 2147483647 2147483647 0 := by
      rw [overlapIndices, overlapShifts_all, List.mem_filter]
      refine ⟨List.mem_range.mpr (by omega), ?_⟩
      rw [Nat.zero_testBit]
      rfl
    exact Nat.lt_irrefl _ (h.overlap _ _ _ _ hx)
  · exact InRange.of_count

/-! ## two labels -/

/-- a label that counts `n` partitions -/
def countLabel (n : Nat) : Mem := Bytes.record [(0, DISKLABELMAGIC, 4), (132, DISKLABELMAGIC, 4), (138, n, 2)]

theorem in_range_eight : InRange (countLabel 8) :=
  (in_range_iff (by decide +kernel)).mpr (by decide +kernel)

/-- the variables with the flags `9:0` -/
def nineFlags : Options.Vars where
  kernel_args := sectorOf (ascii "9:0")
  boot_file := []
  initrd_file := []
  boot_part := -1
  config_file_partition := 1

/-- the flags `9:0` select entry 8 of a label that counts 9 -/
theorem nine_out_of_range : Selected 9 ∧
    (mount_fs (fun _ _ => false) (some (countLabel 9)) 9).2 = some 8 ∧ ¬ InRange (countLabel 9) := by
  have hsel : Selected 9 := by
    have h := Selected.flags nineFlags rfl
    have e : (parseFlags nineFlags).config_file_partition = 9 := by decide +kernel
    rwa [e] at h
  have hmount : (mount_fs (fun _ _ => false) (some (countLabel 9)) 9).2 = some 8 := by decide +kernel
  refine ⟨hsel, hmount, fun h => ?_⟩
  exact Nat.lt_irrefl _ (h.mount _ _ _ hsel hmount)

end Disklabel
