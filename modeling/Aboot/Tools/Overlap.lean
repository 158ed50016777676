import Aboot.Tools.RawKernel
import Mathlib.Data.Int.ConditionallyCompleteOrder
import Mathlib.Order.Interval.Set.Basic

/-!
# `overlaplabel` against intervals of sectors

`Shares` says that a partition has a sector in common with an area.  The four comparisons of
`does_overlap` and the `int`s of `overlaplabel` agree with it except for three kinds of partitions.

* `Misjudged`           the area itself, an empty partition inside, and one that ends past the `int`s;
* `overlaps_iff`        the test of a partition;
* `find_agrees`         the first match of two tests is the same;
* `Untouched`           what `swriteboot` should leave alone;
* `overlap_exact_iff`   when `overlaplabel` is exact, and when `swriteboot` then leaves the partitions alone.
-/

set_option linter.unusedVariables false

namespace Disklabel
open Word Prog

/-! ## intervals -/

/-- partition `x` has a sector in common with the sectors from `offset` to `endplace` -/
def Shares (d : Mem) (offset endplace : Int) (x : Nat) : Prop :=
  (Set.Ico (p_offset d x : Int) (p_offset d x + p_size d x) ∩ Set.Ico offset endplace).Nonempty

theorem shares_iff {d : Mem} {offset endplace : Int} {x : Nat} (h : offset < endplace) :
    Shares d offset endplace x ↔
      0 < p_size d x ∧ (p_offset d x : Int) < endplace ∧ offset < p_offset d x + p_size d x := by
  unfold Shares
  rw [Set.Ico_inter_Ico, Set.nonempty_Ico, sup_lt_iff, lt_inf_iff, lt_inf_iff]
  omega

/-- the area itself, an empty partition inside the area, or one that reaches past the `int`s -/
def Misjudged (d : Mem) (offset endplace : Int) (x : Nat) : Prop :=
  ((p_offset d x : Int) = offset ∧ (p_offset d x : Int) + p_size d x = endplace) ∨
  (p_size d x = 0 ∧ offset < p_offset d x ∧ (p_offset d x : Int) < endplace) ∨
  ((p_offset d x : Int) < endplace ∧ 2147483648 ≤ p_offset d x + p_size d x)

/-- what `overlaplabel` asks of a partition -/
def overlaps (d : Mem) (offset endplace : Int) (x : Nat) : Prop :=
  sgn 32 (p_offset d x + p_size d x) > 0 ∧
    does_overlap (sgn 32 (p_offset d x)) (sgn 32 (p_offset d x + p_size d x)) offset endplace = true

instance (d : Mem) (offset endplace : Int) (x : Nat) : Decidable (overlaps d offset endplace x) :=
  inferInstanceAs (Decidable (_ ∧ _))

theorem does_overlap_iff {a1 a2 b1 b2 : Int} : does_overlap a1 a2 b1 b2 = true ↔
    (a1 > b1 ∧ a1 < b2) ∨ (a2 > b1 ∧ a2 < b2) ∨ (b1 > a1 ∧ b1 < a2) ∨ (b2 > a1 ∧ b2 < a2) := by
  unfold does_overlap
  exact decide_eq_true_iff

/-- a partition that ends past the `int`s is not looked at -/
theorem not_overlaps_far {d : Mem} {offset endplace : Int} {x : Nat}
    (h1 : 2147483648 ≤ p_offset d x + p_size d x) (h2 : p_offset d x + p_size d x < 4294967296) :
    ¬ overlaps d offset endplace x := by
  rintro ⟨hpos, -⟩
  obtain ⟨q, hq, hlo, hhi⟩ := sgn32_cases ((p_offset d x : Int) + p_size d x)
  omega

/-- the test of a partition is right, unless it is one of the three kinds -/
theorem overlaps_iff {d : Mem} {offset endplace : Int} {x : Nat} (h0 : 0 ≤ offset)
    (h : offset < endplace) (hend : endplace < 2147483648)
    (hsum : p_offset d x + p_size d x < 4294967296) :
    (overlaps d offset endplace x ↔ Shares d offset endplace x) ↔ ¬ Misjudged d offset endplace x := by
  rw [shares_iff h]
  by_cases hfar : 2147483648 ≤ p_offset d x + p_size d x
  · have hno := @not_overlaps_far d offset endplace x hfar hsum
    rw [iff_false_left hno]
    unfold Misjudged
    omega
  · have hoff : sgn 32 (p_offset d x : Int) = p_offset d x := sgn32_of_range (by omega) (by omega)
    have htop : sgn 32 ((p_offset d x : Int) + p_size d x) = p_offset d x + p_size d x :=
      sgn32_of_range (by omega) (by omega)
    unfold overlaps Misjudged
    rw [hoff, htop, does_overlap_iff]
    omega

/-! ## the first partition -/

/-- `r` is the first number below `n` with a property, or none -/
def First (q : Nat → Prop) (n : Nat) : Option Nat → Prop
  | none => ∀ x < n, ¬ q x
  | some x => x < n ∧ q x ∧ ∀ y < x, ¬ q y

theorem find_first (q : Nat → Prop) [DecidablePred q] (n : Nat) :
    First q n ((List.range n).find? fun x => q x) := by
  cases h : (List.range n).find? fun x => q x with
  | none =>
    intro x hx
    have := List.find?_range_eq_none.mp h x hx
    simpa using this
  | some x =>
    obtain ⟨hq, hx, hbefore⟩ := List.find?_range_eq_some.mp h
    refine ⟨List.mem_range.mp hx, by simpa using hq, fun y hy => ?_⟩
    simpa using hbefore y hy

/-- the first number with one property is the first with another, if numbers on which they differ
come after a number with both -/
theorem First.agree {p q : Nat → Prop} {n : Nat} {r : Option Nat} (h : First p n r) :
    First q n r ↔ ∀ x < n, ¬ (p x ↔ q x) → ∃ y < x, p y ∧ q y := by
  cases r with
  | none =>
    constructor
    · intro hq x hx hne
      exact absurd (iff_of_false (h x hx) (hq x hx)) hne
    · intro hdiff x hx hqx
      obtain ⟨y, hy, hpy, -⟩ := hdiff x hx fun e => h x hx (e.mpr hqx)
      exact h y (by omega) hpy
  | some x₀ =>
    obtain ⟨hlt, hp, hbefore⟩ := h
    constructor
    · rintro ⟨-, hq, hnone⟩ x hx hne
      rcases Nat.lt_trichotomy x x₀ with hlt' | rfl | hlt'
      · exact absurd (iff_of_false (hbefore x hlt') (hnone x hlt')) hne
      · exact absurd (iff_of_true hp hq) hne
      · exact ⟨x₀, hlt', hp, hq⟩
    · intro hdiff
      have hnone : ∀ y < x₀, ¬ q y := by
        intro y hy hqy
        obtain ⟨z, hz, hpz, -⟩ := hdiff y (by omega) fun e => hbefore y hy (e.mpr hqy)
        exact hbefore z (by omega) hpz
      refine ⟨hlt, ?_, hnone⟩
      by_contra hq
      obtain ⟨z, hz, hpz, -⟩ := hdiff x₀ hlt fun e => hq (e.mp hp)
      exact hbefore z hz hpz

/-- the number returned is that of the first partition outside the set `force` that has a sector in
common with the area, or there is none -/
def Exact (d : Mem) (offset endplace : Int) (force : Nat) (r : Option Nat) : Prop :=
  First (fun x => force.testBit x = false ∧ Shares d offset endplace x) (d_npartitions d) r

/-- a partition that is misjudged comes after one that is found rightly -/
def Masked (d : Mem) (offset endplace : Int) (force : Nat) : Prop :=
  ∀ x < d_npartitions d, force.testBit x = false → Misjudged d offset endplace x →
    ∃ y < x, force.testBit y = false ∧ Shares d offset endplace y ∧ ¬ Misjudged d offset endplace y

section
variable {d : Mem} {offset endplace : Int} {force : Nat} (h0 : 0 ≤ offset) (h : offset < endplace)
  (hend : endplace < 2147483648)
  (hsum : ∀ x < d_npartitions d, p_offset d x + p_size d x < 4294967296)
include h0 h hend hsum

theorem exact_iff_masked :
    Exact d offset endplace force (overlaplabel d offset endplace force) ↔
      Masked d offset endplace force := by
  have hfirst : First (fun x => force.testBit x = false ∧ overlaps d offset endplace x)
      (d_npartitions d) (overlaplabel d offset endplace force) := find_first _ _
  refine hfirst.agree.trans ?_
  have hjudge : ∀ x < d_npartitions d,
      ((overlaps d offset endplace x ↔ Shares d offset endplace x) ↔ ¬ Misjudged d offset endplace x) :=
    fun x hx => overlaps_iff h0 h hend (hsum x hx)
  constructor
  · intro hdiff x hx hf hm
    have hne : ¬ ((force.testBit x = false ∧ overlaps d offset endplace x) ↔
        (force.testBit x = false ∧ Shares d offset endplace x)) := by
      rw [and_congr_right_iff]
      intro e
      exact (hjudge x hx).mp (e hf) hm
    obtain ⟨y, hy, ⟨hfy, ho⟩, -, hs⟩ := hdiff x hx hne
    exact ⟨y, hy, hfy, hs, (hjudge y (by omega)).mp (iff_of_true ho hs)⟩
  · intro hmask x hx hne
    have hf : force.testBit x = false := by
      by_contra hf
      exact hne (iff_of_false (fun e => hf e.1) fun e => hf e.1)
    have hm : Misjudged d offset endplace x := by
      by_contra hm
      exact hne (and_congr_right_iff.mpr fun _ => (hjudge x hx).mpr hm)
    obtain ⟨y, hy, hfy, hs, hmy⟩ := hmask x hx hf hm
    exact ⟨y, hy, ⟨hfy, ((hjudge y (by omega)).mpr hmy).mpr hs⟩, hfy, hs⟩

end

end Disklabel

/-! ## swriteboot -/

namespace Swriteboot
open Word Bytes Prog BootBlock Disklabel

theorem length_le_sectors {file : File} (h : sectors file < 2147483648) :
    file.bytes.length ≤ 512 * sectors file := by
  have hlt := file.size_lt
  by_cases hsmall : file.bytes.length + 511 < 9223372036854775808
  · rw [sectors_eq hsmall]
    omega
  · exfalso
    obtain ⟨q, hq, h1, h2⟩ := sgn64_cases ((file.bytes.length : Int) + (SECT_SIZE : Nat) - 1)
    unfold sectors at h
    generalize sgn 64 ((file.bytes.length : Int) + (SECT_SIZE : Nat) - 1) = v at hq h1 h2 h
    have e : ((SECT_SIZE : Nat) : Int) = 512 := rfl
    have hneg : Int.tdiv v (SECT_SIZE : Nat) = -(-v / 512) := by
      rw [e, ← Int.tdiv_eq_ediv_of_nonneg (show 0 ≤ -v by omega), Int.neg_tdiv, neg_neg]
    obtain ⟨r, hr, hr1⟩ := uns64_cases (Int.tdiv v (SECT_SIZE : Nat))
    rw [hneg] at hr hr1 h
    omega

/-- the sectors that `swriteboot` takes for the image and the kernel -/
def total (bootfile : File) (kernel : Option File) : Nat := sectors bootfile + kernelsize kernel

theorem length_le_total {bootfile : File} {kernel : Option File}
    (h : total bootfile kernel < 2147483648) :
    bootfile.bytes.length + (kernelBytes kernel).length ≤ 512 * total bootfile kernel := by
  unfold total at h ⊢
  have hboot := @length_le_sectors bootfile (by omega)
  cases kernel with
  | none =>
    show bootfile.bytes.length + 0 ≤ _
    omega
  | some K =>
    have hk : kernelsize (some K) = sectors K := by rw [kernelsize, Option.map_some, Option.getD_some]
    rw [hk] at h ⊢
    have hK := @length_le_sectors K (by omega)
    rw [kernelBytes_eq]
    omega

/-- what is not in sector 0, nor in the sectors of the image and the kernel, is not changed -/
theorem stored_outside {m d buf : Mem} {part : Int} {bootfile : File} {kernel : Option File} {y : Nat}
    (hpos : 0 < total bootfile kernel) (h : total bootfile kernel < 2147483648) (h0 : 512 ≤ y)
    (hy : y < 1024 ∨ 1024 + 512 * total bootfile kernel ≤ y) :
    withSum (configured part buf (stored m bootfile kernel)) d y = m y := by
  have hlen := length_le_total h
  have hstored : stored m bootfile kernel y = m y := by
    unfold stored
    rw [Mem.put_out _ _ _ _ (by rw [List.length_append]; omega)]
    refine Mem.put_out _ _ _ _ ?_
    have hw : (bootWords bootfile).length = 24 := by
      unfold bootWords
      rw [List.length_append, List.length_append, length_ofNum, length_ofNum, length_ofNum]
    omega
  rw [withSum_out (by omega), configured_out (by omega), hstored]

/-- a successful run of `swriteboot` with the label `d`, the set `force` and the area from `offset` to
`endplace` -/
structure Run (d : Mem) (offset endplace : Int) (force : Nat) (disk : Mem) (bootfile : File)
    (kernel : Option File) (t : Device) : Prop where
  run : ∃ stack label opts o, getopt opts = some o ∧ force = o.force_overlap ∧ d = labelOf label disk ∧
    swriteboot stack label opts bootfile kernel (Device.opened disk) = some ((), t)
  offset : offset = 2
  endplace : endplace = (2 + total bootfile kernel : Nat)

/-- the byte `y` of the device is one of partition `x` -/
def InPart (d : Mem) (x y : Nat) : Prop :=
  SECT_SIZE * p_offset d x ≤ y ∧ y < SECT_SIZE * (p_offset d x + p_size d x)

/-- no byte of a partition outside the set `force` is written -/
def Untouched (d : Mem) (force : Nat) (m : Mem) (t : Device) : Prop :=
  ∀ x < d_npartitions d, force.testBit x = false → ∀ y, InPart d x y →
    t.bytes y = m y ∧ ∀ w ∈ t.writes, ¬ (w.1 ≤ y ∧ y < w.1 + w.2.length)

/-- no partition outside the set `force` has sector 0 -/
def BootBlockFree (d : Mem) (force : Nat) : Prop :=
  ∀ x < d_npartitions d, force.testBit x = false → p_size d x ≠ 0 → p_offset d x ≠ 0

section
variable {d disk : Mem} {offset endplace : Int} {force : Nat} {bootfile : File} {kernel : Option File}
  {t : Device}

/-- the bytes and the writes of a run -/
theorem Run.writes (hr : Run d offset endplace force disk bootfile kernel t) (h : offset < endplace)
    (hend : endplace < 2147483648) :
    overlaplabel d offset endplace force = none ∧
    (∀ y : Nat, 512 ≤ y → y < 1024 ∨ 512 * endplace ≤ y → t.bytes y = disk y) ∧
    (∀ w ∈ t.writes, w.1 + w.2.length ≤ 512 ∨ (1024 ≤ w.1 ∧ w.1 + w.2.length ≤ 512 * endplace)) ∧
    ∃ w ∈ t.writes, w.1 = 504 ∧ w.2.length = 8 := by
  obtain ⟨⟨stack, label, opts, o, ho, rfl, rfl, hrun⟩, rfl, rfl⟩ := hr
  obtain ⟨o', ho', hacc⟩ := swriteboot_cond hrun
  obtain rfl : o' = o := Option.some.inj (ho'.symm.trans ho)
  have htop : Swriteboot.endplace bootfile kernel = ((2 + total bootfile kernel : Nat) : Int) := by
    unfold Swriteboot.endplace total
    rw [show BOOT_SECTOR = 2 from rfl, sgn32_of_range (by omega) (by unfold total at hend; omega)]
    omega
  have hlen := @length_le_total bootfile kernel (by omega)
  obtain ⟨buf, n, w, hrun', hw, hsum⟩ := swriteboot_run stack (s := Device.opened disk) ho hacc
  rw [hrun, Option.some.injEq, Prod.mk.injEq] at hrun'
  obtain rfl := hrun'.2
  rw [show (Device.opened disk).writes = [] from rfl, List.append_nil]
  refine ⟨htop ▸ hacc.apart, fun y h0 hy => stored_outside (by omega) (by omega) h0 (by omega), ?_, hsum⟩
  intro x hx
  rcases hw.inside x hx with h1 | h1 | h1 <;> omega

/-- the boot block apart, nothing but an area without a sector of a partition outside the set is written -/
theorem Run.untouched (hr : Run d offset endplace force disk bootfile kernel t) (h : offset < endplace)
    (hend : endplace < 2147483648) (hexact : Exact d offset endplace force (overlaplabel d offset endplace force))
    (hfree : BootBlockFree d force) : Untouched d force disk t := by
  obtain ⟨hnone, hbytes, hwrites, -⟩ := hr.writes h hend
  have hoff := hr.offset
  rw [hnone] at hexact
  intro x hx hf y hy
  have hno : ¬ Shares d offset endplace x := fun hs => hexact x hx ⟨hf, hs⟩
  rw [shares_iff h] at hno
  obtain ⟨hlo, hhi⟩ : 512 * p_offset d x ≤ y ∧ y < 512 * (p_offset d x + p_size d x) := hy
  have h0 := hfree x hx hf (by omega)
  refine ⟨hbytes y (by omega) (by omega), fun w hw hin => ?_⟩
  rcases hwrites w hw with h1 | h1 <;> omega

/-- the boot block is always written -/
theorem Run.bootBlockFree (hr : Run d offset endplace force disk bootfile kernel t) (h : offset < endplace)
    (hend : endplace < 2147483648) (hu : Untouched d force disk t) : BootBlockFree d force := by
  obtain ⟨-, -, -, w, hw, hpos, hlen⟩ := hr.writes h hend
  intro x hx hf hsize hoff
  have hin : InPart d x 504 := by
    show 512 * _ ≤ 504 ∧ 504 < 512 * _
    omega
  exact (hu x hx hf 504 hin).2 w hw (by omega)

end

/-- **the overlap test.**  It gives the first partition outside the set that has a sector in common
with the area exactly if every misjudged partition comes after one that is found rightly; `swriteboot`
then leaves the partitions outside the set alone exactly if none of them has the boot block. -/
theorem overlap_exact_iff {d : Mem} {offset endplace : Int} {force : Nat} (hn : d_npartitions d ≤ 8)
    (hsum : ∀ x < d_npartitions d, p_offset d x + p_size d x < 4294967296) (h0 : 0 ≤ offset)
    (h : offset < endplace) (hend : endplace < 2147483648) :
    (Exact d offset endplace force (overlaplabel d offset endplace force) ↔
      Masked d offset endplace force) ∧
    ∀ (disk : Mem) (bootfile : File) (kernel : Option File) (t : Device),
      Run d offset endplace force disk bootfile kernel t →
      (Exact d offset endplace force (overlaplabel d offset endplace force) ∧ Untouched d force disk t ↔
        Masked d offset endplace force ∧ BootBlockFree d force) := by
  have hiff := @exact_iff_masked d offset endplace force h0 h hend hsum
  refine ⟨hiff, fun disk bootfile kernel t hr => ?_⟩
  constructor
  · rintro ⟨hexact, hu⟩
    exact ⟨hiff.mp hexact, hr.bootBlockFree h hend hu⟩
  · rintro ⟨hmask, hfree⟩
    have hexact := hiff.mpr hmask
    exact ⟨hexact, hr.untouched h hend hexact hfree⟩

/-- a label with one partition, of the sectors 2 to 9 -/
def onePartition : Mem := record [(138, 1, 2), (148, 8, 4), (152, 2, 4)]

theorem onePartition_fields : d_npartitions onePartition = 1 ∧ p_offset onePartition 0 = 2 ∧
    p_size onePartition 0 = 8 := by decide +kernel

/-- a disk with two partitions, of the sectors 3 to 10 and of sector 1 -/
def partedDisk : Mem :=
  record [(64, 0x82564557, 4), (196, 0x82564557, 4), (202, 2, 2), (212, 8, 4), (216, 3, 4), (228, 1, 4), (232, 1, 4)]

def partedLabel : Mem := labelOf (fun _ => 0) partedDisk

theorem partedLabel_fields : d_npartitions partedLabel = 2 ∧ p_offset partedLabel 0 = 3 ∧
    p_size partedLabel 0 = 8 ∧ p_offset partedLabel 1 = 1 ∧ p_size partedLabel 1 = 1 := by decide +kernel

theorem partedLabel_run : ∃ t, Run partedLabel 2 3 0 partedDisk tinyBoot none t := by
  have hacc : Accepted (fun _ => 0) partedDisk ⟨0, 0⟩ tinyBoot none :=
    ⟨by decide +kernel, by decide +kernel⟩
  obtain ⟨buf, n, w, hrun, -⟩ := swriteboot_run (fun _ => 0) (s := Device.opened partedDisk)
    (show getopt [] = some ⟨0, 0⟩ from rfl) hacc
  exact ⟨_, ⟨_, _, _, _, rfl, rfl, rfl, hrun⟩, rfl, by decide +kernel⟩

/-- a boot file of one sector between the partitions -/
theorem overlap_exact_part : ∃ t, Run partedLabel 2 3 0 partedDisk tinyBoot none t ∧
    Exact partedLabel 2 3 0 (overlaplabel partedLabel 2 3 0) ∧ Untouched partedLabel 0 partedDisk t := by
  obtain ⟨hn, ho0, hs0, ho1, hs1⟩ := partedLabel_fields
  obtain ⟨t, hrun⟩ := partedLabel_run
  have htwo : ∀ x < d_npartitions partedLabel, x = 0 ∨ x = 1 := fun x hx => by omega
  refine ⟨t, hrun, ((overlap_exact_iff (by omega) (fun x hx => ?_) (by decide) (by decide) (by decide)).2
    _ _ _ _ hrun).mpr ⟨fun x hx _ hm => ?_, fun x hx _ _ => ?_⟩⟩
  · rcases htwo x hx with rfl | rfl <;> omega
  · unfold Misjudged at hm
    rcases htwo x hx with rfl | rfl <;> omega
  · rcases htwo x hx with rfl | rfl <;> omega

/-- the sectors of the partition itself: they are taken for free -/
theorem overlap_missed : overlaplabel onePartition 2 10 0 = none ∧ Shares onePartition 2 10 0 ∧
    ¬ Exact onePartition 2 10 0 (overlaplabel onePartition 2 10 0) := by
  obtain ⟨hn, ho, hs⟩ := onePartition_fields
  have hnone : overlaplabel onePartition 2 10 0 = none := by decide +kernel
  have hshare : Shares onePartition 2 10 0 := (shares_iff (by decide)).mpr (by omega)
  refine ⟨hnone, hshare, fun he => ?_⟩
  rw [hnone] at he
  exact he 0 (by omega) ⟨rfl, hshare⟩

end Swriteboot
