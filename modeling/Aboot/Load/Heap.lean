import Aboot.Machine

/-!
# utils.c: the heap

`malloc` hands out memory from the end of the memory downwards.  It subtracts the size, whatever it
is, and looks at the result only: a size that is larger than the pointer runs around the address
space, and the pointer is set before the error exit is taken.

* `Heap`, `step`      the heap pointer with the blocks handed out, and a call of `malloc`;
* `Fits`              there is room for a block;
* `Obeys`             what a call should do;
* `Sound`             what holds of the blocks as long as the calls do so;
* `malloc_run_iff`    every call of a run does so exactly when every one fits, or leaves the
                      pointer of an untouched heap at 0.
-/

namespace Malloc
open Word

/-- the heap pointer, and the blocks that were returned, each with its size -/
structure Heap where
  free_mem_ptr : Nat
  blocks : List (Nat × Nat)
deriving DecidableEq, Repr

/-- before the first call -/
def Heap.initial : Heap := ⟨0, []⟩

section
variable (clusters : List Cluster)

/-- `malloc(size)`: the block it returns; `none` is the error path -/
def returned (s : Heap) (size : Nat) : Option Nat :=
  if out_of_memory (malloc clusters s.free_mem_ptr size) then none
  else some (malloc clusters s.free_mem_ptr size)

/-- a call of `malloc` -/
def step (s : Heap) (size : Nat) : Heap :=
  ⟨malloc clusters s.free_mem_ptr size,
    match returned clusters s size with
    | none => s.blocks
    | some p => (p, size) :: s.blocks⟩

/-- a property of every call of a run -/
def Along (P : Heap → Nat → Prop) : List Nat → Heap → Prop
  | [], _ => True
  | size :: sizes, s => P s size ∧ Along P sizes (step clusters s size)

/-- the end of the memory that is left -/
def top (s : Heap) : Nat := if s.free_mem_ptr = 0 then memory_end clusters else s.free_mem_ptr

/-- there is room for a block: it ends at the top, begins at a multiple of 8 and above the first page -/
def Fits (s : Heap) (size : Nat) : Prop := size ≤ top clusters s ∧ PAGE_SIZE < (top clusters s - size) / 8 * 8

instance (s : Heap) (size : Nat) : Decidable (Fits clusters s size) :=
  inferInstanceAs (Decidable (_ ∧ _))

/-- a block that is aligned, within the memory and apart from the earlier ones -/
structure Fresh (s : Heap) (size p : Nat) : Prop where
  aligned : 8 ∣ p
  above : PAGE_SIZE ≤ p
  below : p + size ≤ memory_end clusters
  apart : ∀ b ∈ s.blocks, p + size ≤ b.1 ∨ b.1 + b.2 ≤ p

/-- what a call should do: every block is a fresh one, there is one when there is room, and without
room the error path leaves the pointer alone -/
structure Obeys (s : Heap) (size : Nat) : Prop where
  fresh : ∀ p, returned clusters s size = some p → Fresh clusters s size p
  served : Fits clusters s size → (returned clusters s size).isSome = true
  refused : ¬ Fits clusters s size →
    returned clusters s size = none ∧ (step clusters s size).free_mem_ptr = s.free_mem_ptr

/-- the call fits or, before the first block, comes down to address 0 -/
def Harmless (s : Heap) (size : Nat) : Prop :=
  Fits clusters s size ∨
    s.free_mem_ptr = 0 ∧ uns 64 ((memory_end clusters : Int) - size) < 8

/-- nothing was handed out yet, or the pointer is below all blocks -/
def Sound (s : Heap) : Prop :=
  s.free_mem_ptr = 0 ∧ s.blocks = [] ∨
    8 ∣ s.free_mem_ptr ∧ PAGE_SIZE < s.free_mem_ptr ∧ s.free_mem_ptr ≤ memory_end clusters ∧
      ∀ b ∈ s.blocks, s.free_mem_ptr ≤ b.1

end

section
variable {clusters : List Cluster} {s : Heap} {size : Nat}

theorem Sound.initial : Sound clusters Heap.initial := Or.inl ⟨rfl, rfl⟩

/-- the end of the memory is an address -/
theorem top_lt (h : Sound clusters s) : top clusters s < 18446744073709551616 := by
  have hend : memory_end clusters < 18446744073709551616 := uns64_lt _
  unfold top
  split
  · exact hend
  · rcases h with h | h
    · omega
    · exact lt_of_le_of_lt h.2.2.1 hend

theorem top_le (h : Sound clusters s) : top clusters s ≤ memory_end clusters := by
  unfold top
  split
  · exact le_refl _
  · rcases h with h | h
    · omega
    · exact h.2.2.1

/-- the blocks are above the memory that is left -/
theorem top_le_block (h : Sound clusters s) : ∀ b ∈ s.blocks, top clusters s ≤ b.1 := by
  intro b hb
  rcases h with h | h
  · rw [h.2] at hb
    cases hb
  · rw [top, if_neg (by have := h.2.1; omega)]
    exact h.2.2.2 b hb

theorem malloc_eq : malloc clusters s.free_mem_ptr size
    = uns 64 ((top clusters s : Int) - size) / 8 * 8 := rfl

/-- a call that fits -/
theorem malloc_fits (h : Sound clusters s) (hfit : Fits clusters s size) :
    malloc clusters s.free_mem_ptr size = (top clusters s - size) / 8 * 8 := by
  have hlt := top_lt h
  rw [malloc_eq, ← Int.ofNat_sub hfit.1, uns64_natCast (by omega)]

theorem returned_fits (h : Sound clusters s) (hfit : Fits clusters s size) :
    returned clusters s size = some ((top clusters s - size) / 8 * 8) := by
  have hout : out_of_memory ((top clusters s - size) / 8 * 8) = false := by
    have := hfit.2
    simp only [out_of_memory, decide_eq_false_iff_not]
    omega
  rw [returned, malloc_fits h hfit, hout]
  rfl

/-- a call that fits does what it should -/
theorem obeys_of_fits (h : Sound clusters s) (hfit : Fits clusters s size) :
    Obeys clusters s size where
  fresh p hp := by
    rw [returned_fits h hfit] at hp
    obtain rfl := Option.some.inj hp
    have hle := hfit.1
    have hend := top_le h
    refine ⟨Nat.dvd_mul_left 8 _, hfit.2.le, ?_, fun b hb => Or.inl ?_⟩
    · omega
    · have := top_le_block h b hb
      omega
  served _ := by rw [returned_fits h hfit]; rfl
  refused hn := absurd hfit hn

theorem sound_of_fits (h : Sound clusters s) (hfit : Fits clusters s size) :
    Sound clusters (step clusters s size) := by
  have hle := hfit.1
  have hend := top_le h
  rw [step, returned_fits h hfit, malloc_fits h hfit]
  refine Or.inr ⟨Nat.dvd_mul_left 8 _, hfit.2, ?_, List.forall_mem_cons.mpr ⟨le_refl _, fun b hb => ?_⟩⟩
  · show (top clusters s - size) / 8 * 8 ≤ memory_end clusters
    omega
  · have := top_le_block h b hb
    show (top clusters s - size) / 8 * 8 ≤ b.1
    omega

/-- a call that comes down to address 0 takes the error path, and the heap is as before -/
theorem step_zero (h0 : s.free_mem_ptr = 0)
    (hz : uns 64 ((memory_end clusters : Int) - size) < 8) :
    returned clusters s size = none ∧ step clusters s size = s := by
  have hm : malloc clusters s.free_mem_ptr size = 0 := by
    rw [malloc_eq, top, if_pos h0]
    omega
  have hr : returned clusters s size = none := by
    rw [returned, hm]
    rfl
  refine ⟨hr, ?_⟩
  rw [step, hr, hm, ← h0]

theorem not_fits_zero (h0 : s.free_mem_ptr = 0)
    (hz : uns 64 ((memory_end clusters : Int) - size) < 8) : ¬ Fits clusters s size := by
  rintro ⟨h1, h2⟩
  have hend : memory_end clusters < 18446744073709551616 := uns64_lt _
  rw [top, if_pos h0] at h1 h2
  rw [← Int.ofNat_sub h1, uns64_natCast (by omega)] at hz
  unfold PAGE_SIZE at h2
  omega

/-- a harmless call does what it should and keeps the heap sound -/
theorem Harmless.obeys (h : Sound clusters s) (hc : Harmless clusters s size) :
    Obeys clusters s size ∧ Sound clusters (step clusters s size) := by
  rcases hc with hfit | ⟨h0, hz⟩
  · exact ⟨obeys_of_fits h hfit, sound_of_fits h hfit⟩
  · obtain ⟨hr, hs⟩ := step_zero h0 hz
    refine ⟨⟨fun p hp => ?_, fun hfit => absurd hfit (not_fits_zero h0 hz), fun _ => ⟨hr, ?_⟩⟩, ?_⟩
    · rw [hr] at hp
      cases hp
    · rw [hs]
    · rw [hs]
      exact h

/-- only a harmless call does what it should -/
theorem Obeys.harmless (h : Sound clusters s) (ho : Obeys clusters s size) :
    Harmless clusters s size := by
  by_cases hfit : Fits clusters s size
  · exact Or.inl hfit
  obtain ⟨hr, hptr⟩ := ho.refused hfit
  have hptr : malloc clusters s.free_mem_ptr size = s.free_mem_ptr := hptr
  have hlow : malloc clusters s.free_mem_ptr size ≤ PAGE_SIZE := by
    rw [returned] at hr
    split at hr
    · rename_i hout
      exact of_decide_eq_true hout
    · cases hr
  have h0 : s.free_mem_ptr = 0 := by
    rcases h with h | h
    · exact h.1
    · have := h.2.1
      omega
  refine Or.inr ⟨h0, ?_⟩
  rw [malloc_eq, top, if_pos h0, h0] at hptr
  omega

theorem along_iff (sizes : List Nat) (h : Sound clusters s) :
    Along clusters (Obeys clusters) sizes s ↔ Along clusters (Harmless clusters) sizes s := by
  induction sizes generalizing s with
  | nil => exact Iff.rfl
  | cons size sizes ih =>
    constructor
    · rintro ⟨ho, hrest⟩
      have hc := ho.harmless h
      exact ⟨hc, (ih (hc.obeys h).2).mp hrest⟩
    · rintro ⟨hc, hrest⟩
      obtain ⟨ho, hs⟩ := hc.obeys h
      exact ⟨ho, (ih hs).mpr hrest⟩

end

/-- **malloc.**  In every run of calls from an untouched heap, all blocks are aligned, within the
memory and apart from each other, and the error path leaves the pointer alone, exactly when every
call fits or comes down to address 0 before anything was handed out. -/
theorem malloc_run_iff (clusters : List Cluster) (sizes : List Nat) :
    Along clusters (Obeys clusters) sizes Heap.initial
      ↔ Along clusters (Harmless clusters) sizes Heap.initial :=
  along_iff sizes Sound.initial

/-- a size that runs around the address space: the block overlaps the one before it -/
theorem malloc_overlap :
    ¬ ∀ (clusters : List Cluster) (sizes : List Nat), (∀ n ∈ sizes, n < 18446744073709551616) →
      Along clusters (Obeys clusters) sizes Heap.initial := by
  intro h
  have hrun := h [⟨256, 64, 0⟩] [64, 18446744073709551584] (by decide)
  have hfresh := hrun.2.1.fresh 18446739675665661920 (by decide)
  rcases hfresh.apart (18446739675665661888, 64) (by decide) with h1 | h1
  · exact absurd h1 (by decide)
  · exact absurd h1 (by decide)

end Malloc
