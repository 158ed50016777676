import Aboot.Load.Placed

/-!
# fs/dummy.c: the kernel behind the boot loader as a file

`dummy_bread` reads the blocks of the file that follows the boot loader on the boot device; its
offset is computed once, with a mask where `load_raw` divides.

* `mask_round`      the mask rounds up to whole sectors;
* `dummy_bread_data`   a complete read has the bytes that `load_raw` has.
-/

set_option linter.unusedVariables false

namespace Dummy
open Word
open Load (SECT_SIZE BOOT_SECTOR ksect rawFile)

def BLOCKSIZE : Int := 16 * SECT_SIZE

structure State where
  dev : Int
  /-- the `static` variable of `dummy_bread` -/
  aboot_size : Nat
  nreads : Nat

def dummy_mount (cons_dev : Int) (s : State) : Bool × State := (true, { s with dev := cons_dev })

/-- `aboot_size` after its first use, for a loader of `size` bytes -/
def sizeFrom (size : Nat) (s : State) : Nat :=
  if s.aboot_size = 0 then (size + 512 - 1) &&& 0xfffffffffffffe00 else s.aboot_size

def dummy_bread (M : Machine) (size : Nat) (blkno nblks : Int) (s : State) : ReadRes × State :=
  let r := M.read s.nreads s.dev (nblks * BLOCKSIZE)
    (BOOT_SECTOR * SECT_SIZE + blkno * BLOCKSIZE + sizeFrom size s)
  (if r.ret ≠ nblks * BLOCKSIZE then ⟨-1, r.data⟩ else ⟨sgn 32 (nblks * BLOCKSIZE), r.data⟩,
    { s with aboot_size := sizeFrom size s, nreads := s.nreads + 1 })

theorem mask_round {n : Nat} (h : n < 18446744073709551616) :
    n &&& 0xfffffffffffffe00 = n / 512 * 512 :=
  and_mask (w := 64) (k := 9) (by omega) h

/-- the `static` variable is not set yet, or set from the size of the loader -/
def Started (size : Nat) (s : State) : Prop :=
  s.aboot_size = 0 ∨ s.aboot_size = (size + 511) / 512 * 512

theorem sizeFrom_eq {size : Nat} {s : State} (h : Started size s) (hsize : size < 9223372036854775808) :
    sizeFrom size s = (size + 511) / 512 * 512 := by
  have hround : (size + 512 - 1) &&& 0xfffffffffffffe00 = (size + 511) / 512 * 512 := by
    rw [mask_round (by omega)]
    omega
  unfold sizeFrom
  rcases h with h | h
  · rw [if_pos h, hround]
  · by_cases h0 : s.aboot_size = 0
    · rw [if_pos h0, hround]
    · rw [if_neg h0, h]

theorem dummy_bread_started {M : Machine} {size : Nat} {blkno nblks : Int} {s : State}
    (h : Started size s) (hsize : size < 9223372036854775808) :
    Started size (dummy_bread M size blkno nblks s).2 := Or.inr (sizeFrom_eq h hsize)

/-- `dummy_bread` and `load_raw` read the same file -/
theorem dummy_bread_data {M : Machine} {size : Nat} {blkno nblks : Int} {s : State}
    (h : Started size s) (hsize : size < 9223372036854775808)
    (hret : (dummy_bread M size blkno nblks s).1.ret ≠ -1) :
    (dummy_bread M size blkno nblks s).1.data = (List.range (nblks * BLOCKSIZE).toNat).map fun (k : Nat) =>
      M.bytes s.dev (ksect size * SECT_SIZE + (blkno * BLOCKSIZE + k)) := by
  unfold dummy_bread at hret ⊢
  dsimp only at hret ⊢
  rw [sizeFrom_eq h hsize] at hret ⊢
  generalize hoff : BOOT_SECTOR * SECT_SIZE + blkno * BLOCKSIZE
    + (((size + 511) / 512 * 512 : Nat) : Int) = off at hret ⊢
  by_cases hr : (M.read s.nreads s.dev (nblks * BLOCKSIZE) off).ret ≠ nblks * BLOCKSIZE
  · rw [if_pos hr] at hret
    exact absurd rfl hret
  · rw [if_neg hr]
    dsimp only
    rw [M.read_exact _ _ _ _ (not_not.mp hr), ← hoff]
    apply List.map_congr_left
    intro k _
    congr 1
    unfold ksect SECT_SIZE
    push_cast
    ring

end Dummy
