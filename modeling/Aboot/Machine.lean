import Aboot.Lib.Mem
import Aboot.Lib.Word

/-!
# The machine under the boot loader

What the loader finds when it runs: the console's device reads, the memory clusters of the HWRPB
and the memory that `malloc` hands out.

`cons_read` is seen through what one call returns and stores.  A call that returns as many bytes
as it was asked for has stored exactly the device's bytes; any call may fail, at any time, with a
smaller value and after storing anything that fits.

`check_memory`, `memory_end` and `malloc` are those of utils.c.
-/

open Word

/-- what one `cons_read` did: the value it returned and the bytes it stored -/
structure ReadRes where
  ret : Int
  data : List UInt8

/-- a memory cluster of the HWRPB: pages `start_pfn .. start_pfn + numpages - 1` -/
structure Cluster where
  start_pfn : Nat
  numpages : Nat
  usage : Nat

structure Machine where
  /-- the byte of a device at an offset -/
  bytes : Int → Int → UInt8
  /-- the `t`-th `cons_read(dev, buf, count, offset)` -/
  read : (t : Nat) → (dev count offset : Int) → ReadRes
  read_exact : ∀ t dev count offset, (read t dev count offset).ret = count →
    (read t dev count offset).data
      = (List.range count.toNat).map fun k : Nat => bytes dev (offset + k)
  read_le : ∀ t dev count offset, (read t dev count offset).data.length ≤ count.toNat
  ret_le : ∀ t dev count offset, (read t dev count offset).ret ≤ count
  /-- what fresh memory at an address of the heap holds -/
  ram : Nat → Mem
  clusters : List Cluster

/-- one `bread` of a file into a buffer: what it returns and what it stores -/
structure BlockRead (size : Nat) where
  ret : Int
  data : List UInt8
  ret_ge : -1 ≤ ret
  ret_le : ret ≤ size
  stored : ret.toNat ≤ data.length

namespace Machine

/-- one `cons_read` that returns `count` stores the device's bytes -/
theorem put_read_at (M : Machine) {t : Nat} {dev count offset : Int}
    (h : (M.read t dev count offset).ret = count) (buf : Mem) (a : Nat) {k : Nat} (hk : (k : Int) < count) :
    buf.put a (M.read t dev count offset).data (a + k) = M.bytes dev (offset + k) := by
  have hlen : k < (M.read t dev count offset).data.length := by
    rw [M.read_exact t dev count offset h]
    simp
    omega
  rw [Mem.put_in buf a k _ hlen]
  simp only [M.read_exact t dev count offset h, List.getElem_map, List.getElem_range]

/-- it fills a buffer from the start -/
theorem put_read_exact (M : Machine) {t : Nat} {dev count offset : Int}
    (h : (M.read t dev count offset).ret = count) (buf : Mem) {k : Nat} (hk : (k : Int) < count) :
    buf.put 0 (M.read t dev count offset).data k = M.bytes dev (offset + k) := by
  have hat := M.put_read_at h buf 0 hk
  rwa [Nat.zero_add] at hat

/-- the device does not change from one read to the next, and fresh memory looks alike everywhere -/
structure Steady (M : Machine) : Prop where
  read : ∀ t u, M.read t = M.read u
  ram : ∀ p q, M.ram p = M.ram q

/-- a machine whose device reads all succeed -/
def faultless (bytes : Int → Int → UInt8) (ram : Nat → Mem) (clusters : List Cluster) : Machine where
  bytes := bytes
  read _ dev count offset :=
    ⟨count, (List.range count.toNat).map fun k : Nat => bytes dev (offset + k)⟩
  read_exact _ _ _ _ _ := rfl
  read_le _ _ _ _ := by simp
  ret_le _ _ _ _ := le_refl _
  ram := ram
  clusters := clusters

/-- a machine whose device reads from the offsets `bad` fail -/
def faulty (bytes : Int → Int → UInt8) (bad : Int → Bool) (ram : Nat → Mem)
    (clusters : List Cluster) : Machine where
  bytes := bytes
  read _ dev count offset :=
    if bad offset then ⟨min 0 count, []⟩
    else ⟨count, (List.range count.toNat).map fun k : Nat => bytes dev (offset + k)⟩
  read_exact _ dev count offset h := by
    split at h
    · rename_i hb
      have e : count.toNat = 0 := by dsimp only at h; omega
      rw [if_pos hb, e]
      rfl
    · rename_i hb
      rw [if_neg hb]
  read_le _ _ _ _ := by split <;> simp
  ret_le _ _ _ _ := by split <;> simp
  ram := ram
  clusters := clusters

end Machine

/-! ## utils.c -/

def PAGE_SHIFT : Nat := 13
def PAGE_SIZE : Nat := 8192
def EBUSY : Int := 16
def ENOMEM : Int := 12

/-- the superpage mapping: `page_offset` -/
def page_offset : Nat := 0xfffffc0000000000

/-- a superpage address is sign-extended from bit 40, any other is taken as physical -/
def phys_start (start : Nat) : Nat :=
  if sgn 64 start / 2 ^ 41 = -2 then uns 64 (sgn 64 (start * 2 ^ 23) / 2 ^ 23) else start

def check_clusters : List Cluster → Nat → Nat → Int
  | [], _, _ => -ENOMEM
  | c :: cs, start_pfn, end_pfn =>
    if end_pfn < c.start_pfn ∨ uns 64 (c.start_pfn + c.numpages) ≤ start_pfn then
      check_clusters cs start_pfn end_pfn
    else if c.usage &&& 3 ≠ 0 then -EBUSY
    else
      let end_pfn := if c.start_pfn ≤ end_pfn then uns 64 ((c.start_pfn : Int) - 1) else end_pfn
      let start_pfn :=
        if start_pfn < uns 64 (c.start_pfn + c.numpages) then uns 64 (c.start_pfn + c.numpages)
        else start_pfn
      if end_pfn < start_pfn then 0 else check_clusters cs start_pfn end_pfn

def check_memory (clusters : List Cluster) (start size : Nat) : Int :=
  check_clusters clusters (phys_start start / 2 ^ PAGE_SHIFT)
    (uns 64 ((phys_start start : Int) + size - 1) / 2 ^ PAGE_SHIFT)

/-- the end of the highest cluster that is free for the system, as a superpage address -/
def memory_end (clusters : List Cluster) : Nat :=
  uns 64 (page_offset + clusters.foldl (fun high c =>
    if c.usage ≠ 0 then high
    else
      let tmp := uns 64 ((c.start_pfn + c.numpages) * 2 ^ PAGE_SHIFT)
      if high < tmp then tmp else high) 0)

/-- the heap pointer after `malloc(size)`, which is the block it returns -/
def malloc (clusters : List Cluster) (free_mem_ptr size : Nat) : Nat :=
  uns 64 (((if free_mem_ptr = 0 then memory_end clusters else free_mem_ptr : Nat) : Int) - size)
    / 8 * 8

/-- `malloc` takes the error path, a `longjmp`, when it comes down to the first page -/
def out_of_memory (free_mem_ptr : Nat) : Bool := free_mem_ptr ≤ PAGE_SIZE
