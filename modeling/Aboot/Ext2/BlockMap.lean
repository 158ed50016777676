import Aboot.Ext2.Errors

/-!
# `ext2_blkno` and the block map of ext2

`mapped look P ip` is the block map of an inode: twelve direct pointers, then the pointers of the
single- and of the double-indirect block; `look l n` is what the index block `n` of level `l` holds.
Two ways of looking are compared:

* `formatPtr`   block numbers are unsigned, as the format has them;
* `lookedPtr`   block numbers are `int`s, as `ext2_blkno` has them: the number 0xffffffff is the one
                of a buffer that holds nothing, and from 2^31 on a number is negative.

* `ext2_blkno_looked`   what the mapper returns when its reads succeed;
* `lookedPtr_eq`        the two agree when the index blocks are below 2^31;
* `ext2_blkno_iff`      when the mapper returns the pointer of the format: the second limit of
                        `ext2_mount` is one index block short.
-/

set_option linter.unusedVariables false

namespace Ext2
open Word State

/-! ## the block map -/

/-- the pointer found through `levels` levels of index blocks from the block `n` -/
def chase (look : Nat → Nat → Mem) (P : Nat) : (levels : Nat) → (n k : Nat) → Nat
  | 0, n, _ => n
  | l + 1, n, k =>
    if n = 0 then 0 else chase look P l ((look (l + 1) n).le32 (4 * (k / P ^ l))) (k % P ^ l)

/-- the pointer of a file block: direct, single-indirect or double-indirect -/
def mapped (look : Nat → Nat → Mem) (P : Nat) (ip : Mem) (blkoff : Nat) : Nat :=
  if blkoff < 12 then ip.le32 (40 + 4 * blkoff)
  else if blkoff < 12 + P then chase look P 1 (ip.le32 88) (blkoff - 12)
  else chase look P 2 (ip.le32 92) (blkoff - 12 - P)

/-- the number of pointers in a block -/
def ptrs (s : State) : Nat := (s.blocksize / 4).toNat

/-- the pointer that the format assigns to a file block -/
def formatPtr (M : Machine) (s : State) (i : Slot) (blkoff : Nat) : Nat :=
  mapped (fun _ n => diskBlock M s n) (ptrs s) (s.inode_table i).inode blkoff

/-- what the mapper looks at for the index block `n` -/
def looked (M : Machine) (s : State) (l n : Nat) : Mem :=
  if l = 1 then
    if n = 0xffffffff ∧ s.cached_iblkno = -1 then s.iblkbuf else diskBlock M s (sgn 32 n)
  else if n = 0xffffffff ∧ s.cached_diblkno = -1 then s.diblkbuf else diskBlock M s (sgn 32 n)

/-- the pointer of a file block, with the index blocks that the mapper looks at -/
def lookedPtr (M : Machine) (s : State) (i : Slot) (blkoff : Nat) : Nat :=
  mapped (looked M s) (ptrs s) (s.inode_table i).inode blkoff

/-- the index blocks on the way to a file block -/
def onTheWay (M : Machine) (s : State) (i : Slot) (blkoff : Nat) : List Nat :=
  let ip := (s.inode_table i).inode
  if blkoff < 12 then []
  else if blkoff < 12 + ptrs s then [ip.le32 88]
  else if ip.le32 92 = 0 then []
  else [ip.le32 92, (diskBlock M s (ip.le32 92)).le32 (4 * ((blkoff - 12 - ptrs s) / ptrs s))]

/-- the index blocks on the way are below 2^31, or the pointer found by taking their numbers as
`int`s happens to be the same -/
def SignedWay (M : Machine) (s : State) (i : Slot) (blkoff : Nat) : Prop :=
  (∀ n ∈ onTheWay M s i blkoff, n < 2147483648) ∨ lookedPtr M s i blkoff = formatPtr M s i blkoff

theorem chase_lt {look : Nat → Nat → Mem} {P : Nat} (l : Nat) :
    ∀ n k, n < 4294967296 → chase look P l n k < 4294967296 := by
  induction l with
  | zero => intro n k h; exact h
  | succ l ih =>
    intro n k h
    rw [chase]
    split
    · omega
    · exact ih _ _ (Mem.le32_lt _ _)

theorem mapped_lt (look : Nat → Nat → Mem) (P : Nat) (ip : Mem) (b : Nat) :
    mapped look P ip b < 4294967296 := by
  unfold mapped
  split
  · exact Mem.le32_lt _ _
  · split
    · exact chase_lt 1 _ _ (Mem.le32_lt _ _)
    · exact chase_lt 2 _ _ (Mem.le32_lt _ _)

/-- two 32-bit numbers are the same when they are the same as `int`s -/
theorem sgn32_inj {a b : Nat} (ha : a < 4294967296) (hb : b < 4294967296) :
    sgn 32 a = sgn 32 b ↔ a = b := by
  obtain ⟨p, h1, h2, h3⟩ := sgn32_cases a
  obtain ⟨q, h4, h5, h6⟩ := sgn32_cases b
  omega

theorem sgn32_eq_zero {a : Nat} (ha : a < 4294967296) : sgn 32 a = 0 ↔ a = 0 := by
  obtain ⟨p, h1, h2, h3⟩ := sgn32_cases a
  omega

theorem sgn32_eq_neg_one {a : Nat} (ha : a < 4294967296) : sgn 32 a = -1 ↔ a = 0xffffffff := by
  obtain ⟨p, h1, h2, h3⟩ := sgn32_cases a
  omega

/-- below 2^31 the mapper looks at the block it should -/
theorem looked_of_lt (M : Machine) (s : State) (l : Nat) {n : Nat} (h : n < 2147483648) :
    looked M s l n = diskBlock M s n := by
  have hne : n ≠ 0xffffffff := by omega
  have e : sgn 32 n = n := sgn32_of_range (by omega) (by omega)
  unfold looked
  rw [e]
  simp only [hne, false_and, if_false, ite_self]

theorem lookedPtr_eq (M : Machine) (s : State) (i : Slot) (b : Nat)
    (h : ∀ n ∈ onTheWay M s i b, n < 2147483648) : lookedPtr M s i b = formatPtr M s i b := by
  unfold lookedPtr formatPtr mapped
  unfold onTheWay at h
  simp only at h
  split
  · rfl
  · rename_i h1
    rw [if_neg h1] at h
    split
    · rename_i h2
      rw [if_pos h2] at h
      simp only [chase, looked_of_lt M s _ (h _ (List.mem_singleton_self _))]
    · rename_i h2
      rw [if_neg h2] at h
      by_cases hz : (s.inode_table i).inode.le32 92 = 0
      · simp only [chase, if_pos hz]
      · rw [if_neg hz] at h
        have hd := h _ List.mem_cons_self
        have he := h _ (List.mem_cons_of_mem _ (List.mem_singleton_self _))
        simp only [chase, pow_one, looked_of_lt M s _ hd, looked_of_lt M s _ he]

/-! ## the mapper -/

theorem blkptr_natCast (m : Mem) (k : Nat) : blkptr m k = sgn 32 (m.le32 (4 * k)) := by
  have e : (4 * (k : Int)).toNat = 4 * k := by omega
  rw [blkptr, e]

theorem Mounted.blocksize_pos {s : State} (hm : Mounted s) : 0 < s.blocksize := by
  have h1 := hm.pos
  rw [hm.blocksize]
  omega

theorem Mounted.ptrs_eq {s : State} (hm : Mounted s) : (ptrs s : Int) = s.ptrs_per_blk := by
  have h1 := hm.pos
  have h2 := hm.blocksize
  unfold ptrs
  omega

/-- an index buffer that was brought in holds what the mapper looks at -/
theorem cacheIblk_looked {M : Machine} {s : State} {n : Nat} (hn : n < 4294967296) (hc : Coh M s)
    (ht : (cacheIblk M (sgn 32 n) s).1 = true) {x : Nat} (hx : (x : Int) < s.blocksize) :
    (cacheIblk M (sgn 32 n) s).2.iblkbuf x = looked M s 1 n x := by
  unfold looked
  rw [if_pos rfl]
  unfold cacheIblk at ht ⊢
  by_cases hn' : s.cached_iblkno = sgn 32 n
  · rw [if_pos hn']
    by_cases h : n = 0xffffffff ∧ s.cached_iblkno = -1
    · rw [if_pos h]
    · rw [if_neg h]
      have hne : s.cached_iblkno ≠ -1 := fun he =>
        h ⟨(sgn32_eq_neg_one hn).mp (hn'.symm.trans he), he⟩
      rw [hc.iblk hne x hx, hn']
      rfl
  · have h : ¬ (n = 0xffffffff ∧ s.cached_iblkno = -1) := by
      rintro ⟨h1, h2⟩
      exact hn' (h2.trans ((sgn32_eq_neg_one hn).mpr h1).symm)
    rw [if_neg hn'] at ht ⊢
    rw [if_neg h]
    split at ht
    · cases ht
    · rename_i hr
      rw [if_neg hr]
      exact readIblk_exact M _ s (not_not.mp hr) x hx

theorem cacheDiblk_looked {M : Machine} {s : State} {n : Nat} (hn : n < 4294967296) (hc : Coh M s)
    (ht : (cacheDiblk M (sgn 32 n) s).1 = true) {x : Nat} (hx : (x : Int) < s.blocksize) :
    (cacheDiblk M (sgn 32 n) s).2.diblkbuf x = looked M s 2 n x := by
  unfold looked
  rw [if_neg (by omega)]
  unfold cacheDiblk at ht ⊢
  by_cases hn' : s.cached_diblkno = sgn 32 n
  · rw [if_pos hn']
    by_cases h : n = 0xffffffff ∧ s.cached_diblkno = -1
    · rw [if_pos h]
    · rw [if_neg h]
      have hne : s.cached_diblkno ≠ -1 := fun he =>
        h ⟨(sgn32_eq_neg_one hn).mp (hn'.symm.trans he), he⟩
      rw [hc.diblk hne x hx, hn']
      rfl
  · have h : ¬ (n = 0xffffffff ∧ s.cached_diblkno = -1) := by
      rintro ⟨h1, h2⟩
      exact hn' (h2.trans ((sgn32_eq_neg_one hn).mpr h1).symm)
    rw [if_neg hn'] at ht ⊢
    rw [if_neg h]
    split at ht
    · cases ht
    · rename_i hr
      rw [if_neg hr]
      exact readDiblk_exact M _ s (not_not.mp hr) x hx

/-- bringing in a double-indirect block changes nothing that the single-indirect level looks at -/
theorem cacheDiblk_looked_one (M : Machine) (n : Int) (s : State) (m : Nat) :
    looked M (cacheDiblk M n s).2 1 m = looked M s 1 m := by
  have hd := diskBlock_same (M := M) (cacheDiblk_keeps M n s).mount
  unfold looked
  rw [if_pos rfl, if_pos rfl, hd]
  unfold cacheDiblk
  split
  · rfl
  · split <;> rfl

theorem viaIblk_looked {M : Machine} {s : State} {n k : Nat} (hm : Mounted s) (hc : Coh M s)
    (hn : n < 4294967296) (hk : k < ptrs s)
    (hok : IndexOk (newLog s (viaIblk M (sgn 32 n) k s).2)) :
    (viaIblk M (sgn 32 n) k s).1 = sgn 32 (chase (looked M s) (ptrs s) 1 n k) := by
  have hP := hm.ptrs_eq
  have hbs := hm.blocksize
  obtain ⟨-, h2, -⟩ := cacheIblk_spec M (sgn 32 n) s
  unfold viaIblk at hok ⊢
  simp only [chase, pow_zero, Nat.div_one]
  by_cases hz : n = 0
  · rw [if_pos ((sgn32_eq_zero hn).mpr hz), if_pos hz]
    rfl
  · have hz' : ¬ sgn 32 n = 0 := fun h => hz ((sgn32_eq_zero hn).mp h)
    rw [if_neg hz'] at hok ⊢
    rw [if_neg hz]
    by_cases ht : (cacheIblk M (sgn 32 n) s).1 = true
    · have hptr : blkptr (cacheIblk M (sgn 32 n) s).2.iblkbuf k = blkptr (looked M s 1 n) k :=
        blkptr_congr (n := s.ptrs_per_blk) (fun x hx => cacheIblk_looked hn hc ht (by omega))
          (Int.natCast_nonneg k) (by omega)
      rw [if_pos ht, ← blkptr_natCast]
      dsimp only
      exact hptr
    · rw [if_neg ht] at hok
      exact absurd hok (h2 (by simpa using ht))

theorem viaDiblk_looked {M : Machine} {s : State} {n k : Nat} (hm : Mounted s) (hc : Coh M s)
    (hn : n < 4294967296) (hk : k < ptrs s * ptrs s)
    (hok : IndexOk (newLog s (viaDiblk M (sgn 32 n) k s).2)) :
    (viaDiblk M (sgn 32 n) k s).1 = sgn 32 (chase (looked M s) (ptrs s) 2 n k) := by
  have hP := hm.ptrs_eq
  have hbs := hm.blocksize
  have hpos : 0 < ptrs s := by have := hm.pos; omega
  have hkeep := cacheDiblk_keeps M (sgn 32 n) s
  have hq : k / ptrs s < ptrs s := Nat.div_lt_of_lt_mul hk
  have hdiv : Int.tdiv k s.ptrs_per_blk = (k / ptrs s : Nat) := by
    rw [Int.tdiv_eq_ediv_of_nonneg (Int.natCast_nonneg k), Int.natCast_ediv, hP]
  have hmod : Int.tmod k s.ptrs_per_blk = (k % ptrs s : Nat) := by
    rw [Int.tmod_eq_emod_of_nonneg (Int.natCast_nonneg k), Int.natCast_emod, hP]
  obtain ⟨-, h2, -⟩ := cacheDiblk_spec M (sgn 32 n) s
  unfold viaDiblk at hok ⊢
  rw [hdiv, hmod] at hok ⊢
  rw [chase, pow_one]
  by_cases hz : n = 0
  · rw [if_pos ((sgn32_eq_zero hn).mpr hz), if_pos hz]
    rfl
  · have hz' : ¬ sgn 32 n = 0 := fun h => hz ((sgn32_eq_zero hn).mp h)
    rw [if_neg hz'] at hok ⊢
    rw [if_neg hz]
    by_cases ht : (cacheDiblk M (sgn 32 n) s).1 = true
    · rw [if_pos ht] at hok ⊢
      rw [newLog_trans hkeep (viaIblk_reads M _ _ _).keeps, indexOk_append] at hok
      have hcoh := hkeep.coh_ok hc hok.1
      have hptr : blkptr (cacheDiblk M (sgn 32 n) s).2.diblkbuf (k / ptrs s : Nat)
          = sgn 32 ((looked M s 2 n).le32 (4 * (k / ptrs s)) : Nat) := by
        rw [← blkptr_natCast]
        exact blkptr_congr (n := s.ptrs_per_blk)
          (fun x hx => cacheDiblk_looked hn hc ht (by omega)) (Int.natCast_nonneg _) (by omega)
      rw [hptr] at hok ⊢
      have hp : ptrs (cacheDiblk M (sgn 32 n) s).2 = ptrs s := by
        rw [ptrs, ptrs, hkeep.mount.blocksize]
      have hv := viaIblk_looked (hm.same hkeep.mount) hcoh (Mem.le32_lt _ _)
        (by rw [hp]; exact Nat.mod_lt _ hpos) hok.2
      have hl : ∀ m, looked M (cacheDiblk M (sgn 32 n) s).2 1 m = looked M s 1 m :=
        cacheDiblk_looked_one M (sgn 32 n) s
      rw [hv, hp]
      simp only [chase, hl]
    · rw [if_neg ht] at hok
      exact absurd hok (h2 (by simpa using ht))

/-- what the mapper returns when its index reads succeed -/
theorem ext2_blkno_looked {M : Machine} {s : State} {i : Slot} (hm : Mounted s) (hc : Coh M s)
    (b : Nat) (hok : IndexOk (newLog s (ext2_blkno M i b s).2)) :
    (ext2_blkno M i b s).1
      = if (b : Int) ≤ s.ind2lim then sgn 32 (lookedPtr M s i b) else 0 := by
  have hP := hm.ptrs_eq
  have hpos := hm.pos
  have hpp : s.ptrs_per_blk ≤ s.ptrs_per_blk * s.ptrs_per_blk :=
    le_mul_of_one_le_left hm.pos.le hm.pos
  have hpp' : ((ptrs s * ptrs s : Nat) : Int)
      = s.ptrs_per_blk * s.ptrs_per_blk := by rw [Nat.cast_mul, hP]
  unfold ext2_blkno at hok ⊢
  unfold lookedPtr mapped
  rw [hm.directlim, hm.ind1lim, hm.ind2lim] at *
  by_cases h1 : (b : Int) ≤ 11
  · rw [if_pos h1, if_pos (by omega), if_pos (by omega)]
    have e : (40 + 4 * (b : Int)).toNat = 40 + 4 * b := by omega
    dsimp only [i_block]
    rw [e]
  · rw [if_neg h1] at hok ⊢
    by_cases h2 : (b : Int) ≤ 11 + s.ptrs_per_blk
    · have e : (b : Int) - (11 + 1) = ((b - 12 : Nat) : Int) := by omega
      rw [if_pos h2, e] at hok ⊢
      rw [if_pos (by omega), if_neg (by omega), if_pos (by omega)]
      exact viaIblk_looked hm hc (Mem.le32_lt _ _) (by omega) hok
    · rw [if_neg h2] at hok ⊢
      by_cases h3 : (b : Int) ≤ 11 + s.ptrs_per_blk * s.ptrs_per_blk
      · have e : (b : Int) - (11 + s.ptrs_per_blk + 1)
            = ((b - 12 - ptrs s : Nat) : Int) := by omega
        rw [if_pos h3, e] at hok ⊢
        rw [if_pos h3, if_neg (by omega), if_neg (by omega)]
        exact viaDiblk_looked hm hc (Mem.le32_lt _ _) (by omega) hok
      · rw [if_neg h3, if_neg h3]

/-- the limits of a mount with one of the block sizes of ext2 -/
theorem setLimits_small {t : State} (hb : t.blocksize = block_size t.sb)
    (h : (setLimits t).blocksize = 1024 ∨ (setLimits t).blocksize = 2048 ∨
      (setLimits t).blocksize = 4096) : Mounted (setLimits t) := by
  have e : (setLimits t).blocksize = block_size t.sb := by rw [setLimits]
  rw [e] at h
  rcases h with h | h | h <;>
    constructor <;> simp only [setLimits, hb, h] <;> decide

/-- **When the mapper is the block map.**  In a state of a mounted file system whose caches are
coherent, and when the reads of the call succeed, `ext2_blkno` returns the pointer that the format
assigns to a file block exactly when the block is not one of the last ones of the double-indirect
range, and an index block number from 2^31 on leads to the same pointer; or it is one of the last
ones, and a hole. -/
theorem ext2_blkno_iff (M : Machine) (dev off : Int) (p : Nat) (s₀ s : State)
    (hmount : (ext2_mount M dev off p s₀).1 = some 0)
    (hs : SameMount (ext2_mount M dev off p s₀).2.2 s)
    (hb : s.blocksize = 1024 ∨ s.blocksize = 2048 ∨ s.blocksize = 4096) (hc : Coh M s) (i : Slot)
    (hx : ¬ hasExtents s i) (b : Nat) (hlt : b < 12 + ptrs s + ptrs s * ptrs s)
    (hok : ∀ r ∈ newLog s (ext2_blkno M i b s).2, r.ret = r.count) :
    (ext2_blkno M i b s).1 = sgn 32 (formatPtr M s i b) ↔
      (b < 12 + ptrs s * ptrs s ∧ SignedWay M s i b) ∨
      (12 + ptrs s * ptrs s ≤ b ∧ formatPtr M s i b = 0) := by
  have hm : Mounted s := by
    obtain ⟨t, ht, he⟩ := ext2_mount_limits hmount
    rw [he] at hs
    rw [hs.blocksize] at hb
    exact (setLimits_small ht hb).same hs
  have hP : ((ptrs s * ptrs s : Nat) : Int) = s.ptrs_per_blk * s.ptrs_per_blk := by
    rw [Nat.cast_mul, hm.ptrs_eq]
  have hf : formatPtr M s i b < 4294967296 := mapped_lt _ _ _ _
  have hl : lookedPtr M s i b < 4294967296 := mapped_lt _ _ _ _
  have hway : SignedWay M s i b ↔ lookedPtr M s i b = formatPtr M s i b :=
    or_iff_right_of_imp (lookedPtr_eq M s i b)
  rw [ext2_blkno_looked hm hc b (fun r hr _ => hok r hr), hm.ind2lim, hway]
  by_cases h : b < 12 + ptrs s * ptrs s
  · rw [if_pos (by omega), sgn32_inj hl hf]
    exact ⟨fun he => Or.inl ⟨h, he⟩, fun he => he.elim And.right fun h' => absurd h (by omega)⟩
  · rw [if_neg (by omega), eq_comm, sgn32_eq_zero hf]
    exact ⟨fun he => Or.inr ⟨by omega, he⟩, fun he => he.elim (fun h' => absurd h'.1 h) And.right⟩

/-- block 12 of the small root, through its indirect block -/
theorem ext2_blkno_small :
    (ext2_blkno smallMachine 0 (12 : Nat) smallOpened).1
        = sgn 32 (formatPtr smallMachine smallOpened 0 12) ∧
      (ext2_blkno smallMachine 0 (12 : Nat) smallOpened).1 = 9 := by
  refine ⟨(ext2_blkno_iff smallMachine 0 0 0 powerOn smallOpened (by decide +kernel) ?_
    (by decide +kernel) smallOpened_running.mounted.2 0 (by decide +kernel) 12
    (by decide +kernel) (by decide +kernel)).mpr ?_, by decide +kernel⟩
  · exact (call_keeps smallOpened_call (by simp)).mount
  · exact Or.inl ⟨by decide +kernel, Or.inl (by decide +kernel)⟩

/-- the small file system, with a file that has one block: the last of the double-indirect range -/
def deepDisk (x : Int) : UInt8 :=
  if x = 5248 + 92 then 8 else if x = 9212 then 9 else if x = 10236 then 10 else smallDisk x

def deepMachine : Machine :=
  Machine.faultless (fun _ x => deepDisk x) (fun _ _ => 0) [⟨0, 1024, 0⟩]

def deepMounted : State := (ext2_mount deepMachine 0 0 0 powerOn).2.2

def deepOpened : State :=
  ((ext2_open deepMachine 1 ['/'.toUInt8] deepMounted).map Prod.snd).getD deepMounted

theorem deepOpened_call :
    call deepMachine (.open 1 ['/'.toUInt8]) deepMounted = some deepOpened := by
  have h : (ext2_open deepMachine 1 ['/'.toUInt8] deepMounted).isSome = true := by decide +kernel
  obtain ⟨r, hr⟩ := Option.isSome_iff_exists.mp h
  simp only [call, deepOpened, hr, Option.map_some, Option.getD_some]

/-- the last block of the double-indirect range is block 10, and the mapper says that it is a hole -/
theorem ext2_blkno_short : ¬ ∀ (M : Machine) (dev off : Int) (p : Nat) (s₀ s : State),
    (ext2_mount M dev off p s₀).1 = some 0 → SameMount (ext2_mount M dev off p s₀).2.2 s →
    (s.blocksize = 1024 ∨ s.blocksize = 2048 ∨ s.blocksize = 4096) → Coh M s →
    ∀ i : Slot, ¬ hasExtents s i → ∀ b : Nat, b < 12 + ptrs s + ptrs s * ptrs s →
      (∀ r ∈ newLog s (ext2_blkno M i b s).2, r.ret = r.count) →
      (ext2_blkno M i b s).1 = sgn 32 (formatPtr M s i b) := by
  intro hall
  have hcoh : Coh deepMachine deepOpened := coh_of_empty _ (by decide +kernel) (by decide +kernel)
  have h := hall deepMachine 0 0 0 powerOn deepOpened (by decide +kernel)
    (call_keeps deepOpened_call (by simp)).mount (by decide +kernel) hcoh 0 (by decide +kernel)
    65803 (by decide +kernel) (by decide +kernel)
  have hne : (ext2_blkno deepMachine 0 (65803 : Nat) deepOpened).1
      ≠ sgn 32 (formatPtr deepMachine deepOpened 0 65803) := by decide +kernel
  exact hne h

end Ext2
