import Aboot.Lib.Bytes
import Aboot.Lib.History
import Aboot.Lib.Radix
import Aboot.Ufs.Kept

/-!
# The block map of UFS

The pointers of an inode and of its index blocks are a forest; `path` is the way to a file block, as
the comment of `block_map` describes it.

* `Good`          the index blocks in the buffers are those on the disk;
* `fill_spec`     a block that is not in the buffer of its level is read;
* `mapFrom_spec`  the way down from an index block;
* `Ready`         what a call of `block_map` behind the direct blocks needs;
* `block_map_spec`, `block_map_early`   what it gives then, and before the levels are calculated;
* `good_run`      every call in a run is made in a good state;
* `block_map_right`   so it is right if it is ready.
-/

set_option linter.unusedVariables false

namespace Ufs
open Word Raise Radix

/-! ## the index structure -/

/-- where a fragment is on the device -/
def place (c : Core) (n : Int) : Int := n * shift (fs_fsbtodb c.fs) * DEV_BSIZE + c.partition_offset

def block (M : Machine) (c : Core) (n : Int) : Mem := fun k => M.bytes c.dev (place c n + k)

/-- the pointers of an inode, its index blocks behind its direct blocks, and those in the index blocks -/
def forest (M : Machine) (c : Core) : Forest Int where
  root k := int c.file.i_ic (40 + 4 * k)
  entry n j := int (block M c n) (4 * j)

/-- the way from an index block, at the path `p`, down to block `k` of those that it maps -/
def below (N : Nat) : (level k : Nat) → (p : List Nat) → List Nat
  | 0, k, p => k :: p
  | level + 1, k, p => below N level (k % N ^ (level + 1)) (k / N ^ (level + 1) :: p)

/-- the way to a file block: direct, or from the index block 0, 1 or 2 -/
def path (N fb : Nat) : List Nat :=
  if fb < 12 then [fb]
  else if fb - 12 < N then below N 0 (fb - 12) [12]
  else if fb - 12 - N < N ^ 2 then below N 1 (fb - 12 - N) [13]
  else below N 2 (fb - 12 - N - N ^ 2) [14]

/-- the disk address of a file block, 0 for a hole -/
def address (M : Machine) (c : Core) (fb : Nat) : Int :=
  (forest M c).ptr (path (fs_nindir c.fs).toNat fb)

/-! ## the index blocks in the buffers -/

def Succeeds (M : Machine) : Prop := ∀ t dev count offset, (M.read t dev count offset).ret = count

/-- the variables that a call of `block_map` leaves as they are -/
structure Keep (c t : Core) : Prop where
  dev : t.dev = c.dev
  partition_offset : t.partition_offset = c.partition_offset
  fs : t.fs = c.fs
  i_ic : t.file.i_ic = c.file.i_ic
  f_nindir : t.file.f_nindir = c.file.f_nindir

/-- the block of a buffer -/
structure Holds (M : Machine) (c : Core) (level : Nat) (n : Int) : Prop where
  blk : ∃ b, c.file.f_blk level = some b ∧
    ∀ j : Nat, (j : Int) < fs_bsize c.fs → b j = M.bytes c.dev (c.offset n + j)

/-- a number other than that of no block is the one of the block in the buffer -/
def Good (M : Machine) (c : Core) : Prop :=
  ∀ l, c.file.f_blkno l ≠ 0 → c.file.f_blkno l ≠ -1 → Holds M c l (c.file.f_blkno l)

section
variable {M : Machine} {c t : Core} {level : Nat} {n : Int}

theorem Keep.refl (c : Core) : Keep c c := ⟨rfl, rfl, rfl, rfl, rfl⟩

theorem Keep.trans {u : Core} (h : Keep c t) (h' : Keep t u) : Keep c u where
  dev := h'.dev.trans h.dev
  partition_offset := h'.partition_offset.trans h.partition_offset
  fs := h'.fs.trans h.fs
  i_ic := h'.i_ic.trans h.i_ic
  f_nindir := h'.f_nindir.trans h.f_nindir

theorem Keep.offset (h : Keep c t) (b : Int) : t.offset b = c.offset b := by
  unfold Core.offset
  rw [h.fs, h.partition_offset]

theorem Keep.forest (h : Keep c t) : Ufs.forest M t = Ufs.forest M c := by
  unfold Ufs.forest block place
  rw [h.fs, h.partition_offset, h.i_ic, h.dev]

/-- the state after a `malloc` -/
def Core.setHeap (c : Core) (p : Nat) : Core := { c with free_mem_ptr := p }

theorem alloc_ok {size : Int} (h : ¬ out_of_memory (malloc M.clusters c.free_mem_ptr (uns 64 size))) :
    alloc M size c = .ok (malloc M.clusters c.free_mem_ptr (uns 64 size))
      (c.setHeap (malloc M.clusters c.free_mem_ptr (uns 64 size))) := by
  unfold alloc
  rw [bind_ok get_ok, bind_ok set_ok, if_neg h]
  rfl

theorem alloc_error {size : Int} (h : out_of_memory (malloc M.clusters c.free_mem_ptr (uns 64 size))) :
    alloc M size c = .error .memory
      (c.setHeap (malloc M.clusters c.free_mem_ptr (uns 64 size))) := by
  unfold alloc
  rw [bind_ok get_ok, bind_ok set_ok, if_pos h]
  rfl

theorem cons_read_ok (count offset : Int) :
    cons_read M count offset c
      = .ok (M.read c.reads c.dev count offset) { c with reads := c.reads + 1 } := rfl

/-- the state when an index block was read into the buffer at `p` -/
def indexRead (M : Machine) (c : Core) (p level : Nat) (n : Int) : Core :=
  (({ c with free_mem_ptr := p, reads := c.reads + 1 } : Core).setBlk level
    ((M.ram p).put 0 (M.read c.reads c.dev (fs_bsize c.fs) (c.offset n)).data)).setBlkno level n

theorem readIndex_ok (hM : Succeeds M)
    (h : ¬ out_of_memory (malloc M.clusters c.free_mem_ptr (uns 64 (fs_bsize c.fs)))) :
    readIndex M level n c
      = .ok true (indexRead M c (malloc M.clusters c.free_mem_ptr (uns 64 (fs_bsize c.fs))) level n) := by
  unfold readIndex
  rw [bind_ok get_ok, bind_ok (alloc_ok h), bind_ok (cons_read_ok _ _)]
  generalize malloc M.clusters c.free_mem_ptr (uns 64 (fs_bsize c.fs)) = p
  rw [bind_ok modify_ok, if_neg (not_not.mpr (hM _ _ _ _)), bind_ok modify_ok]
  unfold indexRead Core.setHeap
  rfl

theorem readIndex_error (h : out_of_memory (malloc M.clusters c.free_mem_ptr (uns 64 (fs_bsize c.fs)))) :
    readIndex M level n c
      = .error .memory (c.setHeap (malloc M.clusters c.free_mem_ptr (uns 64 (fs_bsize c.fs)))) := by
  unfold readIndex
  rw [bind_ok get_ok]
  exact bind_error (alloc_error h)

variable {p : Nat}

theorem indexRead_keep : Keep c (indexRead M c p level n) := ⟨rfl, rfl, rfl, rfl, rfl⟩

theorem indexRead_holds (hM : Succeeds M) : Holds M (indexRead M c p level n) level n := by
  refine ⟨_, if_pos rfl, fun j hj => ?_⟩
  exact M.put_read_exact (hM _ _ _ _) _ hj

theorem indexRead_good (hM : Succeeds M) (h : Good M c) : Good M (indexRead M c p level n) := by
  intro l h0 h1
  by_cases hl : l = level
  · have e : (indexRead M c p level n).file.f_blkno l = n := if_pos hl
    rw [e, hl]
    exact indexRead_holds hM
  · have e : (indexRead M c p level n).file.f_blkno l = c.file.f_blkno l := if_neg hl
    rw [e] at h0 h1 ⊢
    obtain ⟨b, hb, hj⟩ := (h l h0 h1).blk
    exact ⟨b, (if_neg hl).trans hb, hj⟩

/-- the block is in the buffer of its level afterwards -/
theorem fill_spec (hM : Succeeds M) (h : Good M c) (h0 : n ≠ 0) (h1 : n ≠ -1)
    (hroom : ¬ out_of_memory (malloc M.clusters c.free_mem_ptr (uns 64 (fs_bsize c.fs)))) :
    ∃ t, fill M level n c = .ok true t ∧ Keep c t ∧ Good M t ∧ Holds M t level n ∧
      (t.free_mem_ptr = c.free_mem_ptr ∨
        t.free_mem_ptr = malloc M.clusters c.free_mem_ptr (uns 64 (fs_bsize c.fs))) := by
  by_cases he : c.file.f_blkno level = n
  · refine ⟨c, ?_, .refl c, h, ?_, .inl rfl⟩
    · unfold fill
      rw [bind_ok get_ok, if_pos he]
      rfl
    · rw [← he]
      exact h level (he ▸ h0) (he ▸ h1)
  · refine ⟨indexRead M c _ level n, ?_, indexRead_keep, indexRead_good hM h, indexRead_holds hM, .inr rfl⟩
    unfold fill
    rw [bind_ok get_ok, if_neg he]
    exact readIndex_ok hM hroom

end

/-! ## the way down -/

/-- a block number that is not that of no block, and whose offset is an `int` -/
structure Plain (c : Core) (n : Int) : Prop where
  ne : n ≠ -1
  ge : -2147483648 ≤ n * shift (fs_fsbtodb c.fs) * DEV_BSIZE
  lt : n * shift (fs_fsbtodb c.fs) * DEV_BSIZE < 2147483648

theorem Plain.offset {c : Core} {n : Int} (h : Plain c n) : c.offset n = place c n := by
  have h1 := h.ge
  have h2 := h.lt
  unfold Core.offset fsbtodb place
  generalize n * shift (fs_fsbtodb c.fs) = x at h1 h2 ⊢
  have h512 : x * DEV_BSIZE = x * 512 := rfl
  have hx : sgn 32 x = x := sgn32_of_range (by omega) (by omega)
  rw [hx, sgn32_of_range h1 h2]

/-- there is memory for so many blocks -/
def Room (M : Machine) (size : Int) : (count : Nat) → (free_mem_ptr : Nat) → Prop
  | 0, _ => True
  | count + 1, p =>
    ¬ out_of_memory (malloc M.clusters p (uns 64 size)) ∧
      Room M size count (malloc M.clusters p (uns 64 size))

theorem Room.pred {M : Machine} {size : Int} {count : Nat} :
    ∀ {p : Nat}, Room M size (count + 1) p → Room M size count p := by
  induction count with
  | zero => exact fun _ => trivial
  | succ count ih => exact fun h => ⟨h.1, ih h.2⟩

theorem Keep.plain {c t : Core} (h : Keep c t) {n : Int} (hn : Plain c n) : Plain t n where
  ne := hn.ne
  ge := by
    rw [h.fs]
    exact hn.ge
  lt := by
    rw [h.fs]
    exact hn.lt

section
variable {M : Machine} {c : Core}

/-- the pointers of a plain block in a buffer are those of the index structure -/
theorem Holds.entry {level : Nat} {n : Int} (h : Holds M c level n) (hn : Plain c n) {idx : Nat}
    (hidx : 4 * (idx : Int) + 4 ≤ fs_bsize c.fs) :
    ind_p ((c.file.f_blk level).getD (M.ram 0)) idx = (forest M c).entry n idx := by
  obtain ⟨b, hb, hj⟩ := h.blk
  have e : (4 * (idx : Int)).toNat = 4 * idx := by omega
  have hle : b.le (4 * idx) 4 = (block M c n).le (4 * idx) 4 := by
    apply Bytes.le_congr
    intro j hlt
    rw [hj (4 * idx + j) (by push_cast; omega), hn.offset]
    rfl
  unfold ind_p forest
  dsimp only
  rw [hb, Option.getD_some, e]
  unfold int Mem.le32
  rw [hle]

/-- the way down starts with an entry -/
theorem below_tail (N : Nat) : ∀ (level k : Nat) (p : List Nat), ∃ j, j :: p <:+ below N level k p := by
  intro level
  induction level with
  | zero => exact fun k p => ⟨k, List.suffix_refl _⟩
  | succ level ih =>
    intro k p
    obtain ⟨j, hj⟩ := ih (k % N ^ (level + 1)) (k / N ^ (level + 1) :: p)
    exact ⟨_, (List.suffix_cons j _).trans hj⟩

/-- what is needed on the way down to `p`: every index block is plain -/
def Way (M : Machine) (c : Core) (p : List Nat) : Prop :=
  ∀ j q, j :: q <:+ p → q ≠ [] → Plain c ((forest M c).ptr q)

/-- a hole above is a hole below -/
theorem below_hole {N : Nat} {t : Forest Int} : ∀ (level k : Nat) (i : Nat) (p : List Nat),
    t.ptr (i :: p) = 0 → t.ptr (below N level k (i :: p)) = 0 := by
  intro level
  induction level with
  | zero => exact fun k i p h => ptr_end h
  | succ level ih => exact fun k i p h => ih _ _ _ (ptr_end h)

/-- an entry is in the block, and the block below maps the rest -/
theorem entry_lt {N level k : Nat} (h : k < N ^ (level + 2)) :
    k / N ^ (level + 1) < N ∧ k % N ^ (level + 1) < N ^ (level + 1) := by
  have hN : 0 < N := by
    rcases Nat.eq_zero_or_pos N with rfl | hN
    · rw [Nat.zero_pow (by omega)] at h
      omega
    · exact hN
  have hpow : 0 < N ^ (level + 1) := Nat.pow_pos hN
  refine ⟨?_, Nat.mod_lt k hpow⟩
  rw [Nat.div_lt_iff_lt_mul hpow, ← Nat.pow_succ']
  exact h

theorem mapFrom_spec {N : Nat} (hM : Succeeds M) (hfit : 4 * (N : Int) ≤ fs_bsize c.fs)
    (level : Nat) : ∀ {t : Core} {k i : Nat} {p : List Nat}, Keep c t → Good M t →
    (∀ l, l < level → t.file.f_nindir l = (N : Int) ^ (l + 1)) → k < N ^ (level + 1) →
    Way M c (below N level k (i :: p)) → Room M (fs_bsize c.fs) (level + 1) t.free_mem_ptr →
    ∃ u, mapFrom M level ((forest M c).ptr (i :: p)) k t
      = .ok ((forest M c).ptr (below N level k (i :: p))) u := by
  induction level with
  | zero =>
    intro t k i p hkeep hgood hnind hk hway hroom
    by_cases h0 : (forest M c).ptr (i :: p) = 0
    · rw [below_hole 0 k i p h0, h0]
      exact ⟨t, rfl⟩
    have hplain := hway k (i :: p) (List.suffix_refl _) (List.cons_ne_nil i p)
    have hroom1 : ¬ out_of_memory (malloc M.clusters t.free_mem_ptr (uns 64 (fs_bsize t.fs))) := by
      rw [hkeep.fs]
      exact hroom.1
    obtain ⟨u, hu, hku, -, hholds, -⟩ := @fill_spec M t 0 _ hM hgood h0 hplain.ne hroom1
    have hcu := hkeep.trans hku
    refine ⟨u, ?_⟩
    rw [Nat.zero_add, Nat.pow_one] at hk
    have hentry := @Holds.entry M u 0 _ hholds (hcu.plain hplain) k (by rw [hcu.fs]; omega)
    unfold mapFrom
    rw [if_neg h0, bind_ok hu]
    show EStateM.Result.ok (ind_p ((u.file.f_blk 0).getD (M.ram 0)) k) u = _
    rw [hentry, hcu.forest]
    show _ = EStateM.Result.ok ((forest M c).ptr (k :: i :: p)) u
    rw [ptr_next h0]
  | succ level ih =>
    intro t k i p hkeep hgood hnind hk hway hroom
    by_cases h0 : (forest M c).ptr (i :: p) = 0
    · rw [below_hole (level + 1) k i p h0, h0]
      exact ⟨t, rfl⟩
    obtain ⟨hidx, hrest⟩ := entry_lt hk
    obtain ⟨j, hj⟩ := below_tail N (level + 1) k (i :: p)
    have hplain := hway j (i :: p) hj (List.cons_ne_nil i p)
    have hroom1 : ¬ out_of_memory (malloc M.clusters t.free_mem_ptr (uns 64 (fs_bsize t.fs))) := by
      rw [hkeep.fs]
      exact hroom.1
    obtain ⟨u, hu, hku, hgu, hholds, hp⟩ := @fill_spec M t (level + 1) _ hM hgood h0 hplain.ne hroom1
    have hcu := hkeep.trans hku
    have hentry := @Holds.entry M u (level + 1) _ hholds (hcu.plain hplain) (k / N ^ (level + 1))
      (by rw [hcu.fs]; omega)
    have hlevel : u.file.f_nindir level = ((N ^ (level + 1) : Nat) : Int) := by
      rw [hku.f_nindir, hnind level (Nat.lt_succ_self level), Nat.cast_pow]
    have hroom2 : Room M (fs_bsize c.fs) (level + 1) u.free_mem_ptr := by
      rcases hp with hp | hp
      · rw [hp]
        exact hroom.pred
      · rw [hp, hkeep.fs]
        exact hroom.2
    obtain ⟨v, hv⟩ := ih hcu hgu (fun l hl => by rw [hku.f_nindir]; exact hnind l (Nat.lt_succ_of_lt hl))
      hrest hway hroom2
    refine ⟨v, ?_⟩
    unfold mapFrom
    rw [if_neg h0, bind_ok hu]
    show mapFrom M level (ind_p ((u.file.f_blk (level + 1)).getD (M.ram 0))
      ((k : Int).tdiv (u.file.f_nindir level))) ((k : Int).tmod (u.file.f_nindir level)) u = _
    rw [hlevel, ← Int.ofNat_tdiv, ← Int.ofNat_tmod, hentry, hcu.forest, ← ptr_next h0]
    exact hv

theorem below_length (N : Nat) : ∀ (level k : Nat) (p : List Nat),
    (below N level k p).length = p.length + (level + 1) := by
  intro level
  induction level with
  | zero => exact fun k p => rfl
  | succ level ih =>
    intro k p
    show (below N level _ _).length = _
    rw [ih, List.length_cons]
    omega

/-- the levels are the powers of the number of pointers, which are `int`s -/
theorem levels_eq {fs : Mem} {N : Nat} (hN : fs_nindir fs = N) (h : N ^ 3 < 2147483648) :
    ∀ l, l < NIADDR → levels fs l = (N : Int) ^ (l + 1) := by
  have hle : ∀ j, j ≤ 3 → 0 < j → N ^ j < 2147483648 := by
    intro j hj hpos
    rcases Nat.eq_zero_or_pos N with rfl | hpos
    · rw [Nat.zero_pow hpos]
      decide
    · exact Nat.lt_of_le_of_lt (Nat.pow_le_pow_right hpos hj) h
  have hsgn : ∀ j, j ≤ 3 → 0 < j → sgn 32 ((N : Int) ^ j) = (N : Int) ^ j := by
    intro j hj hpos
    have hlt := hle j hj hpos
    rw [← Nat.cast_pow]
    exact sgn32_of_range (by omega) (by omega)
  intro l
  induction l with
  | zero =>
    intro _
    have h1 := hsgn 1 (by decide) (by decide)
    rw [pow_one] at h1
    rw [levels, hN, h1, Nat.zero_add, pow_one]
  | succ l ih =>
    intro hl
    have hl3 : l + 1 < 3 := hl
    rw [levels, ih (Nat.lt_of_succ_lt hl), hN, ← pow_succ, hsgn (l + 2) (by omega) (by omega)]

/-- the level of a file block is that of its way down -/
theorem findLevel_spec {f : Nat → Int} {N fb : Nat} (hf : ∀ l, l < NIADDR → f l = (N : Int) ^ (l + 1))
    (h12 : 12 ≤ fb) (hint : fb < 2147483648) (hfb : fb < 12 + N + N ^ 2 + N ^ 3) :
    ∃ level k : Nat, findLevel f NIADDR 0 ((fb : Int) - NDADDR) = some (level, (k : Int)) ∧
      level < NIADDR ∧ path N fb = below N level k [12 + level] ∧ k < N ^ (level + 1) := by
  have h0 : f 0 = (N : Int) := by
    rw [hf 0 (by decide), pow_one]
  have h1 : f 1 = ((N ^ 2 : Nat) : Int) := by
    rw [hf 1 (by decide), Nat.cast_pow]
  have h2 : f 2 = ((N ^ 3 : Nat) : Int) := by
    rw [hf 2 (by decide), Nat.cast_pow]
  have hsub : ((fb : Int) - NDADDR) = ((fb - 12 : Nat) : Int) := by
    unfold NDADDR
    omega
  unfold path
  rw [if_neg (by omega), hsub, findLevel, h0]
  by_cases hl0 : fb - 12 < N
  · rw [if_pos (by omega), if_pos hl0]
    exact ⟨0, fb - 12, rfl, by decide, rfl, by rw [Nat.zero_add, Nat.pow_one]; exact hl0⟩
  have e1 : sgn 32 (((fb - 12 : Nat) : Int) - N) = ((fb - 12 - N : Nat) : Int) := by
    rw [sgn32_of_range (by omega) (by omega)]
    omega
  rw [if_neg (by omega), if_neg hl0, e1, findLevel, h1]
  by_cases hl1 : fb - 12 - N < N ^ 2
  · rw [if_pos (by omega), if_pos hl1]
    exact ⟨1, fb - 12 - N, rfl, by decide, rfl, hl1⟩
  have e2 : sgn 32 (((fb - 12 - N : Nat) : Int) - (N ^ 2 : Nat)) = ((fb - 12 - N - N ^ 2 : Nat) : Int) := by
    rw [sgn32_of_range (by omega) (by omega)]
    omega
  rw [if_neg (by omega), if_neg hl1, e2, findLevel, h2, if_pos (by omega)]
  refine ⟨2, fb - 12 - N - N ^ 2, rfl, by decide, rfl, ?_⟩
  show fb - 12 - N - N ^ 2 < N ^ 3
  omega

/-- what a call for a block behind the direct ones needs: the levels are calculated, the pointers of an
index block are in the block, the index blocks on the way are plain, and there is memory for them -/
structure Ready (M : Machine) (c : Core) (fb : Nat) : Prop where
  levels : ∀ l, l < NIADDR → c.file.f_nindir l = levels c.fs l
  fit : 4 * fs_nindir c.fs ≤ fs_bsize c.fs
  way : Way M c (path (fs_nindir c.fs).toNat fb)
  room : Room M (fs_bsize c.fs) ((path (fs_nindir c.fs).toNat fb).length - 1) c.free_mem_ptr

/-- a file block that the levels can map -/
structure Mapped (fs : Mem) (fb : Nat) : Prop where
  lt : (fb : Int) < 12 + fs_nindir fs + fs_nindir fs ^ 2 + fs_nindir fs ^ 3
  pow : fs_nindir fs ^ 3 < 2147483648

/-- there are index blocks only if they have pointers -/
theorem Mapped.nindir {fs : Mem} {fb : Nat} (h : Mapped fs fb) (h12 : 12 ≤ fb) :
    fs_nindir fs = (fs_nindir fs).toNat := by
  have hlt := h.lt
  have h0 : 0 ≤ fs_nindir fs := by
    by_contra hneg
    nlinarith [sq_nonneg (fs_nindir fs), mul_pos_of_neg_of_neg (not_le.mp hneg) (not_le.mp hneg)]
  exact (Int.toNat_of_nonneg h0).symm

theorem forest_root (M : Machine) (c : Core) (k : Nat) :
    (forest M c).root k = int c.file.i_ic (40 + 4 * k) := by
  unfold forest
  dsimp only

theorem block_map_direct {fb : Nat} (h : fb < 12) : block_map M fb c = .ok (address M c fb) c := by
  have e : (40 + 4 * (fb : Int)).toNat = 40 + 4 * fb := by omega
  have hdb : c.i_db fb = address M c fb := by
    unfold address path Core.i_db
    rw [if_pos (by omega), if_pos h, ptr_root, e, forest_root]
  unfold block_map
  rw [bind_ok get_ok, if_pos (show (fb : Int) < NDADDR by unfold NDADDR; omega), hdb]
  rfl

theorem block_map_spec {fb : Nat} (hM : Succeeds M) (hg : Good M c) (h12 : 12 ≤ fb)
    (hint : fb < 2147483648) (hm : Mapped c.fs fb) (hr : Ready M c fb) :
    ∃ t, block_map M fb c = .ok (address M c fb) t := by
  obtain ⟨N, hN⟩ : ∃ N : Nat, fs_nindir c.fs = N := ⟨_, hm.nindir h12⟩
  have hfb := hm.lt
  have hpow := hm.pow
  have hfit := hr.fit
  have hway := hr.way
  have hroom := hr.room
  rw [hN] at hfb hpow hfit hway hroom
  rw [Int.toNat_natCast] at hway hroom
  have hpow' : N ^ 3 < 2147483648 := by exact_mod_cast hpow
  have hfb' : fb < 12 + N + N ^ 2 + N ^ 3 := by exact_mod_cast hfb
  have hlevels : ∀ l, l < NIADDR → c.file.f_nindir l = (N : Int) ^ (l + 1) := fun l hl =>
    (hr.levels l hl).trans (levels_eq hN hpow' l hl)
  obtain ⟨level, k, hfind, hlt, hpath, hk⟩ := findLevel_spec hlevels h12 hint hfb'
  rw [hpath] at hway hroom
  rw [below_length, List.length_singleton, Nat.add_sub_cancel_left] at hroom
  obtain ⟨t, ht⟩ := mapFrom_spec hM hfit level (.refl c) hg
    (fun l hl => hlevels l (Nat.lt_trans hl hlt)) hk hway hroom
  refine ⟨t, ?_⟩
  have hroot : (forest M c).ptr [12 + level] = i_ib c.file.i_ic level := by
    have e : 40 + 4 * (12 + level) = 88 + 4 * level := by omega
    rw [ptr_root, forest_root, e]
    rfl
  unfold block_map address
  rw [bind_ok get_ok, if_neg (show ¬ (fb : Int) < NDADDR by unfold NDADDR; omega), hfind, hN,
    Int.toNat_natCast, hpath]
  rw [hroot] at ht
  exact ht

/-- before the levels are calculated, there are no blocks behind the direct ones -/
theorem block_map_early {fb : Nat} (h12 : 12 ≤ fb) (hint : fb < 2147483648)
    (h : ∀ l, l < NIADDR → c.file.f_nindir l = 0) : block_map M fb c = .ok (-1) c := by
  have hsub : ((fb : Int) - NDADDR) = ((fb - 12 : Nat) : Int) := by
    unfold NDADDR
    omega
  have hstep : ∀ l, l < NIADDR → ¬ ((fb - 12 : Nat) : Int) < c.file.f_nindir l := by
    intro l hl
    rw [h l hl]
    omega
  have hsgn : sgn 32 (((fb - 12 : Nat) : Int) - 0) = ((fb - 12 : Nat) : Int) := by
    rw [Int.sub_zero]
    exact sgn32_of_range (by omega) (by omega)
  have hfind : findLevel c.file.f_nindir NIADDR 0 ((fb : Int) - NDADDR) = none := by
    rw [hsub, findLevel, if_neg (hstep 0 (by decide)), h 0 (by decide), hsgn, findLevel,
      if_neg (hstep 1 (by decide)), h 1 (by decide), hsgn, findLevel, if_neg (hstep 2 (by decide)), findLevel]
  unfold block_map
  rw [bind_ok get_ok, if_neg (show ¬ (fb : Int) < NDADDR by unfold NDADDR; omega), hfind]
  rfl

end

/-! ## runs -/

section
variable {M : Machine}

/-- only the buffers and what they are read from matter -/
theorem Good.congr {c t : Core} (h : Good M c) (hoff : ∀ b, t.offset b = c.offset b) (hdev : t.dev = c.dev)
    (hfs : t.fs = c.fs) (hblk : t.file.f_blk = c.file.f_blk) (hno : t.file.f_blkno = c.file.f_blkno) :
    Good M t := by
  intro l h0 h1
  rw [hno] at h0 h1 ⊢
  obtain ⟨b, hb, hj⟩ := (h l h0 h1).blk
  refine ⟨b, ?_, fun j hlt => ?_⟩
  · rw [hblk]
    exact hb
  · rw [hoff, hdev]
    rw [hfs] at hlt
    exact hj j hlt

theorem setHeap_good {c : Core} {p : Nat} (h : Good M c) : Good M (c.setHeap p) :=
  h.congr (fun _ => rfl) rfl rfl rfl rfl

theorem alloc_good (size : Int) : Keeps (Good M) (alloc M size) := by
  refine ⟨fun c h => ?_⟩
  by_cases hm : out_of_memory (malloc M.clusters c.free_mem_ptr (uns 64 size))
  · exact .of_error (alloc_error hm) (setHeap_good h)
  · exact .of_ok (alloc_ok hm) (setHeap_good h)

theorem cons_read_good (count offset : Int) : Keeps (Good M) (cons_read M count offset) :=
  ⟨fun c h => .of_ok (cons_read_ok count offset) (h.congr (fun _ => rfl) rfl rfl rfl rfl)⟩

theorem readIndex_good (hM : Succeeds M) (level : Nat) (n : Int) : Keeps (Good M) (readIndex M level n) := by
  refine ⟨fun c h => ?_⟩
  by_cases hm : out_of_memory (malloc M.clusters c.free_mem_ptr (uns 64 (fs_bsize c.fs)))
  · exact .of_error (readIndex_error hm) (setHeap_good h)
  · exact .of_ok (readIndex_ok hM hm) (indexRead_good hM h)

theorem fill_good (hM : Succeeds M) (level : Nat) (n : Int) : Keeps (Good M) (fill M level n) := by
  unfold fill
  exact .get fun c _ => .ite (.pure _) (readIndex_good hM level n)

theorem mapFrom_good (hM : Succeeds M) (level : Nat) : ∀ n k, Keeps (Good M) (mapFrom M level n k) := by
  induction level with
  | zero =>
    intro n k
    unfold mapFrom
    refine .ite (.pure _) (.bind (fill_good hM 0 n) fun r => .ite ?_ (.pure _))
    exact .get fun c _ => .pure _
  | succ level ih =>
    intro n k
    unfold mapFrom
    refine .ite (.pure _) (.bind (fill_good hM _ n) fun r => .ite ?_ (.pure _))
    exact .get fun c _ => ih _ _

theorem block_map_good (hM : Succeeds M) (fb : Int) : Keeps (Good M) (block_map M fb) := by
  unfold block_map
  refine .get fun c _ => .ite (.pure _) ?_
  split
  · exact .pure _
  · exact mapFrom_good hM _ _ _

theorem read_inode_good (inumber : Nat) : Keeps (Good M) (read_inode M inumber) := by
  unfold read_inode
  refine .get fun c _ => .bind (cons_read_good _ _) fun r => ?_
  apply Keeps.bind
  · apply Keeps.modify
    intro c h
    exact h.congr (fun _ => rfl) rfl rfl rfl rfl
  intro _
  apply Keeps.ite
  · exact .pure _
  apply Keeps.bind
  · apply Keeps.modify
    intro c h l
    dsimp only
    by_cases hl : l < NIADDR
    · rw [if_pos hl]
      exact fun _ h1 => absurd rfl h1
    · rw [if_neg hl]
      intro h0 h1
      obtain ⟨b, hb, hj⟩ := (h l h0 h1).blk
      exact ⟨b, (if_neg hl).trans hb, hj⟩
  · exact fun _ => .pure _

/-- the calls were made in good states, for file blocks that are `int`s -/
def GoodCalls (M : Machine) (calls : List (Core × Int)) : Prop :=
  ∀ call ∈ calls, Good M call.1 ∧ call.2 < 2147483648

theorem good_stable (hM : Succeeds M) : Stable M fun s => Good M s.core ∧ GoodCalls M s.calls where
  map b := by
    unfold map
    apply Keeps.bind
    · apply Keeps.modify
      intro s h
      refine ⟨h.1, fun call hc => ?_⟩
      rcases List.mem_append.mp hc with hc | hc
      · exact h.2 call hc
      · obtain ⟨q, -, -, hlt⟩ := sgn32_cases b
        rw [List.mem_singleton.mp hc]
        exact ⟨h.1, hlt⟩
    · exact fun _ => keeps_lift (block_map_good hM _)
  read count offset := keeps_lift (cons_read_good count offset)
  alloc size := keeps_lift (alloc_good size)
  inode n := keeps_lift (read_inode_good n)
  buf s m h := ⟨h.1.congr (fun _ => rfl) rfl rfl rfl rfl, h.2⟩
  name s m p h := h
  levels := by
    apply Keeps.modify
    intro s h
    exact ⟨h.1.congr (fun _ => rfl) rfl rfl rfl rfl, h.2⟩

/-- a file system that was just mounted -/
theorem good_mount {dev offset : Int} {s₀ s : State} {r : Int} (h : ufs_mount M dev offset s₀ = .ok r s) :
    Good M s.core ∧ GoodCalls M s.calls := by
  have hrun : Ends (ufs_mount M dev offset) (fun _ t => (∀ l, t.core.file.f_blkno l = 0) ∧ t.calls = [])
      (fun _ t => (∀ l, t.core.file.f_blkno l = 0) ∧ t.calls = []) s₀ := by
    unfold ufs_mount
    apply Ends.bind
    apply Ends.modify
    refine Keeps.ends ?_ _ ⟨fun _ => rfl, rfl⟩
    have hread : Keeps (fun c : Core => ∀ l, c.file.f_blkno l = 0)
        (cons_read M SBSIZE (SBLOCK * DEV_BSIZE + offset)) := ⟨fun c hc => .of_ok (cons_read_ok _ _) hc⟩
    refine .bind (keeps_lift (K := fun calls => calls = []) hread) fun r => ?_
    refine .bind (.modify fun _ ht => ht) fun _ => .ite (.pure _) (.get fun t _ => ?_)
    exact .ite (.pure _) (.pure _)
  unfold Ends at hrun
  rw [h] at hrun
  obtain ⟨hno, hcalls⟩ := hrun
  refine ⟨fun l h0 => absurd (hno l) h0, fun call hc => ?_⟩
  rw [hcalls] at hc
  cases hc

/-- every state and every call of a run is good -/
theorem good_run (hM : Succeeds M) {s : State} (h : Good M s.core ∧ GoodCalls M s.calls) (fuel : Nat)
    (ops : List Op) :
    Good M (History.run (step M fuel) s ops).core ∧
      GoodCalls M (History.run (step M fuel) s ops).calls :=
  History.run_keeps (I := fun s : State => Good M s.core ∧ GoodCalls M s.calls)
    (fun s op hs => (good_stable hM).step fuel op hs) h ops

end

/-! ## the levels -/

/-- the levels are calculated -/
def Leveled (c : Core) : Prop := ∀ l, l < NIADDR → c.file.f_nindir l = levels c.fs l

theorem Leveled.congr {c t : Core} (h : Leveled c) (hfs : t.fs = c.fs)
    (hnindir : t.file.f_nindir = c.file.f_nindir) : Leveled t := by
  intro l hl
  rw [hnindir, hfs]
  exact h l hl

section
variable {M : Machine}

theorem alloc_leveled (size : Int) : Keeps Leveled (alloc M size) := by
  refine ⟨fun c h => ?_⟩
  by_cases hm : out_of_memory (malloc M.clusters c.free_mem_ptr (uns 64 size))
  · exact .of_error (alloc_error hm) (h.congr rfl rfl)
  · exact .of_ok (alloc_ok hm) (h.congr rfl rfl)

theorem cons_read_leveled (count offset : Int) : Keeps Leveled (cons_read M count offset) :=
  ⟨fun c h => .of_ok (cons_read_ok count offset) (h.congr rfl rfl)⟩

theorem fill_leveled (level : Nat) (n : Int) : Keeps Leveled (fill M level n) := by
  unfold fill readIndex
  refine .get fun c _ => .ite (.pure _) (.get fun c _ => .bind (alloc_leveled _) fun p => ?_)
  refine .bind (cons_read_leveled _ _) fun r => ?_
  apply Keeps.bind
  · exact .modify fun c h => h.congr rfl rfl
  refine fun _ => .ite (.pure _) ?_
  apply Keeps.bind
  · exact .modify fun c h => h.congr rfl rfl
  · exact fun _ => .pure _

theorem mapFrom_leveled (level : Nat) : ∀ n k, Keeps Leveled (mapFrom M level n k) := by
  induction level with
  | zero =>
    intro n k
    unfold mapFrom
    refine .ite (.pure _) (.bind (fill_leveled 0 n) fun r => .ite ?_ (.pure _))
    exact .get fun c _ => .pure _
  | succ level ih =>
    intro n k
    unfold mapFrom
    refine .ite (.pure _) (.bind (fill_leveled _ n) fun r => .ite ?_ (.pure _))
    exact .get fun c _ => ih _ _

theorem block_map_leveled (fb : Int) : Keeps Leveled (block_map M fb) := by
  unfold block_map
  refine .get fun c _ => .ite (.pure _) ?_
  split
  · exact .pure _
  · exact mapFrom_leveled _ _ _

theorem read_inode_leveled (inumber : Nat) : Keeps Leveled (read_inode M inumber) := by
  unfold read_inode
  refine .get fun c _ => .bind (cons_read_leveled _ _) fun r => ?_
  apply Keeps.bind
  · exact .modify fun c h => h.congr rfl rfl
  refine fun _ => .ite (.pure _) ?_
  apply Keeps.bind
  · exact .modify fun c h => h.congr rfl rfl
  · exact fun _ => .pure _

/-- once the levels are calculated, they are at every later call -/
theorem leveled_stable (old : List (Core × Int)) :
    Stable M fun s => Leveled s.core ∧ ∀ call ∈ s.calls, call ∈ old ∨ Leveled call.1 where
  map b := by
    unfold map
    apply Keeps.bind
    · apply Keeps.modify
      intro s h
      refine ⟨h.1, fun call hc => ?_⟩
      rcases List.mem_append.mp hc with hc | hc
      · exact h.2 call hc
      · rw [List.mem_singleton.mp hc]
        exact .inr h.1
    · exact fun _ => keeps_lift (K := fun calls => ∀ call ∈ calls, call ∈ old ∨ Leveled call.1)
        (block_map_leveled _)
  read count offset := keeps_lift (K := fun calls => ∀ call ∈ calls, call ∈ old ∨ Leveled call.1)
    (cons_read_leveled count offset)
  alloc size := keeps_lift (K := fun calls => ∀ call ∈ calls, call ∈ old ∨ Leveled call.1)
    (alloc_leveled size)
  inode n := keeps_lift (K := fun calls => ∀ call ∈ calls, call ∈ old ∨ Leveled call.1)
    (read_inode_leveled n)
  buf s m h := ⟨h.1.congr rfl rfl, h.2⟩
  name s m p h := h
  levels := by
    apply Keeps.modify
    intro s h
    exact ⟨fun l hl => if_pos hl, h.2⟩

theorem leveled_run {s : State} (h : Leveled s.core) (fuel : Nat) (ops : List Op) :
    ∀ call ∈ (History.run (step M fuel) s ops).calls, call ∈ s.calls ∨ Leveled call.1 := by
  have hstable := leveled_stable (M := M) s.calls
  have hrun := History.run_keeps
    (I := fun t : State => Leveled t.core ∧ ∀ call ∈ t.calls, call ∈ s.calls ∨ Leveled call.1)
    (fun t op ht => hstable.step fuel op ht) ⟨h, fun call hc => .inl hc⟩ ops
  exact hrun.2

/-- `ufs_open` calculates them at its end -/
theorem setLevels_leveled (s : State) : ∃ t, setLevels s = .ok ⟨⟩ t ∧ Leveled t.core :=
  ⟨_, modify_ok, fun l hl => if_pos hl⟩

/-! ## every call -/

/-- in a run from a mount, a call for a direct block, and any other call that is ready, gives the
disk address; before the levels are calculated there is none for a block behind the direct ones -/
theorem block_map_right (hM : Succeeds M) {dev offset r : Int} {s₀ s : State}
    (h : ufs_mount M dev offset s₀ = .ok r s) (fuel : Nat) (ops : List Op) {c : Core} {fb : Nat}
    (hcall : (c, (fb : Int)) ∈ (History.run (step M fuel) s ops).calls) (hm : Mapped c.fs fb) :
    (fb < 12 ∨ Ready M c fb → ∃ t, block_map M fb c = .ok (address M c fb) t) ∧
      (12 ≤ fb → (∀ l, l < NIADDR → c.file.f_nindir l = 0) → block_map M fb c = .ok (-1) c) := by
  obtain ⟨-, hcalls⟩ := good_run hM (good_mount h) fuel ops
  obtain ⟨hgood, hint⟩ := hcalls _ hcall
  have hint : (fb : Int) < 2147483648 := hint
  have hint : fb < 2147483648 := by exact_mod_cast hint
  refine ⟨fun hcond => ?_, fun h12 h0 => block_map_early h12 hint h0⟩
  by_cases h12 : fb < 12
  · exact ⟨c, block_map_direct h12⟩
  · exact block_map_spec hM hgood (by omega) hint hm (hcond.resolve_left h12)

end

/-! ## a directory of thirteen blocks -/

/-- the bytes of a disk that are not 0 -/
def bytesOf (table : List (Nat × UInt8)) (a : Int) : UInt8 := (table.lookup a.toNat).getD 0

/-- a file system with blocks of 4096 bytes: the root directory is twelve times fragment 24, and fragment
32 through the index block 28 -/
def thirteen : Machine :=
  .faultless (fun _ => bytesOf (
    [(8192 + 16, 16), (8192 + 49, 0x10), (8192 + 53, 4), (8192 + 73, 0xf0), (8192 + 74, 0xff),
      (8192 + 75, 0xff), (8192 + 77, 0xfc), (8192 + 78, 0xff), (8192 + 79, 0xff), (8192 + 80, 12),
      (8192 + 84, 10), (8192 + 96, 2), (8192 + 100, 1), (8192 + 117, 4), (8192 + 120, 32),
      (8192 + 184, 64), (8192 + 188, 64), (8192 + 1372, 0x54), (8192 + 1373, 0x19), (8192 + 1374, 1),
      (16640, 0xed), (16641, 0x41), (16649, 0xd0)]
    ++ (List.range 12).map (fun k => (16680 + 4 * k, 24))
    ++ [(16728, 28), (24576, 2), (24581, 0x10), (24582, 1), (24584, 46), (28672, 32)]))
    (fun _ _ => 0) [⟨0, 65536, 0⟩]

theorem thirteen_succeeds : Succeeds thirteen := fun _ _ _ _ => rfl

/-- the variables before the mount -/
def unmounted : State := ⟨⟨0, 0, fun _ => 0, cleared thirteen, fun _ => 0, 0, 0⟩, fun _ => 0, none, []⟩

def stateOf {α : Type} : EStateM.Result Exit State α → State
  | .ok _ t => t
  | .error _ t => t

def thirteenMounted : State := stateOf (ufs_mount thirteen 0 0 unmounted)

theorem thirteen_mount : ufs_mount thirteen 0 0 unmounted = .ok 0 thirteenMounted := by
  have hok : (match ufs_mount thirteen 0 0 unmounted with | .ok r _ => r | .error _ _ => 1) = 0 := by
    decide +kernel
  unfold thirteenMounted
  cases hm : ufs_mount thirteen 0 0 unmounted with
  | ok r t =>
    rw [hm] at hok
    dsimp only at hok
    rw [hok]
    rfl
  | error e t =>
    rw [hm] at hok
    cases hok

/-- the thirteenth block of the open directory -/
theorem thirteen_call : ∃ c : Core, ((c, 12) ∈ (History.run (step thirteen 20) thirteenMounted
      [.open [slash], .bread 12 1]).calls) ∧
    (∀ l, l < NIADDR → c.file.f_nindir l = levels c.fs l) ∧ fs_nindir c.fs = 1024 ∧
      fs_bsize c.fs = 4096 ∧ fs_fsbtodb c.fs = 1 ∧ i_ib c.file.i_ic 0 = 28 ∧
      address thirteen c 12 = 32 ∧
      ¬ out_of_memory (malloc thirteen.clusters c.free_mem_ptr (Word.uns 64 4096)) := by
  have h : (History.run (step thirteen 20) thirteenMounted [.open [slash], .bread 12 1]).calls.any
      (fun call => call.2 = 12 ∧
        (∀ l, l < NIADDR → call.1.file.f_nindir l = levels call.1.fs l) ∧ fs_nindir call.1.fs = 1024 ∧
          fs_bsize call.1.fs = 4096 ∧ fs_fsbtodb call.1.fs = 1 ∧ i_ib call.1.file.i_ic 0 = 28 ∧
          address thirteen call.1 12 = 32 ∧
          ¬ out_of_memory (malloc thirteen.clusters call.1.free_mem_ptr (Word.uns 64 4096))) = true := by
    decide +kernel
  obtain ⟨⟨c, b⟩, hc, hp⟩ := List.any_eq_true.mp h
  obtain ⟨rfl, hrest⟩ := of_decide_eq_true hp
  exact ⟨c, hc, hrest⟩

theorem thirteen_way {c : Core} (hfs : fs_fsbtodb c.fs = 1) (hib : i_ib c.file.i_ic 0 = 28) :
    Way thirteen c [0, 12] := by
  intro j q hsuffix hne
  have hq : q = [12] := by
    rcases List.suffix_cons_iff.mp hsuffix with h | h
    · exact (List.cons.inj h).2
    · rcases List.suffix_cons_iff.mp h with h | h
      · exact absurd (List.cons.inj h).2 hne
      · cases List.suffix_nil.mp h
  have hptr : (forest thirteen c).ptr [12] = 28 := by
    rw [ptr_root, forest_root]
    exact hib
  rw [hq, hptr]
  refine ⟨by decide, ?_, ?_⟩
  · rw [hfs]
    decide
  · rw [hfs]
    decide

/-- the thirteenth block of the open directory is found -/
theorem thirteen_right : ∃ c : Core, ((c, 12) ∈ (History.run (step thirteen 20) thirteenMounted
      [.open [slash], .bread 12 1]).calls) ∧ ∃ t, block_map thirteen 12 c = .ok 32 t := by
  obtain ⟨c, hc, hlevels, hn, hsize, hfs, hib, haddress, hmem⟩ := thirteen_call
  have hpath : path (fs_nindir c.fs).toNat 12 = [0, 12] := by
    rw [hn]
    rfl
  have hready : Ready thirteen c 12 := by
    refine ⟨hlevels, ?_, ?_, ?_⟩
    · rw [hn, hsize]
      decide
    · rw [hpath]
      exact thirteen_way hfs hib
    · rw [hpath, hsize]
      exact ⟨hmem, trivial⟩
  have hm : Mapped c.fs 12 := by
    refine ⟨?_, ?_⟩
    · rw [hn]
      decide
    · rw [hn]
      decide
  have hright := (block_map_right thirteen_succeeds thirteen_mount 20 _ hc hm).1 (.inr hready)
  rw [haddress] at hright
  exact ⟨c, hc, hright⟩

/-- a name that is looked for in the thirteenth block of a directory: the block is not found -/
theorem thirteen_early : ∃ c : Core, ((c, 12) ∈ (History.run (step thirteen 20) thirteenMounted
      [.open [slash, 120]]).calls) ∧
    (∀ l, l < NIADDR → c.file.f_nindir l = 0) ∧ fs_nindir c.fs = 1024 ∧ address thirteen c 12 = 32 := by
  have h : (History.run (step thirteen 20) thirteenMounted [.open [slash, 120]]).calls.any
      (fun call => call.2 = 12 ∧ (∀ l, l < NIADDR → call.1.file.f_nindir l = 0) ∧
        fs_nindir call.1.fs = 1024 ∧ address thirteen call.1 12 = 32) = true := by
    decide +kernel
  obtain ⟨⟨c, b⟩, hc, hp⟩ := List.any_eq_true.mp h
  obtain ⟨rfl, hrest⟩ := of_decide_eq_true hp
  exact ⟨c, hc, hrest⟩

theorem block_map_missed : ¬ ∀ (M : Machine) (dev offset : Int) (s₀ s : State) (fuel : Nat)
    (ops : List Op) (c : Core) (fb : Nat), Succeeds M → ufs_mount M dev offset s₀ = .ok 0 s →
    (c, (fb : Int)) ∈ (History.run (step M fuel) s ops).calls → Mapped c.fs fb →
    ∃ t, block_map M fb c = .ok (address M c fb) t := by
  intro hall
  obtain ⟨c, hc, h0, hn, haddress⟩ := thirteen_early
  have hm : Mapped c.fs 12 := by
    refine ⟨?_, ?_⟩
    · rw [hn]
      decide
    · rw [hn]
      decide
  obtain ⟨t, ht⟩ := hall thirteen 0 0 unmounted thirteenMounted 20 _ c 12 thirteen_succeeds
    thirteen_mount hc hm
  rw [block_map_early (by decide) (by decide) h0, haddress] at ht
  cases ht

end Ufs
