import Aboot.E2.Supply
import Aboot.Lib.Radix

/-!
# The blocks of an inode as a forest of pointers

* `forest`          the pointers of an inode and of its index blocks;
* `pathOf`          where the pointer to a block of the file is;
* `Ready`           the blocks that a call reads and writes are in reach of the `int` offsets;
* `Consistent`      the blocks of the inode are allocated and different, and no bitmap is among them;
* `read_index`      an index block is read;
* `blkno_lookup`    `ext2_blkno` without allocation gives the pointer at the path.
-/

set_option linter.unusedVariables false

namespace E2
open Word Bytes Bitmap
open Ext2 (s_blocks_per_group i_block i_blocks blkptr blkptr_natCast EXT2_NDIR_BLOCKS EXT2_IND_BLOCK
  EXT2_DIND_BLOCK)

/-- the pointers of an inode, and those in its index blocks -/
def forest (s : State) (i : Slot) : Radix.Forest Int where
  root k := i_block (s.inode i) k
  entry b j := blkptr (buffer (contents s.bio (uns 32 b))) j

theorem forest_root (s : State) (i : Slot) (k : Nat) :
    (forest s i).root k = i_block (s.inode i) k := by
  simp only [forest]

theorem forest_entry (s : State) (i : Slot) (b : Int) (j : Nat) :
    (forest s i).entry b j = blkptr (buffer (contents s.bio (uns 32 b))) j := by
  simp only [forest]

/-- the paths of an inode: an entry of `i_block`, and entries of index blocks as far as its level -/
def Path (p : List Nat) : Prop :=
  ∃ js k, p = js ++ [k] ∧ k < 15 ∧ js.length ≤ levelOf k ∧ ∀ j ∈ js, j < 256

theorem path_closed : Radix.Closed Path := by
  rintro j k p ⟨js, r, e, hr, hlen, hjs⟩
  cases js with
  | nil => cases (List.cons.inj e).2
  | cons j' js =>
    refine ⟨js, r, (List.cons.inj e).2, hr, ?_, fun x hx => hjs x (List.mem_cons_of_mem j' hx)⟩
    rw [List.length_cons] at hlen
    omega

theorem path_root {k : Nat} (h : k < 15) : Path [k] := ⟨[], k, rfl, h, Nat.zero_le _, by simp⟩

theorem Path.root_lt {k : Nat} (h : Path [k]) : k < 15 := by
  obtain ⟨js, r, e, hr, -, -⟩ := h
  cases js with
  | nil =>
    cases e
    exact hr
  | cons j js =>
    have := congrArg List.length e
    simp at this

/-- an index of a path is one of an entry of an index block -/
theorem Path.index_lt {j k : Nat} {p : List Nat} (h : Path (j :: k :: p)) : j < 256 := by
  obtain ⟨js, r, e, -, -, hjs⟩ := h
  cases js with
  | nil => cases (List.cons.inj e).2
  | cons j' js =>
    cases (List.cons.inj e).1
    exact hjs j (List.mem_cons_self)

/-- a path ends at the level of its root -/
theorem Path.length_le {p : List Nat} {k : Nat} (h : Path (p ++ [k])) : p.length ≤ levelOf k := by
  obtain ⟨js', k', e, -, hlen, -⟩ := h
  obtain ⟨rfl, e'⟩ := List.append_inj_left' e rfl, List.append_inj_right' e rfl
  cases e'
  exact hlen

/-- the paths to data blocks -/
def Leaf (p : List Nat) : Prop := Path p ∧ ∀ j, ¬ Path (j :: p)

/-- the paths to the index blocks that `ext2_blkno` reads -/
def Index (p : List Nat) : Prop := p = [12] ∨ p = [13] ∨ ∃ j, j < 256 ∧ p = [j, 13]

theorem Index.path {p : List Nat} (h : Index p) : Path p := by
  rcases h with rfl | rfl | ⟨j, hj, rfl⟩
  · exact path_root (by decide)
  · exact path_root (by decide)
  · refine ⟨[j], 13, rfl, by decide, show 1 ≤ 2 by decide, fun x hx => ?_⟩
    rwa [List.mem_singleton.mp hx]

/-- where the pointer to block `k` of a file is -/
def pathOf (k : Nat) : List Nat :=
  if k < 12 then [k] else if k < 268 then [k - 12, 12] else [(k - 268) % 256, (k - 268) / 256, 13]

theorem pathOf_path {k : Nat} (h : k ≤ 65547) : Path (pathOf k) := by
  unfold pathOf
  split
  · exact path_root (by omega)
  · split
    · refine ⟨[k - 12], 12, rfl, by decide, Nat.le_refl _, fun j hj => ?_⟩
      rw [List.mem_singleton] at hj
      omega
    · refine ⟨[(k - 268) % 256, (k - 268) / 256], 13, rfl, by decide, Nat.le_refl _, fun j hj => ?_⟩
      simp only [List.mem_cons, List.not_mem_nil, or_false] at hj
      omega

/-- the way to a block of the file ends there -/
theorem pathOf_leaf {k : Nat} (h : k ≤ 65547) : Leaf (pathOf k) := by
  refine ⟨pathOf_path h, fun j hj => ?_⟩
  unfold pathOf at hj
  split at hj
  · have hlen := Path.length_le (p := [j]) hj
    rw [levelOf, List.length_singleton] at hlen
    omega
  · split at hj
    · have hlen := Path.length_le (p := [j, k - 12]) hj
      simp [levelOf] at hlen
    · have hlen := Path.length_le (p := [j, (k - 268) % 256, (k - 268) / 256]) hj
      simp [levelOf] at hlen

theorem pathOf_inj {j k : Nat} (h : pathOf j = pathOf k) : j = k := by
  unfold pathOf at h
  split at h <;> split at h <;> try split at h
  all_goals try split at h
  all_goals simp only [List.cons.injEq, and_true, reduceCtorEq, and_false] at h
  all_goals omega

/-- a consistent file system: true counts, groups with bitmaps of their own, which are in use; and the
blocks of the inode are in use, different, and not bitmaps -/
structure Consistent (s : State) (i : Slot) : Prop where
  sound : Sound s
  numbers : s.groups * s_blocks_per_group s.sb < 4294967296
  limits : Limits s
  ind2lim : s.ind2lim = 65547
  ptrs_per_blk : s.ptrs_per_blk = 256
  maps : ∀ k g, s.Group k g → s.Number .block (k.map s.gds g) → s.used .block (k.map s.gds g) = true
  inUse : ∀ p, Path p → (forest s i).ptr p ≠ 0 →
    s.Number .block (uns 32 ((forest s i).ptr p)) ∧ s.used .block (uns 32 ((forest s i).ptr p)) = true
  apart : ∀ p, Path p → (forest s i).ptr p ≠ 0 →
    ∀ k g, s.Group k g → uns 32 ((forest s i).ptr p) ≠ k.map s.gds g
  distinct : Radix.Distinct Path (forest s i)

/-- a block in reach of the `int` offsets -/
def Near (b : Nat) : Prop := (b + 1) * 1024 ≤ 2147483648

/-- the blocks that a call reads and writes are in reach of the `int` offsets: the index blocks of the
file, the bitmaps that `n` calls of `ext2_balloc` read, and the first `m` blocks that they give -/
structure Ready (s : State) (i : Slot) (n m : Nat) : Prop where
  indices : ∀ p, Index p → (forest s i).ptr p ≠ 0 → Near (uns 32 ((forest s i).ptr p))
  bitmaps : DrawsInReach s n
  made : ∀ x ∈ (freeList s).take m, Near x

theorem Ready.mono {s : State} {i : Slot} {n m n' m' : Nat} (h : Ready s i n m) (hn : n' ≤ n)
    (hm : m' ≤ m) : Ready s i n' m' :=
  ⟨h.indices, h.bitmaps.mono hn, fun x hx => h.made x (List.take_subset_take_left _ hm hx)⟩

/-- the whole device is in reach -/
structure Small (s : State) : Prop where
  blocks : ∀ b, s.Number .block b → Near b
  bitmaps : ∀ g, s.Group .block g → Near (bg_block_bitmap s.gds g)

theorem mem_freeList {s : State} {x : Nat} (h : x ∈ freeList s) : s.Number .block x := by
  obtain ⟨g, hg, hx⟩ := List.mem_flatMap.mp h
  have hg := List.mem_range.mp hg
  unfold freeIn at hx
  split at hx
  · obtain ⟨j, hj, rfl⟩ := List.mem_map.mp hx
    have hj := List.mem_range.mp (List.mem_filter.mp hj).1
    obtain ⟨hd, hm⟩ := number_split (p := Kind.per s.sb .block) (i := g) (j := j)
      (Nat.lt_of_lt_of_le hj (Kind.block.size_le s.sb g))
    have hper : Kind.per s.sb .block = s_blocks_per_group s.sb := rfl
    rw [hper] at hd hm
    rw [State.Number, hper, hd, hm]
    exact ⟨by omega, hg, hj⟩
  · cases hx

/-- on a device in reach a call is ready for everything -/
theorem Small.ready {s : State} {i : Slot} (hs : Small s) (h : Consistent s i) (n m : Nat) :
    Ready s i n m where
  indices p hp h0 := hs.blocks _ (h.inUse p hp.path h0).1
  bitmaps g hg hfree _ := by
    have hgroup : s.Group .block g := h.sound.group hg hfree
    exact ⟨h.sound.plan.first .block g hgroup, hs.bitmaps g hgroup⟩
  made x hx := hs.blocks x (mem_freeList (List.mem_of_mem_take hx))

theorem sgn32_of_zero {x : Int} (h : x = 0) : sgn 32 x = x := by
  rw [h]
  decide

theorem forest_int (s : State) (i : Slot) (p : List Nat) :
    sgn 32 ((forest s i).ptr p) = (forest s i).ptr p := by
  cases p with
  | nil => exact sgn32_of_zero rfl
  | cons j p =>
    cases p with
    | nil =>
      rw [Radix.ptr_root, forest_root]
      exact i_block_int _ _
    | cons k p =>
      by_cases h : (forest s i).ptr (k :: p) = 0
      · exact sgn32_of_zero (Radix.ptr_end h)
      · rw [Radix.ptr_next h, forest_entry]
        exact blkptr_int _ _

section
variable {s : State} {i : Slot} (h : Consistent s i) {p : List Nat} (hp : Path p)
  (h0 : (forest s i).ptr p ≠ 0) (hs : Near (uns 32 ((forest s i).ptr p)))
include h hp h0 hs

/-- a pointer is the number of its block -/
theorem Consistent.int : (forest s i).ptr p = (uns 32 ((forest s i).ptr p) : Int) ∧
    1 ≤ uns 32 ((forest s i).ptr p) := by
  obtain ⟨hnum, -⟩ := h.inUse p hp h0
  unfold Near at hs
  have hint := sgn32_uns32 ((forest s i).ptr p)
  rw [forest_int] at hint
  refine ⟨hint.symm.trans (sgn32_of_range ?_ ?_), hnum.1⟩
  · omega
  · omega

/-- an index block is read, after reads of other blocks as well -/
theorem read_index {t : State} (ht : ReadOnly s t (contents s.bio)) :
    ∃ u, bread ((forest s i).ptr p) t = some (buffer (contents s.bio (uns 32 ((forest s i).ptr p))), u) ∧
      ReadOnly s u (contents s.bio) := by
  obtain ⟨hint, h1⟩ := h.int hp h0 hs
  unfold Near at hs
  obtain ⟨b, l, rfl, hb, hbs⟩ := ht
  generalize uns 32 ((forest s i).ptr p) = n at *
  obtain ⟨v, hv, hvheld, hvbs⟩ := bread_run (s := s.over b l) hb h1 (by
    show _ * b.bio_blocksize ≤ _
    rwa [hbs, h.sound.plan.blocksize])
  refine ⟨s.over v (n :: l), ?_, v, _, rfl, hvheld, hvbs.trans hbs⟩
  rw [hint]
  exact hv

end

/-! ## reading without allocation -/

theorem ptrIn_found {i : Slot} {b j : Int} {allocate checked : Bool} {s u : State} {m : Mem}
    (hm : bread b s = some (m, u)) (hf : blkptr m j ≠ 0 ∨ allocate = false) :
    ptrIn i b j allocate checked s = some (blkptr m j, u) := by
  unfold ptrIn
  rw [Prog.bind_run hm, if_neg]
  · rfl
  · rintro ⟨h1, h2⟩
    rcases hf with hf | hf
    · exact hf h1
    · rw [hf] at h2
      cases h2

theorem indirectIn_found {i : Slot} {b j : Int} {allocate : Bool} {s u : State} {m : Mem}
    (hm : bread b s = some (m, u)) (hf : blkptr m j ≠ 0 ∨ allocate = false) :
    indirectIn i b j allocate s = some (blkptr m j, u) := by
  unfold indirectIn
  rw [Prog.bind_run hm, if_neg]
  · rfl
  · rintro ⟨h1, h2⟩
    rcases hf with hf | hf
    · exact hf h1
    · rw [hf] at h2
      cases h2

/-! ## the three kinds of blocks of a file -/

section
variable {s : State} {i : Slot} (h : Consistent s i) {allocate : Bool}
  (hw : allocate = true → s.readonly = false)
include h hw

theorem blkno_in_inode {k : Nat} (hk : k < 12) :
    ext2_blkno i k allocate s = (if i_block (s.inode i) k = 0 ∧ allocate then do
        let blkno ← ext2_balloc
        modify fun s => addBlock i (setBlock i k blkno s)
        pure blkno
      else pure (i_block (s.inode i) k) : Prog State Int) s := by
  unfold ext2_blkno
  rw [Prog.bind_run (Prog.get_run s), if_neg (by rintro ⟨e, hr⟩; rw [hw e] at hr; cases hr),
    if_pos (by rw [h.limits.directlim]; omega)]

theorem blkno_in_indirect {k : Nat} (hk : 12 ≤ k) (hk' : k < 268) :
    ext2_blkno i k allocate s = (do
      let iblkno ← (if i_block (s.inode i) EXT2_IND_BLOCK = 0 ∧ allocate
        then newIndirect i EXT2_IND_BLOCK else pure (i_block (s.inode i) EXT2_IND_BLOCK))
      if iblkno = 0 then pure 0 else ptrIn i iblkno (k - 12 : Nat) allocate true : Prog State Int) s := by
  have hidx : (k : Int) - (s.directlim + 1) = ((k - 12 : Nat) : Int) := by
    rw [h.limits.directlim]
    omega
  unfold ext2_blkno
  rw [Prog.bind_run (Prog.get_run s), if_neg (by rintro ⟨e, hr⟩; rw [hw e] at hr; cases hr),
    if_neg (by rw [h.limits.directlim]; omega), if_pos (by rw [h.limits.ind1lim]; omega), hidx]

theorem blkno_in_double {k : Nat} (hk : 268 ≤ k) (hk' : k ≤ 65547) :
    ext2_blkno i k allocate s = (do
      let diblkno ← (if i_block (s.inode i) EXT2_DIND_BLOCK = 0 ∧ allocate
        then newIndirect i EXT2_DIND_BLOCK else pure (i_block (s.inode i) EXT2_DIND_BLOCK))
      if diblkno = 0 then pure 0
      else
        let iblkno ← indirectIn i diblkno ((k - 268) / 256 : Nat) allocate
        if iblkno = 0 then pure 0
        else ptrIn i iblkno ((k - 268) % 256 : Nat) allocate false : Prog State Int) s := by
  have hidx : (k : Int) - (s.ind1lim + 1) = ((k - 268 : Nat) : Int) := by
    rw [h.limits.ind1lim]
    omega
  have hdiv : Int.tdiv ((k - 268 : Nat) : Int) s.ptrs_per_blk = (((k - 268) / 256 : Nat) : Int) := by
    rw [h.ptrs_per_blk, Int.tdiv_eq_ediv_of_nonneg (Int.natCast_nonneg _)]
    rfl
  have hmod : Int.tmod ((k - 268 : Nat) : Int) s.ptrs_per_blk = (((k - 268) % 256 : Nat) : Int) := by
    rw [h.ptrs_per_blk, Int.tmod_eq_emod_of_nonneg (Int.natCast_nonneg _)]
    rfl
  unfold ext2_blkno
  rw [Prog.bind_run (Prog.get_run s), if_neg (by rintro ⟨e, hr⟩; rw [hw e] at hr; cases hr),
    if_neg (by rw [h.limits.directlim]; omega), if_neg (by rw [h.limits.ind1lim]; omega),
    if_pos (by rw [h.ind2lim]; omega), hidx, hdiv, hmod]

end

section
variable {s : State} {i : Slot} (h : Consistent s i)
  (hs : ∀ p, Index p → (forest s i).ptr p ≠ 0 → Near (uns 32 ((forest s i).ptr p)))
include h hs

/-- `ext2_blkno` without allocation reads the pointer -/
theorem blkno_lookup {k : Nat} (hk : k ≤ 65547) :
    ∃ u, ext2_blkno i k false s = some ((forest s i).ptr (pathOf k), u) ∧
      ReadOnly s u (contents s.bio) := by
  obtain ⟨a, ha⟩ := h.sound.coherent
  obtain rfl := contents_eq ha
  have hself := ReadOnly.refl ha
  have hw : false = true → s.readonly = false := fun e => by cases e
  have hno : ∀ b : Int, ¬ (b = 0 ∧ false = true) := fun b hb => by cases hb.2
  have hpath := pathOf_path hk
  by_cases h1 : k < 12
  · refine ⟨s, ?_, hself⟩
    rw [blkno_in_inode h hw h1, if_neg (hno _), pathOf, if_pos h1, Radix.ptr_root, forest_root]
    rfl
  by_cases h2 : k < 268
  · rw [pathOf, if_neg h1, if_pos h2, blkno_in_indirect h hw (by omega) h2, if_neg (hno _),
      Prog.bind_run (Prog.pure_run _ _)]
    have hroot : i_block (s.inode i) EXT2_IND_BLOCK = (forest s i).ptr [12] := by
      rw [Radix.ptr_root, forest_root]
      rfl
    rw [hroot]
    by_cases h0 : (forest s i).ptr [12] = 0
    · rw [if_pos h0, Radix.ptr_end h0]
      exact ⟨s, rfl, hself⟩
    · obtain ⟨u, hu, hru⟩ := read_index h (path_root (by decide)) h0 (hs _ (Or.inl rfl) h0) hself
      refine ⟨u, ?_, hru⟩
      rw [if_neg h0, ptrIn_found hu (Or.inr rfl), Radix.ptr_next h0, forest_entry]
  · rw [pathOf, if_neg h1, if_neg h2] at hpath
    rw [pathOf, if_neg h1, if_neg h2, blkno_in_double h hw (by omega) hk, if_neg (hno _),
      Prog.bind_run (Prog.pure_run _ _)]
    have hroot : i_block (s.inode i) EXT2_DIND_BLOCK = (forest s i).ptr [13] := by
      rw [Radix.ptr_root, forest_root]
      rfl
    rw [hroot]
    by_cases h0 : (forest s i).ptr [13] = 0
    · rw [if_pos h0, Radix.ptr_end (Radix.ptr_end h0)]
      exact ⟨s, rfl, hself⟩
    obtain ⟨u, hu, hru⟩ := read_index h (path_root (by decide)) h0 (hs _ (Or.inr (Or.inl rfl)) h0) hself
    have hentry := Radix.ptr_next (j := (k - 268) / 256) h0
    rw [forest_entry] at hentry
    rw [if_neg h0, Prog.bind_run (indirectIn_found hu (Or.inr rfl)), ← hentry]
    by_cases h0' : (forest s i).ptr [(k - 268) / 256, 13] = 0
    · rw [if_pos h0', Radix.ptr_end h0']
      exact ⟨u, rfl, hru⟩
    · obtain ⟨v, hv, hrv⟩ := read_index h (path_closed _ _ _ hpath) h0'
        (hs _ (Or.inr (Or.inr ⟨_, by omega, rfl⟩)) h0') hru
      refine ⟨v, ?_, hrv⟩
      rw [if_neg h0', ptrIn_found hv (Or.inr rfl), Radix.ptr_next h0', forest_entry]

end

end E2
