import Aboot.E2.Contiguous
import Aboot.E2.Fields
import Aboot.E2.Kept

/-!
# Truncating a file

A block of level 0 is a data block; a block of level `l + 1` holds numbers of blocks of level `l`.
`Freeing B s t` says that `t` is `s` with the blocks `B` freed and nothing else changed.

* `frees_bfree`     one block;
* `frees_level`     a block and all blocks under it;
* `truncateBlock_spec`   one entry of `i_block`;
* `truncate_frees`  the whole file;
* `Counted.truncateFits`   true counts have room for the blocks of a file.
-/

set_option linter.unusedVariables false

namespace E2
open Word Bytes Bitmap
open Ext2 (s_blocks_per_group i_size i_block blkptr EXT2_NDIR_BLOCKS EXT2_IND_BLOCK EXT2_DIND_BLOCK)

/-! ## the blocks of a file -/

/-- what is under a pointer: nothing, when it is 0 -/
def under (T : Int → List Int) (p : Int) : List Int := if p ≠ 0 then T p else []

/-- the block `b` of a level and the blocks under it, where an index block has `n` entries and `a`
has the blocks -/
def tree (a : Nat → List UInt8) (n : Nat) : Nat → Int → List Int
  | 0, b => [b]
  | l + 1, b =>
    (List.range n).flatMap (fun (k : Nat) => under (tree a n l) (blkptr (buffer (a (uns 32 b))) k))
      ++ [b]

/-- the index blocks among them -/
def indices (a : Nat → List UInt8) (n : Nat) : Nat → Int → List Int
  | 0, _ => []
  | l + 1, b =>
    b :: (List.range n).flatMap fun (k : Nat) =>
      under (indices a n l) (blkptr (buffer (a (uns 32 b))) k)

/-- the data blocks and the indirect blocks of a file -/
def fileBlocks (s : State) (i : Slot) : List Int :=
  (List.range 15).flatMap fun k =>
    under (tree (contents s.bio) s.ptrs_per_blk.toNat (levelOf k)) (i_block (s.inode i) k)

/-- the indirect blocks of a file -/
def fileIndices (s : State) (i : Slot) : List Int :=
  (List.range 15).flatMap fun k =>
    under (indices (contents s.bio) s.ptrs_per_blk.toNat (levelOf k)) (i_block (s.inode i) k)

theorem indices_subset (a : Nat → List UInt8) (n : Nat) (l : Nat) :
    ∀ b, ∀ x ∈ indices a n l b, x ∈ tree a n l b := by
  induction l with
  | zero =>
    intro b x hx
    cases hx
  | succ l ih =>
    intro b x hx
    rcases List.mem_cons.mp hx with rfl | hx
    · exact List.mem_append_right _ (List.mem_singleton_self _)
    · obtain ⟨k, hk, hx⟩ := List.mem_flatMap.mp hx
      refine List.mem_append_left _ (List.mem_flatMap.mpr ⟨k, hk, ?_⟩)
      unfold under at hx ⊢
      split at hx
      · rw [if_pos ‹_›]
        exact ih _ x hx
      · cases hx

/-! ## freeing -/

/-- the group of a block -/
def groupOf (s : State) (b : Int) : Nat := (uns 32 b - 1) / s_blocks_per_group s.sb

/-- the bit of a block in the bitmap of its group -/
def bitOf (s : State) (b : Int) : Nat := (uns 32 b - 1) % s_blocks_per_group s.sb

/-- how many of the blocks are in a group -/
def countIn (s : State) (g : Nat) (B : List Int) : Nat := B.countP fun b => groupOf s b = g

/-- the block bitmaps: one block of 1024 bytes for each group, and none of them twice; an index
block has 256 entries -/
structure Maps (s : State) : Prop where
  bio_blocksize : s.bio.bio_blocksize = 1024
  ptrs_per_blk : s.ptrs_per_blk = 256
  fits : s_blocks_per_group s.sb ≤ 8192
  first : ∀ g, s.Group .block g → 1 ≤ bg_block_bitmap s.gds g
  apart : ∀ g g', s.Group .block g → s.Group .block g' →
    bg_block_bitmap s.gds g = bg_block_bitmap s.gds g' → g = g'

/-- the blocks `B` were freed: their bits are clear, the counts are raised, as 16 and 32 bits hold
them, and everything else is the same -/
structure Freeing (B : List Int) (s t : State) : Prop where
  held : ∃ a, Bio.Held t.bio a
  bio_blocksize : t.bio.bio_blocksize = s.bio.bio_blocksize
  bit : ∀ g j, s.Group .block g → j < 8192 →
    t.bit .block g j = (s.bit .block g j && decide (∀ b ∈ B, ¬ (groupOf s b = g ∧ bitOf s b = j)))
  other : ∀ n, (∀ g, s.Group .block g → n ≠ bg_block_bitmap s.gds g) →
    contents t.bio n = contents s.bio n
  free : ∀ g, bg_free_blocks_count t.gds g
    = (bg_free_blocks_count s.gds g + countIn s g B) % 65536
  total : s_free_blocks_count t.sb = (s_free_blocks_count s.sb + B.length) % 4294967296
  gds : ∀ x, x % 32 < 12 ∨ 14 ≤ x % 32 → t.gds x = s.gds x
  sb : ∀ x, x < 12 ∨ 16 ≤ x → t.sb x = s.sb x
  rest : t = { s with sb := t.sb, gds := t.gds, bio := t.bio, asked := t.asked }

theorem Freeing.refl {s : State} (h : ∃ a, Bio.Held s.bio a) : Freeing [] s s where
  held := h
  bio_blocksize := rfl
  bit g j _ _ := by simp
  other _ _ := rfl
  free g := (Nat.mod_eq_of_lt (Mem.le16_lt _ _)).symm
  total := (Nat.mod_eq_of_lt (Mem.le32_lt _ _)).symm
  gds _ _ := rfl
  sb _ _ := rfl
  rest := rfl

section
variable {s t : State} {B : List Int} (h : Freeing B s t)
include h

theorem Freeing.per : s_blocks_per_group t.sb = s_blocks_per_group s.sb :=
  Mem.le_congr fun j _ => h.sb _ (by omega)

theorem Freeing.map (g : Nat) : bg_block_bitmap t.gds g = bg_block_bitmap s.gds g :=
  Mem.le_congr fun j hj => h.gds _ (by omega)

theorem Freeing.inode_table : t.inode_table = s.inode_table := by
  rw [h.rest]

theorem Freeing.ptrs_per_blk : t.ptrs_per_blk = s.ptrs_per_blk := by
  rw [h.rest]

end

/-- `x` frees the blocks `B`, whatever was freed before -/
def Frees (s : State) (x : Prog State Unit) (B : List Int) : Prop :=
  ∀ D u, Freeing D s u → ∃ t, x u = some ((), t) ∧ Freeing (D ++ B) s t

theorem Frees.when {s : State} {f : Int → Prog State Unit} {T : Int → List Int} {p : Int}
    (h : p ≠ 0 → Frees s (f p) (T p)) : Frees s (Prog.when (p ≠ 0) (f p)) (under T p) := by
  unfold Prog.when under
  by_cases hp : p ≠ 0
  · rw [if_pos hp, if_pos hp]
    exact h hp
  · rw [if_neg hp, if_neg hp]
    intro D u hu
    refine ⟨u, rfl, ?_⟩
    rwa [List.append_nil]

theorem Frees.bind {s : State} {x y : Prog State Unit} {B C : List Int} (hx : Frees s x B)
    (hy : Frees s y C) : Frees s (x >>= fun _ => y) (B ++ C) := by
  intro D u hu
  obtain ⟨t, ht, h⟩ := hx D u hu
  obtain ⟨v, hv, h'⟩ := hy (D ++ B) t h
  refine ⟨v, ?_, ?_⟩
  · rw [Prog.bind_run ht]
    exact hv
  · rwa [← List.append_assoc]

/-- a block with a bit in a bitmap in reach -/
def Freeable (s : State) (b : Int) : Prop :=
  s.Number .block (uns 32 b) ∧ BitmapInReach s.gds (groupOf s b)

theorem countIn_append (s : State) (g : Nat) (D : List Int) (b : Int) :
    countIn s g (D ++ [b]) = countIn s g D + if groupOf s b = g then 1 else 0 := by
  rw [countIn, List.countP_append, List.countP_singleton]
  simp only [countIn, decide_eq_true_eq]

theorem put_le16 (m : Mem) (g x : Nat) :
    bg_free_blocks_count (m.put (g * 32 + 12) (ofNum (uns 16 (x : Int)) 2)) g = x % 65536 := by
  refine (le_put_self m (g * 32 + 12) _ 2).trans ?_
  unfold uns
  norm_num
  omega

theorem put_le32 (m : Mem) (x : Nat) :
    s_free_blocks_count (m.put 12 (ofNum (uns 32 (x : Int)) 4)) = x % 4294967296 := by
  refine (le_put_self m 12 _ 4).trans ?_
  unfold uns
  norm_num
  omega

section
variable {s : State} (hm : Maps s) {b : Int} (hb : Freeable s b)
include hm hb

theorem Freeable.group : s.Group .block (groupOf s b) ∧ bitOf s b < 8192 := by
  obtain ⟨⟨hb1, hb2, hb3⟩, -⟩ := hb
  have hbit : bitOf s b < Kind.size s.sb (groupOf s b) .block := hb3
  have hsize : Kind.size s.sb (groupOf s b) .block ≤ s_blocks_per_group s.sb := Nat.min_le_left _ _
  have hfits := hm.fits
  exact ⟨⟨hb2, by omega⟩, by omega⟩

/-- what `ext2_bfree` does, where `a` has the blocks -/
theorem bfree_freeing {D : List Int} {u : State} (h : Freeing D s u) {a : Nat → List UInt8}
    (ha : Bio.Held u.bio a) :
    ∃ w l, ext2_bfree b u = some ((), addFreeBlocks (groupOf s b) 1 (u.over w l)) ∧
      w.bio_blocksize = 1024 ∧
      Bio.Held w (Function.update a (bg_block_bitmap s.gds (groupOf s b))
        ((clear_bit (buffer (a (bg_block_bitmap s.gds (groupOf s b)))) (bitOf s b)).get 0 1024)) := by
  obtain ⟨hg, -⟩ := Freeable.group hm hb
  have hreach : (bg_block_bitmap s.gds (groupOf s b) + 1) * 1024 ≤ 2147483648 := hb.2
  have hbs : u.bio.bio_blocksize = 1024 := h.bio_blocksize.trans hm.bio_blocksize
  have hsgn : sgn 32 (bg_block_bitmap u.gds (groupOf s b) : Int)
      = bg_block_bitmap s.gds (groupOf s b) := by
    rw [h.map]
    exact sgn32_of_range (by omega) (by omega)
  obtain ⟨v, hv, hvheld, hvbs⟩ := bread_run (s := u) ha (hm.first _ hg) (by rwa [hbs])
  have hvbs : v.bio_blocksize = 1024 := hvbs.trans hbs
  obtain ⟨w, hw, hwheld, hwbs⟩ := bwrite_run
    (s := u.over v (bg_block_bitmap s.gds (groupOf s b) :: u.asked)) hvheld (hm.first _ hg)
    (by show _ * v.bio_blocksize ≤ _; rwa [hvbs])
    (clear_bit (buffer (a (bg_block_bitmap s.gds (groupOf s b)))) (bitOf s b))
  refine ⟨w, bg_block_bitmap s.gds (groupOf s b) :: bg_block_bitmap s.gds (groupOf s b) :: u.asked, ?_,
    hwbs.trans hvbs, ?_⟩
  · unfold ext2_bfree
    rw [Prog.bind_run (Prog.get_run u)]
    simp only [h.per, uns32_pred hb.1.1]
    rw [show (uns 32 b - 1) / s_blocks_per_group s.sb = groupOf s b from rfl,
      show (uns 32 b - 1) % s_blocks_per_group s.sb = bitOf s b from rfl, hsgn, Prog.bind_run hv,
      Prog.bind_run hw]
    rfl
  · rwa [show (u.over v _).bio.bio_blocksize = 1024 from hvbs] at hwheld

/-- one block more is freed -/
theorem frees_bfree : Frees s (ext2_bfree b) [b] := by
  intro D u h
  obtain ⟨hg, hj⟩ := Freeable.group hm hb
  obtain ⟨a, ha⟩ := h.held
  obtain ⟨w, l, hrun, hwbs, hwheld⟩ := bfree_freeing hm hb h ha
  have hcu := contents_eq ha
  have hcw := contents_eq hwheld
  refine ⟨_, hrun, ⟨_, hwheld⟩, ?_, ?_, ?_, ?_, ?_, ?_, ?_, ?_⟩
  · exact hwbs.trans hm.bio_blocksize.symm
  · intro g j hg' hj'
    have hold := h.bit g j hg' hj'
    have hmap : Kind.map (addFreeBlocks (groupOf s b) 1 (u.over w l)).gds g .block
        = bg_block_bitmap s.gds g := (add_map .block _ 1 (u.over w l) .block g).trans (h.map g)
    rw [State.bit, show Kind.map u.gds g .block = bg_block_bitmap s.gds g from h.map g, hcu] at hold
    rw [State.bit, hmap, show (addFreeBlocks (groupOf s b) 1 (u.over w l)).bio = w from rfl, hcw]
    simp only [List.forall_mem_append, List.forall_mem_singleton, Bool.decide_and]
    rw [← Bool.and_assoc, ← hold]
    by_cases e : g = groupOf s b
    · have hbit : j ≠ bitOf s b ↔ ¬ (groupOf s b = g ∧ bitOf s b = j) := by
        constructor
        · intro hne e'
          exact hne e'.2.symm
        · intro hne e'
          exact hne ⟨e.symm, e'.symm⟩
      simp only [← hbit]
      rw [e, Function.update_self, bit_buffer_get _ hj', bit_clear_bit]
    · rw [Function.update_of_ne fun e' => e (hm.apart g _ hg' hg e')]
      simp [Ne.symm e]
  · intro n hn
    show contents w n = _
    rw [hcw, Function.update_of_ne (hn _ hg), ← hcu]
    exact h.other n hn
  · intro g
    rw [countIn_append]
    by_cases e : groupOf s b = g
    · subst e
      have hput := put_le16 u.gds (groupOf s b) (bg_free_blocks_count u.gds (groupOf s b) + 1)
      rw [if_pos rfl]
      refine Eq.trans hput ?_
      rw [h.free]
      omega
    · rw [if_neg e, Nat.add_zero, ← h.free g]
      exact add_gds .block _ 1 _ (g * 32 + 12) 2 (by simp only [if_true]; omega)
  · have hput := put_le32 u.sb (s_free_blocks_count u.sb + 1)
    refine Eq.trans hput ?_
    rw [h.total, List.length_append, List.length_singleton]
    omega
  · intro x hx
    refine Eq.trans (Mem.put_out _ _ _ _ ?_) (h.gds x hx)
    rw [length_ofNum]
    omega
  · intro x hx
    refine Eq.trans (Mem.put_out _ _ _ _ ?_) (h.sb x hx)
    rw [length_ofNum]
    omega
  · conv_lhs => rw [h.rest]
    rfl

end

/-! ## a block and the blocks under it -/

/-- an index block in reach that is not a bitmap block -/
def Readable (s : State) (b : Int) : Prop :=
  InReach 1024 b ∧ ∀ g, s.Group .block g → uns 32 b ≠ bg_block_bitmap s.gds g

/-- an index block is read as it was at the start -/
theorem Freeing.read {s u : State} (hm : Maps s) {D : List Int} (h : Freeing D s u) {b : Int}
    (h1 : 1 ≤ uns 32 b) (hr : Readable s b) :
    ∃ t, bread b u = some (buffer (contents s.bio (uns 32 b)), t) ∧ Freeing D s t := by
  obtain ⟨a, ha⟩ := h.held
  obtain ⟨⟨n, rfl, hreach⟩, hmap⟩ := hr
  have hbs : u.bio.bio_blocksize = 1024 := h.bio_blocksize.trans hm.bio_blocksize
  have hn : uns 32 (n : Int) = n := uns32_natCast (by omega)
  rw [hn] at h1 hmap ⊢
  obtain ⟨v, hv, hvheld, hvbs⟩ := bread_run (s := u) ha h1 (by rwa [hbs])
  have hcu := contents_eq ha
  have hcv : contents v = contents u.bio := (contents_eq hvheld).trans hcu.symm
  refine ⟨u.over v (n :: u.asked), ?_, ⟨a, hvheld⟩, hvbs.trans h.bio_blocksize, ?_, ?_, h.free, h.total,
    h.gds, h.sb, ?_⟩
  · rw [hv, ← hcu, h.other n hmap]
  · intro g j hg hj
    refine Eq.trans ?_ (h.bit g j hg hj)
    show Bitmap.bit (buffer (contents v _)) j = _
    rw [hcv]
    rfl
  · intro m hm'
    show contents v m = _
    rw [hcv]
    exact h.other m hm'
  · conv_lhs => rw [h.rest]
    rfl

/-- the function that frees a block of a level -/
def freeLevel : Nat → Int → Prog State Unit
  | 0 => ext2_bfree
  | l + 1 => ext2_free_indirect l

theorem freeLevel_zero : freeLevel 0 = ext2_bfree := rfl

theorem freeLevel_indirect (l : Nat) : freeLevel (l + 1) = ext2_free_indirect l := rfl

theorem freeLevel_succ (l : Nat) (b : Int) :
    freeLevel (l + 1) b = (do
      let indirect_block ← bread b
      let s ← get
      (List.range s.ptrs_per_blk.toNat).forM fun (k : Nat) =>
        Prog.when (blkptr indirect_block k ≠ 0) (freeLevel l (blkptr indirect_block k))
      ext2_bfree b) := by
  cases l <;> rfl

theorem Frees.forM {s : State} {f : Nat → Prog State Unit} {T : Nat → List Int} (l : List Nat)
    (h : ∀ k ∈ l, Frees s (f k) (T k)) : Frees s (l.forM f) (l.flatMap T) :=
  Prog.forM_spec (I := fun D u => Freeing D s u) l h

/-- a block and all blocks under it are freed -/
theorem frees_level {s : State} (hm : Maps s) (l : Nat) :
    ∀ b, (∀ x ∈ tree (contents s.bio) s.ptrs_per_blk.toNat l b, Freeable s x) →
      (∀ x ∈ indices (contents s.bio) s.ptrs_per_blk.toNat l b, Readable s x) →
      Frees s (freeLevel l b) (tree (contents s.bio) s.ptrs_per_blk.toNat l b) := by
  induction l with
  | zero =>
    intro b hf hr
    exact frees_bfree hm (hf b (List.mem_singleton_self b))
  | succ l ih =>
    intro b hf hr D u h
    have hb : Freeable s b := hf b (List.mem_append_right _ (List.mem_singleton_self b))
    obtain ⟨t, ht, h'⟩ := h.read hm hb.1.1 (hr b List.mem_cons_self)
    rw [freeLevel_succ, Prog.bind_run ht, Prog.bind_run (Prog.get_run t), h'.ptrs_per_blk]
    refine Frees.bind (Frees.forM _ fun k hk => Frees.when fun hp => ?_) (frees_bfree hm hb) D t h'
    -- the pointer is not 0, and what is under it is part of the tree
    have hsub : ∀ {T : Int → List Int} {x}, x ∈ T (blkptr (buffer (contents s.bio (uns 32 b))) k) →
        x ∈ (List.range s.ptrs_per_blk.toNat).flatMap fun (k : Nat) =>
          under T (blkptr (buffer (contents s.bio (uns 32 b))) k) := by
      intro T x hx
      refine List.mem_flatMap.mpr ⟨k, hk, ?_⟩
      unfold under
      rwa [if_pos hp]
    exact ih _ (fun x hx => hf x (List.mem_append_left _ (hsub hx)))
      fun x hx => hr x (List.mem_cons_of_mem _ (hsub hx))

/-! ## the entries of `i_block` -/

/-- what the freeing was is the same when the inodes are other ones -/
theorem Freeing.table {B : List Int} {s t : State} (h : Freeing B s t) (f : Slot → Entry) :
    Freeing B { s with inode_table := f } { t with inode_table := f } := by
  refine ⟨h.held, h.bio_blocksize, h.bit, h.other, h.free, h.total, h.gds, h.sb, ?_⟩
  conv_lhs => rw [h.rest]

theorem Freeing.setBlock {B : List Int} {s t : State} (h : Freeing B s t) (i : Slot) (k b : Int) :
    Freeing B (setBlock i k b s) (setBlock i k b t) := by
  unfold E2.setBlock setInode State.inode
  rw [h.inode_table]
  exact h.table _

theorem Maps.table {s : State} (hm : Maps s) (f : Slot → Entry) :
    Maps { s with inode_table := f } :=
  ⟨hm.bio_blocksize, hm.ptrs_per_blk, hm.fits, hm.first, hm.apart⟩

theorem Freeable.table {s : State} {b : Int} (h : Freeable s b) (f : Slot → Entry) :
    Freeable { s with inode_table := f } b := h

theorem Readable.table {s : State} {b : Int} (h : Readable s b) (f : Slot → Entry) :
    Readable { s with inode_table := f } b := h

section
variable {s : State} (i : Slot) (k b : Int)

theorem setBlock_over : (setBlock i k b s).bio = s.bio ∧ (setBlock i k b s).ptrs_per_blk = s.ptrs_per_blk :=
  ⟨rfl, rfl⟩

theorem Maps.setBlock (hm : Maps s) : Maps (setBlock i k b s) := hm.table _

theorem Freeable.setBlock {x : Int} (h : Freeable s x) : Freeable (setBlock i k b s) x := h.table _

theorem Readable.setBlock {x : Int} (h : Readable s x) : Readable (setBlock i k b s) x := h.table _

end

theorem truncateBlock_spec {s u : State} {D : List Int} (h : Freeing D s u) (i : Slot) (k : Nat)
    {f : Int → Prog State Unit} {T : Int → List Int}
    (hf : i_block (s.inode i) k ≠ 0 → Frees s (f (i_block (s.inode i) k)) (T (i_block (s.inode i) k))) :
    ∃ t, truncateBlock i f k u = some ((), t) ∧
      Freeing (D ++ under T (i_block (s.inode i) k)) (setBlock i k 0 s) t := by
  have hin : u.inode i = s.inode i := by
    unfold State.inode
    rw [h.inode_table]
  unfold truncateBlock
  rw [Prog.bind_run (Prog.get_run u), hin]
  unfold Prog.when under
  by_cases hp : i_block (s.inode i) k ≠ 0
  · obtain ⟨t, ht, h'⟩ := hf hp D u h
    rw [if_pos hp, if_pos hp, Prog.bind_run ht]
    exact ⟨_, rfl, h'.setBlock i k 0⟩
  · rw [if_neg hp, if_neg hp, List.append_nil, setBlock_zero (not_not.mp hp)]
    exact ⟨u, rfl, h⟩

/-- the pointers `l` of an inode are cleared -/
def clearBlocks (i : Slot) (l : List Nat) (s : State) : State :=
  l.foldl (fun s (k : Nat) => setBlock i k 0 s) s

theorem clearBlocks_cons (i : Slot) (k : Nat) (l : List Nat) (s : State) :
    clearBlocks i (k :: l) s = clearBlocks i l (setBlock i k 0 s) := by
  unfold clearBlocks
  rw [List.foldl_cons]

/-- what an entry of `i_block` points to, where `s` has the inode -/
def entryBlocks (s : State) (i : Slot) (k : Nat) : List Int :=
  under (tree (contents s.bio) s.ptrs_per_blk.toNat (levelOf k)) (i_block (s.inode i) k)

theorem truncateBlocks_spec (i : Slot) (l : List Nat) :
    ∀ s u D, l.Nodup → Maps s → Freeing D s u →
      (∀ k ∈ l, ∀ x ∈ entryBlocks s i k, Freeable s x) →
      (∀ k ∈ l, ∀ x ∈ under (indices (contents s.bio) s.ptrs_per_blk.toNat (levelOf k))
        (i_block (s.inode i) k), Readable s x) →
      ∃ t, l.forM (fun k : Nat => truncateBlock i (freeLevel (levelOf k)) k) u = some ((), t) ∧
        Freeing (D ++ l.flatMap (entryBlocks s i)) (clearBlocks i l s) t := by
  induction l with
  | nil =>
    intro s u D _ _ h _ _
    refine ⟨u, rfl, ?_⟩
    rwa [List.flatMap_nil, List.append_nil]
  | cons k l ih =>
    intro s u D hnd hm h hf hr
    obtain ⟨hk, hnd⟩ := List.nodup_cons.mp hnd
    obtain ⟨t, ht, h'⟩ := truncateBlock_spec h i k (f := freeLevel (levelOf k))
      (T := tree (contents s.bio) s.ptrs_per_blk.toNat (levelOf k)) fun hp => by
        have hf := hf k List.mem_cons_self
        have hr := hr k List.mem_cons_self
        unfold entryBlocks under at hf
        unfold under at hr
        rw [if_pos hp] at hf hr
        exact frees_level hm (levelOf k) _ hf hr
    -- the other pointers are as they were
    have hsame : ∀ j ∈ l, i_block ((setBlock i k 0 s).inode i) j = i_block (s.inode i) j := by
      intro j hj
      rw [setBlock_block, if_neg]
      rintro rfl
      exact hk hj
    have hentry : ∀ j ∈ l, entryBlocks (setBlock i k 0 s) i j = entryBlocks s i j := by
      intro j hj
      unfold entryBlocks
      rw [hsame j hj, (setBlock_over i k 0).1, (setBlock_over i k 0).2]
    obtain ⟨v, hv, h''⟩ := ih (setBlock i k 0 s) t _ hnd (hm.setBlock i k 0) h'
      (fun j hj x hx => by
        rw [hentry j hj] at hx
        exact (hf j (List.mem_cons_of_mem k hj) x hx).setBlock i k 0)
      (fun j hj x hx => by
        rw [hsame j hj, (setBlock_over i k 0).1, (setBlock_over i k 0).2] at hx
        exact (hr j (List.mem_cons_of_mem k hj) x hx).setBlock i k 0)
    refine ⟨v, ?_, ?_⟩
    · rw [Prog.forM_cons_run (f := fun k : Nat => truncateBlock i (freeLevel (levelOf k)) k) ht]
      exact hv
    · rw [List.flatMap_cons, ← List.append_assoc, clearBlocks_cons]
      rwa [List.flatMap_congr hentry] at h''

/-- the source's four loops as one -/
theorem ext2_truncate_eq (i : Slot) :
    ext2_truncate i = (do
      (List.range 15).forM fun k : Nat => truncateBlock i (freeLevel (levelOf k)) k
      modify (setSize i 0)) := by
  have h15 : List.range 15 = List.range 12 ++ [12, 13, 14] := rfl
  have h12 : EXT2_NDIR_BLOCKS.toNat = 12 := rfl
  have hdirect : ((List.range 12).forM fun k : Nat => truncateBlock i (freeLevel (levelOf k)) k)
      = (List.range 12).forM fun k : Nat => truncateBlock i ext2_bfree k := by
    apply Prog.forM_congr
    intro k hk
    have hlevel : levelOf k = 0 := by
      have := List.mem_range.mp hk
      unfold levelOf
      omega
    rw [hlevel, freeLevel_zero]
  have hlast : ([12, 13, 14].forM fun k : Nat => truncateBlock i (freeLevel (levelOf k)) k) = (do
      truncateBlock i (ext2_free_indirect 0) EXT2_IND_BLOCK
      truncateBlock i (ext2_free_indirect 1) EXT2_DIND_BLOCK
      truncateBlock i (ext2_free_indirect 2) EXT2_TIND_BLOCK) := by
    have h12 : levelOf 12 = 1 := rfl
    have h13 : levelOf 13 = 2 := rfl
    have h14 : levelOf 14 = 3 := rfl
    rw [Prog.forM_cons, Prog.forM_cons, Prog.forM_singleton, h12, h13, h14, freeLevel_indirect,
      freeLevel_indirect, freeLevel_indirect]
    rfl
  unfold ext2_truncate
  rw [h15, h12]
  simp only [List.forM_eq_forM, List.forM_append] at hdirect hlast ⊢
  rw [hlast, hdirect]
  simp only [bind_assoc]

/-! ## the whole file -/

/-- the inode `i` with other bytes, and everything else of the inode table as it was -/
def SameTable (i : Slot) (s t : State) : Prop :=
  t.inode_table = Function.update s.inode_table i { s.inode_table i with inode := t.inode i }

theorem SameTable.setInode (i : Slot) (ip : Mem) (s : State) : SameTable i s (setInode i ip s) := by
  unfold SameTable
  rw [setInode_inode]
  rfl

theorem SameTable.trans {i : Slot} {s t u : State} (h : SameTable i s t) (h' : SameTable i t u) :
    SameTable i s u := by
  unfold SameTable at *
  rw [h', h, Function.update_idem, Function.update_self]

/-- the pointers in the inode after they were cleared -/
theorem clearBlocks_spec (i : Slot) (l : List Nat) :
    ∀ s, SameTable i s (clearBlocks i l s) ∧
      clearBlocks i l s = { s with inode_table := (clearBlocks i l s).inode_table } ∧
      ∀ x, (clearBlocks i l s).inode i x
        = if ∃ k ∈ l, 40 + 4 * k ≤ x ∧ x < 44 + 4 * k then 0 else s.inode i x := by
  induction l with
  | nil =>
    intro s
    refine ⟨?_, rfl, fun x => ?_⟩
    · unfold SameTable clearBlocks State.inode
      simp
    · simp [clearBlocks]
  | cons k l ih =>
    intro s
    obtain ⟨h1, h2, h3⟩ := ih (setBlock i k 0 s)
    rw [clearBlocks_cons]
    refine ⟨SameTable.trans (SameTable.setInode i _ s) h1, ?_, fun x => ?_⟩
    · conv_lhs => rw [h2]
      rfl
    · have hput : ((40 : Int) + 4 * k).toNat = 40 + 4 * k := by omega
      rw [h3, setBlock, setInode_inode, hput, put_zeros]
      simp only [List.exists_mem_cons_iff]
      by_cases hl : ∃ j ∈ l, 40 + 4 * j ≤ x ∧ x < 44 + 4 * j
      · rw [if_pos hl, if_pos (Or.inr hl)]
      · rw [if_neg hl]
        apply if_congr _ rfl rfl
        simp only [hl, or_false]
        omega

/-- the file `i` was truncated, whose blocks are `B` -/
structure Truncated (i : Slot) (B : List Int) (s t : State) : Prop where
  cleared : ∀ b ∈ B, s.bit .block (groupOf s b) (bitOf s b) = true ∧
    t.bit .block (groupOf s b) (bitOf s b) = false
  kept : ∀ g j, s.Group .block g → j < 8192 → (∀ b ∈ B, ¬ (groupOf s b = g ∧ bitOf s b = j)) →
    t.bit .block g j = s.bit .block g j
  free : ∀ g, bg_free_blocks_count t.gds g
    = bg_free_blocks_count s.gds g + (B.toFinset.filter fun b => groupOf s b = g).card
  total : s_free_blocks_count t.sb = s_free_blocks_count s.sb + B.toFinset.card
  inode : ∀ x, t.inode i x
    = if (4 ≤ x ∧ x < 8) ∨ (40 ≤ x ∧ x < 100) then 0 else s.inode i x
  table : SameTable i s t
  other : ∀ n, (∀ g, s.Group .block g → n ≠ bg_block_bitmap s.gds g) →
    contents t.bio n = contents s.bio n
  gds : ∀ x, x % 32 < 12 ∨ 14 ≤ x % 32 → t.gds x = s.gds x
  sb : ∀ x, x < 12 ∨ 16 ≤ x → t.sb x = s.sb x
  rest : t = { s with
    sb := t.sb, gds := t.gds, inode_table := t.inode_table, bio := t.bio, asked := t.asked }

/-- the bitmaps and the index blocks that a truncation goes through are below 2 GB, and the free
counts have room for its blocks -/
structure TruncateFits (i : Slot) (s : State) : Prop where
  bitmaps : ∀ b ∈ fileBlocks s i, BitmapInReach s.gds (groupOf s b)
  indices : ∀ b ∈ fileIndices s i, InReach 1024 b
  free : ∀ g, bg_free_blocks_count s.gds g
    + ((fileBlocks s i).toFinset.filter fun b => groupOf s b = g).card < 65536
  total : s_free_blocks_count s.sb + (fileBlocks s i).toFinset.card < 4294967296

theorem countIn_eq_card {s : State} {B : List Int} (h : B.Nodup) (g : Nat) :
    countIn s g B = (B.toFinset.filter fun b => groupOf s b = g).card := by
  have hfilter : (B.toFinset.filter fun b => groupOf s b = g)
      = (B.filter fun b => groupOf s b = g).toFinset := by
    ext b
    simp
  rw [hfilter, List.toFinset_card_of_nodup (h.filter _), countIn, List.countP_eq_length_filter]

theorem fileIndices_subset {s : State} {i : Slot} : ∀ b ∈ fileIndices s i, b ∈ fileBlocks s i := by
  intro b hb
  obtain ⟨k, hk, hb⟩ := List.mem_flatMap.mp hb
  refine List.mem_flatMap.mpr ⟨k, hk, ?_⟩
  unfold under at hb ⊢
  split at hb
  · rw [if_pos ‹_›]
    exact indices_subset _ _ _ _ b hb
  · cases hb

section
variable {s : State} {i : Slot} (hm : Maps s) (hnodup : (fileBlocks s i).Nodup)
  (halloc : ∀ b ∈ fileBlocks s i, s.Number .block (uns 32 b) ∧ s.used .block (uns 32 b) = true)
  (hfits : TruncateFits i s)
include hm hnodup halloc hfits

/-- the blocks of the file were freed, and the inode `i` has its pointers and its size cleared -/
theorem truncated_of {v : State} (h : Freeing (fileBlocks s i) s v) {f : Slot → Entry}
    (hf : f = Function.update s.inode_table i { s.inode_table i with inode := (f i).inode })
    (hx : ∀ x, (f i).inode x = if (4 ≤ x ∧ x < 8) ∨ (40 ≤ x ∧ x < 100) then 0 else s.inode i x) :
    Truncated i (fileBlocks s i) s { v with inode_table := f } := by
  have hcount := fun g => countIn_eq_card (s := s) hnodup g
  refine ⟨?_, fun g j hg hj hne => ?_, fun g => ?_, ?_, hx, hf, h.other, h.gds, h.sb, ?_⟩
  · intro b hb
    obtain ⟨hg, hj⟩ := Freeable.group hm ⟨(halloc b hb).1, hfits.bitmaps b hb⟩
    refine ⟨(halloc b hb).2, (h.bit _ _ hg hj).trans ?_⟩
    rw [decide_eq_false, Bool.and_false]
    exact fun hne => hne b hb ⟨rfl, rfl⟩
  · refine (h.bit g j hg hj).trans ?_
    rw [decide_eq_true hne, Bool.and_true]
  · have hroom := hfits.free g
    rw [← hcount] at hroom ⊢
    exact (h.free g).trans (Nat.mod_eq_of_lt hroom)
  · have hroom := hfits.total
    rw [List.toFinset_card_of_nodup hnodup] at hroom ⊢
    exact h.total.trans (Nat.mod_eq_of_lt hroom)
  · conv_lhs => rw [h.rest]

end

theorem setSize_table (i : Slot) (b : Int) (s : State) :
    setSize i b s = { s with inode_table := (setSize i b s).inode_table } := rfl

/-- **Truncation frees each block once.** -/
theorem truncate_frees (s : State) (i : Slot) (hm : Maps s) (ha : ∃ a, Bio.Held s.bio a)
    (hnodup : (fileBlocks s i).Nodup)
    (halloc : ∀ b ∈ fileBlocks s i, s.Number .block (uns 32 b) ∧ s.used .block (uns 32 b) = true)
    (hmap : ∀ b ∈ fileBlocks s i, ∀ g, s.Group .block g → uns 32 b ≠ bg_block_bitmap s.gds g)
    (hfits : TruncateFits i s) :
    ∃ t, ext2_truncate i s = some ((), t) ∧ Truncated i (fileBlocks s i) s t := by
  have hfree : ∀ b ∈ fileBlocks s i, Freeable s b := fun b hb => ⟨(halloc b hb).1, hfits.bitmaps b hb⟩
  have hread : ∀ b ∈ fileIndices s i, Readable s b := fun b hb =>
    ⟨hfits.indices b hb, hmap b (fileIndices_subset b hb)⟩
  obtain ⟨u, hu, h⟩ := truncateBlocks_spec i (List.range 15) s s [] List.nodup_range hm (Freeing.refl ha)
    (fun k hk b hb => hfree b (List.mem_flatMap.mpr ⟨k, hk, hb⟩))
    (fun k hk b hb => hread b (List.mem_flatMap.mpr ⟨k, hk, hb⟩))
  rw [List.nil_append, show (List.range 15).flatMap (entryBlocks s i) = fileBlocks s i from rfl] at h
  obtain ⟨htable, hbase, hinode⟩ := clearBlocks_spec i (List.range 15) s
  generalize clearBlocks i (List.range 15) s = c at h htable hbase hinode
  -- `c` differs from `s` in the inode only, so that the same blocks were freed from `s`
  have hv : Freeing (fileBlocks s i) s { u with inode_table := s.inode_table } := by
    have hv := h.table s.inode_table
    rw [hbase] at hv
    exact hv
  have hu_table : SameTable i s u := by
    unfold SameTable State.inode
    rw [h.inode_table]
    exact htable
  have hu_inode : ∀ x, u.inode i x = if 40 ≤ x ∧ x < 100 then 0 else s.inode i x := by
    intro x
    unfold State.inode
    rw [h.inode_table]
    refine (hinode x).trans (if_congr ?_ rfl rfl)
    simp only [List.mem_range]
    constructor
    · rintro ⟨k, h1, h2, h3⟩
      omega
    · intro hx
      exact ⟨(x - 40) / 4, by omega, by omega, by omega⟩
  refine ⟨setSize i 0 u, ?_, ?_⟩
  · rw [ext2_truncate_eq, Prog.bind_run hu]
    rfl
  · rw [setSize_table]
    refine truncated_of hm hnodup halloc hfits hv (hu_table.trans (SameTable.setInode i _ u)) fun x => ?_
    show (setSize i 0 u).inode i x = _
    rw [setSize, setInode_inode, put_zeros, hu_inode]
    by_cases h4 : 4 ≤ x ∧ x < 8
    · rw [if_pos (by omega), if_pos (Or.inl h4)]
    · rw [if_neg (by omega)]
      apply if_congr _ rfl rfl
      simp only [h4, false_or]

/-! ## true counts have room -/

theorem tree_int (a : Nat → List UInt8) (n l : Nat) :
    ∀ b, sgn 32 b = b → ∀ x ∈ tree a n l b, sgn 32 x = x := by
  induction l with
  | zero =>
    intro b hb x hx
    rwa [List.mem_singleton.mp hx]
  | succ l ih =>
    intro b hb x hx
    rcases List.mem_append.mp hx with hx | hx
    · obtain ⟨k, -, hx⟩ := List.mem_flatMap.mp hx
      unfold under at hx
      split at hx
      · exact ih _ (sgn32_sgn32 _) x hx
      · cases hx
    · rwa [List.mem_singleton.mp hx]

theorem fileBlocks_int {s : State} {i : Slot} : ∀ b ∈ fileBlocks s i, sgn 32 b = b := by
  intro b hb
  obtain ⟨k, -, hb⟩ := List.mem_flatMap.mp hb
  unfold under at hb
  split at hb
  · exact tree_int _ _ _ _ (sgn32_sgn32 _) b hb
  · cases hb

section
variable {s : State} {B : List Int} (hint : ∀ b ∈ B, sgn 32 b = b)
  (halloc : ∀ b ∈ B, s.Number .block (uns 32 b) ∧ s.used .block (uns 32 b) = true)
include hint halloc

/-- two blocks with one bit are one block -/
theorem bitOf_inj {b b' : Int} (hb : b ∈ B) (hb' : b' ∈ B) (hg : groupOf s b = groupOf s b')
    (hj : bitOf s b = bitOf s b') : b = b' := by
  have h1 := (halloc b hb).1.1
  have h1' := (halloc b' hb').1.1
  have hsplit := Nat.div_add_mod (uns 32 b - 1) (s_blocks_per_group s.sb)
  have hsplit' := Nat.div_add_mod (uns 32 b' - 1) (s_blocks_per_group s.sb)
  have huns : uns 32 b = uns 32 b' := by
    unfold groupOf at hg
    unfold bitOf at hj
    rw [hg, hj] at hsplit
    omega
  rw [← hint b hb, ← hint b' hb', ← sgn32_uns32 b, ← sgn32_uns32 b', huns]

/-- the blocks in a group are among its set bits -/
theorem free_add_card (hc : Counted s) {g : Nat} (hg : g < s.groups) :
    bg_free_blocks_count s.gds g + (B.toFinset.filter fun b => groupOf s b = g).card
      ≤ Kind.size s.sb g .block := by
  have hset : (B.toFinset.filter fun b => groupOf s b = g).card
      ≤ ((Finset.range (Kind.size s.sb g .block)).filter fun j => ¬ s.bit .block g j = false).card := by
    apply Finset.card_le_card_of_injOn (bitOf s)
    · intro b hb
      obtain ⟨hmem, rfl⟩ := Finset.mem_filter.mp (Finset.mem_coe.mp hb)
      obtain ⟨hnum, hused⟩ := halloc b (List.mem_toFinset.mp hmem)
      have hused : s.bit .block (groupOf s b) (bitOf s b) = true := hused
      refine Finset.mem_coe.mpr (Finset.mem_filter.mpr ⟨Finset.mem_range.mpr hnum.2.2, ?_⟩)
      rw [hused]
      exact Bool.true_eq_false.mp
    · intro b hb b' hb' e
      obtain ⟨hb, hg⟩ := Finset.mem_filter.mp (Finset.mem_coe.mp hb)
      obtain ⟨hb', hg'⟩ := Finset.mem_filter.mp (Finset.mem_coe.mp hb')
      exact bitOf_inj hint halloc (List.mem_toFinset.mp hb) (List.mem_toFinset.mp hb') (hg.trans hg'.symm) e
  have hzeros : bg_free_blocks_count s.gds g
      = ((Finset.range (Kind.size s.sb g .block)).filter fun j => s.bit .block g j = false).card :=
    hc.free .block g hg
  have hall := Finset.card_filter_add_card_filter_not (s := Finset.range (Kind.size s.sb g .block))
    fun j => s.bit .block g j = false
  rw [Finset.card_range] at hall
  omega

/-- **Counts that agree with the bitmaps have room for the blocks of a file.** -/
theorem Counted.room (hm : Maps s) (hc : Counted s) :
    (∀ g, bg_free_blocks_count s.gds g + (B.toFinset.filter fun b => groupOf s b = g).card < 65536) ∧
      s_free_blocks_count s.sb + B.toFinset.card < 4294967296 := by
  have hgroup : ∀ b ∈ B.toFinset, groupOf s b ∈ Finset.range s.groups := fun b hb =>
    Finset.mem_range.mpr (halloc b (List.mem_toFinset.mp hb)).1.2.1
  constructor
  · intro g
    by_cases hg : g < s.groups
    · have h1 := free_add_card hint halloc hc hg
      have h2 : Kind.size s.sb g .block ≤ s_blocks_per_group s.sb := Nat.min_le_left _ _
      have h3 := hm.fits
      omega
    · have hnone : (B.toFinset.filter fun b => groupOf s b = g) = ∅ := by
        apply Finset.filter_false_of_mem
        rintro b hb rfl
        exact hg (Finset.mem_range.mp (hgroup b hb))
      rw [hnone]
      exact Mem.le16_lt _ _
  · have htotal : s_free_blocks_count s.sb = ∑ g ∈ Finset.range s.groups, bg_free_blocks_count s.gds g :=
      hc.total .block
    have hcard := Finset.card_eq_sum_card_fiberwise hgroup
    have hsum : ∑ g ∈ Finset.range s.groups, (bg_free_blocks_count s.gds g
        + (B.toFinset.filter fun b => groupOf s b = g).card)
        ≤ ∑ g ∈ Finset.range s.groups, Kind.size s.sb g .block :=
      Finset.sum_le_sum fun g hg => free_add_card hint halloc hc (Finset.mem_range.mp hg)
    have hsize : ∑ g ∈ Finset.range s.groups, Kind.size s.sb g .block ≤ Kind.units s.sb .block :=
      sum_size_le _ _ _
    have hunits := Kind.units_lt .block s.sb
    rw [Finset.sum_add_distrib] at hsum
    omega

end

/-- with true counts, a truncation needs its bitmaps and index blocks in reach only -/
theorem Counted.truncateFits {s : State} {i : Slot} (hm : Maps s) (hc : Counted s)
    (halloc : ∀ b ∈ fileBlocks s i, s.Number .block (uns 32 b) ∧ s.used .block (uns 32 b) = true)
    (hbitmaps : ∀ b ∈ fileBlocks s i, BitmapInReach s.gds (groupOf s b))
    (hindices : ∀ b ∈ fileIndices s i, InReach 1024 b) : TruncateFits i s := by
  obtain ⟨hfree, htotal⟩ := Counted.room fileBlocks_int halloc hm hc
  exact ⟨hbitmaps, hindices, hfree, htotal⟩

/-! ## a file of two blocks, and a file past 4 GB -/

/-- block 30 is an index block with one entry, block 40 -/
def treeDisk : Mem := fun x =>
  if 30720 ≤ x ∧ x < 31744 then (if x = 30720 then 40 else 0) else fullDisk x

def treeSystem : State :=
  { full 2 with bio := Bio.binit 1024 ⟨0, 0, fun _ => ⟨0, 0, false, none⟩, treeDisk, 0⟩ }

/-- a file with the blocks 105 and 40, the second one through the index block 30 -/
def treeFile (i : Slot) : State := setBlock i (12 : Nat) 30 (setBlock i (0 : Nat) 105 treeSystem)

theorem treeFile_block (i : Slot) (k : Nat) :
    i_block ((treeFile i).inode i) k = if k = 12 then 30 else if k = 0 then 105 else 0 := by
  have h12 := setBlock_block i 12 30 (setBlock i (0 : Nat) 105 treeSystem) k
  have h0 := setBlock_block i 0 105 treeSystem k
  rw [show i_block (treeSystem.inode i) k = 0 from no_block k] at h0
  rw [h0] at h12
  exact h12.trans (if_congr Iff.rfl (by decide) (if_congr Iff.rfl (by decide) rfl))

theorem treeFile_contents (i : Slot) (b : Nat) :
    contents (treeFile i).bio b = treeDisk.get (b * 1024) 1024 :=
  congrFun (contents_eq (Bio.binit_held _ 1024)) b

theorem treeFile_ptr (i : Slot) {k : Nat} (hk : k < 256) :
    blkptr (buffer (contents (treeFile i).bio (uns 32 30))) k = if k = 0 then 40 else 0 := by
  have hb : uns 32 30 = 30 := by decide
  rw [hb, treeFile_contents, Ext2.blkptr_natCast]
  have hle : Mem.le32 (buffer (treeDisk.get (30 * 1024) 1024)) (4 * k)
      = Mem.le32 (fun x => if x = 0 then 40 else 0) (4 * k) := by
    apply Mem.le_congr
    intro j hj
    rw [buffer_get_at _ (by omega), treeDisk, if_pos (by omega)]
    apply if_congr _ rfl rfl
    omega
  rw [hle]
  by_cases h : k = 0
  · rw [h]
    decide
  · rw [if_neg h]
    simp [Mem.le32, Mem.le, h]
    decide

theorem flatMap_first {f : Nat → List Int} {n : Nat} (h : ∀ k, k < n → f (k + 1) = []) :
    (List.range (n + 1)).flatMap f = f 0 := by
  rw [List.range_succ_eq_map, List.flatMap_cons, List.flatMap_map, List.flatMap_eq_nil_iff.mpr,
    List.append_nil]
  intro k hk
  exact h k (List.mem_range.mp hk)

theorem treeFile_blocks (i : Slot) :
    fileBlocks (treeFile i) i = [105, 40, 30] ∧ fileIndices (treeFile i) i = [30] := by
  have hrest : ∀ T : Int → List Int, ((List.range (treeFile i).ptrs_per_blk.toNat).flatMap fun (k : Nat) =>
      under T (blkptr (buffer (contents (treeFile i).bio (uns 32 30))) k)) = T 40 := by
    intro T
    refine (flatMap_first (n := 255) fun k hk => ?_).trans ?_
    · rw [treeFile_ptr i (by omega), if_neg (Nat.succ_ne_zero k)]
      rfl
    · rw [treeFile_ptr i (by decide), if_pos rfl]
      rfl
  have h12 : ∀ (T : Nat → Int → List Int), (List.range 15).flatMap (fun k =>
      under (T (levelOf k)) (i_block ((treeFile i).inode i) k)) = T 0 105 ++ T 1 30 := by
    intro T
    simp only [treeFile_block, show List.range 15 = [0, 1, 2, 3, 4, 5, 6, 7, 8, 9, 10, 11, 12, 13, 14] from rfl,
      List.flatMap_cons, List.flatMap_nil]
    simp [under, levelOf]
  constructor
  · refine (h12 _).trans ?_
    show [105] ++ ((List.range (treeFile i).ptrs_per_blk.toNat).flatMap (fun (k : Nat) =>
      under _ (blkptr (buffer (contents (treeFile i).bio (uns 32 30))) k)) ++ [30]) = _
    rw [hrest]
    rfl
  · refine (h12 _).trans ?_
    show [] ++ 30 :: ((List.range (treeFile i).ptrs_per_blk.toNat).flatMap (fun (k : Nat) =>
      under _ (blkptr (buffer (contents (treeFile i).bio (uns 32 30))) k))) = _
    rw [hrest]
    rfl

theorem treeFile_maps (i : Slot) : Maps (treeFile i) := by
  have h := full_layout 2 (by decide)
  refine ⟨rfl, rfl, h.fits .block, fun g hg => h.first .block g hg, fun g g' hg hg' e => ?_⟩
  exact (h.apart .block g .block g' hg hg' e).2

theorem treeFile_number (i : Slot) {b : Nat} (h1 : 1 ≤ b) (h2 : b ≤ 8192) :
    (treeFile i).Number .block b ∧ (b - 1) / s_blocks_per_group (treeFile i).sb = 0 := by
  have hper : s_blocks_per_group (treeFile i).sb = 8192 := full_per 2 .block
  have hgroup : (b - 1) / s_blocks_per_group (treeFile i).sb = 0 := by
    rw [hper]
    omega
  refine ⟨⟨h1, ?_, ?_⟩, hgroup⟩
  · show (b - 1) / s_blocks_per_group (treeFile i).sb < 2
    omega
  · have hsize : Kind.size (treeFile i).sb 0 .block = 8192 := full_size 2 (by decide) .block 0 (by decide)
    show (b - 1) % s_blocks_per_group (treeFile i).sb
      < Kind.size (treeFile i).sb ((b - 1) / s_blocks_per_group (treeFile i).sb) .block
    rw [hgroup, hsize, hper]
    omega

/-- the bitmap of the first group has one clear bit -/
theorem treeFile_bit (i : Slot) {j : Nat} (hj : j < 8192) :
    (treeFile i).bit .block 0 j = !decide (j = 5) := by
  have hfull := full_bit 2 .block 0 j (by decide) hj
  have hmap : Kind.map (full 2).gds 0 .block = 20 := full_map 2 0 (by decide) .block
  have hmap' : Kind.map (treeFile i).gds 0 .block = 20 := hmap
  have hsame : treeDisk.get (20 * 1024) 1024 = fullDisk.get (20 * 1024) 1024 := by
    apply Mem.get_eq_of_forall
    intro k hk
    rw [treeDisk, if_neg (by omega)]
  rw [State.bit, hmap, full_contents] at hfull
  rw [State.bit, hmap', treeFile_contents, hsame, hfull]
  simp

theorem treeFile_alloc (i : Slot) {b : Nat} (h1 : 21 ≤ b) (h2 : b ≤ 8192) :
    (treeFile i).Number .block b ∧ (treeFile i).used .block b = true := by
  obtain ⟨hn, hg⟩ := treeFile_number i (show 1 ≤ b by omega) h2
  refine ⟨hn, ?_⟩
  have hper : s_blocks_per_group (treeFile i).sb = 8192 := full_per 2 .block
  show (treeFile i).bit .block ((b - 1) / s_blocks_per_group (treeFile i).sb)
    ((b - 1) % s_blocks_per_group (treeFile i).sb) = true
  rw [hg, hper, treeFile_bit i (by omega), decide_eq_false (by omega)]
  rfl

theorem treeFile_mem (i : Slot) :
    ∀ b ∈ fileBlocks (treeFile i) i, ∃ n : Nat, uns 32 b = n ∧ 21 ≤ n ∧ n ≤ 8192 := by
  intro b hb
  rw [(treeFile_blocks i).1] at hb
  simp only [List.mem_cons, List.not_mem_nil, or_false] at hb
  rcases hb with rfl | rfl | rfl
  · exact ⟨105, by decide⟩
  · exact ⟨40, by decide⟩
  · exact ⟨30, by decide⟩

theorem treeFile_fits (i : Slot) : TruncateFits i (treeFile i) := by
  obtain ⟨hb, hi⟩ := treeFile_blocks i
  have hcard : (fileBlocks (treeFile i) i).toFinset.card ≤ 3 := by
    rw [hb]
    decide
  refine ⟨fun b hb' => ?_, fun b hb' => ?_, fun g => ?_, ?_⟩
  · obtain ⟨n, hn, h1, h2⟩ := treeFile_mem i b hb'
    have hmap : bg_block_bitmap (treeFile i).gds 0 = 20 := full_map 2 0 (by decide) .block
    rw [groupOf, hn, (treeFile_number i (show 1 ≤ n by omega) h2).2, BitmapInReach, hmap]
    decide
  · rw [hi, List.mem_singleton] at hb'
    exact ⟨30, hb', by decide⟩
  · have hfree : bg_free_blocks_count (treeFile i).gds g ≤ 1 := by
      have := full_free 2 g .block
      show Kind.free (full 2).gds g .block ≤ 1
      rw [this]
      split <;> omega
    have := Finset.card_filter_le (fileBlocks (treeFile i) i).toFinset fun b => groupOf (treeFile i) b = g
    omega
  · have htotal : s_free_blocks_count (treeFile i).sb = 1 := full_total 2 .block
    omega

theorem truncate_frees_tree : ∃ t, ext2_truncate 0 (treeFile 0) = some ((), t) ∧
    Truncated 0 (fileBlocks (treeFile 0) 0) (treeFile 0) t := by
  refine truncate_frees (treeFile 0) 0 (treeFile_maps 0) ⟨_, Bio.binit_held _ 1024⟩ ?_ (fun b hb => ?_)
    (fun b hb g hg => ?_) (treeFile_fits 0)
  · rw [(treeFile_blocks 0).1]
    decide
  · obtain ⟨n, hn, h1, h2⟩ := treeFile_mem 0 b hb
    rw [hn]
    exact treeFile_alloc 0 h1 h2
  · obtain ⟨n, hn, h1, h2⟩ := treeFile_mem 0 b hb
    have hmap : bg_block_bitmap (treeFile 0).gds g = g * 8192 + 20 :=
      full_map 2 g (by have : g < 2 := hg.1; omega) .block
    rw [hn, hmap]
    omega

/-- past 4 GB: the file's only block is 4194405, block 101 of group 512 -/
def farFile (i : Slot) : State := setBlock i (0 : Nat) 4194405 (full 513)

theorem farFile_blocks (i : Slot) : fileBlocks (farFile i) i = [4194405] := by
  have hblock : ∀ k : Nat, i_block ((farFile i).inode i) k = if k = 0 then 4194405 else 0 := by
    intro k
    have h := setBlock_block i 0 4194405 (full 513) k
    rw [show i_block ((full 513).inode i) k = 0 from no_block k] at h
    exact h.trans (if_congr Iff.rfl (by decide) rfl)
  refine (flatMap_first (n := 14) fun k hk => ?_).trans ?_
  · rw [hblock, if_neg (Nat.succ_ne_zero k)]
    rfl
  · rw [hblock, if_pos rfl]
    rfl

theorem farFile_maps (i : Slot) : Maps (farFile i) := by
  have hmap : ∀ g, (farFile i).Group .block g → bg_block_bitmap (farFile i).gds g = g * 8192 + 20 :=
    fun g hg => full_map 513 g (by have : g < 513 := hg.1; omega) .block
  have hper : s_blocks_per_group (farFile i).sb = 8192 := full_per 513 .block
  refine ⟨rfl, rfl, by rw [hper], fun g hg => ?_, fun g g' hg hg' e => ?_⟩
  · rw [hmap g hg]
    omega
  · rw [hmap g hg, hmap g' hg'] at e
    omega

/-- past 4 GB: the bitmap of group 0 is taken for that of group 512, and bit 5 is cleared as well -/
theorem truncate_far :
    Maps (farFile 0) ∧ (∃ a, Bio.Held (farFile 0).bio a) ∧ (fileBlocks (farFile 0) 0).Nodup ∧
      (∀ b ∈ fileBlocks (farFile 0) 0,
        (farFile 0).Number .block (uns 32 b) ∧ (farFile 0).used .block (uns 32 b) = true) ∧
      (∀ b ∈ fileBlocks (farFile 0) 0, ∀ g, (farFile 0).Group .block g →
        uns 32 b ≠ bg_block_bitmap (farFile 0).gds g) ∧
      ¬ ∃ t, ext2_truncate 0 (farFile 0) = some ((), t) ∧
        Truncated 0 (fileBlocks (farFile 0) 0) (farFile 0) t := by
  have hb : uns 32 4194405 = 4194405 := by decide
  have hper : Kind.per (farFile 0).sb .block = 8192 := full_per 513 .block
  have hsize : ∀ g, g < 513 → Kind.size (farFile 0).sb g .block = 8192 := fun g hg =>
    full_size 513 (by decide) .block g hg
  have hbit : ∀ g j, g < 513 → j < 8192 → (farFile 0).bit .block g j = !decide (g = 0 ∧ j = 5) := by
    intro g j hg hj
    refine (full_bit 513 .block g j (by omega) hj).trans ?_
    simp
  have hd : (4194405 - 1) / Kind.per (farFile 0).sb .block = 512 := by rw [hper]
  have hm : (4194405 - 1) % Kind.per (farFile 0).sb .block = 100 := by rw [hper]
  refine ⟨farFile_maps 0, ⟨_, Bio.binit_held _ 1024⟩, ?_, ?_, ?_, ?_⟩
  · rw [farFile_blocks]
    decide
  · rw [farFile_blocks]
    intro b hb'
    obtain rfl := List.mem_singleton.mp hb'
    refine ⟨?_, ?_⟩
    · rw [hb, State.Number, hd, hm, hsize 512 (by decide)]
      decide
    · rw [hb, State.used, hd, hm, hbit 512 100 (by decide) (by decide)]
      decide
  · rw [farFile_blocks]
    intro b hb' g hg
    obtain rfl := List.mem_singleton.mp hb'
    have hmap : bg_block_bitmap (farFile 0).gds g = g * 8192 + 20 :=
      full_map 513 g (by have : g < 513 := hg.1; omega) .block
    rw [hb, hmap]
    omega
  · rintro ⟨t, ht, htr⟩
    have hrun : (ext2_truncate 0 (farFile 0)).map (fun r => r.2.bit .block 512 5) = some false := by
      decide +kernel
    rw [ht] at hrun
    have hg : (farFile 0).Group .block 512 := by
      refine ⟨by decide, ?_⟩
      rw [hsize 512 (by decide)]
      decide
    have hkept := htr.kept 512 5 hg (by decide) fun b hb' => by
      rw [farFile_blocks] at hb'
      obtain rfl := List.mem_singleton.mp hb'
      rintro ⟨-, h5⟩
      rw [bitOf, hb] at h5
      exact absurd (hm.symm.trans h5) (by decide)
    rw [Option.map_some, hkept, hbit 512 5 (by decide) (by decide)] at hrun
    exact absurd hrun (by decide)

end E2
