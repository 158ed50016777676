import Aboot.E2.Fill

/-!
# A boot file, and a boot file that does not fit

* `fill_start`     a call that finds a run goes on in `fillRest`;
* `fill_laid`      a file that was laid out is readable, contiguous and made of free blocks;
* `bfrees_count`   the free count of a group after the blocks of a failed call were freed;
* `fill_undone_iff`   when a call that fails leaves everything as it was.
-/

set_option linter.unusedVariables false

namespace E2
open Word Bytes Bitmap Runs
open Ext2 (s_blocks_per_group i_block i_blocks i_size blkptr EXT2_NDIR_BLOCKS EXT2_IND_BLOCK)

/-! ## the states of a call -/

/-- the blocks after the run was marked -/
def taken (s : State) (a : Nat → List UInt8) (n : Int) (i f : Nat) : Nat → List UInt8 :=
  Function.update a (bg_block_bitmap s.gds i)
    ((setBits (bitmapOf a s.gds i) (f * 32) n.toNat).get 0 1024)

/-- the bitmaps that a call reads for its allocations are in reach -/
def FillInReach (s : State) (a : Nat → List UInt8) (n : Int) : Prop :=
  SearchInReach s a n (words n) ∧ ∀ i f, FirstIn s a n (words n) i f → s.directlim < n →
    BallocInReach (addFreeBlocks i (-n) s) (taken s a n i f)

theorem UsableIn.congr {s t : State} (hg : t.gds = s.gds) (hs : t.sb = s.sb)
    (a : Nat → List UInt8) (i : Nat) : UsableIn t a i ↔ UsableIn s a i := by
  unfold UsableIn
  rw [hg, hs]

theorem BallocInReach.congr {s t : State} {a : Nat → List UInt8} (hg : t.gds = s.gds)
    (hs : t.sb = s.sb) (hn : t.groups = s.groups) (h : BallocInReach s a) : BallocInReach t a := by
  intro i hi hw hno
  rw [hg]
  rw [hn] at hi
  rw [hg] at hw
  exact h i hi hw fun j hj hu => hno j hj ((UsableIn.congr hg hs a j).mpr hu)

theorem Writable.congr {s t : State} (h : Writable s) (hr : t.readonly = s.readonly)
    (hb : t.bio.bio_blocksize = s.bio.bio_blocksize) (hn : t.groups = s.groups)
    (hs : s_blocks_per_group t.sb = s_blocks_per_group s.sb) : Writable t := by
  refine ⟨⟨hb.trans h.blocksize, ?_, ?_⟩, hr.trans h.readonly⟩
  · rw [hs]
    exact h.fits
  · rw [hs, hn]
    exact h.numbers

theorem addFreeBlocks_per (i : Nat) (n : Int) (s : State) :
    s_blocks_per_group (addFreeBlocks i n s).sb = s_blocks_per_group s.sb :=
  add_per .block i n s .block

theorem addFreeBlocks_bitmap (i : Nat) (n : Int) (s : State) (j : Nat) :
    bg_block_bitmap (addFreeBlocks i n s).gds j = bg_block_bitmap s.gds j :=
  add_map .block i n s .block j

/-- `ext2_fill_contiguous` after the data blocks were taken -/
def fillRest (i : Slot) (nblocks firstblock directlim : Int) : Prog State Int :=
  if directlim < nblocks then do
    let iblkno ← ext2_balloc
    if iblkno = 0 then
      (List.range nblocks.toNat).forM fun (k : Nat) => ext2_bfree k
      pure (-1)
    else
      modify fun s => setBlock i EXT2_IND_BLOCK iblkno (addBlock i s)
      fillInode i nblocks firstblock iblkno
  else fillInode i nblocks firstblock 0

theorem fill_large (i : Slot) {n : Int} {s : State} (h : s.ind1lim < n) :
    ext2_fill_contiguous i n s = some (-1, s) := by
  unfold ext2_fill_contiguous
  rw [Prog.bind_run (Prog.get_run s), if_pos h]
  rfl

section
variable {s : State} {a : Nat → List UInt8} (hw : Writable s) (ha : Bio.Held s.bio a) (slot : Slot)
  {n : Int} (hn : n ≤ s.ind1lim) (hr : FillInReach s a n)
include hw ha hn hr

theorem fill_no_run (hno : ∀ i, i < s.groups → ∀ f, ¬ RunIn s a n (words n) i f) :
    ∃ u, ext2_fill_contiguous slot n s = some (-1, u) ∧ ReadOnly s u a := by
  obtain ⟨u, hu, hru⟩ := contiguous_none hw ha hr.1 hno
  refine ⟨u, ?_, hru⟩
  unfold ext2_fill_contiguous
  rw [Prog.bind_run (Prog.get_run s), if_neg (by omega), Prog.bind_run hu]
  rfl

/-- the number of the first block -/
def firstblock (s : State) (i f : Nat) : Int :=
  sgn 32 (f * 32 + i * s_blocks_per_group s.sb + 1 : Nat)

omit ha hn hr in
theorem firstblock_ne {i f : Nat} (h : FirstIn s a n (words n) i f) :
    firstblock s i f ≠ 0 ∧ firstblock s i f ≠ -1 ∧
      uns 32 (firstblock s i f) = f * 32 + i * s_blocks_per_group s.sb + 1 := by
  have hpos := words_pos n
  have hnum := h.number hw hpos
  obtain ⟨h1, h2⟩ := sgn32_number (x := f * 32 + i * s_blocks_per_group s.sb + 1) (by omega) (by omega)
  obtain ⟨q, hq, -, -⟩ := sgn32_cases ((f * 32 + i * s_blocks_per_group s.sb + 1 : Nat) : Int)
  refine ⟨h1, ?_, h2⟩
  unfold firstblock
  omega

theorem fill_start {i f : Nat} (h : FirstIn s a n (words n) i f) :
    ∃ u, Changed s a i (setBits (bitmapOf a s.gds i) (f * 32) n.toNat) (-n) u ∧
      ext2_fill_contiguous slot n s = fillRest slot n (firstblock s i f) s.directlim
        (setBlocks slot (n * Int.tdiv s.blocksize 512) u) := by
  obtain ⟨u, hu, hc⟩ := contiguous_at hw ha hr.1 h
  have hu : ext2_contiguous_balloc n s = some (firstblock s i f, u) := hu
  refine ⟨u, hc, ?_⟩
  unfold ext2_fill_contiguous
  rw [Prog.bind_run (Prog.get_run s), if_neg (by omega), Prog.bind_run hu,
    if_neg (firstblock_ne hw h).1, Prog.bind_run (Prog.modify_run _ _)]
  rfl

end

/-- the state before the indirect block is allocated -/
theorem Changed.state {s u : State} {a : Nat → List UInt8} {i : Nat} {m : Mem} {n : Int}
    (hw : Writable s) (h : Changed s a i m n u) (slot : Slot) (b : Int) :
    Writable (setBlocks slot b u) ∧ (setBlocks slot b u).gds = (addFreeBlocks i n s).gds ∧
      (setBlocks slot b u).sb = (addFreeBlocks i n s).sb ∧
      Bio.Held (setBlocks slot b u).bio
        (Function.update a (bg_block_bitmap s.gds i) (m.get 0 1024)) := by
  obtain ⟨w, l, rfl, hheld, hbs⟩ := h
  refine ⟨?_, rfl, rfl, hheld⟩
  apply hw.congr (t := setBlocks slot b (addFreeBlocks i n (s.over w l))) rfl hbs rfl
  exact addFreeBlocks_per i n (s.over w l)

/-! ## the rest of a call -/

theorem fillInode_returns {s : State} {a : Nat → List UInt8} (h : Bio.Held s.bio a) (slot : Slot)
    (n first iblkno : Int) : ∃ u, fillInode slot n first iblkno s = some (first, u) := by
  unfold fillInode
  rw [Prog.bind_run (Prog.modify_run _ _), Prog.bind_run (Prog.modifyGet_run _ _)]
  have hst := (fillPtrs_stored slot first (clearBuf (setSize slot (n * s.blocksize) s))
    (setSize slot (n * s.blocksize) s) n.toNat).state
  generalize fillPtrs slot first n.toNat (clearBuf (setSize slot (n * s.blocksize) s))
    (setSize slot (n * s.blocksize) s) = r at hst ⊢
  by_cases h0 : iblkno = 0
  · refine ⟨r.2, ?_⟩
    rw [Prog.when, if_neg (by simpa using h0)]
    rfl
  · have hheld : Bio.Held r.2.bio a := by
      rw [hst]
      exact h
    obtain ⟨b, hb⟩ := Bio.bwrite_some hheld h0 (r.1.get 0 r.2.bio.bio_blocksize)
    have hrun : bwrite iblkno r.1 r.2 = some ((), r.2.over b (iblkno :: r.2.asked)) := by
      rw [bwrite, hb]
      rfl
    refine ⟨r.2.over b (iblkno :: r.2.asked), ?_⟩
    rw [Prog.when, if_pos h0, Prog.bind_run hrun]
    rfl

/-- `ext2_balloc` has no block to give: no group has one, or the number of the one that it takes is
2^32 -/
def NoBlock (s : State) (a : Nat → List UInt8) : Prop :=
  ∀ i, i < s.groups → UsableIn s a i → (∀ j, j < i → ¬ UsableIn s a j) →
    sgn 32 (find_first_zero_bit (bitmapOf a s.gds i) (s_blocks_per_group s.sb)
      + i * s_blocks_per_group s.sb + 1 : Nat) = 0

/-- how `ext2_balloc` can go -/
theorem balloc_cases {s : State} {a : Nat → List UInt8} (hw : Writable s) (ha : Bio.Held s.bio a)
    (hr : BallocInReach s a) :
    (∃ u, ext2_balloc s = some (0, u) ∧ NoBlock s a ∧ ReadOnly s u a) ∨
      ∃ i blk u, i < s.groups ∧ UsableIn s a i ∧ (∀ j, j < i → ¬ UsableIn s a j) ∧
        find_first_zero_bit (bitmapOf a s.gds i) (s_blocks_per_group s.sb) = blk ∧
        ext2_balloc s = some (sgn 32 (blk + i * s_blocks_per_group s.sb + 1 : Nat), u) ∧
        Changed s a i (set_bit (bitmapOf a s.gds i) blk) (-1) u := by
  by_cases hex : ∃ i, i < s.groups ∧ UsableIn s a i
  · classical
    right
    obtain ⟨hi, hu⟩ := Nat.find_spec hex
    have hbefore : ∀ j, j < Nat.find hex → ¬ UsableIn s a j :=
      fun j hj hj' => Nat.find_min hex hj ⟨by omega, hj'⟩
    obtain ⟨u, hrun, hc⟩ := balloc_at hw ha hr hi hu hbefore rfl
    exact ⟨Nat.find hex, _, u, hi, hu, hbefore, rfl, hrun, hc⟩
  · left
    have hno : ∀ i, i < s.groups → ¬ UsableIn s a i := fun i hi hu => hex ⟨i, hi, hu⟩
    obtain ⟨u, hu, hru⟩ := balloc_none hw ha hr hno
    exact ⟨u, hu, fun i hi hu' => absurd hu' (hno i hi), hru⟩

/-! ## a file that was laid out -/

/-- every bit past the end of a group with free blocks is set -/
def Tail (s : State) : Prop :=
  ∀ i j, i < s.groups → 0 < bg_free_blocks_count s.gds i → Kind.block.size s.sb i ≤ j → j < 8192 →
    s.bit .block i j = true

/-- a clear bit is a free block of the file system -/
theorem Tail.number {s : State} (h : Tail s) {i j : Nat} (hi : i < s.groups)
    (hf : 0 < bg_free_blocks_count s.gds i) (hj : j < 8192) (hb : s.bit .block i j = false) : j < s_blocks_per_group s.sb ∧
      s.Number .block (j + i * s_blocks_per_group s.sb + 1) ∧
      s.used .block (j + i * s_blocks_per_group s.sb + 1) = false := by
  have hsize : j < Kind.block.size s.sb i := by
    by_contra hn
    rw [h i j hi hf (by omega) hj] at hb
    cases hb
  have hper : j < s_blocks_per_group s.sb := Nat.lt_of_lt_of_le hsize (Kind.size_le .block s.sb i)
  obtain ⟨hd, hm⟩ := number_split (i := i) hper
  rw [Nat.add_comm (i * s_blocks_per_group s.sb) j] at hd hm
  refine ⟨hper, ⟨by omega, ?_, ?_⟩, ?_⟩
  · show (j + i * s_blocks_per_group s.sb + 1 - 1) / s_blocks_per_group s.sb < s.groups
    rwa [hd]
  · show (j + i * s_blocks_per_group s.sb + 1 - 1) % s_blocks_per_group s.sb
      < Kind.block.size s.sb ((j + i * s_blocks_per_group s.sb + 1 - 1) / s_blocks_per_group s.sb)
    rwa [hd, hm]
  · show s.bit .block ((j + i * s_blocks_per_group s.sb + 1 - 1) / s_blocks_per_group s.sb)
      ((j + i * s_blocks_per_group s.sb + 1 - 1) % s_blocks_per_group s.sb) = false
    rwa [hd, hm]

/-- the blocks of a file of `n` blocks from `f` on, the indirect block included -/
def allocated (t : State) (i : Slot) (n : Nat) (f : Int) : List Nat :=
  (List.range n).map (uns 32 f + ·)
    ++ if i_block (t.inode i) EXT2_IND_BLOCK = 0 then [] else
      [uns 32 (i_block (t.inode i) EXT2_IND_BLOCK)]

/-- the file of `n` blocks from `f` on, in the state `t` after the call -/
structure Laid (s t : State) (i : Slot) (n : Nat) (f : Int) : Prop where
  pointer : ∀ k : Nat, k < n → ∃ u, ext2_blkno i k false t = some (sgn 32 (f + k), u)
  hole : ∀ k : Nat, n ≤ k → (k : Int) ≤ s.ind1lim → ∃ u, ext2_blkno i k false t = some (0, u)
  size : (i_size (t.inode i) : Int) = n * s.blocksize
  blocks : (i_blocks (t.inode i) : Int) * 512 = (allocated t i n f).length * s.blocksize
  free : ∀ x ∈ allocated t i n f, s.Number .block x ∧ s.used .block x = false
  nodup : (allocated t i n f).Nodup

/-- the data blocks: `n` different free blocks -/
theorem data_free {s : State} (hw : Writable s) (ht : Tail s) {n : Nat} {i f : Nat} (h1 : 1 ≤ n)
    (hn : n < 2147483648) (h : FirstIn s (contents s.bio) n (words n) i f) :
    ∀ x ∈ (List.range n).map (uns 32 (firstblock s i f) + ·),
      s.Number .block x ∧ s.used .block x = false := by
  intro x hx
  obtain ⟨k, hk, rfl⟩ := List.mem_map.mp hx
  have hk := List.mem_range.mp hk
  have hfits := hw.fits
  have hend := h.run.2.1
  have hcount := h.run.1
  rw [words_natCast h1 hn] at h hend
  have hbit : s.bit .block i (f * 32 + k) = false :=
    bit_of_run h.run.2 (by omega) (by omega)
  rw [← words_natCast h1 hn] at h
  obtain ⟨-, hnum, hused⟩ := ht.number h.group (by omega) (by omega) hbit
  show s.Number .block (uns 32 (firstblock s i f) + k) ∧
    s.used .block (uns 32 (firstblock s i f) + k) = false
  have e : uns 32 (firstblock s i f) + k = f * 32 + k + i * s_blocks_per_group s.sb + 1 := by
    rw [(firstblock_ne hw h).2.2]
    omega
  rw [e]
  exact ⟨hnum, hused⟩

theorem data_nodup (n x : Nat) : ((List.range n).map (x + ·)).Nodup :=
  List.nodup_range.map fun a b h => by
    have : x + a = x + b := h
    omega

/-- from the state `v` before the size and the pointers are set to the state `t` after the call -/
theorem laid_of {s v t : State} {i : Slot} {n : Nat} {first iblkno : Int} (hs : Limits s) (hv : Limits v)
    (ht : Limits t) (hn : n ≤ 267) (hzero : ∀ k : Nat, k < 12 → i_block (v.inode i) k = 0)
    (hind : i_block (v.inode i) EXT2_IND_BLOCK = iblkno) (h12 : iblkno = 0 ↔ n ≤ 11)
    (hblocks : i_blocks (v.inode i) = 2 * (n + if iblkno = 0 then 0 else 1))
    (hin : t.inode i = (filled i n first v).2.inode i)
    (hread : iblkno ≠ 0 → ∃ u, bread iblkno t = some (buffer ((filled i n first v).1.get 0 1024), u))
    (hfree : ∀ x ∈ allocated t i n first, s.Number .block x ∧ s.used .block x = false)
    (hnodup : (allocated t i n first).Nodup) : Laid s t i n first := by
  have hf := filled_spec i n first v
  have hblock : ∀ k : Nat, i_block (t.inode i) k
      = if k < n ∧ k < 12 then sgn 32 (first + k) else i_block (v.inode i) k := by
    intro k
    rw [hin, hf.block k]
  have hind' : i_block (t.inode i) EXT2_IND_BLOCK = iblkno := by
    have h := hblock 12
    rw [if_neg (by omega)] at h
    exact h.trans hind
  -- the entry that `ext2_blkno` finds in the indirect block
  have hentry : iblkno ≠ 0 → ∀ k : Nat, 12 ≤ k → k ≤ 267 → ∃ u, ext2_blkno i k false t
      = some (if k < n then sgn 32 (first + k) else 0, u) := by
    intro h0 k hk hk'
    obtain ⟨u, hu⟩ := hread h0
    refine ⟨u, ?_⟩
    rw [blkno_indirect ht i hk hk' hind' h0 hu, buffer_ptr _ (by omega),
      hf.ptr hv.blocksize (k - 12) (by omega), show k - 12 + 12 = k by omega]
  refine ⟨fun k hk => ?_, fun k hk hk' => ?_, ?_, ?_, hfree, hnodup⟩
  · rcases Nat.lt_or_ge k 12 with h | h
    · refine ⟨t, ?_⟩
      rw [blkno_direct ht i h, hblock k, if_pos ⟨hk, h⟩]
    · obtain ⟨u, hu⟩ := hentry (fun h0 => by have := h12.mp h0; omega) k h (by omega)
      rw [if_pos hk] at hu
      exact ⟨u, hu⟩
  · rw [hs.ind1lim] at hk'
    rcases Nat.lt_or_ge k 12 with h | h
    · refine ⟨t, ?_⟩
      rw [blkno_direct ht i h, hblock k, if_neg (by omega), hzero k h]
    · by_cases h0 : iblkno = 0
      · exact ⟨t, blkno_hole ht i h (by omega) (hind'.trans h0)⟩
      · obtain ⟨u, hu⟩ := hentry h0 k h (by omega)
        rw [if_neg (by omega)] at hu
        exact ⟨u, hu⟩
  · rw [hin, hf.size, hv.blocksize, hs.blocksize]
    have h := uns32_natCast (n := n * 1024) (by omega)
    push_cast at h
    rw [h]
    push_cast
    rfl
  · have hlen : (allocated t i n first).length = n + if iblkno = 0 then 0 else 1 := by
      unfold allocated
      rw [hind', List.length_append, List.length_map, List.length_range]
      split <;> rfl
    rw [hlen, hin, hf.blocks, hblocks, hs.blocksize]
    push_cast
    ring

/-- a bit that is clear after the run was marked -/
theorem taken_bit {s : State} {a : Nat → List UInt8} {n : Int} {g w g' j : Nat} (hj : j < 8192)
    (h : Bitmap.bit (bitmapOf (taken s a n g w) s.gds g') j = false) :
    Bitmap.bit (bitmapOf a s.gds g') j = false ∧ (g' = g → ¬ (w * 32 ≤ j ∧ j < w * 32 + n.toNat)) := by
  unfold bitmapOf taken at h
  by_cases e : bg_block_bitmap s.gds g' = bg_block_bitmap s.gds g
  · rw [e, Function.update_self, bit_buffer_get _ hj, bit_setBits, Bool.or_eq_false_iff] at h
    unfold bitmapOf at h ⊢
    rw [e]
    exact ⟨h.1, fun _ => by simpa using h.2⟩
  · rw [Function.update_of_ne e] at h
    exact ⟨h, fun e' => absurd (by rw [e']) e⟩

/-- the state after the run was taken and the block count set -/
structure Begun (s v : State) (a : Nat → List UInt8) (i : Slot) (n g w : Nat) : Prop where
  writable : Writable v
  gds : v.gds = (addFreeBlocks g (-n) s).gds
  sb : v.sb = (addFreeBlocks g (-n) s).sb
  groups : v.groups = s.groups
  held : Bio.Held v.bio (taken s a n g w)
  limits : Limits v
  block : ∀ k : Nat, k ≤ 14 → i_block (v.inode i) k = 0
  blocks : i_blocks (v.inode i) = 2 * n

theorem begun {s : State} {a : Nat → List UInt8} (hw : Writable s) (hl : Limits s)
    (ha : Bio.Held s.bio a) {i : Slot} (hempty : ∀ k : Nat, k ≤ 14 → i_block (s.inode i) k = 0)
    {n : Nat} (hn : (n : Int) ≤ s.ind1lim) (hr : FillInReach s a n) {g w : Nat}
    (h : FirstIn s a n (words n) g w) :
    ∃ v, Begun s v a i n g w ∧
      ext2_fill_contiguous i n s = fillRest i n (firstblock s g w) s.directlim v := by
  obtain ⟨u, hchanged, hstart⟩ := fill_start hw ha i hn hr h
  obtain ⟨hwv, hgds, hsb, hheld⟩ := hchanged.state hw i (n * Int.tdiv s.blocksize 512)
  refine ⟨_, ⟨hwv, hgds, hsb, ?_, hheld, ?_, fun k hk => ?_, ?_⟩, hstart⟩
  · obtain ⟨b, l, rfl, -, -⟩ := hchanged
    rfl
  · obtain ⟨b, l, rfl, -, -⟩ := hchanged
    exact ⟨hl.blocksize, hl.directlim, hl.ind1lim⟩
  · obtain ⟨b, l, rfl, -, -⟩ := hchanged
    rw [setBlocks_block]
    exact hempty k hk
  · have hn' : n ≤ 267 := by
      rw [hl.ind1lim] at hn
      omega
    have h2 := uns32_natCast (n := n * 2) (by omega)
    push_cast at h2
    rw [setBlocks_blocks, hl.blocksize, show Int.tdiv 1024 512 = 2 by decide, h2]
    omega

/-- at most `directlim` blocks: the pointers are all in the inode -/
theorem laid_direct {s v t : State} {a : Nat → List UInt8} {i : Slot} {n g w : Nat} {first f : Int}
    (hb : Begun s v a i n g w) (hl : Limits s) (hn : n ≤ 11)
    (hrun : fillRest i n first s.directlim v = some (f, t))
    (hdata : ∀ x ∈ (List.range n).map (uns 32 first + ·), s.Number .block x ∧ s.used .block x = false) :
    Laid s t i n f := by
  unfold fillRest at hrun
  rw [if_neg (by rw [hl.directlim]; omega), fillInode_direct] at hrun
  obtain ⟨rfl, rfl⟩ := Prod.mk.inj (Option.some.inj hrun)
  have hf := filled_spec i n first v
  have hind : i_block ((filled i n first v).2.inode i) EXT2_IND_BLOCK = 0 := by
    have h := hf.block 12
    rw [if_neg (by omega), hb.block 12 (by omega)] at h
    exact h
  have halloc : allocated (filled i n first v).2 i n first = (List.range n).map (uns 32 first + ·) := by
    unfold allocated
    rw [if_pos hind, List.append_nil]
  have hlimits : Limits (filled i n first v).2 := by
    rw [hf.state]
    exact ⟨hb.limits.blocksize, hb.limits.directlim, hb.limits.ind1lim⟩
  apply laid_of (v := v) hl hb.limits hlimits (by omega)
    (fun k hk => hb.block k (by omega)) (hb.block 12 (by omega)) (by simp [hn])
    (by simpa using hb.blocks) rfl (fun h => absurd rfl h)
  · rw [halloc]
    exact hdata
  · rw [halloc]
    exact data_nodup n _

/-- an allocation leaves the inode and the limits alone -/
theorem Changed.frame {s u : State} {a : Nat → List UInt8} {i : Nat} {m : Mem} {n : Int}
    (h : Changed s a i m n u) (hs : Limits s) (slot : Slot) :
    Limits u ∧ u.inode slot = s.inode slot ∧ u.bio.bio_blocksize = s.bio.bio_blocksize ∧
      ∃ a', Bio.Held u.bio a' := by
  obtain ⟨b, l, rfl, hheld, hbs⟩ := h
  exact ⟨⟨hs.blocksize, hs.directlim, hs.ind1lim⟩, rfl, hbs, _, hheld⟩

/-- the block that is found after the run was marked was free, and is not in the run -/
theorem found_free {s v : State} {a : Nat → List UInt8} {i : Slot} {n g w : Nat}
    (hb : Begun s v a i n g w) (hc : contents s.bio = a) (hw : Writable s) (htail : Tail s) {g' blk : Nat}
    (hg' : g' < s.groups) (hg : 0 < bg_free_blocks_count s.gds g)
    (hu : UsableIn v (taken s a n g w) g')
    (hblk : find_first_zero_bit (bitmapOf (taken s a n g w) v.gds g') (s_blocks_per_group v.sb)
      = blk) :
    blk < s_blocks_per_group s.sb ∧ s.Number .block (blk + g' * s_blocks_per_group s.sb + 1) ∧
      s.used .block (blk + g' * s_blocks_per_group s.sb + 1) = false ∧
      (g' = g → ¬ (w * 32 ≤ blk ∧ blk < w * 32 + n)) := by
  have hper : s_blocks_per_group v.sb = s_blocks_per_group s.sb := by
    rw [hb.sb]
    exact addFreeBlocks_per g (-n) s
  have hmap : bg_block_bitmap v.gds g' = bg_block_bitmap s.gds g' := by
    rw [hb.gds]
    exact addFreeBlocks_bitmap g (-n) s g'
  have hspec := find_first_zero_bit_spec (bitmapOf (taken s a n g w) v.gds g')
    (s_blocks_per_group v.sb) hu.2.2
  rw [hblk, hper] at hspec
  have hfits := hw.fits
  have hlt : blk < 8192 := by omega
  have hbit := hspec.2
  unfold bitmapOf at hbit
  rw [hmap] at hbit
  obtain ⟨hclear, hout⟩ := taken_bit hlt hbit
  rw [Int.toNat_natCast] at hout
  have hfree : s.bit .block g' blk = false := by
    show Bitmap.bit (buffer (contents s.bio (bg_block_bitmap s.gds g'))) blk = false
    rw [hc]
    exact hclear
  have hcount : 0 < bg_free_blocks_count s.gds g' := by
    by_cases e : g' = g
    · rwa [e]
    · have h := hu.1
      rw [hb.gds] at h
      rwa [← show bg_free_blocks_count (addFreeBlocks g (-n) s).gds g' = bg_free_blocks_count s.gds g'
        from add_free_other .block g (-n) s .block g' (by simpa using e)]
  obtain ⟨h1, h2, h3⟩ := htail.number hg' hcount hlt hfree
  exact ⟨h1, h2, h3, hout⟩

/-- the state before the size and the pointers are set, with the indirect block in the inode -/
theorem indirect_begun {s v x : State} {a a' : Nat → List UInt8} {i : Slot} {n g w g' : Nat} {m : Mem}
    (hb : Begun s v a i n g w) (hn : n ≤ 267) (hcx : Changed v a' g' m (-1) x) {iblkno : Int}
    (hsgn : sgn 32 iblkno = iblkno) {z : State}
    (hz : z = setBlock i EXT2_IND_BLOCK iblkno (addBlock i x)) :
    Limits z ∧ z.bio.bio_blocksize = 1024 ∧ (∃ a, Bio.Held z.bio a) ∧
      (∀ k : Nat, k ≤ 14 → i_block (z.inode i) k = if k = 12 then iblkno else 0) ∧
      i_blocks (z.inode i) = 2 * (n + 1) := by
  obtain ⟨hlim, hin, hbs, hheld⟩ := hcx.frame hb.limits i
  have h12 : EXT2_IND_BLOCK = ((12 : Nat) : Int) := rfl
  rw [h12] at hz
  subst hz
  refine ⟨⟨hlim.blocksize, hlim.directlim, hlim.ind1lim⟩, hbs.trans hb.writable.blocksize, hheld,
    fun k hk => ?_, ?_⟩
  · rw [setBlock_block, addBlock, setBlocks_block, hin, hb.block k hk, hsgn]
  · have h2 := uns32_natCast (n := 2 * (n + 1)) (by omega)
    rw [setBlock_blocks, addBlock, setBlocks_blocks, hin, hb.blocks, hlim.blocksize,
      show Int.tdiv 1024 512 = 2 by decide, ← h2]
    congr 1

/-- the pointers are set and the indirect block is written: it is read back from its buffer -/
theorem fillInode_readable {z t : State} {a : Nat → List UInt8} {i : Slot} {n : Nat}
    {first iblkno f : Int} (hlim : Limits z) (hbs : z.bio.bio_blocksize = 1024) (hheld : Bio.Held z.bio a)
    (h0 : iblkno ≠ 0) (hrun : fillInode i n first iblkno z = some (f, t)) :
    f = first ∧ t.inode i = (filled i n first z).2.inode i ∧ Limits t ∧
      ∃ u, bread iblkno t = some (buffer ((filled i n first z).1.get 0 1024), u) := by
  have hst := (filled_spec i n first z).state
  generalize hr : filled i n first z = r at hst ⊢
  have hbio : r.2.bio = z.bio := (congrArg State.bio hst).trans rfl
  have hrlim : Limits r.2 := by
    rw [hst]
    exact ⟨hlim.blocksize, hlim.directlim, hlim.ind1lim⟩
  obtain ⟨c, hc⟩ := Bio.bwrite_some (hbio ▸ hheld) h0 (r.1.get 0 r.2.bio.bio_blocksize)
  have hwrite : bwrite iblkno r.1 r.2 = some ((), r.2.over c (iblkno :: r.2.asked)) := by
    rw [bwrite, hc]
    rfl
  rw [fillInode_indirect h0 (by rw [hr]; exact hwrite)] at hrun
  obtain ⟨rfl, rfl⟩ := Prod.mk.inj (Option.some.inj hrun)
  obtain ⟨u, hu⟩ := bread_of_bwrite hwrite
  rw [hbio, hbs] at hu
  exact ⟨rfl, rfl, ⟨hrlim.blocksize, hrlim.directlim, hrlim.ind1lim⟩, u, hu⟩

/-- more than `directlim` blocks: the others are in the indirect block, which is a free block that
is not in the run -/
theorem laid_indirect {s v t : State} {a : Nat → List UInt8} {i : Slot} {n g w : Nat} {f : Int}
    (hb : Begun s v a i n g w) (hc : contents s.bio = a) (hw : Writable s) (hl : Limits s)
    (htail : Tail s) (hn : 11 < n) (hn' : n ≤ 267) (hfirst : FirstIn s a n (words n) g w)
    (hr : BallocInReach v (taken s a n g w))
    (hrun : fillRest i n (firstblock s g w) s.directlim v = some (f, t)) (hf : 0 < f)
    (hdata : ∀ x ∈ (List.range n).map (uns 32 (firstblock s g w) + ·),
      s.Number .block x ∧ s.used .block x = false) :
    Laid s t i n f := by
  have hper : s_blocks_per_group v.sb = s_blocks_per_group s.sb := by
    rw [hb.sb]
    exact addFreeBlocks_per g (-n) s
  unfold fillRest at hrun
  rw [if_pos (by rw [hl.directlim]; omega)] at hrun
  -- a call that gives `f > 0` has found an indirect block
  have hback : ∀ x, ext2_balloc v ≠ some (0, x) := by
    intro x hx
    rw [Prog.bind_run hx, if_pos rfl] at hrun
    obtain ⟨-, y, -, hy⟩ := Prog.bind_some.mp hrun
    obtain ⟨rfl, -⟩ := Prod.mk.inj (Option.some.inj hy)
    omega
  rcases balloc_cases hb.writable hb.held hr with ⟨x, hx, -, -⟩ | ⟨g', blk, x, hg', hu', -, hblk, hx, hcx⟩
  · exact absurd hx (hback x)
  rw [hb.groups] at hg'
  obtain ⟨hlt, hnum, hused, hout⟩ := found_free hb hc hw htail hg'
    (by have := hfirst.run.1; omega) hu' hblk
  rw [hper] at hx
  have hx32 := hw.number hg' hlt
  obtain ⟨-, hiuns⟩ := sgn32_number (x := blk + g' * s_blocks_per_group s.sb + 1) (by omega) (by omega)
  have hsgn := sgn32_sgn32 ((blk + g' * s_blocks_per_group s.sb + 1 : Nat) : Int)
  generalize sgn 32 ((blk + g' * s_blocks_per_group s.sb + 1 : Nat) : Int) = iblkno at hx hiuns hsgn
  have h0 : iblkno ≠ 0 := by
    rintro rfl
    exact hback x hx
  rw [Prog.bind_run hx, if_neg h0, Prog.bind_run (Prog.modify_run _ _)] at hrun
  generalize hz : setBlock i EXT2_IND_BLOCK iblkno (addBlock i x) = z at hrun
  obtain ⟨hzlim, hzbs, ⟨a', hzheld⟩, hzblock, hzblocks⟩ := indirect_begun hb hn' hcx hsgn hz.symm
  obtain ⟨hfe, hin, htlim, hread⟩ := fillInode_readable hzlim hzbs hzheld h0 hrun
  rw [hfe]
  have h12 : EXT2_IND_BLOCK = ((12 : Nat) : Int) := rfl
  have hzind : i_block (z.inode i) EXT2_IND_BLOCK = iblkno := by
    rw [h12, hzblock 12 (by omega), if_pos rfl]
  have hind : i_block (t.inode i) EXT2_IND_BLOCK = iblkno := by
    rw [hin, h12, (filled_spec i n (firstblock s g w) z).block 12, if_neg (by omega), ← h12, hzind]
  have halloc : allocated t i n (firstblock s g w)
      = (List.range n).map (uns 32 (firstblock s g w) + ·)
        ++ [blk + g' * s_blocks_per_group s.sb + 1] := by
    unfold allocated
    rw [hind, if_neg h0, hiuns]
  apply laid_of (v := z) hl hzlim htlim hn'
    (fun k hk => (hzblock k (by omega)).trans (if_neg (by omega))) hzind
    ⟨fun h => absurd h h0, fun h => by omega⟩ (by rw [if_neg h0]; exact hzblocks) hin fun _ => hread
  · rw [halloc]
    intro x hx
    rcases List.mem_append.mp hx with hx | hx
    · exact hdata x hx
    · rw [List.mem_singleton.mp hx]
      exact ⟨hnum, hused⟩
  · rw [halloc, List.nodup_append]
    refine ⟨data_nodup n _, List.nodup_singleton _, ?_⟩
    intro x hx y hy e
    obtain ⟨k, hk, hxk⟩ := List.mem_map.mp hx
    have hk := List.mem_range.mp hk
    have hy := List.mem_singleton.mp hy
    have hxk : uns 32 (firstblock s g w) + k = x := hxk
    rw [(firstblock_ne hw hfirst).2.2] at hxk
    -- both are in one group, since they have one number
    have hrunlt := hfirst.run.2.1
    rw [words_natCast (by omega) (by omega)] at hrunlt
    have h1 := number_split (p := s_blocks_per_group s.sb) (i := g') (j := blk) hlt
    have h2 := number_split (p := s_blocks_per_group s.sb) (i := g) (j := w * 32 + k) (by omega)
    have e' : g' * s_blocks_per_group s.sb + blk + 1 = g * s_blocks_per_group s.sb + (w * 32 + k) + 1 := by
      omega
    rw [e'] at h1
    have hgg : g' = g := h1.1.symm.trans h2.1
    have hbb : blk = w * 32 + k := h1.2.symm.trans h2.2
    exact hout hgg ⟨by omega, by omega⟩

/-- **A boot file that was laid out is readable and contiguous.**  On a writable file system of
1024-byte blocks whose bitmaps, as far as the allocations read them, are below 2 GB: when
`ext2_fill_contiguous` gives `f > 0` for an inode without blocks, block `k` of the file is the
block `f + k` for the `n` blocks asked for and a hole behind them; the size and the block count are
right, and the blocks that were taken are different blocks of the file system that were free. -/
theorem fill_laid (s : State) (hw : Writable s) (hl : Limits s) (hb : ∃ a, Bio.Held s.bio a)
    (htail : Tail s) (i : Slot) (hempty : ∀ k : Nat, k ≤ 14 → i_block (s.inode i) k = 0) (n : Nat)
    (h1 : 1 ≤ n) (hn : (n : Int) ≤ s.ind1lim) (hr : FillInReach s (contents s.bio) n) (f : Int) (t : State)
    (hrun : ext2_fill_contiguous i n s = some (f, t)) (hf : 0 < f) : Laid s t i n f := by
  obtain ⟨a, ha⟩ := hb
  have hc := contents_eq ha
  have hn' : n ≤ 267 := by
    rw [hl.ind1lim] at hn
    omega
  rw [hc] at hr
  by_cases hex : ∃ g, g < s.groups ∧ ∃ w, RunIn s a n (words n) g w
  · obtain ⟨g, w, hfirst⟩ := exists_firstIn hex
    obtain ⟨v, hv, hstart⟩ := begun hw hl ha hempty hn hr hfirst
    have hdata := data_free hw htail h1 (by omega) (hc.symm ▸ hfirst)
    rw [hstart] at hrun
    rcases Nat.lt_or_ge 11 n with h11 | h11
    · have hreach : BallocInReach v (taken s a n g w) :=
        (hr.2 g w hfirst (by rw [hl.directlim]; omega)).congr hv.gds hv.sb hv.groups
      exact laid_indirect hv hc hw hl htail h11 hn' hfirst hreach hrun hf hdata
    · have hfe : f = firstblock s g w := by
        unfold fillRest at hrun
        rw [if_neg (by rw [hl.directlim]; omega), fillInode_direct] at hrun
        exact (Prod.mk.inj (Option.some.inj hrun)).1.symm
      exact laid_direct hv hl h11 hrun hdata
  · obtain ⟨u, hu, -⟩ := fill_no_run hw ha i hn hr fun g hg w hw' => hex ⟨g, hg, w, hw'⟩
    rw [hu] at hrun
    obtain ⟨rfl, -⟩ := Prod.mk.inj (Option.some.inj hrun)
    omega

/-! ### two file systems -/

theorem half_limits : Limits half := ⟨rfl, rfl, rfl⟩

theorem half_fill_reach (a : Nat → List UInt8) (n : Int) : FillInReach half a n := by
  refine ⟨half_reach _ _, fun i f _ _ => ?_⟩
  intro j hj _ _
  rw [BitmapReadable, BitmapInReach, addFreeBlocks_bitmap, half_bitmap j hj]
  decide

theorem half_tail : Tail half := by
  intro i j hi _ h1 h2
  obtain rfl : i = 0 := Nat.lt_one_iff.mp hi
  have hsize : Kind.block.size half.sb 0 = 64 := by decide
  rw [hsize] at h1
  have hheld : Bio.Held half.bio _ := Bio.binit_held _ 1024
  show Bitmap.bit (buffer (contents half.bio (bg_block_bitmap half.gds 0))) j = true
  rw [contents_eq hheld, half_bitmap 0 (by decide), Bitmap.bit, buffer, List.getD_eq_getElem?_getD]
  show ((Mem.get _ (20 * 1024) 1024)[j / 8]?.getD 0).toNat.testBit (j % 8) = true
  rw [Mem.get_getElem? _ _ _ _ (by omega), Option.getD_some]
  show (if 20484 ≤ 20 * 1024 + j / 8 ∧ 20 * 1024 + j / 8 < 20488 then (0 : UInt8) else 0xff).toNat.testBit
    (j % 8) = true
  rw [if_neg (by omega)]
  exact (testBit_full (j % 8) (Nat.mod_lt _ (by decide))).1

/-- an inode without blocks -/
theorem fill_laid_half :
    Writable half ∧ Limits half ∧ Tail half ∧ (∀ k : Nat, k ≤ 14 → i_block (half.inode 0) k = 0) ∧
      FillInReach half (contents half.bio) (12 : Nat) ∧
      ∃ t, ext2_fill_contiguous 0 (12 : Nat) half = some (33, t) ∧ Laid half t 0 12 33 := by
  have hrun : (ext2_fill_contiguous 0 (12 : Nat) half).map (·.1) = some 33 := by decide +kernel
  obtain ⟨⟨f, t⟩, ht, rfl⟩ := Option.map_eq_some_iff.mp hrun
  have hempty : ∀ k : Nat, k ≤ 14 → i_block (half.inode 0) k = 0 := fun k _ => no_block k
  refine ⟨half_writable, half_limits, half_tail, hempty, half_fill_reach _ _, t, ht, ?_⟩
  exact fill_laid half half_writable half_limits half_held half_tail 0 hempty 12 (by decide)
    (by decide) (half_fill_reach _ _) 33 t ht (by decide)

/-- the counts of the file system are those of its bitmaps -/
theorem far_counts (i : Nat) (hi : i < far.groups) : bg_free_blocks_count far.gds i
    = zeros (bitmapOf (contents far.bio) far.gds i) 8192 := by
  rw [far_groups] at hi
  have hbit : ∀ j, j < 8192 → Bitmap.bit (bitmapOf (contents far.bio) far.gds i) j
      = !decide (i = 512 ∧ j = 5) := fun j hj => far_bit i j hi hj
  rw [far_free, zeros, Finset.filter_congr (q := fun j => i = 512 ∧ j = 5) fun j hj => by
    rw [hbit j (Finset.mem_range.mp hj)]
    simp]
  by_cases h : i = 512
  · have hone : (Finset.range 8192).filter (fun j => i = 512 ∧ j = 5) = {5} := by
      ext j
      simp only [h, true_and, Finset.mem_filter, Finset.mem_range, Finset.mem_singleton]
      omega
    rw [if_pos h, hone, Finset.card_singleton]
  · rw [if_neg h, Finset.filter_false_of_mem fun j _ => fun hj => h hj.1, Finset.card_empty]

theorem far_tail : Tail far := by
  intro i j hi _ h1 h2
  rw [far_groups] at hi
  have hsize : Kind.block.size far.sb i = 8192 := full_size 513 (by decide) .block i hi
  omega

/-- past 4 GB: a file of one block is laid out in a block that was in use -/
theorem far_fill :
    Writable far ∧ Limits far ∧ (∃ a, Bio.Held far.bio a) ∧ Tail far ∧
      (∀ i, i < far.groups → bg_free_blocks_count far.gds i
        = zeros (bitmapOf (contents far.bio) far.gds i) 8192) ∧
      (∀ k : Nat, k ≤ 14 → i_block (far.inode 0) k = 0) ∧
      ∃ t, ext2_fill_contiguous 0 (1 : Nat) far = some (4194305, t) ∧ ¬ Laid far t 0 1 4194305 := by
  have hrun : (ext2_fill_contiguous 0 (1 : Nat) far).map (·.1) = some 4194305 := by decide +kernel
  obtain ⟨⟨f, t⟩, ht, rfl⟩ := Option.map_eq_some_iff.mp hrun
  refine ⟨far_writable, ⟨rfl, rfl, rfl⟩, ⟨_, far_held⟩, far_tail, far_counts, fun k _ => no_block k, t, ht,
    fun hlaid => ?_⟩
  have hmem : 4194305 ∈ allocated t 0 1 4194305 := by
    apply List.mem_append_left
    show 4194305 ∈ [uns 32 4194305 + 0]
    decide
  have hused := (hlaid.free 4194305 hmem).2
  have hd : (4194305 - 1) / Kind.per far.sb .block = 512 := by
    show (4194305 - 1) / s_blocks_per_group far.sb = 512
    rw [far_per]
  have hm : (4194305 - 1) % Kind.per far.sb .block = 0 := by
    show (4194305 - 1) % s_blocks_per_group far.sb = 0
    rw [far_per]
  rw [State.used, hd, hm, far_bit 512 0 (by decide) (by decide)] at hused
  simp at hused

/-! ## a file that does not fit -/

/-- the free count of group `g` has changed by `d`; it has 16 bits -/
def Counts (g : Nat) (d : Int) (s t : State) : Prop :=
  ∃ q : Int, (bg_free_blocks_count t.gds g : Int) = bg_free_blocks_count s.gds g + d + 65536 * q

theorem Counts.trans {g : Nat} {d e : Int} {s t u : State} (h : Counts g d s t) (h' : Counts g e t u) :
    Counts g (d + e) s u := by
  obtain ⟨q, hq⟩ := h
  obtain ⟨r, hr⟩ := h'
  exact ⟨q + r, by omega⟩

theorem Counts.of_gds {g : Nat} {d : Int} {s t u : State} (h : Counts g d s t) (hu : u.gds = t.gds) :
    Counts g d s u := by
  obtain ⟨q, hq⟩ := h
  exact ⟨q, by rw [hu]; exact hq⟩

/-- a change that is no multiple of 2^16 is seen -/
theorem Counts.ne {g : Nat} {d : Int} {s t : State} (h : Counts g d s t) (h1 : -65536 < d)
    (h2 : d < 0) : bg_free_blocks_count t.gds g ≠ bg_free_blocks_count s.gds g := by
  obtain ⟨q, hq⟩ := h
  omega

theorem addFreeBlocks_counts (i : Nat) (n : Int) (s : State) (g : Nat) :
    Counts g (if g = i then n else 0) s (addFreeBlocks i n s) := by
  by_cases h : g = i
  · subst h
    have hput := le_put_self s.gds (g * 32 + 12) (uns 16 (bg_free_blocks_count s.gds g + n)) 2
    have hcount : bg_free_blocks_count (addFreeBlocks g n s).gds g
        = uns 16 (bg_free_blocks_count s.gds g + n) % 256 ^ 2 := hput
    rw [if_pos rfl]
    refine ⟨-((bg_free_blocks_count s.gds g + n) / 65536), ?_⟩
    rw [hcount]
    unfold uns
    norm_num
    omega
  · rw [if_neg h]
    have hfree : bg_free_blocks_count (addFreeBlocks i n s).gds g = bg_free_blocks_count s.gds g :=
      add_free_other .block i n s .block g (by simpa using h)
    exact ⟨0, by rw [hfree]; omega⟩

theorem bread_over {b : Int} {s t : State} {m : Mem} (h : bread b s = some (m, t)) :
    ∃ c l, t = s.over c l := by
  obtain ⟨r, -, hr⟩ := Option.map_eq_some_iff.mp h
  exact ⟨r.2, b :: s.asked, (Prod.mk.inj hr).2.symm⟩

theorem bwrite_over {b : Int} {m : Mem} {s t : State} {x : Unit} (h : bwrite b m s = some (x, t)) :
    ∃ c l, t = s.over c l := by
  obtain ⟨r, -, hr⟩ := Option.map_eq_some_iff.mp h
  exact ⟨r, b :: s.asked, (Prod.mk.inj hr).2.symm⟩

/-- `ext2_bfree` counts one more block in the group that it computes -/
theorem bfree_run {blk : Int} {s t : State} {x : Unit} (h : ext2_bfree blk s = some (x, t)) :
    ∃ c l, t = addFreeBlocks (uns 32 (blk - 1) / s_blocks_per_group s.sb) 1 (s.over c l) := by
  unfold ext2_bfree at h
  rw [Prog.bind_run (Prog.get_run s)] at h
  obtain ⟨m, s₁, h1, h⟩ := Prog.bind_some.mp h
  obtain ⟨y, s₂, h2, h⟩ := Prog.bind_some.mp h
  obtain ⟨c₁, l₁, rfl⟩ := bread_over h1
  obtain ⟨c₂, l₂, rfl⟩ := bwrite_over h2
  exact ⟨c₂, l₂, (Prod.mk.inj (Option.some.inj h)).2.symm⟩

/-- the loop that should free the blocks that were taken frees the blocks 0, 1, ..: for block 0 the
group is past all groups, and a group `g` gets at most one block for each of the others -/
theorem bfrees_count {g : Nat} (l : List Nat) :
    ∀ (s t : State) (x : Unit), g ≠ 4294967295 / s_blocks_per_group s.sb →
      (l.forM fun (k : Nat) => ext2_bfree k) s = some (x, t) →
      ∃ d : Int, 0 ≤ d ∧ d ≤ l.countP (· ≠ 0) ∧ Counts g d s t := by
  induction l with
  | nil =>
    intro s t x hg h
    obtain ⟨-, rfl⟩ := Prod.mk.inj (Option.some.inj h)
    exact ⟨0, le_refl 0, by simp, 0, by omega⟩
  | cons k l ih =>
    intro s t x hg h
    obtain ⟨y, u, hu, h⟩ := Prog.bind_some.mp h
    obtain ⟨c, m, rfl⟩ := bfree_run hu
    have hstep := addFreeBlocks_counts (uns 32 (k - 1) / s_blocks_per_group s.sb) 1 (s.over c m) g
    have hper : s_blocks_per_group (addFreeBlocks (uns 32 (k - 1) / s_blocks_per_group s.sb) 1
        (s.over c m)).sb = s_blocks_per_group s.sb := addFreeBlocks_per _ _ _
    obtain ⟨d, h0, h1, hd⟩ := ih _ t x (by rw [hper]; exact hg) h
    rw [List.countP_cons]
    by_cases hk : k = 0
    · have hlast : uns 32 ((k : Int) - 1) = 4294967295 := by
        rw [hk]
        decide
      have hnone : (if g = uns 32 ((k : Int) - 1) / s_blocks_per_group s.sb then (1 : Int) else 0) = 0 := by
        rw [hlast]
        exact if_neg hg
      rw [hnone] at hstep
      rw [if_neg (by simp [hk])]
      exact ⟨0 + d, by omega, by omega, hstep.trans hd⟩
    · have hc := hstep.trans hd
      rw [if_pos (by simpa using hk)]
      refine ⟨_, ?_, ?_, hc⟩
      · split <;> omega
      · split <;> omega

theorem countP_range (n : Nat) : (List.range (n + 1)).countP (· ≠ 0) = n := by
  induction n with
  | zero => rfl
  | succ n ih =>
    rw [List.range_succ, List.countP_append, ih]
    simp

theorem NoBlock.congr {s t : State} {a : Nat → List UInt8} (hg : t.gds = s.gds) (hs : t.sb = s.sb)
    (hn : t.groups = s.groups) : NoBlock t a ↔ NoBlock s a := by
  unfold NoBlock UsableIn
  rw [hg, hs, hn]

/-- the call takes the data blocks and gets no indirect block: it gives them back, as it thinks -/
def RollsBack (s : State) (a : Nat → List UInt8) (n : Int) : Prop :=
  s.readonly = false ∧ n ≤ s.ind1lim ∧ s.directlim < n ∧ ∃ i f, FirstIn s a n (words n) i f ∧
    NoBlock (addFreeBlocks i (-n) s) (taken s a n i f)

/-- the block bitmaps, the free counts and the block pointers of the inode are as they were -/
structure Undone (s t : State) (i : Slot) : Prop where
  bitmap : ∀ g, g < s.groups → contents t.bio (bg_block_bitmap t.gds g)
    = contents s.bio (bg_block_bitmap s.gds g)
  free : ∀ g, g < s.groups → bg_free_blocks_count t.gds g = bg_free_blocks_count s.gds g
  total : s_free_blocks_count t.sb = s_free_blocks_count s.sb
  block : ∀ k : Nat, k ≤ 14 → i_block (t.inode i) k = i_block (s.inode i) k

section
variable {s : State} {a : Nat → List UInt8} (hw : Writable s) (hl : Limits s)
  (ha : Bio.Held s.bio a) (i : Slot) {n : Int} (hn : n ≤ s.ind1lim) (hr : FillInReach s a n) {g w : Nat}
  (h : FirstIn s a n (words n) g w)
include hw hl ha hn hr h

omit hl in
/-- the call goes on from a state in which the run is taken -/
theorem fill_goes_on : ∃ v, ext2_fill_contiguous i n s = fillRest i n (firstblock s g w) s.directlim v ∧
    Writable v ∧ Bio.Held v.bio (taken s a n g w) ∧ v.gds = (addFreeBlocks g (-n) s).gds ∧
    v.sb = (addFreeBlocks g (-n) s).sb ∧ v.groups = s.groups := by
  obtain ⟨u, hchanged, hstart⟩ := fill_start hw ha i hn hr h
  obtain ⟨hwv, hgds, hsb, hheld⟩ := hchanged.state hw i (n * Int.tdiv s.blocksize 512)
  refine ⟨_, hstart, hwv, hheld, hgds, hsb, ?_⟩
  obtain ⟨b, l, rfl, -, -⟩ := hchanged
  rfl

/-- without an indirect block, the free count of the group of the run is not what it was -/
theorem fill_rolled_back (h11 : s.directlim < n)
    (hno : NoBlock (addFreeBlocks g (-n) s) (taken s a n g w)) {r : Int} {t : State}
    (hrun : ext2_fill_contiguous i n s = some (r, t)) :
    r = -1 ∧ bg_free_blocks_count t.gds g ≠ bg_free_blocks_count s.gds g := by
  obtain ⟨v, hstart, hwv, hheld, hgds, hsb, hgroups⟩ := fill_goes_on hw ha i hn hr h
  have hreach : BallocInReach v (taken s a n g w) := (hr.2 g w h h11).congr hgds hsb hgroups
  have hnov : NoBlock v (taken s a n g w) := (NoBlock.congr hgds hsb hgroups).mpr hno
  have hv : Counts g (-n) s v := by
    have hc := addFreeBlocks_counts g (-n) s g
    rw [if_pos rfl] at hc
    exact hc.of_gds hgds
  have hperv : s_blocks_per_group v.sb = s_blocks_per_group s.sb := by
    rw [hsb]
    exact addFreeBlocks_per g (-n) s
  -- `ext2_balloc` gives 0, and counts a block at most
  obtain ⟨x, hx, e, he0, he1, hxc, hperx⟩ : ∃ x, ext2_balloc v = some (0, x) ∧ ∃ e : Int, -1 ≤ e ∧
      e ≤ 0 ∧ Counts g e v x ∧ s_blocks_per_group x.sb = s_blocks_per_group v.sb := by
    rcases balloc_cases hwv hheld hreach with ⟨x, hx, -, b, l, rfl, -, -⟩ |
      ⟨g', blk, x, hg', hu', hbefore, hblk, hx, b, l, rfl, -, -⟩
    · exact ⟨_, hx, 0, by omega, le_refl 0, ⟨0, by show (bg_free_blocks_count v.gds g : Int) = _; omega⟩, rfl⟩
    · have hzero := hnov g' hg' hu' hbefore
      rw [hblk] at hzero
      rw [hzero] at hx
      refine ⟨_, hx, _, ?_, ?_, addFreeBlocks_counts g' (-1) (v.over b l) g,
        addFreeBlocks_per g' (-1) (v.over b l)⟩
      · split <;> omega
      · split <;> omega
  rw [hstart] at hrun
  unfold fillRest at hrun
  rw [if_pos h11, Prog.bind_run hx, if_pos rfl] at hrun
  obtain ⟨y, z, hz, hend⟩ := Prog.bind_some.mp hrun
  obtain ⟨rfl, rfl⟩ := Prod.mk.inj (Option.some.inj hend)
  -- the group of block 0 is none of the groups
  have hgne : g ≠ 4294967295 / s_blocks_per_group x.sb := by
    have hpos : 0 < s_blocks_per_group s.sb := by
      have h1 := h.run.2.1
      have h2 := words_pos n
      omega
    have hnum := hw.numbers
    have hle : s.groups ≤ 4294967295 / s_blocks_per_group s.sb :=
      (Nat.le_div_iff_mul_le hpos).mpr (by omega)
    have hg := h.group
    rw [hperx, hperv]
    omega
  obtain ⟨d, hd0, hd1, hdc⟩ := bfrees_count (List.range n.toNat) x z y hgne hz
  rw [hl.directlim] at h11
  rw [hl.ind1lim] at hn
  obtain ⟨m, hm⟩ : ∃ m, n.toNat = m + 1 := ⟨n.toNat - 1, by omega⟩
  rw [hm, countP_range] at hd1
  exact ⟨rfl, ((hv.trans hxc).trans hdc).ne (by omega) (by omega)⟩

omit hl in
/-- a call that does not get to the rollback returns the number of the first block -/
theorem fill_succeeds (hok : s.directlim < n → ¬ NoBlock (addFreeBlocks g (-n) s) (taken s a n g w)) :
    ∃ t, ext2_fill_contiguous i n s = some (firstblock s g w, t) := by
  obtain ⟨v, hstart, hwv, hheld, hgds, hsb, hgroups⟩ := fill_goes_on hw ha i hn hr h
  rw [hstart]
  unfold fillRest
  by_cases h11 : s.directlim < n
  · have hreach : BallocInReach v (taken s a n g w) := (hr.2 g w h h11).congr hgds hsb hgroups
    have hsome : ¬ NoBlock v (taken s a n g w) := fun hno =>
      hok h11 ((NoBlock.congr hgds hsb hgroups).mp hno)
    rcases balloc_cases hwv hheld hreach with ⟨x, -, hno, -⟩ |
      ⟨g', blk, x, hg', hu', hbefore, hblk, hx, b, l, rfl, hxheld, -⟩
    · exact absurd hno hsome
    · have hne : sgn 32 (blk + g' * s_blocks_per_group v.sb + 1 : Nat) ≠ 0 := by
        intro h0
        refine hsome fun j hj hj' hbj => ?_
        have hjg : j = g' := by
          rcases Nat.lt_trichotomy j g' with hlt | e | hlt
          · exact absurd hj' (hbefore j hlt)
          · exact e
          · exact absurd hu' (hbj g' hlt)
        rw [hjg, hblk]
        exact h0
      rw [if_pos h11, Prog.bind_run hx, if_neg hne, Prog.bind_run (Prog.modify_run _ _)]
      exact fillInode_returns hxheld i n _ _
  · rw [if_neg h11]
    exact fillInode_returns hheld i n _ 0

end

/-- a file system that is not open for writing is left alone -/
theorem fill_readonly (i : Slot) {n : Int} {s : State} (h : s.readonly = true) :
    ext2_fill_contiguous i n s = some (-1, s) := by
  unfold ext2_fill_contiguous
  rw [Prog.bind_run (Prog.get_run s)]
  split
  · rfl
  · have hnone : ext2_contiguous_balloc n s = some (0, s) := by
      unfold ext2_contiguous_balloc
      rw [Prog.bind_run (Prog.get_run s), if_pos h]
      rfl
    rw [Prog.bind_run hnone]
    rfl

theorem Undone.refl (s : State) (i : Slot) : Undone s s i :=
  ⟨fun _ _ => rfl, fun _ _ => rfl, rfl, fun _ _ => rfl⟩

/-- **When a failed allocation is undone.**  On a file system of 1024-byte blocks, writable or not,
whose bitmaps, as far as the allocations read them, are below 2 GB: `ext2_fill_contiguous` comes
back, and with -1 only when it has left the bitmaps, the free counts and the pointers as they were,
exactly if it does not take the data blocks and then miss the indirect block. -/
theorem fill_undone_iff (s : State) (hs : Sized s) (hl : Limits s) (hb : ∃ a, Bio.Held s.bio a)
    (i : Slot) (n : Int)
    (hr : s.readonly = false → n ≤ s.ind1lim → FillInReach s (contents s.bio) n) :
    (∃ r t, ext2_fill_contiguous i n s = some (r, t) ∧ (r = -1 → Undone s t i))
      ↔ ¬ RollsBack s (contents s.bio) n := by
  obtain ⟨a, ha⟩ := hb
  have hc := contents_eq ha
  rw [hc] at hr ⊢
  constructor
  · rintro ⟨r, t, hrun, hundone⟩ ⟨hopen, hn, h11, g, w, hfirst, hno⟩
    obtain ⟨hr1, hne⟩ := fill_rolled_back ⟨hs, hopen⟩ hl ha i hn (hr hopen hn) hfirst h11 hno hrun
    exact hne ((hundone hr1).free g hfirst.group)
  · intro hnot
    rcases lt_or_ge s.ind1lim n with hlarge | hn
    · exact ⟨-1, s, fill_large i hlarge, fun _ => Undone.refl s i⟩
    rcases Bool.eq_false_or_eq_true s.readonly with hclosed | hopen
    · exact ⟨-1, s, fill_readonly i hclosed, fun _ => Undone.refl s i⟩
    have hw : Writable s := ⟨hs, hopen⟩
    have hr := hr hopen hn
    by_cases hex : ∃ g, g < s.groups ∧ ∃ w, RunIn s a n (words n) g w
    · obtain ⟨g, w, hfirst⟩ := exists_firstIn hex
      obtain ⟨t, ht⟩ := fill_succeeds hw ha i hn hr hfirst
        fun h11 hno => hnot ⟨hopen, hn, h11, g, w, hfirst, hno⟩
      exact ⟨_, t, ht, fun h => absurd h (firstblock_ne hw hfirst).2.1⟩
    · obtain ⟨t, ht, b, l, rfl, hheld, -⟩ := fill_no_run hw ha i hn hr
        fun g hg w hw' => hex ⟨g, hg, w, hw'⟩
      refine ⟨-1, _, ht, fun _ => ⟨fun g _ => ?_, fun _ _ => rfl, rfl, fun _ _ => rfl⟩⟩
      show contents b _ = contents s.bio _
      rw [contents_eq hheld, hc]
      rfl

theorem fill_undone_iff_half :
    Sized half ∧ Limits half ∧ FillInReach half (contents half.bio) 12 ∧
      ((∃ r t, ext2_fill_contiguous 0 12 half = some (r, t) ∧ (r = -1 → Undone half t 0))
        ↔ ¬ RollsBack half (contents half.bio) 12) :=
  ⟨half_writable.toSized, half_limits, half_fill_reach _ _,
    fill_undone_iff half half_writable.toSized half_limits half_held 0 12 fun _ _ => half_fill_reach _ _⟩

/-- all 32 free blocks are asked for: none is left for the indirect block, and of the 32 blocks
one is counted as free again for each of the blocks 1 to 31 -/
theorem half_not_undone :
    Writable half ∧ Limits half ∧ (∃ a, Bio.Held half.bio a) ∧
      FillInReach half (contents half.bio) 32 ∧
      ∃ t, ext2_fill_contiguous 0 32 half = some (-1, t) ∧ ¬ Undone half t 0 := by
  have hrun : (ext2_fill_contiguous 0 32 half).map (fun r => (r.1, bg_free_blocks_count r.2.gds 0))
      = some (-1, 31) := by decide +kernel
  obtain ⟨⟨r, t⟩, ht, e⟩ := Option.map_eq_some_iff.mp hrun
  obtain ⟨rfl, hfree⟩ := Prod.mk.inj e
  refine ⟨half_writable, half_limits, half_held, half_fill_reach _ _, t, ht, fun hundone => ?_⟩
  have h := hundone.free 0 (by decide)
  have hnew : bg_free_blocks_count t.gds 0 = 31 := hfree
  have hold : bg_free_blocks_count half.gds 0 = 32 := by decide
  rw [hnew, hold] at h
  cases h

end E2
