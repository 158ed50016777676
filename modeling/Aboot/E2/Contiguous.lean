import Aboot.E2.Search
import Aboot.E2.Allocator

/-!
# The groups that an allocation goes through

`ReadOnly s t a`: `t` is `s` with other buffers, which stand for the same blocks `a`.

* `firstGroup_at`, `firstGroup_none`   the loop over the groups, from what one group gives;
* `contiguousIn_pass`, `contiguousIn_take`   `ext2_contiguous_balloc` in one group;
* `ballocIn_pass`, `ballocIn_take`     `ext2_balloc` in one group;
* `contiguous_at`, `contiguous_none`, `balloc_at`, `balloc_none`   the two calls;
* `contiguous_balloc_first`            the run that is found is the first one.
-/

set_option linter.unusedVariables false

namespace E2
open Word Bytes Bitmap Runs
open Ext2 (s_blocks_per_group)

/-! ## groups -/

/-- a file system of 1024-byte blocks; the number of groups is one that `ext2_init` computes -/
structure Sized (s : State) : Prop where
  blocksize : s.bio.bio_blocksize = 1024
  fits : s_blocks_per_group s.sb ≤ 8192
  numbers : s.groups * s_blocks_per_group s.sb < 4294967296

/-- it is open for writing -/
structure Writable (s : State) : Prop extends Sized s where
  readonly : s.readonly = false

/-- the block bitmap of a group, where `a` has the blocks -/
def bitmapOf (a : Nat → List UInt8) (gds : Mem) (i : Nat) : Mem := buffer (a (bg_block_bitmap gds i))

/-- the block bitmap of a group is below 2 GB -/
def BitmapInReach (gds : Mem) (i : Nat) : Prop := (bg_block_bitmap gds i + 1) * 1024 ≤ 2147483648

/-- the block bitmap of a group is a block that `bio.c` can read -/
def BitmapReadable (gds : Mem) (i : Nat) : Prop := 1 ≤ bg_block_bitmap gds i ∧ BitmapInReach gds i

/-- `longs_needed` -/
def longsNeeded (nblocks : Int) : Int := sgn 32 (uns 64 (nblocks + 31) / 32 : Nat)

/-- a group with enough free blocks has `k` clear words from word `f` on -/
def RunIn (s : State) (a : Nat → List UInt8) (n : Int) (k i f : Nat) : Prop :=
  n ≤ bg_free_blocks_count s.gds i ∧
    Run (Clear (bitmapOf a s.gds i)) k (s_blocks_per_group s.sb / 32) f

/-- the first such run of the first such group -/
structure FirstIn (s : State) (a : Nat → List UInt8) (n : Int) (k i f : Nat) : Prop where
  group : i < s.groups
  run : RunIn s a n k i f
  before : ∀ g, g < f → ¬ RunIn s a n k i g
  groups : ∀ j, j < i → ∀ g, ¬ RunIn s a n k j g

/-- `ext2_balloc` takes a block of the group -/
def UsableIn (s : State) (a : Nat → List UInt8) (i : Nat) : Prop :=
  0 < bg_free_blocks_count s.gds i ∧
    find_first_zero_bit (bitmapOf a s.gds i) (s_blocks_per_group s.sb) ≠ 0 ∧
    find_first_zero_bit (bitmapOf a s.gds i) (s_blocks_per_group s.sb) ≠ s_blocks_per_group s.sb

/-- every group with `wants` that comes before the first one with `found`, and that one, has a
bitmap that can be read: these are the bitmaps that are read -/
def ReadsInReach (s : State) (wants found : Nat → Prop) : Prop :=
  ∀ i, i < s.groups → wants i → (∀ j, j < i → ¬ found j) → BitmapReadable s.gds i

/-- the bitmaps that `ext2_contiguous_balloc` reads -/
def SearchInReach (s : State) (a : Nat → List UInt8) (n : Int) (k : Nat) : Prop :=
  ReadsInReach s (fun i => n ≤ bg_free_blocks_count s.gds i) fun i => ∃ f, RunIn s a n k i f

/-- the bitmaps that `ext2_balloc` reads -/
def BallocInReach (s : State) (a : Nat → List UInt8) : Prop :=
  ReadsInReach s (fun i => 0 < bg_free_blocks_count s.gds i) (UsableIn s a)

/-- the number of clear words that are looked for -/
def words (n : Int) : Nat := runLength (longsNeeded n)

theorem words_natCast {n : Nat} (h1 : 1 ≤ n) (h2 : n < 2147483648) : words n = (n + 31) / 32 := by
  rw [words, longsNeeded, longs_needed_eq h2, runLength]
  omega

theorem words_pos (n : Int) : 1 ≤ words n := by
  unfold words runLength
  omega

theorem exists_firstIn {s : State} {a : Nat → List UInt8} {n : Int} {k : Nat}
    (h : ∃ i, i < s.groups ∧ ∃ f, RunIn s a n k i f) : ∃ i f, FirstIn s a n k i f := by
  classical
  obtain ⟨hg, hex⟩ := Nat.find_spec h
  obtain ⟨f, hrun, hbefore⟩ := exists_first (hex.imp fun f hf => hf.2)
  have hn := hex.choose_spec.1
  refine ⟨Nat.find h, f, hg, ⟨hn, hrun⟩, fun g hlt hg => hbefore g hlt hg.2, fun j hj g hg' => ?_⟩
  exact Nat.find_min h hj ⟨by omega, g, hg'⟩

theorem FirstIn.eq {s : State} {a : Nat → List UInt8} {n : Int} {k i f i' f' : Nat}
    (h : FirstIn s a n k i f) (h' : FirstIn s a n k i' f') : i = i' ∧ f = f' := by
  have hi : i = i' := by
    rcases Nat.lt_trichotomy i i' with hlt | e | hlt
    · exact absurd h.run (h'.groups i hlt f)
    · exact e
    · exact absurd h'.run (h.groups i' hlt f')
  subst hi
  refine ⟨rfl, ?_⟩
  rcases Nat.lt_trichotomy f f' with hlt | e | hlt
  · exact absurd h.run (h'.before f hlt)
  · exact e
  · exact absurd h'.run (h.before f' hlt)

/-- the last block of a group has a number of 32 bits -/
theorem Sized.number {s : State} (h : Sized s) {i j : Nat} (hi : i < s.groups)
    (hj : j < s_blocks_per_group s.sb) :
    i * s_blocks_per_group s.sb + j + 1 < 4294967296 := by
  have h1 := Nat.mul_le_mul_right (s_blocks_per_group s.sb) (show i + 1 ≤ s.groups from hi)
  rw [Nat.succ_mul] at h1
  have := h.numbers
  omega

/-- `ext2_init` computes a number of groups whose blocks have numbers of 32 bits -/
theorem groups_of_numbers (sb : Mem) :
    (groups_of sb).toNat * s_blocks_per_group sb < 4294967296 := by
  generalize hx : uns 32 ((Ext2.s_blocks_count sb : Int) + s_blocks_per_group sb - 1) = x
  have hlt : x < 4294967296 := by
    obtain ⟨q, h1, h2⟩ := uns32_cases ((Ext2.s_blocks_count sb : Int) + s_blocks_per_group sb - 1)
    omega
  have hle : (groups_of sb).toNat ≤ x / s_blocks_per_group sb := by
    have hx' : x / s_blocks_per_group sb ≤ x := Nat.div_le_self _ _
    rw [groups_of, hx]
    generalize x / s_blocks_per_group sb = y at hx' ⊢
    obtain ⟨q, h1, h2, h3⟩ := sgn32_cases (y : Int)
    omega
  calc (groups_of sb).toNat * s_blocks_per_group sb
      ≤ x / s_blocks_per_group sb * s_blocks_per_group sb := Nat.mul_le_mul_right _ hle
    _ ≤ x := Nat.div_mul_le_self _ _
    _ < 4294967296 := hlt

/-! ## the loop over the groups -/

/-- other buffers, which stand for the same blocks -/
def ReadOnly (s t : State) (a : Nat → List UInt8) : Prop :=
  ∃ b l, t = s.over b l ∧ Bio.Held b a ∧ b.bio_blocksize = s.bio.bio_blocksize

theorem ReadOnly.refl {s : State} {a : Nat → List UInt8} (h : Bio.Held s.bio a) : ReadOnly s s a :=
  ⟨s.bio, s.asked, rfl, h, rfl⟩

theorem ReadOnly.gds {s t : State} {a : Nat → List UInt8} (h : ReadOnly s t a) : t.gds = s.gds := by
  obtain ⟨b, l, rfl, -, -⟩ := h
  rfl

theorem ReadOnly.sb {s t : State} {a : Nat → List UInt8} (h : ReadOnly s t a) : t.sb = s.sb := by
  obtain ⟨b, l, rfl, -, -⟩ := h
  rfl

/-- a group that gives nothing leaves only other buffers -/
def Passes (f : Nat → Prog State (Option Int)) (s : State) (a : Nat → List UInt8) (i : Nat) : Prop :=
  ∀ t, ReadOnly s t a → ∃ u, f i t = some (none, u) ∧ ReadOnly s u a

theorem firstGroup_skip {f : Nat → Prog State (Option Int)} {s : State} {a : Nat → List UInt8}
    (l rest : List Nat) (hpass : ∀ i ∈ l, Passes f s a i) :
    ∀ t, ReadOnly s t a → ∃ u, ReadOnly s u a ∧
      firstGroup f (l ++ rest) t = firstGroup f rest u := by
  induction l with
  | nil =>
    intro t ht
    exact ⟨t, ht, rfl⟩
  | cons i l ih =>
    intro t ht
    obtain ⟨u, hu, hru⟩ := hpass i List.mem_cons_self t ht
    obtain ⟨v, hv, hrest⟩ := ih (fun j hj => hpass j (List.mem_cons_of_mem i hj)) u hru
    refine ⟨v, hv, ?_⟩
    rw [List.cons_append, firstGroup, Prog.bind_run hu]
    exact hrest

theorem range_split {i n : Nat} (h : i < n) : ∃ rest, List.range n = List.range i ++ i :: rest := by
  obtain ⟨d, rfl⟩ := Nat.exists_eq_add_of_lt h
  refine ⟨(List.range d).map (i + 1 + ·), ?_⟩
  rw [show i + d + 1 = i + (1 + d) by omega, List.range_add, Nat.add_comm 1 d, List.range_succ_eq_map,
    List.map_cons, List.map_map, Nat.add_zero]
  congr 2
  apply List.map_congr_left
  intro x _
  show i + (x + 1) = i + 1 + x
  omega

/-- the groups before `i` give nothing, and `i` gives `r` -/
theorem firstGroup_at {f : Nat → Prog State (Option Int)} {s : State} {a : Nat → List UInt8}
    {i n : Nat} (hi : i < n) (hpass : ∀ j, j < i → Passes f s a j) {r : Int} {Q : State → Prop}
    (htake : ∀ t, ReadOnly s t a → ∃ u, f i t = some (some r, u) ∧ Q u) {t : State}
    (ht : ReadOnly s t a) : ∃ u, firstGroup f (List.range n) t = some (r, u) ∧ Q u := by
  obtain ⟨rest, hrange⟩ := range_split hi
  obtain ⟨u, hu, hskip⟩ := firstGroup_skip (List.range i) (i :: rest)
    (fun j hj => hpass j (List.mem_range.mp hj)) t ht
  obtain ⟨v, hv, hq⟩ := htake u hu
  refine ⟨v, ?_, hq⟩
  rw [hrange, hskip, firstGroup, Prog.bind_run hv]
  rfl

theorem firstGroup_none {f : Nat → Prog State (Option Int)} {s : State} {a : Nat → List UInt8}
    {n : Nat} (hpass : ∀ j, j < n → Passes f s a j) {t : State} (ht : ReadOnly s t a) :
    ∃ u, firstGroup f (List.range n) t = some (0, u) ∧ ReadOnly s u a := by
  obtain ⟨u, hu, hskip⟩ := firstGroup_skip (List.range n) []
    (fun j hj => hpass j (List.mem_range.mp hj)) t ht
  rw [List.append_nil] at hskip
  exact ⟨u, hskip, hu⟩

/-! ## the bitmap of a group -/

theorem sgn_bitmap {gds : Mem} {i : Nat} (h : BitmapReadable gds i) :
    sgn 32 (bg_block_bitmap gds i : Int) = bg_block_bitmap gds i := by
  have h := h.2
  unfold BitmapInReach at h
  exact sgn32_of_range (by omega) (by omega)

theorem bitmap_read {s t : State} {a : Nat → List UInt8} (hw : Writable s) {i : Nat}
    (hr : BitmapReadable s.gds i) (ht : ReadOnly s t a) :
    ∃ u, bread (sgn 32 (bg_block_bitmap s.gds i)) t = some (bitmapOf a s.gds i, u) ∧
      ReadOnly s u a := by
  obtain ⟨b, l, rfl, hb, hbs⟩ := ht
  have hbs' : (s.over b l).bio.bio_blocksize = 1024 := hbs.trans hw.blocksize
  obtain ⟨b', hrun, hb', hbs''⟩ := bread_run (s := s.over b l) hb hr.1 (by rw [hbs']; exact hr.2)
  rw [sgn_bitmap hr]
  exact ⟨_, hrun, b', _, rfl, hb', hbs''.trans hbs⟩

/-- the state with the bitmap `m` in group `i` and `n` more free blocks -/
def Changed (s : State) (a : Nat → List UInt8) (i : Nat) (m : Mem) (n : Int) (u : State) : Prop :=
  ∃ b l, u = addFreeBlocks i n (s.over b l) ∧
    Bio.Held b (Function.update a (bg_block_bitmap s.gds i) (m.get 0 1024)) ∧
    b.bio_blocksize = s.bio.bio_blocksize

theorem bitmap_written {s t : State} {a : Nat → List UInt8} (hw : Writable s) {i : Nat}
    (hr : BitmapReadable s.gds i) (ht : ReadOnly s t a) (m : Mem) (n : Int) {α : Type} (r : α) :
    ∃ u, (do bwrite (sgn 32 (bg_block_bitmap s.gds i)) m
             modify (addFreeBlocks i n)
             pure r : Prog State α) t = some (r, u) ∧ Changed s a i m n u := by
  obtain ⟨b, l, rfl, hb, hbs⟩ := ht
  have hbs' : (s.over b l).bio.bio_blocksize = 1024 := hbs.trans hw.blocksize
  obtain ⟨b', hrun, hb', hbs''⟩ := bwrite_run (s := s.over b l) hb hr.1 (by rw [hbs']; exact hr.2) m
  rw [hbs'] at hb'
  rw [sgn_bitmap hr, Prog.bind_run hrun, Prog.bind_run (Prog.modify_run _ _)]
  exact ⟨_, rfl, b', _, rfl, hb', hbs''.trans hbs⟩

/-! ## one group -/

section
variable {s : State} {a : Nat → List UInt8} (hw : Writable s) {i : Nat}
include hw

theorem contiguousIn_pass {n : Int} (hr : n ≤ bg_free_blocks_count s.gds i → BitmapReadable s.gds i)
    (hno : ∀ f, ¬ RunIn s a n (words n) i f) : Passes (contiguousIn n) s a i := by
  intro t ht
  unfold contiguousIn
  rw [Prog.bind_run (Prog.get_run t)]
  simp only [ht.gds, ht.sb]
  by_cases hf : n ≤ bg_free_blocks_count s.gds i
  · rw [if_pos hf]
    obtain ⟨u, hu, hru⟩ := bitmap_read hw (hr hf) ht
    rw [Prog.bind_run hu]
    rcases findRun_first (bitmapOf a s.gds i) (longsNeeded n) (s_blocks_per_group s.sb / 32)
      with ⟨hend, -⟩ | ⟨-, hfirst, -⟩
    · rw [if_pos (show findRun _ (sgn 32 (uns 64 (n + 31) / 32 : Nat)) _ _ _ = _ from hend)]
      exact ⟨u, rfl, hru⟩
    · exact absurd ⟨hf, hfirst⟩ (hno _)
  · rw [if_neg hf]
    exact ⟨t, rfl, ht⟩

theorem contiguousIn_take {n : Int} {f : Nat} (hr : BitmapReadable s.gds i)
    (hn : n ≤ bg_free_blocks_count s.gds i)
    (hfirst : First (Clear (bitmapOf a s.gds i)) (words n) (s_blocks_per_group s.sb / 32) f) {t : State}
    (ht : ReadOnly s t a) :
    ∃ u, contiguousIn n i t
        = some (some (sgn 32 (f * 32 + i * s_blocks_per_group s.sb + 1 : Nat)), u) ∧
      Changed s a i (setBits (bitmapOf a s.gds i) (f * 32) n.toNat) (-n) u := by
  unfold contiguousIn
  rw [Prog.bind_run (Prog.get_run t)]
  simp only [ht.gds, ht.sb]
  rw [if_pos hn]
  obtain ⟨u, hu, hru⟩ := bitmap_read hw hr ht
  rw [Prog.bind_run hu]
  rcases findRun_first (bitmapOf a s.gds i) (longsNeeded n) (s_blocks_per_group s.sb / 32)
    with ⟨-, hno⟩ | ⟨hlt, hfound⟩
  · exact absurd hfirst.1 (hno f)
  · have hf := hfound.eq hfirst
    rw [show sgn 32 (uns 64 (n + 31) / 32 : Nat) = longsNeeded n from rfl, hf,
      if_neg (by rw [← hf]; exact Nat.ne_of_lt hlt)]
    exact bitmap_written hw hr hru _ _ _

theorem ballocIn_pass (hr : 0 < bg_free_blocks_count s.gds i → BitmapReadable s.gds i)
    (hno : ¬ UsableIn s a i) : Passes ballocIn s a i := by
  intro t ht
  unfold ballocIn
  rw [Prog.bind_run (Prog.get_run t)]
  simp only [ht.gds, ht.sb]
  by_cases hf : 0 < bg_free_blocks_count s.gds i
  · rw [if_pos hf]
    obtain ⟨u, hu, hru⟩ := bitmap_read hw (hr hf) ht
    rw [Prog.bind_run hu, if_pos]
    · exact ⟨u, rfl, hru⟩
    · by_contra hn
      push Not at hn
      exact hno ⟨hf, hn⟩
  · rw [if_neg hf]
    exact ⟨t, rfl, ht⟩

/-- the block that `ext2_balloc` takes in a group -/
theorem ballocIn_take (hr : BitmapReadable s.gds i) (hu : UsableIn s a i) {t : State}
    (ht : ReadOnly s t a) {blk : Nat}
    (hblk : find_first_zero_bit (bitmapOf a s.gds i) (s_blocks_per_group s.sb) = blk) :
    ∃ u, ballocIn i t = some (some (sgn 32 (blk + i * s_blocks_per_group s.sb + 1 : Nat)), u) ∧
      Changed s a i (set_bit (bitmapOf a s.gds i) blk) (-1) u := by
  obtain ⟨hf, h0, h1⟩ := hu
  unfold ballocIn
  rw [Prog.bind_run (Prog.get_run t)]
  simp only [ht.gds, ht.sb]
  rw [if_pos hf]
  obtain ⟨u, hu, hru⟩ := bitmap_read hw hr ht
  rw [Prog.bind_run hu, if_neg (by push Not; exact ⟨h0, h1⟩), hblk]
  exact bitmap_written hw hr hru _ _ _

end

/-! ## the two calls -/

theorem contiguous_eq {s : State} (hw : Writable s) (n : Int) :
    ext2_contiguous_balloc n s = firstGroup (contiguousIn n) (List.range s.groups) s := by
  unfold ext2_contiguous_balloc
  rw [Prog.bind_run (Prog.get_run s), if_neg (by rw [hw.readonly]; exact Bool.false_ne_true)]
  rfl

theorem balloc_eq {s : State} (hw : Writable s) :
    ext2_balloc s = firstGroup ballocIn (List.range s.groups) s := by
  unfold ext2_balloc
  rw [Prog.bind_run (Prog.get_run s), if_neg (by rw [hw.readonly]; exact Bool.false_ne_true)]
  rfl

section
variable {s : State} {a : Nat → List UInt8} (hw : Writable s) (ha : Bio.Held s.bio a)
include hw ha

theorem contiguous_none {n : Int} (hr : SearchInReach s a n (words n))
    (hno : ∀ i, i < s.groups → ∀ f, ¬ RunIn s a n (words n) i f) :
    ∃ u, ext2_contiguous_balloc n s = some (0, u) ∧ ReadOnly s u a := by
  rw [contiguous_eq hw]
  apply firstGroup_none
  · intro j hj
    apply contiguousIn_pass hw _ (hno j hj)
    intro hn
    exact hr j hj hn fun j' hj' ⟨f, hf⟩ => hno j' (by omega) f hf
  · exact ReadOnly.refl ha

theorem contiguous_at {n : Int} {i f : Nat} (hr : SearchInReach s a n (words n))
    (hfirst : FirstIn s a n (words n) i f) :
    ∃ u, ext2_contiguous_balloc n s
        = some (sgn 32 (f * 32 + i * s_blocks_per_group s.sb + 1 : Nat), u) ∧
      Changed s a i (setBits (bitmapOf a s.gds i) (f * 32) n.toNat) (-n) u := by
  have hbefore : ∀ j, j < i → ¬ ∃ f, RunIn s a n (words n) j f :=
    fun j hj ⟨g, hg⟩ => hfirst.groups j hj g hg
  rw [contiguous_eq hw]
  apply firstGroup_at hfirst.group
  · intro j hj
    have hjg : j < s.groups := Nat.lt_trans hj hfirst.group
    apply contiguousIn_pass hw _ (hfirst.groups j hj)
    intro hn
    exact hr j hjg hn fun j' hj' => hbefore j' (by omega)
  · intro t ht
    apply contiguousIn_take hw _ hfirst.run.1 _ ht
    · exact hr i hfirst.group hfirst.run.1 hbefore
    · exact ⟨hfirst.run.2, fun g hg hrun => hfirst.before g hg ⟨hfirst.run.1, hrun⟩⟩
  · exact ReadOnly.refl ha

theorem balloc_none (hr : BallocInReach s a) (hno : ∀ i, i < s.groups → ¬ UsableIn s a i) :
    ∃ u, ext2_balloc s = some (0, u) ∧ ReadOnly s u a := by
  rw [balloc_eq hw]
  apply firstGroup_none
  · intro j hj
    apply ballocIn_pass hw _ (hno j hj)
    intro hn
    exact hr j hj hn fun j' hj' => hno j' (by omega)
  · exact ReadOnly.refl ha

theorem balloc_at (hr : BallocInReach s a) {i : Nat} (hi : i < s.groups) (hu : UsableIn s a i)
    (hno : ∀ j, j < i → ¬ UsableIn s a j) {blk : Nat}
    (hblk : find_first_zero_bit (bitmapOf a s.gds i) (s_blocks_per_group s.sb) = blk) :
    ∃ u, ext2_balloc s = some (sgn 32 (blk + i * s_blocks_per_group s.sb + 1 : Nat), u) ∧
      Changed s a i (set_bit (bitmapOf a s.gds i) blk) (-1) u := by
  rw [balloc_eq hw]
  apply firstGroup_at hi
  · intro j hj
    have hjg : j < s.groups := Nat.lt_trans hj hi
    apply ballocIn_pass hw _ (hno j hj)
    intro hn
    exact hr j hjg hn fun j' hj' => hno j' (by omega)
  · intro t ht
    exact ballocIn_take hw (hr i hi hu.1 hno) hu ht hblk
  · exact ReadOnly.refl ha

end

/-- the number of the first block of a run -/
theorem FirstIn.number {s : State} {a : Nat → List UInt8} (hw : Writable s) {n : Int} {k i f : Nat}
    (hk : 1 ≤ k) (h : FirstIn s a n k i f) :
    f * 32 + i * s_blocks_per_group s.sb + 32 * k < 4294967296 := by
  have h1 := hw.toSized.number h.group (j := f * 32 + 32 * k - 1) (by
    have := h.run.2.1
    omega)
  omega

/-! ## the search finds the first run -/

/-- **`ext2_contiguous_balloc` finds the first run of its kind.**  On a writable file system of
1024-byte blocks whose bitmaps, as far as the search reads them, are below 2 GB, the scan of every
bitmap ends; 0 is returned exactly when no group with enough free blocks has a run of clear words
that is long enough; and otherwise the number returned is that of the first block of the first
run of the first such group, where `n` blocks are marked. -/
theorem contiguous_balloc_first (s : State) (hw : Writable s) (hb : ∃ a, Bio.Held s.bio a) (n : Nat)
    (h1 : 1 ≤ n) (hn : n < 2147483648)
    (hr : SearchInReach s (contents s.bio) n ((n + 31) / 32)) :
    (∀ m : Mem, searchRun m (longsNeeded n) (s_blocks_per_group s.sb / 32)
        (s_blocks_per_group s.sb / 32 + 1) 0
      = some (findRun m (longsNeeded n) (s_blocks_per_group s.sb / 32)
          (s_blocks_per_group s.sb / 32 + 1) 0)) ∧
    ∃ r t, ext2_contiguous_balloc n s = some (r, t) ∧
      (r = 0 ↔ ¬ ∃ i, i < s.groups ∧ ∃ f, RunIn s (contents s.bio) n ((n + 31) / 32) i f) ∧
      (r ≠ 0 → ∃ i f, FirstIn s (contents s.bio) n ((n + 31) / 32) i f ∧
        uns 32 r = i * s_blocks_per_group s.sb + f * 32 + 1 ∧
        contents t.bio = Function.update (contents s.bio) (bg_block_bitmap s.gds i)
          ((setBits (bitmapOf (contents s.bio) s.gds i) (f * 32) n).get 0 1024)) := by
  obtain ⟨a, ha⟩ := hb
  rw [contents_eq ha, ← words_natCast h1 hn] at *
  refine ⟨fun m => searchRun_ends m _ _ _ 0 (by omega) (by omega), ?_⟩
  by_cases hex : ∃ i, i < s.groups ∧ ∃ f, RunIn s a n (words n) i f
  · obtain ⟨i, f, hfirst⟩ := exists_firstIn hex
    obtain ⟨t, ht, b, l, rfl, hb, -⟩ := contiguous_at hw ha hr hfirst
    have hnum := hfirst.number hw (words_pos n)
    have hpos := words_pos n
    obtain ⟨hne, huns⟩ := sgn32_number (x := f * 32 + i * s_blocks_per_group s.sb + 1) (by omega)
      (by omega)
    refine ⟨_, _, ht, ?_, fun _ => ⟨i, f, hfirst, ?_, ?_⟩⟩
    · constructor
      · intro h0
        exact absurd h0 hne
      · intro hnone
        exact absurd hex hnone
    · rw [huns]
      omega
    · show contents b = _
      rw [contents_eq hb, Int.toNat_natCast]
  · obtain ⟨t, ht, -⟩ := contiguous_none hw ha hr fun i hi f hf => hex ⟨i, hi, f, hf⟩
    refine ⟨0, t, ht, ⟨fun _ => hex, fun _ => rfl⟩, fun h => ?_⟩
    exact absurd rfl h

/-! ## a group with one clear word -/

/-- one group of 64 blocks; its bitmap is block 20, and the blocks 33 to 64 are free -/
def half : State :=
  { full 1 with
    sb := record [(4, 65, 4), (12, 32, 4), (20, 1, 4), (32, 64, 4), (40, 8, 4), (56, 0xEF53, 2)]
    gds := fun x => buffer (ofNum 20 4 ++ ofNum 21 4 ++ ofNum 22 4 ++ ofNum 32 2 ++ ofNum 0 18) (x % 32)
    bio := Bio.binit 1024
      ⟨0, 0, fun _ => ⟨0, 0, false, none⟩, fun x => if 20484 ≤ x ∧ x < 20488 then 0 else 0xff, 0⟩ }

theorem half_bitmap (i : Nat) (hi : i < half.groups) : bg_block_bitmap half.gds i = 20 := by
  obtain rfl : i = 0 := Nat.lt_one_iff.mp hi
  decide

theorem half_held : ∃ a, Bio.Held half.bio a := ⟨_, Bio.binit_held _ 1024⟩

theorem half_writable : Writable half where
  readonly := rfl
  blocksize := rfl
  fits := by decide
  numbers := by decide

theorem half_reach (wants found : Nat → Prop) : ReadsInReach half wants found := by
  intro i hi _ _
  rw [BitmapReadable, BitmapInReach, half_bitmap i hi]
  decide

theorem contiguous_balloc_first_half :
    Writable half ∧ SearchInReach half (contents half.bio) (32 : Nat) ((32 + 31) / 32) ∧
      ∃ r t, ext2_contiguous_balloc (32 : Nat) half = some (r, t) ∧
        (r = 0 ↔ ¬ ∃ i, i < half.groups ∧
          ∃ f, RunIn half (contents half.bio) (32 : Nat) ((32 + 31) / 32) i f) := by
  obtain ⟨-, r, t, h, h0, -⟩ := contiguous_balloc_first half half_writable half_held 32 (by decide)
    (by decide) (half_reach _ _)
  exact ⟨half_writable, half_reach _ _, r, t, h, h0⟩

/-! ## a file system of more than 4 GB -/

/-- as `fullDesc`, but the bitmap of the first group is its 31st block, and the free block is in
group 512 -/
def farDesc (g : Nat) : List UInt8 :=
  ofNum (if g = 0 then 30 else g * 8192 + 20) 4 ++ ofNum (g * 8192 + 21) 4
    ++ ofNum (g * 8192 + 22) 4 ++ ofNum (if g = 512 then 1 else 0) 2 ++ ofNum 0 18

/-- every bit of the device is set, but bit 5 of the bitmap of group 512 and the first word of the
data block 20 -/
def farDisk : Mem := fun x =>
  if x = 4294987776 then 0xdf else if 20480 ≤ x ∧ x < 20484 then 0 else 0xff

def far : State :=
  { full 513 with
    gds := fun x => buffer (farDesc (x / 32)) (x % 32)
    bio := Bio.binit 1024 ⟨0, 0, fun _ => ⟨0, 0, false, none⟩, farDisk, 0⟩ }

theorem far_groups : far.groups = 513 := rfl

theorem far_per : s_blocks_per_group far.sb = 8192 := full_per 513 .block

theorem far_bitmap (g : Nat) (hg : g < 1000) :
    bg_block_bitmap far.gds g = if g = 0 then 30 else g * 8192 + 20 := by
  show far.gds.le (g * 32 + 0) 4 = _
  rw [show far.gds.le (g * 32 + 0) 4 = _ from
    desc_le farDesc (fun _ => by simp [farDesc]) g 0 4 (by omega)]
  simp only [farDesc, List.drop_zero, List.append_assoc, List.take_left' (length_ofNum _ 4), num_ofNum]
  split
  · rfl
  · omega

theorem far_free (g : Nat) : bg_free_blocks_count far.gds g = if g = 512 then 1 else 0 := by
  show far.gds.le (g * 32 + 12) 2 = _
  have hdrop : (farDesc g).drop 12 = ofNum (if g = 512 then 1 else 0) 2 ++ ofNum 0 18 := by
    rw [farDesc, List.append_assoc]
    exact List.drop_left' (by simp)
  rw [show far.gds.le (g * 32 + 12) 2 = _ from
    desc_le farDesc (fun _ => by simp [farDesc]) g 12 2 (by omega), hdrop,
    List.take_left' (length_ofNum _ 2), num_ofNum]
  split <;> rfl

theorem far_held : Bio.Held far.bio fun b => farDisk.get (b * 1024) 1024 :=
  Bio.binit_held _ 1024

theorem far_writable : Writable far where
  readonly := rfl
  blocksize := rfl
  fits := by rw [far_per]
  numbers := by rw [far_per, far_groups]; decide

/-- a bit of the bitmap of a group: the first group's is full as well -/
theorem far_bit (i j : Nat) (hi : i < 513) (hj : j < 8192) :
    far.bit .block i j = !decide (i = 512 ∧ j = 5) := by
  have hm : j % 8 < 8 := Nat.mod_lt _ (by decide)
  show Bitmap.bit (buffer (contents far.bio (bg_block_bitmap far.gds i))) j = _
  have h512 : bg_block_bitmap far.gds i = 4194324 ↔ i = 512 := by
    rw [far_bitmap i (by omega)]
    split <;> omega
  have h20 : bg_block_bitmap far.gds i ≠ 20 := by
    rw [far_bitmap i (by omega)]
    split <;> omega
  rw [contents_eq far_held, Bitmap.bit, buffer, List.getD_eq_getElem?_getD,
    Mem.get_getElem? _ _ _ _ (by omega), Option.getD_some]
  simp only [← h512]
  generalize bg_block_bitmap far.gds i = b at h20
  unfold farDisk
  by_cases hx : b * 1024 + j / 8 = 4294987776
  · have hb : b = 4194324 := by omega
    have hj8 : j % 8 = j := by omega
    rw [if_pos hx, (testBit_full _ hm).2, hj8]
    simp [hb]
  · have hne : ¬ (b = 4194324 ∧ j = 5) := by
      rintro ⟨rfl, rfl⟩
      exact hx rfl
    rw [if_neg hx, if_neg (by omega), (testBit_full _ hm).1]
    simp [hne]

/-- no group has a clear word -/
theorem far_no_run (i : Nat) (hi : i < far.groups) (f : Nat) :
    ¬ RunIn far (contents far.bio) 1 1 i f := by
  rintro ⟨-, hrun⟩
  rw [far_per] at hrun
  have hlt := hrun.1
  have hbit := bit_of_run hrun (j := f * 32 + 8) (by omega) (by omega)
  have h := far_bit i (f * 32 + 8) hi (by omega)
  rw [show far.bit .block i (f * 32 + 8) = false from hbit] at h
  simp at h

/-- past 4 GB: the bitmap of group 512 is not read, but block 20, and a block in use is given out -/
theorem far_search :
    Writable far ∧ (∃ a, Bio.Held far.bio a) ∧
      (¬ ∃ i, i < far.groups ∧ ∃ f, RunIn far (contents far.bio) 1 ((1 + 31) / 32) i f) ∧
      (ext2_contiguous_balloc 1 far).map (·.1) = some 4194305 ∧
      far.bit .block 512 0 = true := by
  refine ⟨far_writable, ⟨_, far_held⟩, ?_, by decide +kernel, ?_⟩
  · rintro ⟨i, hi, f, hf⟩
    exact far_no_run i hi f hf
  · rw [far_bit 512 0 (by decide) (by decide)]
    decide

end E2
