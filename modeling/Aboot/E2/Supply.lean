import Aboot.E2.BootFile

/-!
# What `ext2_balloc` can give

* `usable_iff`      the groups that a block can be taken from, with true counts;
* `freeList`        the blocks of these groups, in the order in which they are given;
* `supply`          how many there are;
* `DrawsInReach`    the bitmaps that a number of calls read;
* `Gives`           blocks were taken from the list;
* `balloc_supply`   a call takes the first block of the list, or there is none left.
-/

set_option linter.unusedVariables false

namespace E2
open Word Bytes Bitmap
open Ext2 (s_blocks_per_group)

/-! ## the groups with blocks to give -/

/-- a group is passed over when its first block is free -/
theorem usable_iff {s : State} (h : Sound s) {g : Nat} (hg : g < s.groups) :
    UsableIn s (contents s.bio) g ↔ 0 < bg_free_blocks_count s.gds g ∧ s.bit .block g 0 = true := by
  have hbit : ∀ j, s.bit .block g j = Bitmap.bit (bitmapOf (contents s.bio) s.gds g) j := fun _ => rfl
  have hpos : 0 < s_blocks_per_group s.sb := h.plan.pos .block
  constructor
  · rintro ⟨hfree, hne, -⟩
    refine ⟨hfree, ?_⟩
    by_contra h0
    rw [Bool.not_eq_true, hbit] at h0
    exact hne (find_first_zero_bit_head hpos h0)
  · rintro ⟨hfree, hset⟩
    have hgroup : s.Group .block g := h.group hg hfree
    have hsize : Kind.size s.sb g .block ≤ s_blocks_per_group s.sb := Nat.min_le_left _ _
    have hfits : s_blocks_per_group s.sb ≤ 8192 := h.plan.fits .block
    -- the count says that there is a clear bit
    have hzeros : 0 < zeros (bitmapOf (contents s.bio) s.gds g) (Kind.size s.sb g .block) := by
      have := h.counted.free .block g hg
      show 0 < zeros (buffer (contents s.bio (Kind.map s.gds g .block))) _
      rw [← this]
      exact hfree
    obtain ⟨j, hj⟩ := Finset.card_pos.mp hzeros
    obtain ⟨hjlt, hj0⟩ := Finset.mem_filter.mp hj
    have hjlt := Finset.mem_range.mp hjlt
    obtain ⟨hlt, hclear⟩ := find_first_zero_bit_finds (show j < s_blocks_per_group s.sb by omega) hj0
    have hinside := h.clear_lt hgroup (by omega) ((hbit _).trans hclear)
    refine ⟨hfree, fun e => ?_, by omega⟩
    rw [e, ← hbit, hset] at hclear
    cases hclear

/-- the blocks that `ext2_balloc` can give in a group, in the order in which it gives them -/
def freeIn (s : State) (g : Nat) : List Nat :=
  if s.bit .block g 0 = true then
    ((List.range (Kind.size s.sb g .block)).filter fun j => !s.bit .block g j).map fun j =>
      g * s_blocks_per_group s.sb + j + 1
  else []

/-- the blocks that `ext2_balloc` can give in the first `n` groups -/
def freeBefore (s : State) (n : Nat) : List Nat := (List.range n).flatMap (freeIn s)

/-- the blocks that `ext2_balloc` can give -/
def freeList (s : State) : List Nat := freeBefore s s.groups

/-- how many blocks `ext2_balloc` can give -/
def supply (s : State) : Nat :=
  ∑ g ∈ Finset.range s.groups, if s.bit .block g 0 = true then bg_free_blocks_count s.gds g else 0

theorem freeBefore_succ (s : State) (n : Nat) : freeBefore s (n + 1) = freeBefore s n ++ freeIn s n := by
  rw [freeBefore, List.range_succ, List.flatMap_append, List.flatMap_singleton]
  rfl

/-- with true counts, a group gives as many blocks as its count says -/
theorem length_freeIn {s : State} (h : Sound s) {g : Nat} (hg : g < s.groups) : (freeIn s g).length
    = if s.bit .block g 0 = true then bg_free_blocks_count s.gds g else 0 := by
  have hfree : bg_free_blocks_count s.gds g
      = ((List.range (Kind.size s.sb g .block)).filter fun j => !s.bit .block g j).length := by
    refine (h.counted.free .block g hg).trans ?_
    rw [zeros, ← List.toFinset_card_of_nodup (List.nodup_range.filter _)]
    congr 1
    ext j
    simp [State.bit]
  unfold freeIn
  split
  · rw [List.length_map, hfree]
  · rfl

theorem supply_eq {s : State} (h : Sound s) : supply s = (freeList s).length := by
  have hn : ∀ n, n ≤ s.groups → (∑ g ∈ Finset.range n,
      if s.bit .block g 0 = true then bg_free_blocks_count s.gds g else 0) = (freeBefore s n).length := by
    intro n
    induction n with
    | zero => exact fun _ => rfl
    | succ n ih =>
      intro hle
      rw [Finset.sum_range_succ, freeBefore_succ, List.length_append, ih (by omega),
        length_freeIn h (by omega)]
  exact hn s.groups (le_refl _)

/-- a group that is passed over has no blocks to give -/
theorem freeIn_eq_nil {s : State} (h : Sound s) {g : Nat} (hg : g < s.groups)
    (hno : ¬ UsableIn s (contents s.bio) g) : freeIn s g = [] := by
  apply List.eq_nil_of_length_eq_zero
  rw [length_freeIn h hg]
  split
  · rename_i hset
    have := mt (usable_iff h hg).mpr hno
    by_contra h0
    exact this ⟨by omega, hset⟩
  · rfl

theorem freeBefore_eq_nil {s : State} {n : Nat} (h : ∀ g, g < n → freeIn s g = []) : freeBefore s n = [] :=
  List.flatMap_eq_nil_iff.mpr fun g hg => h g (List.mem_range.mp hg)

theorem freeList_eq_nil {s : State} (h : Sound s)
    (hno : ∀ g, g < s.groups → ¬ UsableIn s (contents s.bio) g) : freeList s = [] :=
  freeBefore_eq_nil fun g hg => freeIn_eq_nil h hg (hno g hg)

/-- the first bit of its kind, and the others -/
theorem filter_range_first {n b : Nat} {p q : Nat → Bool} (hb : b < n) (hp : p b = true)
    (hbefore : ∀ j, j < b → p j = false) (hq : ∀ j, j < n → q j = (p j && decide (j ≠ b))) :
    (List.range n).filter p = b :: (List.range n).filter q := by
  obtain ⟨rest, hrange⟩ := range_split hb
  have hnodup : (List.range n).Nodup := List.nodup_range
  rw [hrange] at hnodup
  have hrest : ∀ j ∈ rest, j < n ∧ j ≠ b := by
    intro j hj
    refine ⟨List.mem_range.mp ?_, ?_⟩
    · rw [hrange]
      exact List.mem_append_right _ (List.mem_cons_of_mem b hj)
    · rintro rfl
      exact (List.nodup_cons.mp (List.nodup_append.mp hnodup).2.1).1 hj
  have hsame : rest.filter p = rest.filter q := by
    apply List.filter_congr
    intro j hj
    rw [hq j (hrest j hj).1, decide_eq_true (hrest j hj).2, Bool.and_true]
  have hfirst : (List.range b).filter p = [] ∧ (List.range b).filter q = [] := by
    constructor
    · rw [List.filter_eq_nil_iff]
      intro j hj
      rw [hbefore j (List.mem_range.mp hj)]
      decide
    · rw [List.filter_eq_nil_iff]
      intro j hj
      have hj := List.mem_range.mp hj
      rw [hq j (by omega), hbefore j hj, Bool.false_and]
      decide
  have hqb : q b = false := by
    rw [hq b hb, decide_eq_false (by simp), Bool.and_false]
  rw [hrange, List.filter_append, List.filter_append, hfirst.1, hfirst.2, List.filter_cons_of_pos hp,
    List.filter_cons_of_neg (by rw [hqb]; decide), hsame]
  rfl

/-- a group whose bits have not changed -/
theorem freeIn_congr {s t : State} (h : Sound s) (hshape : SameShape s t) {g : Nat} (hg : g < s.groups)
    (hbit : ∀ j, s.Group .block g → j < 8192 → t.bit .block g j = s.bit .block g j) :
    freeIn t g = freeIn s g := by
  have hper : s_blocks_per_group t.sb = s_blocks_per_group s.sb := hshape.per .block
  have hle : Kind.size s.sb g .block ≤ 8192 := (Kind.block.size_le s.sb g).trans (h.plan.fits .block)
  unfold freeIn
  rw [hshape.size, hper]
  rcases Nat.eq_zero_or_pos (Kind.size s.sb g .block) with h0 | h0
  · rw [h0]
    simp
  · have hgroup : s.Group .block g := ⟨hg, h0⟩
    rw [hbit 0 hgroup (by decide)]
    have hfilter : ((List.range (Kind.size s.sb g .block)).filter fun j => !t.bit .block g j)
        = (List.range (Kind.size s.sb g .block)).filter fun j => !s.bit .block g j := by
      apply List.filter_congr
      intro j hj
      rw [hbit j hgroup (Nat.lt_of_lt_of_le (List.mem_range.mp hj) hle)]
    rw [hfilter]

/-! ## taking blocks from the list -/

/-- the bitmaps that `n` calls of `ext2_balloc` read can be read: those of groups with free blocks
that fewer than `n` blocks come before -/
def DrawsInReach (s : State) (n : Nat) : Prop :=
  ∀ g, g < s.groups → 0 < bg_free_blocks_count s.gds g → (freeBefore s g).length < n →
    BitmapReadable s.gds g

theorem DrawsInReach.mono {s : State} {n n' : Nat} (h : DrawsInReach s n) (hn : n' ≤ n) :
    DrawsInReach s n' := fun g hg hfree hlen => h g hg hfree (Nat.lt_of_lt_of_le hlen hn)

/-- the blocks `N` were taken from the list -/
structure Gives (s : State) (N : List Nat) (t : State) : Prop where
  list : freeList s = N ++ freeList t
  reach : ∀ n, DrawsInReach s (N.length + n) → DrawsInReach t n

theorem Gives.trans {s t u : State} {N M : List Nat} (h : Gives s N t) (h' : Gives t M u) :
    Gives s (N ++ M) u where
  list := by rw [h.list, h'.list, List.append_assoc]
  reach n hn := by
    rw [List.length_append, Nat.add_assoc] at hn
    exact h'.reach n (h.reach _ hn)

/-- the bitmaps and the counts are the same -/
theorem Gives.same {s t : State} (hgroups : t.groups = s.groups) (hgds : t.gds = s.gds)
    (hin : ∀ g, g < s.groups → freeIn t g = freeIn s g) : Gives s [] t := by
  have hbefore : ∀ n, n ≤ s.groups → freeBefore t n = freeBefore s n := by
    intro n hn
    apply List.flatMap_congr
    intro g hg
    exact hin g (Nat.lt_of_lt_of_le (List.mem_range.mp hg) hn)
  refine ⟨?_, fun n hn g hg hfree hlen => ?_⟩
  · rw [freeList, freeList, hgroups, hbefore _ (le_refl _)]
    rfl
  · rw [hgroups] at hg
    rw [hgds] at hfree ⊢
    rw [hbefore g (by omega)] at hlen
    refine hn g hg hfree ?_
    rwa [List.length_nil, Nat.zero_add]

theorem Gives.supply {s t : State} {N : List Nat} (h : Gives s N t) (hs : Sound s) (ht : Sound t) :
    E2.supply t + N.length = E2.supply s := by
  rw [supply_eq hs, supply_eq ht, h.list, List.length_append, Nat.add_comm]

/-- the first block of the first group with blocks to give was taken -/
theorem Gives.pop {s t : State} {g x : Nat} (hg : g < s.groups) (hgroups : t.groups = s.groups)
    (hmap : ∀ i, bg_block_bitmap t.gds i = bg_block_bitmap s.gds i)
    (hfree : ∀ i, i < s.groups → bg_free_blocks_count t.gds i ≤ bg_free_blocks_count s.gds i)
    (hbefore : ∀ i, i < g → freeIn s i = []) (hself : freeIn s g = x :: freeIn t g)
    (hother : ∀ i, i < s.groups → i ≠ g → freeIn t i = freeIn s i) : Gives s [x] t := by
  have hlow : ∀ n, n ≤ g → freeBefore s n = [] ∧ freeBefore t n = [] := by
    intro n hn
    refine ⟨freeBefore_eq_nil fun i hi => hbefore i (by omega), freeBefore_eq_nil fun i hi => ?_⟩
    rw [hother i (by omega) (by omega)]
    exact hbefore i (by omega)
  have hhigh : ∀ n, g < n → n ≤ s.groups → freeBefore s n = x :: freeBefore t n := by
    intro n
    induction n with
    | zero => exact fun h => absurd h (Nat.not_lt_zero g)
    | succ n ih =>
      intro h hle
      rw [freeBefore_succ, freeBefore_succ]
      rcases Nat.lt_or_ge g n with hlt | hge
      · rw [ih hlt (by omega), hother n (by omega) (by omega)]
        rfl
      · obtain rfl : n = g := by omega
        rw [(hlow n (le_refl n)).1, (hlow n (le_refl n)).2, hself]
        rfl
  refine ⟨?_, fun n hn i hi hfreei hlen => ?_⟩
  · rw [freeList, freeList, hgroups]
    exact hhigh s.groups hg (le_refl _)
  · rw [hgroups] at hi
    have hlen' : (freeBefore s i).length < [x].length + n := by
      rcases Nat.lt_or_ge g i with hlt | hle
      · rw [hhigh i hlt (by omega), List.length_cons, List.length_singleton]
        omega
      · rw [(hlow i hle).1]
        exact Nat.lt_of_lt_of_le (Nat.lt_succ_self 0) (Nat.le_add_right _ _)
    have := hn i hi (Nat.lt_of_lt_of_le hfreei (hfree i hi)) hlen'
    rwa [BitmapReadable, BitmapInReach, hmap i]

/-! ## one call -/

/-- nothing but block bitmaps, counts and buffers has changed -/
structure Aside (s t : State) : Prop where
  shape : SameShape s t
  contents : ∀ n, (∀ g, s.Group .block g → n ≠ bg_block_bitmap s.gds g) →
    contents t.bio n = contents s.bio n
  bio_blocksize : t.bio.bio_blocksize = s.bio.bio_blocksize
  rest : t = { s with sb := t.sb, gds := t.gds, bio := t.bio, asked := t.asked }

/-- what a call of `ext2_balloc` that returns `r` has done -/
def Drew (s : State) (r : Int) (t : State) : Prop :=
  (r = 0 ∧ supply s = 0 ∧ Quiet s t) ∨
    (r ≠ 0 ∧ sgn 32 r = r ∧ Took .block (uns 32 r) 1 s t ∧ Gives s [uns 32 r] t)

theorem Quiet.gives {s t : State} (h : Quiet s t) : Gives s [] t := by
  refine Gives.same h.groups h.gds fun g _ => ?_
  unfold freeIn
  simp only [h.bit, h.sb]

theorem ReadOnly.aside {s t : State} {a : Nat → List UInt8} (h : ReadOnly s t a)
    (ha : Bio.Held s.bio a) : Quiet s t ∧ Aside s t := by
  obtain ⟨b, l, rfl, hb, hbs⟩ := h
  have hc : E2.contents b = E2.contents s.bio := (contents_eq hb).trans (contents_eq ha).symm
  exact ⟨⟨rfl, rfl, rfl, hc⟩, ⟨⟨rfl, fun _ => rfl, fun _ _ => rfl, fun _ _ => rfl⟩,
    fun n _ => congrFun hc n, hbs, rfl⟩⟩

theorem Changed.aside {s t : State} {g : Nat} {m : Mem} {n : Int}
    (h : Changed s (E2.contents s.bio) g m n t) (hg : s.Group .block g) :
    Aside s t ∧ t.gds = (addFreeBlocks g n s).gds := by
  obtain ⟨b, l, rfl, hb, hbs⟩ := h
  refine ⟨⟨add_shape .block g n s b l, fun x hx => ?_, hbs, rfl⟩, rfl⟩
  show E2.contents b x = _
  rw [contents_eq hb, Function.update_of_ne (hx g hg)]

/-- the counts after a block was taken in a group -/
theorem taken_counts {s t : State} {g : Nat} (hgds : t.gds = (addFreeBlocks g (-1) s).gds)
    (hfree : 0 < bg_free_blocks_count s.gds g) :
    bg_free_blocks_count t.gds g + 1 = bg_free_blocks_count s.gds g ∧
      ∀ i, i ≠ g → bg_free_blocks_count t.gds i = bg_free_blocks_count s.gds i := by
  have hlt := Mem.le16_lt s.gds (g * 32 + 12)
  have hfree' : bg_free_blocks_count s.gds g = s.gds.le16 (g * 32 + 12) := rfl
  constructor
  · have h := le_put_self s.gds (g * 32 + 12) (uns 16 ((bg_free_blocks_count s.gds g : Int) + (-1))) 2
    rw [uns16_of_range (by omega) (by omega)] at h
    have e : bg_free_blocks_count t.gds g = (bg_free_blocks_count s.gds g + (-1 : Int)).toNat % 65536 := by
      rw [hgds]
      refine Eq.trans ?_ h
      show Mem.le16 (s.gds.put (g * 32 + 12) (ofNum (uns 16 _) 2)) (g * 32 + 12) = _
      rw [uns16_of_range (by omega) (by omega)]
      rfl
    rw [e]
    omega
  · intro i hi
    rw [hgds]
    exact add_gds .block g (-1) s (i * 32 + 12) 2 (by simp only [if_true]; omega)

/-- the block that is taken in a group is the first one of the group's list -/
theorem freeIn_taken {s t : State} (h : Sound s) {g blk : Nat} (hg : s.Group .block g)
    (hset : s.bit .block g 0 = true) (h0 : blk ≠ 0) (hblk : blk < Kind.size s.sb g .block)
    (hclear : s.bit .block g blk = false) (hfirst : ∀ j, j < blk → s.bit .block g j = true)
    (hshape : SameShape s t)
    (hbit : ∀ j, j < 8192 → t.bit .block g j = (s.bit .block g j || decide (j = blk))) :
    freeIn s g = (g * s_blocks_per_group s.sb + blk + 1) :: freeIn t g := by
  have hle : Kind.size s.sb g .block ≤ 8192 := (Kind.block.size_le s.sb g).trans (h.plan.fits .block)
  have hper : s_blocks_per_group t.sb = s_blocks_per_group s.sb := hshape.per .block
  have hset' : t.bit .block g 0 = true := by
    rw [hbit 0 (by decide), hset]
    rfl
  have hfilter : ((List.range (Kind.size s.sb g .block)).filter fun j => !s.bit .block g j)
      = blk :: (List.range (Kind.size s.sb g .block)).filter fun j => !t.bit .block g j := by
    apply filter_range_first hblk
    · rw [hclear]
      rfl
    · intro j hj
      rw [hfirst j hj]
      rfl
    · intro j hj
      rw [hbit j (by omega)]
      by_cases e : j = blk <;> simp [e]
  unfold freeIn
  rw [if_pos hset, if_pos hset', hshape.size, hper, hfilter, List.map_cons]

/-- **What `ext2_balloc` does**: it gives the first block of the list, and marks it, or the list is at
its end. -/
theorem balloc_supply {s : State} (h : Sound s) (hw : Writable s) (hr : DrawsInReach s 1) :
    ∃ r t, ext2_balloc s = some (r, t) ∧ Sound t ∧ Aside s t ∧ Drew s r t := by
  obtain ⟨a, ha⟩ := h.coherent
  obtain rfl := contents_eq ha
  have hreach : BallocInReach s (contents s.bio) := by
    intro i hi hfree hno
    refine hr i hi hfree ?_
    rw [freeBefore_eq_nil fun j hj => freeIn_eq_nil h (by omega) (hno j hj)]
    exact Nat.zero_lt_one
  by_cases hex : ∃ g, g < s.groups ∧ UsableIn s (contents s.bio) g
  · classical
    obtain ⟨hg, huse⟩ := Nat.find_spec hex
    generalize hgen : Nat.find hex = g at hg huse
    have hbefore : ∀ j, j < g → ¬ UsableIn s (contents s.bio) j := fun j hj hu =>
      Nat.find_min hex (hgen.symm ▸ hj) ⟨by omega, hu⟩
    generalize hblk : find_first_zero_bit (bitmapOf (contents s.bio) s.gds g) (s_blocks_per_group s.sb)
      = blk
    obtain ⟨t, hrun, hch⟩ := balloc_at hw ha hreach hg huse hbefore hblk
    obtain ⟨hfree, hset⟩ := (usable_iff h hg).mp huse
    have hgroup : s.Group .block g := h.group hg hfree
    have hfits : s_blocks_per_group s.sb ≤ 8192 := h.plan.fits .block
    have hsize : Kind.size s.sb g .block ≤ s_blocks_per_group s.sb := Nat.min_le_left _ _
    -- the block is in the group, and not its first one
    have h0 : blk ≠ 0 := fun e => huse.2.1 (hblk.trans e)
    have hspec := find_first_zero_bit_spec (bitmapOf (contents s.bio) s.gds g) (s_blocks_per_group s.sb)
      huse.2.2
    rw [hblk] at hspec
    have hclear : s.bit .block g blk = false := hspec.2
    have hlt : blk < Kind.size s.sb g .block := h.clear_lt hgroup (by omega) hclear
    have hfirst : ∀ j, j < blk → s.bit .block g j = true := fun j hj =>
      find_first_zero_bit_first huse.2.2 (hblk.symm ▸ hj)
    have hbit : ∀ j, Bitmap.bit (set_bit (bitmapOf (contents s.bio) s.gds g) blk) j
        = (s.bit .block g j || decide (j = blk)) := fun j => bit_set_bit _ _ _
    have hwrote : Wrote .block g (set_bit (bitmapOf (contents s.bio) s.gds g) blk) s t := by
      obtain ⟨b, l, rfl, hb, hbs⟩ := hch
      refine update_counted (k := .block) (d := -1) h hgroup ha hb (hbs.trans h.plan.blocksize) ?_ ?_
      · have hz : zeros (set_bit (bitmapOf (contents s.bio) s.gds g) blk) (Kind.size s.sb g .block) + 1
            = zeros (bitmapOf (contents s.bio) s.gds g) (Kind.size s.sb g .block) := by
          refine zeros_mark (Nat.succ_le_of_lt hlt) (fun j h1 h2 => ?_) (fun j h1 h2 => ?_) fun j _ hne => ?_
          · obtain rfl : j = blk := by omega
            exact hclear
          · rw [hbit, decide_eq_true (show j = blk by omega), Bool.or_true]
          · rw [hbit, decide_eq_false (show j ≠ blk by omega), Bool.or_false]
            rfl
        have hcount := h.counted.free .block g hg
        rw [show buffer (contents s.bio (Kind.map s.gds g .block)) = bitmapOf (contents s.bio) s.gds g from rfl]
          at hcount
        omega
      · intro j h1 h2
        rw [hbit, h.counted.tail .block g j hgroup h1 h2]
        rfl
    have htook : Took .block (g * Kind.per s.sb .block + blk + 1) 1 s t :=
      took_of_wrote hwrote h.plan hgroup (Nat.succ_le_of_lt hlt) (fun j h1 h2 => by rwa [show j = blk by omega])
      (fun j _ => by
        rw [hbit]
        congr 2
        simp only [eq_iff_iff]
        omega)
    have hnum := hw.toSized.number hg (Nat.lt_of_lt_of_le hlt hsize)
    obtain ⟨hne, huns⟩ := sgn32_number (x := blk + g * s_blocks_per_group s.sb + 1) (by omega) (by omega)
    have hx : uns 32 (sgn 32 (blk + g * s_blocks_per_group s.sb + 1 : Nat))
        = g * s_blocks_per_group s.sb + blk + 1 := by
      rw [huns, Nat.add_comm blk]
    obtain ⟨haside, hgds⟩ := hch.aside hgroup
    obtain ⟨hdown, hother⟩ := taken_counts hgds hfree
    refine ⟨_, t, hrun, hwrote.sound, haside, Or.inr ⟨hne, sgn32_sgn32 _, hx ▸ htook, ?_⟩⟩
    rw [hx]
    refine Gives.pop hg haside.shape.groups (fun i => haside.shape.map .block i) (fun i _ => ?_)
      (fun i hi => freeIn_eq_nil h (by omega) (hbefore i hi)) ?_ fun i hi hne => ?_
    · by_cases e : i = g
      · rw [e]
        omega
      · exact le_of_eq (hother i e)
    · refine freeIn_taken h hgroup hset h0 hlt hclear hfirst haside.shape fun j hj => ?_
      rw [hwrote.bit j hj, hbit]
    · exact freeIn_congr h haside.shape hi fun j hi hj => hwrote.rest .block i j hi (by simpa using hne)
  · have hno : ∀ g, g < s.groups → ¬ UsableIn s (contents s.bio) g := fun g hg hu => hex ⟨g, hg, hu⟩
    obtain ⟨t, hrun, hread⟩ := balloc_none hw ha hreach hno
    obtain ⟨hquiet, haside⟩ := hread.aside ha
    have hsound : Sound t := by
      obtain ⟨b, l, rfl, hb, hbs⟩ := hread
      exact (h.read l ha hb hbs).1
    refine ⟨0, t, hrun, hsound, haside, Or.inl ⟨rfl, ?_, hquiet⟩⟩
    rw [supply_eq h, freeList_eq_nil h hno]
    rfl

end E2
