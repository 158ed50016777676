import Aboot.E2.Mapping

/-!
# Blocks that an inode has gained

`Grown s i N c t`: from `s` to `t` the blocks `N` were allocated and `c` blocks were counted in the
inode.

* `consistent_of`, `grown_of`   the pointers are old ones, or lead to the new blocks;
* `Grown.trans`     one step after another;
* `Stage`           a pointer is found, or a block is linked in for it, or there is none left.
-/

set_option linter.unusedVariables false

namespace E2
open Word Bytes Bitmap
open Ext2 (s_blocks_per_group i_block i_blocks i_size blkptr blkptr_natCast EXT2_NDIR_BLOCKS EXT2_IND_BLOCK
  EXT2_DIND_BLOCK)

/-! ## blocks that other blocks leave alone -/

/-- the bitmaps have the same contents -/
theorem Sound.of_same {s t : State} (h : Sound s) (hsb : t.sb = s.sb) (hgds : t.gds = s.gds)
    (hn : t.ngroups = s.ngroups) (hbs : t.bio.bio_blocksize = s.bio.bio_blocksize)
    (ha : ∃ a, Bio.Held t.bio a)
    (hc : ∀ k g, s.Group k g → contents t.bio (k.map s.gds g) = contents s.bio (k.map s.gds g)) : Sound t := by
  have hgroups : t.groups = s.groups := by
    rw [State.groups, hn]
    rfl
  have hshape : SameShape s t := ⟨hgroups, fun _ => by rw [hsb], fun _ _ => by rw [hsb], fun _ _ => by rw [hgds]⟩
  refine ⟨h.plan.same hshape (hbs.trans h.plan.blocksize), ⟨fun k g hg => ?_, fun k => ?_,
    fun k g j hg h1 h2 => ?_⟩, ha⟩
  · rw [hgroups] at hg
    rw [hgds, hsb, h.counted.free k g hg]
    rcases Nat.eq_zero_or_pos (k.size s.sb g) with h0 | h0
    · rw [h0]
      rfl
    · rw [hc k g ⟨hg, h0⟩]
  · rw [hgroups, hsb, hgds]
    exact h.counted.total k
  · have hg := (hshape.group k g).mp hg
    rw [hsb] at h1
    rw [State.bit, hgds, hc k g hg]
    exact h.counted.tail k g j hg h1 h2

/-- the numbers of the file system, and whether they are in use -/
theorem SameShape.number {s t : State} (h : SameShape s t) (k : Kind) (b : Nat) :
    t.Number k b ↔ s.Number k b := by
  unfold State.Number
  rw [h.groups, h.per, h.size]

theorem SameShape.trans {s t u : State} (h : SameShape s t) (h' : SameShape t u) : SameShape s u :=
  ⟨h'.groups.trans h.groups, fun k => (h'.per k).trans (h.per k),
    fun k i => (h'.size k i).trans (h.size k i), fun k i => (h'.map k i).trans (h.map k i)⟩

theorem SameShape.refl (s : State) : SameShape s s := ⟨rfl, fun _ => rfl, fun _ _ => rfl, fun _ _ => rfl⟩

theorem SameShape.small {s t : State} (h : SameShape s t) (hs : Small s) : Small t where
  blocks b hb := hs.blocks b ((h.number .block b).mp hb)
  bitmaps g hg := by
    rw [show bg_block_bitmap t.gds g = bg_block_bitmap s.gds g from h.map .block g]
    exact hs.bitmaps g ((h.group .block g).mp hg)

/-- a number has its bit in a bitmap -/
theorem State.Number.group {s : State} {k : Kind} {b : Nat} (h : s.Number k b) :
    s.Group k ((b - 1) / k.per s.sb) := ⟨h.2.1, Nat.lt_of_le_of_lt (Nat.zero_le _) h.2.2⟩

theorem State.Number.bit_lt {s : State} (hl : Plan s) {k : Kind} {b : Nat} (h : s.Number k b) :
    (b - 1) % k.per s.sb < 8192 :=
  Nat.lt_of_lt_of_le h.2.2 ((k.size_le s.sb _).trans (hl.fits k))

/-- the numbers in use after one was taken -/
theorem Took.used_iff {s t : State} {b : Nat} (hl : Plan s) (hshape : SameShape s t)
    (h : Took .block b 1 s t) {x : Nat} (hx : s.Number .block x) :
    t.used .block x = true ↔ s.used .block x = true ∨ x = b := by
  by_cases e : x = b
  · subst e
    simp only [or_true, iff_true]
    exact h.used x (le_refl x) (by omega)
  · simp only [e, or_false]
    have hsplit := Nat.div_add_mod (x - 1) (Kind.per s.sb .block)
    rw [Nat.mul_comm] at hsplit
    have hrest := h.rest .block ((x - 1) / Kind.per s.sb .block) ((x - 1) % Kind.per s.sb .block) hx.group
      (hx.bit_lt hl) (by
        rintro ⟨-, -, h1, h2⟩
        have := hx.1
        omega)
    rw [State.used, State.used, hshape.per, hrest]

/-! ## growing -/

/-- `c` more blocks are counted in the inode, and its size is as it was -/
structure CountedIn (s : State) (i : Slot) (c : Nat) (t : State) : Prop where
  blocks : i_blocks (t.inode i) = (i_blocks (s.inode i) + 2 * c) % 4294967296
  size : i_size (t.inode i) = i_size (s.inode i)

theorem CountedIn.none {s t : State} {i : Slot} (h : t.inode i = s.inode i) : CountedIn s i 0 t := by
  refine ⟨?_, by rw [h]⟩
  rw [h]
  exact (Nat.mod_eq_of_lt (Mem.le32_lt _ _)).symm

/-- from `s` to `t` the blocks `N` were allocated, and `c` blocks were counted in the inode; the blocks
of the file are where they were, with the same bytes -/
structure Grown (s : State) (i : Slot) (N : List Nat) (c : Nat) (t : State) : Prop
    extends CountedIn s i c t where
  consistent : Consistent t i
  shape : SameShape s t
  readonly : t.readonly = s.readonly
  nodup : N.Nodup
  free : ∀ x ∈ N, s.Number .block x ∧ s.used .block x = false
  used : ∀ x, s.Number .block x → (t.used .block x = true ↔ s.used .block x = true ∨ x ∈ N)
  gives : Gives s N t
  supply : supply t + N.length = supply s
  data : ∀ p, Leaf p → (forest s i).ptr p ≠ 0 → (forest t i).ptr p = (forest s i).ptr p ∧
    contents t.bio (uns 32 ((forest s i).ptr p)) = contents s.bio (uns 32 ((forest s i).ptr p))

theorem Grown.refl {s : State} {i : Slot} (h : Consistent s i) : Grown s i [] 0 s where
  toCountedIn := CountedIn.none rfl
  consistent := h
  shape := SameShape.refl s
  readonly := rfl
  nodup := List.nodup_nil
  free x hx := by cases hx
  used x _ := by simp
  gives := Gives.same rfl rfl fun _ _ => rfl
  supply := rfl
  data _ _ _ := ⟨rfl, rfl⟩

theorem Grown.trans {s t u : State} {i : Slot} {N M : List Nat} {c d : Nat} (h : Grown s i N c t)
    (h' : Grown t i M d u) : Grown s i (N ++ M) (c + d) u where
  consistent := h'.consistent
  shape := h.shape.trans h'.shape
  readonly := h'.readonly.trans h.readonly
  nodup := by
    refine List.nodup_append.mpr ⟨h.nodup, h'.nodup, fun x hx y hy e => ?_⟩
    obtain ⟨hnum, -⟩ := h.free x hx
    have hused := (h.used x hnum).mpr (Or.inr hx)
    rw [e, (h'.free y hy).2] at hused
    cases hused
  free x hx := by
    rcases List.mem_append.mp hx with hx | hx
    · exact h.free x hx
    · obtain ⟨hnum, hfree⟩ := h'.free x hx
      have hnum := (h.shape.number .block x).mp hnum
      refine ⟨hnum, ?_⟩
      by_contra hne
      rw [Bool.not_eq_false] at hne
      rw [(h.used x hnum).mpr (Or.inl hne)] at hfree
      cases hfree
  used x hx := by
    rw [h'.used x ((h.shape.number .block x).mpr hx), h.used x hx, List.mem_append, or_assoc]
  blocks := by
    rw [h'.blocks, h.blocks]
    omega
  size := h'.size.trans h.size
  gives := h.gives.trans h'.gives
  data p hp h0 := by
    obtain ⟨e, hc⟩ := h.data p hp h0
    obtain ⟨e', hc'⟩ := h'.data p hp (by rwa [e])
    rw [e] at e' hc'
    exact ⟨e', hc'.trans hc⟩
  supply := by
    have h1 := h.supply
    have h2 := h'.supply
    rw [List.length_append]
    omega

/-- another inode and other buffers with the same bitmaps: nothing is allocated or freed -/
theorem same_bitmaps {t₀ t : State} (hok : Sound t₀) {f : Slot → Entry} {b : Bio.State} {l : List Int}
    (hheld : ∃ a, Bio.Held b a) (hbs : b.bio_blocksize = t₀.bio.bio_blocksize)
    (hmaps : ∀ k g, t₀.Group k g → contents b (k.map t₀.gds g) = contents t₀.bio (k.map t₀.gds g))
    (ht : t = { t₀ with inode_table := f, bio := b, asked := l }) :
    Sound t ∧ SameShape t₀ t ∧ (∀ x, t₀.Number .block x → t.used .block x = t₀.used .block x) ∧
      Gives t₀ [] t := by
  have hokt : Sound t := by
    rw [ht]
    exact hok.of_same rfl rfl rfl hbs hheld hmaps
  have hshape : SameShape t₀ t := by
    rw [ht]
    exact ⟨rfl, fun _ => rfl, fun _ _ => rfl, fun _ _ => rfl⟩
  have hbit : ∀ k g j, t₀.Group k g → t.bit k g j = t₀.bit k g j := by
    intro k g j hg
    rw [ht]
    show Bitmap.bit (buffer (contents b (k.map t₀.gds g))) j = _
    rw [hmaps k g hg]
    rfl
  refine ⟨hokt, hshape, fun x hx => ?_, ?_⟩
  · rw [State.used, State.used, hshape.per]
    exact hbit .block _ _ hx.group
  · refine Gives.same hshape.groups (by rw [ht]) fun g hg => ?_
    exact freeIn_congr hok hshape hg fun j hg _ => hbit .block g j hg

/-- the state `t` is `t₀` with another inode and other buffers, and `t₀` is `s` after an allocation;
the pointers of `t` are old ones, or lead to the new blocks -/
theorem consistent_of {s t₀ : State} {i : Slot} (h : Consistent s i) (hok : Sound t₀) (haside : Aside s t₀)
    {N : List Nat}
    (hfree : ∀ x ∈ N, s.Number .block x ∧ s.used .block x = false)
    (hused : ∀ x, s.Number .block x → (t₀.used .block x = true ↔ s.used .block x = true ∨ x ∈ N))
    (hgives : Gives s N t₀) {f : Slot → Entry} {b : Bio.State} {l : List Int}
    (hheld : ∃ a, Bio.Held b a) (hbs : b.bio_blocksize = t₀.bio.bio_blocksize)
    (hmaps : ∀ k g, s.Group k g → contents b (k.map s.gds g) = contents t₀.bio (k.map s.gds g))
    {t : State} (ht : t = { t₀ with inode_table := f, bio := b, asked := l })
    (hptr : ∀ p, Path p → (forest t i).ptr p ≠ 0 → (∃ q, Path q ∧ (forest t i).ptr p = (forest s i).ptr q) ∨
      uns 32 ((forest t i).ptr p) ∈ N)
    (hdistinct : Radix.Distinct Path (forest t i)) :
    Consistent t i ∧ SameShape s t ∧
      (∀ x, s.Number .block x → (t.used .block x = true ↔ s.used .block x = true ∨ x ∈ N)) ∧
      Gives s N t := by
  have hrest := haside.rest
  have hmaps' : ∀ k g, t₀.Group k g → contents b (k.map t₀.gds g) = contents t₀.bio (k.map t₀.gds g) := by
    intro k g hg
    rw [haside.shape.map]
    exact hmaps k g ((haside.shape.group k g).mp hg)
  obtain ⟨hokt, hshape₀, hused₀, hsame⟩ := same_bitmaps hok hheld hbs hmaps' ht
  have hshape := haside.shape.trans hshape₀
  have hused' : ∀ x, s.Number .block x → t.used .block x = t₀.used .block x :=
    fun x hx => hused₀ x ((haside.shape.number .block x).mpr hx)
  -- a new block is not a bitmap, since the bitmaps are in use
  have hnomap : ∀ x ∈ N, ∀ k g, s.Group k g → x ≠ k.map s.gds g := by
    rintro x hx k g hg rfl
    obtain ⟨hnum, hf⟩ := hfree _ hx
    rw [h.maps k g hg hnum] at hf
    cases hf
  have hmono : ∀ x, s.Number .block x → s.used .block x = true → t.used .block x = true := by
    intro x hx hu
    rw [hused' x hx]
    exact (hused x hx).mpr (Or.inl hu)
  refine ⟨⟨hokt, ?_, ?_, ?_, ?_, ?_, ?_, ?_, hdistinct⟩, hshape, fun x hx => ?_, ?_⟩
  · have := h.numbers
    rw [hshape.groups]
    rwa [show s_blocks_per_group t.sb = s_blocks_per_group s.sb from hshape.per .block]
  · rw [ht, hrest]
    exact ⟨h.limits.blocksize, h.limits.directlim, h.limits.ind1lim⟩
  · rw [ht, hrest]
    exact h.ind2lim
  · rw [ht, hrest]
    exact h.ptrs_per_blk
  · intro k g hg hnum
    have hg := (hshape.group k g).mp hg
    rw [hshape.map] at hnum ⊢
    have hnum := (hshape.number .block _).mp hnum
    exact hmono _ hnum (h.maps k g hg hnum)
  · intro p hp h0
    rcases hptr p hp h0 with ⟨q, hq, e⟩ | hnew
    · rw [e] at h0 ⊢
      obtain ⟨hnum, hu⟩ := h.inUse q hq h0
      exact ⟨(hshape.number .block _).mpr hnum, hmono _ hnum hu⟩
    · obtain ⟨hnum, -⟩ := hfree _ hnew
      refine ⟨(hshape.number .block _).mpr hnum, ?_⟩
      rw [hused' _ hnum]
      exact (hused _ hnum).mpr (Or.inr hnew)
  · intro p hp h0 k g hg
    have hg := (hshape.group k g).mp hg
    rw [hshape.map]
    rcases hptr p hp h0 with ⟨q, hq, e⟩ | hnew
    · rw [e] at h0 ⊢
      exact h.apart q hq h0 k g hg
    · exact hnomap _ hnew k g hg
  · rw [hused' x hx]
    exact hused x hx
  · have hboth := hgives.trans hsame
    rwa [List.append_nil] at hboth

theorem grown_of {s t₀ : State} {i : Slot} (h : Consistent s i) (hok : Sound t₀) (haside : Aside s t₀)
    {N : List Nat} {c : Nat} (hnodup : N.Nodup)
    (hfree : ∀ x ∈ N, s.Number .block x ∧ s.used .block x = false)
    (hused : ∀ x, s.Number .block x → (t₀.used .block x = true ↔ s.used .block x = true ∨ x ∈ N))
    (hgives : Gives s N t₀) {f : Slot → Entry} {b : Bio.State} {l : List Int}
    (hheld : ∃ a, Bio.Held b a) (hbs : b.bio_blocksize = t₀.bio.bio_blocksize)
    (hmaps : ∀ k g, s.Group k g → contents b (k.map s.gds g) = contents t₀.bio (k.map s.gds g))
    {t : State} (ht : t = { t₀ with inode_table := f, bio := b, asked := l })
    (hcounts : CountedIn s i c t)
    (hdata : ∀ p, Leaf p → (forest s i).ptr p ≠ 0 → (forest t i).ptr p = (forest s i).ptr p ∧
      contents b (uns 32 ((forest s i).ptr p)) = contents t₀.bio (uns 32 ((forest s i).ptr p)))
    (hptr : ∀ p, Path p → (forest t i).ptr p ≠ 0 → (∃ q, Path q ∧ (forest t i).ptr p = (forest s i).ptr q) ∨
      uns 32 ((forest t i).ptr p) ∈ N)
    (hdistinct : Radix.Distinct Path (forest t i)) : Grown s i N c t := by
  obtain ⟨hcons, hshape, hused', hgives'⟩ := consistent_of h hok haside hfree hused hgives hheld hbs hmaps ht
    hptr hdistinct
  refine ⟨hcounts, hcons, hshape, ?_, hnodup, hfree, hused', hgives', hgives'.supply h.sound hcons.sound,
    fun p hp h0 => ?_⟩
  · rw [ht, haside.rest]
  · obtain ⟨e, hc⟩ := hdata p hp h0
    refine ⟨e, Eq.trans ?_ (hc.trans (haside.contents _ (h.apart p hp.1 h0 .block)))⟩
    rw [ht]

/-! ## one stage of an allocation -/

/-- the pointers and the blocks are the same -/
theorem forest_congr {s t : State} {i : Slot} (hin : t.inode i = s.inode i)
    (hc : contents t.bio = contents s.bio) : forest t i = forest s i := by
  unfold forest
  rw [hin, hc]

/-- blocks were read -/
theorem Consistent.still {s t : State} {i : Slot} (h : Consistent s i)
    (ht : ReadOnly s t (contents s.bio)) :
    Grown s i [] 0 t ∧ forest t i = forest s i ∧ contents t.bio = contents s.bio := by
  obtain ⟨b, l, rfl, hb, hbs⟩ := ht
  have hc : contents b = contents s.bio := contents_eq hb
  have hforest : forest (s.over b l) i = forest s i := forest_congr rfl hc
  have haside : Aside s s := ⟨SameShape.refl s, fun _ _ => rfl, rfl, rfl⟩
  refine ⟨?_, hforest, hc⟩
  refine grown_of h h.sound haside List.nodup_nil (fun x hx => by cases hx) (fun x _ => by simp)
    (Gives.same rfl rfl fun _ _ => rfl) (f := s.inode_table) (l := l) (t := s.over b l) ⟨_, hb⟩ hbs (fun k g _ => by rw [hc]) rfl
    (CountedIn.none rfl) (fun p _ _ => ?_) ?_ ?_
  · rw [hforest, hc]
    exact ⟨rfl, rfl⟩
  · intro p hp _
    exact Or.inl ⟨p, hp, by rw [hforest]⟩
  · rw [hforest]
    exact h.distinct

/-- a stage that is to find or to make the pointer at `p₀`: it is there, or a block was taken for it,
or there is none left -/
structure Stage (s : State) (i : Slot) (p₀ : List Nat) (r : Int) (t : State) (N : List Nat) : Prop where
  grown : Grown s i N N.length t
  ptr : ∀ p, Path p → (forest t i).ptr p = if p = p₀ then r else (forest s i).ptr p
  result : ((forest s i).ptr p₀ ≠ 0 ∧ r = (forest s i).ptr p₀ ∧ N = []) ∨
    ((forest s i).ptr p₀ = 0 ∧ ((r ≠ 0 ∧ N = [uns 32 r]) ∨ (r = 0 ∧ N = [] ∧ supply s = 0)))

/-- the pointer is there -/
theorem Stage.found {s t : State} {i : Slot} {p₀ : List Nat} (h : Consistent s i)
    (h0 : (forest s i).ptr p₀ ≠ 0) (ht : ReadOnly s t (contents s.bio)) :
    Stage s i p₀ ((forest s i).ptr p₀) t [] := by
  obtain ⟨hg, hforest, -⟩ := h.still ht
  refine ⟨hg, fun p _ => ?_, Or.inl ⟨h0, rfl, rfl⟩⟩
  rw [hforest]
  split
  · rename_i e
    rw [e]
  · rfl

theorem Aside.inode {s t : State} (h : Aside s t) (i : Slot) : t.inode i = s.inode i := by
  unfold State.inode
  rw [h.rest]

/-- an index block is as it was -/
theorem Aside.index {s t : State} {i : Slot} (h : Consistent s i) (ht : Aside s t) {p : List Nat} (hp : Path p)
    (h0 : (forest s i).ptr p ≠ 0) :
    E2.contents t.bio (uns 32 ((forest s i).ptr p)) = E2.contents s.bio (uns 32 ((forest s i).ptr p)) :=
  ht.contents _ (h.apart p hp h0 .block)

/-- a block that was taken is not one of the inode's -/
theorem Drew.fresh {s t : State} {i : Slot} (h : Consistent s i) {r : Int} (hdrew : Drew s r t)
    (hr : r ≠ 0) : s.Number .block (uns 32 r) ∧ s.used .block (uns 32 r) = false ∧
    ∀ p, Path p → (forest s i).ptr p ≠ 0 → uns 32 ((forest s i).ptr p) ≠ uns 32 r := by
  rcases hdrew with ⟨e, -⟩ | ⟨-, -, htook, -⟩
  · exact absurd e hr
  · have hnum := htook.number _ (le_refl _) (by omega)
    have hfree := htook.free _ (le_refl _) (by omega)
    refine ⟨hnum, hfree, fun p hp h0 e => ?_⟩
    rw [← e, (h.inUse p hp h0).2] at hfree
    cases hfree

section
variable {s t₀ : State} {i : Slot} (h : Consistent s i) (hok : Sound t₀) (haside : Aside s t₀) {r : Int}
  (hdrew : Drew s r t₀)
include h hok haside hdrew

/-- there is no block left, and `c` blocks are counted all the same -/
theorem Grown.none (hr : r = 0) {f : Slot → Entry} {b : Bio.State} {l : List Int}
    (hheld : ∃ a, Bio.Held b a) (hbs : b.bio_blocksize = t₀.bio.bio_blocksize)
    (hc : E2.contents b = E2.contents t₀.bio) {t : State}
    (ht : t = { t₀ with inode_table := f, bio := b, asked := l }) {c : Nat}
    (hptrs : ∀ k : Nat, k < 15 → i_block (t.inode i) k = i_block (s.inode i) k)
    (hcounts : CountedIn s i c t) :
    Grown s i [] c t ∧ E2.supply s = 0 ∧ ∀ p, Path p → (forest t i).ptr p = (forest s i).ptr p := by
  rcases hdrew with ⟨-, hsup, hquiet⟩ | ⟨hne, -⟩
  · have hptr : ∀ p, Path p → (forest t i).ptr p = (forest s i).ptr p := by
      apply Radix.ptr_congr path_closed
      · intro k hk
        rw [forest_root, forest_root, hptrs _ hk.root_lt]
      · intro j k p _ _
        rw [forest_entry, forest_entry, ht]
        show blkptr (buffer (E2.contents b _)) j = _
        rw [hc, hquiet.contents]
    refine ⟨?_, hsup, hptr⟩
    refine grown_of h hok haside List.nodup_nil (fun x hx => by cases hx) (fun x hx => ?_) hquiet.gives hheld
      hbs (fun k g _ => by rw [hc]) ht hcounts (fun p hp _ => ⟨hptr p hp.1, by rw [hc]⟩)
      (fun p hp _ => Or.inl ⟨p, hp, hptr p hp⟩) ?_
    · rw [State.used, State.used, hquiet.bit, haside.shape.per]
      simp
    · intro p q hp hq h0 e
      rw [hptr p hp] at h0 e
      rw [hptr q hq] at e
      exact h.distinct p q hp hq h0 e
  · exact absurd hr hne

/-- there is no block left -/
theorem Stage.none {p₀ : List Nat} (h0 : (forest s i).ptr p₀ = 0) (hr : r = 0) :
    Stage s i p₀ r t₀ [] := by
  have hin := haside.inode i
  obtain ⟨hgrown, hsup, hptr⟩ := Grown.none (t := t₀) (c := 0) h hok haside hdrew hr hok.coherent rfl rfl rfl
    (fun k _ => by rw [hin]) (CountedIn.none hin)
  refine ⟨hgrown, fun p hp => ?_, Or.inr ⟨h0, Or.inr ⟨hr, rfl, hsup⟩⟩⟩
  rw [hptr p hp]
  split
  · rename_i e
    rw [e, h0, hr]
  · rfl

/-- the block that was taken is linked in -/
theorem Stage.linked {p₀ : List Nat} (hr : r ≠ 0) {f : Slot → Entry} {b : Bio.State}
    {l : List Int} (hheld : ∃ a, Bio.Held b a) (hbs : b.bio_blocksize = t₀.bio.bio_blocksize)
    (hmaps : ∀ k g, s.Group k g →
      E2.contents b (k.map s.gds g) = E2.contents t₀.bio (k.map s.gds g))
    {t : State} (ht : t = { t₀ with inode_table := f, bio := b, asked := l })
    (hcounts : CountedIn s i 1 t)
    (hdata : ∀ p, Leaf p → (forest s i).ptr p ≠ 0 →
      E2.contents b (uns 32 ((forest s i).ptr p)) = E2.contents t₀.bio (uns 32 ((forest s i).ptr p)))
    (hlinks : Radix.Links Path (forest s i) (forest t i) p₀ r) : Stage s i p₀ r t [uns 32 r] := by
  obtain ⟨hnum, hfree, hnew⟩ := hdrew.fresh h hr
  have hptr := hlinks.ptr path_closed
  rcases hdrew with ⟨e, -⟩ | ⟨-, -, htook, hgives⟩
  · exact absurd e hr
  refine ⟨?_, hptr, Or.inr ⟨hlinks.free, Or.inl ⟨hr, rfl⟩⟩⟩
  refine grown_of h hok haside (List.nodup_singleton _) (fun x hx => ?_) (fun x hx => ?_) hgives hheld hbs
    hmaps ht hcounts (fun p hp h0 => ⟨?_, hdata p hp h0⟩) (fun p hp h0 => ?_) ?_
  · rw [List.mem_singleton.mp hx]
    exact ⟨hnum, hfree⟩
  · rw [htook.used_iff h.sound.plan haside.shape hx, List.mem_singleton]
  · rw [hptr p hp.1, if_neg]
    rintro rfl
    exact h0 hlinks.free
  · rw [hptr p hp] at h0 ⊢
    by_cases e : p = p₀
    · rw [if_pos e]
      exact Or.inr (List.mem_singleton_self _)
    · rw [if_neg e]
      exact Or.inl ⟨p, hp, rfl⟩
  · refine hlinks.distinct path_closed h.distinct fun p hp e => ?_
    apply hnew p hp
    · rw [e]
      exact hr
    · rw [e]

end

end E2
