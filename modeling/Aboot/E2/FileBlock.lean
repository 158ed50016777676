import Aboot.E2.Blkno

/-!
# Reading and writing a block of a file

* `ext2_bread_block`   the bytes of a block that is mapped;
* `ext2_bwrite_block`  a block is written, and the other blocks are as they were.
-/

set_option linter.unusedVariables false

namespace E2
open Word Bytes Bitmap
open Ext2 (s_blocks_per_group i_block i_blocks i_size blkptr)

/-- the bytes of a block of a file that is mapped -/
def fileBlock (s : State) (i : Slot) (k : Nat) : Mem :=
  buffer (contents s.bio (uns 32 ((forest s i).ptr (pathOf k))))

theorem ReadOnly.trans {s t u : State} (h : ReadOnly s t (contents s.bio))
    (h' : ReadOnly t u (contents t.bio)) : ReadOnly s u (contents s.bio) := by
  obtain ⟨b, l, rfl, hb, hbs⟩ := h
  obtain ⟨c, l', rfl, hc, hcs⟩ := h'
  have heq : contents (s.over b l).bio = contents s.bio := contents_eq hb
  rw [heq] at hc
  exact ⟨c, l', rfl, hc, hcs.trans hbs⟩

/-- blocks were read: the file is the same -/
theorem Consistent.read {s t : State} {i : Slot} (h : Consistent s i) (ht : ReadOnly s t (contents s.bio)) :
    Consistent t i ∧ forest t i = forest s i ∧ contents t.bio = contents s.bio ∧
      SameShape s t ∧ t.inode i = s.inode i ∧ t.readonly = s.readonly ∧ t.blocksize = s.blocksize := by
  obtain ⟨hgrown, hforest, hc⟩ := h.still ht
  obtain ⟨b, l, rfl, -, -⟩ := ht
  exact ⟨hgrown.consistent, hforest, hc, hgrown.shape, rfl, rfl, rfl⟩

/-- the block of a file, or the one that is allocated for it, is in reach -/
def BlockNear (s : State) (i : Slot) (k : Nat) : Prop :=
  if (forest s i).ptr (pathOf k) = 0 then ∀ x ∈ (freeList s).take (missing s i k + 1), Near x
  else Near (uns 32 ((forest s i).ptr (pathOf k)))

section
variable {s : State} {i : Slot} (h : Consistent s i) {k : Nat} (hk : k ≤ 65547)
include h hk

theorem ext2_bread_block (hs : IndicesNear s i) (h0 : (forest s i).ptr (pathOf k) ≠ 0)
    (hnear : Near (uns 32 ((forest s i).ptr (pathOf k)))) :
    ∃ u, ext2_bread i k s = some (fileBlock s i k, u) ∧ ReadOnly s u (contents s.bio) := by
  obtain ⟨t, hrun, hro⟩ := blkno_lookup h hs hk
  obtain ⟨ht, hforest, hc, hshape, -⟩ := h.read hro
  obtain ⟨a, ha⟩ := ht.sound.coherent
  obtain rfl := contents_eq ha
  obtain ⟨u, hu, hru⟩ := read_index ht (pathOf_path hk) (by rwa [hforest]) (by rwa [hforest])
    (ReadOnly.refl ha)
  rw [hforest, hc] at hu
  refine ⟨u, ?_, hro.trans hru⟩
  unfold ext2_bread
  rw [Prog.bind_run hrun, if_neg h0]
  exact hu

/-- the block that a call gives is the one of the file -/
theorem blkno_given (hs : Ready s i (draws s i k) (missing s i k)) (hro : s.readonly = false) :
    ∃ b t, ext2_blkno i k true s = some (b, t) ∧ (b ≠ 0 ↔ Provided s i k) ∧
      (b ≠ 0 → (forest t i).ptr (pathOf k) = b ∧ IndicesNear t i ∧ (∃ N c, Grown s i N c t) ∧
        (BlockNear s i k → Near (uns 32 b))) := by
  obtain ⟨b, t, hrun, ho⟩ := blkno_outcome h hs hro hk
  rcases ho with ⟨-, N, hgrown, hptr, horigin, hgiven, hnear, hlen⟩ | ⟨⟨-, -, h0, hsup⟩, hb, -⟩
  · refine ⟨b, t, hrun, hgiven, fun hb => ?_⟩
    have hptr' : (forest t i).ptr (pathOf k) = b := by
      rw [hptr k hk, if_pos ⟨rfl, hb⟩]
    refine ⟨hptr', hnear, ⟨N, N.length, hgrown⟩, fun hblock => ?_⟩
    unfold BlockNear at hblock
    split at hblock
    · rename_i h0
      rcases horigin hb with e | hnew
      · exact absurd (e.trans h0) hb
      · apply hblock
        rw [hgrown.gives.list, List.take_append, List.take_of_length_le hlen]
        exact List.mem_append_left _ hnew
    · rename_i h0
      rwa [← hptr', (hgrown.data _ (pathOf_leaf hk) h0).1]
  · refine ⟨b, t, hrun, iff_of_false (fun hb' => hb' hb) ?_, fun hb' => absurd hb hb'⟩
    rintro (e | e)
    · exact e h0
    · omega

/-- the bytes of a data block are not those of an index block or a bitmap -/
theorem store_consistent (h0 : (forest s i).ptr (pathOf k) ≠ 0)
    (hnear : Near (uns 32 ((forest s i).ptr (pathOf k)))) (m : Mem) :
    ∃ u, bwrite ((forest s i).ptr (pathOf k)) m s = some ((), u) ∧ Consistent u i ∧ SameShape s u ∧
      u.inode i = s.inode i ∧ u.readonly = s.readonly ∧
      (∀ p, Path p → (forest u i).ptr p = (forest s i).ptr p) ∧
      contents u.bio
        = Function.update (contents s.bio) (uns 32 ((forest s i).ptr (pathOf k))) (m.get 0 1024) := by
  have hpath := pathOf_path hk
  obtain ⟨hint, h1⟩ := h.int hpath h0 hnear
  obtain ⟨b, hb, hheld, hcontents, hbs⟩ := write_run (s := s) h.sound.coherent h.sound.plan.blocksize h1 hnear m
  rw [← hint] at hb
  have hptr : ∀ p, Path p →
      (forest (s.over b ((forest s i).ptr (pathOf k) :: s.asked)) i).ptr p = (forest s i).ptr p := by
    apply Radix.ptr_congr path_closed
    · intro r _
      rw [forest_root, forest_root]
      rfl
    · intro j r p hp hne
      rw [forest_entry, forest_entry]
      show blkptr (buffer (contents b _)) j = _
      rw [hcontents, Function.update_of_ne ((pathOf_leaf hk).ne_index h hp hne h0).symm]
  have haside : Aside s s := ⟨SameShape.refl s, fun _ _ => rfl, rfl, rfl⟩
  obtain ⟨hcons, hshape, -, -⟩ := consistent_of h h.sound haside (N := []) (fun x hx => by cases hx)
    (fun x _ => by simp) (Gives.same rfl rfl fun _ _ => rfl) (f := s.inode_table) (b := b)
    (l := (forest s i).ptr (pathOf k) :: s.asked)
    (t := s.over b ((forest s i).ptr (pathOf k) :: s.asked)) hheld hbs
    (fun r g hg => by rw [hcontents, Function.update_of_ne (h.apart _ hpath h0 r g hg).symm]) rfl
    (fun p hp _ => Or.inl ⟨p, hp, hptr p hp⟩)
    (fun p q hp hq hne e => by
      rw [hptr p hp] at hne e
      rw [hptr q hq] at e
      exact h.distinct p q hp hq hne e)
  exact ⟨_, hb, hcons, hshape, rfl, rfl, hptr, hcontents⟩

/-- **A block of a file is written**: the other blocks and the size of the file are as before. -/
theorem ext2_bwrite_block (hs : Ready s i (draws s i k) (missing s i k)) (hblock : BlockNear s i k)
    (hro : s.readonly = false) (m : Mem) (hgiven : Provided s i k) :
    ∃ u, ext2_bwrite i k m s = some ((), u) ∧ Consistent u i ∧ IndicesNear u i ∧ u.readonly = false ∧
      i_size (u.inode i) = i_size (s.inode i) ∧ (forest u i).ptr (pathOf k) ≠ 0 ∧
      Near (uns 32 ((forest u i).ptr (pathOf k))) ∧ fileBlock u i k = buffer (m.get 0 1024) ∧
      ∀ j, j ≤ 65547 → j ≠ k → (forest s i).ptr (pathOf j) ≠ 0 →
        (forest u i).ptr (pathOf j) = (forest s i).ptr (pathOf j) ∧ fileBlock u i j = fileBlock s i j := by
  obtain ⟨b, t, hrun, hiff, hb⟩ := blkno_given h hk hs hro
  have hb0 := hiff.mpr hgiven
  obtain ⟨hptr, hindices, ⟨N, c, hgrown⟩, hnear⟩ := hb hb0
  have hnear := hnear hblock
  have ht := hgrown.consistent
  have h0 : (forest t i).ptr (pathOf k) ≠ 0 := by rwa [hptr]
  obtain ⟨u, hu, hcons, hshape, hin, hro', hsame, hcontents⟩ := store_consistent ht hk h0 (by rwa [hptr]) m
  refine ⟨u, ?_, hcons, fun p hp hp0 => ?_, hro'.trans (hgrown.readonly.trans hro), ?_, ?_, ?_, ?_,
    fun j hj hjk hj0 => ?_⟩
  · unfold ext2_bwrite
    rw [Prog.bind_run (Prog.get_run s), if_neg (by rw [hro]; decide), Prog.bind_run hrun, if_neg hb0, ← hptr]
    exact hu
  · rw [hsame p hp.path] at hp0 ⊢
    exact hindices p hp hp0
  · rw [hin, hgrown.size]
  · rwa [hsame _ (pathOf_path hk)]
  · rwa [hsame _ (pathOf_path hk), hptr]
  · rw [fileBlock, hsame _ (pathOf_path hk), hcontents, Function.update_self]
  · obtain ⟨e, hc⟩ := hgrown.data _ (pathOf_leaf hj) hj0
    have hj0' : (forest t i).ptr (pathOf j) ≠ 0 := by rwa [e]
    have hne := ht.block_ne (pathOf_path hj) (pathOf_path hk) hj0' h0 (fun e' => hjk (pathOf_inj e'))
    rw [fileBlock, fileBlock, hsame _ (pathOf_path hj)]
    refine ⟨e, ?_⟩
    rw [hcontents, Function.update_of_ne hne, e, hc]

end

end E2
