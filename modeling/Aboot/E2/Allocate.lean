import Aboot.E2.Grown

/-!
# Allocating a block of a file

* `newIndirect_stage`, `indirectIn_stage`   an index block is found or made;
* `ptrIn_last`, `direct_last`   the block itself.
-/

set_option linter.unusedVariables false

namespace E2
open Word Bytes Bitmap
open Ext2 (s_blocks_per_group i_block i_blocks i_size blkptr blkptr_natCast EXT2_NDIR_BLOCKS EXT2_IND_BLOCK
  EXT2_DIND_BLOCK)

/-! ## counting a block, and writing one -/

theorem addBlock_block (i : Slot) (s : State) (k : Nat) :
    i_block ((addBlock i s).inode i) k = i_block (s.inode i) k := setBlocks_block i _ s k

theorem addBlock_blocks (i : Slot) {s : State} (hs : s.blocksize = 1024) :
    i_blocks ((addBlock i s).inode i) = (i_blocks (s.inode i) + 2) % 4294967296 := by
  have hunit : Int.tdiv s.blocksize 512 = 2 := by
    rw [hs]
    rfl
  rw [addBlock, setBlocks_blocks, hunit, show ((i_blocks (s.inode i) : Int) + 2) = (i_blocks (s.inode i) + 2 : Nat) by
    push_cast
    rfl]
  unfold uns
  norm_num
  omega

theorem addBlock_size (i : Slot) (s : State) :
    i_size ((addBlock i s).inode i) = i_size (s.inode i) := setBlocks_size i _ s

/-- one block is counted, wherever its number is stored -/
theorem countedIn_addBlock {s t₀ t : State} {i : Slot} (haside : Aside s t₀) (h : s.blocksize = 1024)
    {b : Int} {k : Nat} (ht : t.inode i = (addBlock i (setBlock i k b t₀)).inode i ∨
      t.inode i = (addBlock i t₀).inode i) : CountedIn s i 1 t := by
  have hlim : t₀.blocksize = 1024 := by
    rw [haside.rest]
    exact h
  rcases ht with ht | ht
  · refine ⟨?_, ?_⟩
    · rw [ht, addBlock_blocks i (s := setBlock i k b t₀) hlim, setBlock_blocks, haside.inode i]
    · rw [ht, addBlock_size, setBlock_size, haside.inode i]
  · refine ⟨?_, ?_⟩
    · rw [ht, addBlock_blocks i hlim, haside.inode i]
    · rw [ht, addBlock_size, haside.inode i]

/-- a block is written -/
theorem write_run {s : State} (hheld : ∃ a, Bio.Held s.bio a) (hbs : s.bio.bio_blocksize = 1024) {n : Nat}
    (hn : 1 ≤ n) (hr : (n + 1) * 1024 ≤ 2147483648) (m : Mem) :
    ∃ b, bwrite n m s = some ((), s.over b (n :: s.asked)) ∧ (∃ a, Bio.Held b a) ∧
      contents b = Function.update (contents s.bio) n (m.get 0 1024) ∧
      b.bio_blocksize = s.bio.bio_blocksize := by
  obtain ⟨a, ha⟩ := hheld
  obtain ⟨b, hb, hheld, hbs'⟩ := bwrite_run ha hn (by rwa [hbs]) m
  refine ⟨b, hb, ⟨_, hheld⟩, ?_, hbs'⟩
  rw [contents_eq hheld, contents_eq ha, hbs]

theorem Drew.sgn {s t : State} {r : Int} (h : Drew s r t) (hr : r ≠ 0) : Word.sgn 32 r = r := by
  rcases h with ⟨e, -⟩ | ⟨-, hsgn, -⟩
  · exact absurd e hr
  · exact hsgn

/-- a block that was taken is the number that was returned -/
theorem Drew.int {s t₀ : State} {i : Slot} (h : Consistent s i) {r : Int} (hdrew : Drew s r t₀)
    (hr : r ≠ 0) (hnear : Near (uns 32 r)) :
    r = (uns 32 r : Int) ∧ 1 ≤ uns 32 r ∧ (uns 32 r + 1) * 1024 ≤ 2147483648 := by
  obtain ⟨hnum, -, -⟩ := hdrew.fresh h hr
  unfold Near at hnear
  have hback := sgn32_uns32 r
  rw [hdrew.sgn hr] at hback
  refine ⟨hback.symm.trans (sgn32_of_range ?_ ?_), hnum.1, hnear⟩
  · omega
  · omega

/-- the block that was taken is the first one of the list -/
theorem Drew.near {s t₀ : State} {r : Int} (hdrew : Drew s r t₀) (hr : r ≠ 0) {m : Nat} (hm : 1 ≤ m)
    (h : ∀ x ∈ (freeList s).take m, Near x) : Near (uns 32 r) := by
  rcases hdrew with ⟨e, -⟩ | ⟨-, -, -, hgives⟩
  · exact absurd e hr
  · apply h
    obtain ⟨m, rfl⟩ := Nat.exists_eq_add_of_le' hm
    rw [hgives.list, List.singleton_append, List.take_succ_cons]
    exact List.mem_cons_self

/-- the block that was taken is not a bitmap -/
theorem Drew.no_map {s t₀ : State} {i : Slot} (h : Consistent s i) {r : Int} (hdrew : Drew s r t₀)
    (hr : r ≠ 0) (k : Kind) (g : Nat) (hg : s.Group k g) : k.map s.gds g ≠ uns 32 r := by
  obtain ⟨hnum, hfree, -⟩ := hdrew.fresh h hr
  intro e
  rw [← e] at hnum hfree
  rw [h.maps k g hg hnum] at hfree
  cases hfree

theorem Consistent.writable {s : State} {i : Slot} (h : Consistent s i) (hro : s.readonly = false) :
    Writable s :=
  ⟨⟨h.sound.plan.blocksize, h.sound.plan.fits .block, h.numbers⟩, hro⟩

/-! ## an index block in the inode -/

theorem newIndirect_stage {s : State} {i : Slot} (h : Consistent s i) {n m : Nat}
    (hs : Ready s i n m) (hn : 1 ≤ n) (hm : 1 ≤ m) (hro : s.readonly = false) {k : Nat} (hk : k < 15)
    (h0 : (forest s i).ptr [k] = 0) :
    ∃ r t N, newIndirect i k s = some (r, t) ∧ Stage s i [k] r t N := by
  obtain ⟨r, t₀, hrun, hok, haside, hdrew⟩ :=
    balloc_supply h.sound (h.writable hro) (hs.bitmaps.mono hn)
  unfold newIndirect
  rw [Prog.bind_run hrun]
  by_cases hr : r = 0
  · refine ⟨r, t₀, [], ?_, Stage.none h hok haside hdrew h0 hr⟩
    rw [if_pos hr, hr]
    rfl
  obtain ⟨hint, h1, hreach⟩ := hdrew.int h hr (hdrew.near hr hm hs.made)
  obtain ⟨-, -, hnew⟩ := hdrew.fresh h hr
  have hin := haside.inode i
  have hlim : t₀.blocksize = 1024 := by
    rw [haside.rest]
    exact h.limits.blocksize
  generalize ht₁ : addBlock i (setBlock i k r t₀) = t₁
  have hbio : t₁.bio = t₀.bio := by
    rw [← ht₁]
    rfl
  have hsize : t₁.blocksize = 1024 := by
    rw [← ht₁]
    exact hlim
  obtain ⟨b, hb, hheld, hcontents, hbs⟩ := write_run (s := t₁) (by rw [hbio]; exact hok.coherent)
    (by rw [hbio]; exact hok.plan.blocksize) h1 hreach (clearBuf t₁)
  rw [hbio] at hcontents hbs
  rw [← hint] at hb
  refine ⟨r, t₁.over b (r :: t₁.asked), [uns 32 r], ?_, ?_⟩
  · rw [if_neg hr, Prog.bind_run (Prog.modify_run _ _), Prog.bind_run (Prog.get_run _), ht₁]
    rw [Prog.bind_run hb]
    rfl
  · have hin₁ : t₁.inode i = (addBlock i (setBlock i k r t₀)).inode i := by rw [ht₁]
    refine Stage.linked h hok haside hdrew hr (f := t₁.inode_table) (b := b) (l := r :: t₁.asked)
      hheld hbs (fun k' g hg => ?_) ?_ (countedIn_addBlock haside h.limits.blocksize (Or.inl hin₁))
      (fun p hp hne => ?_) ?_
    · rw [hcontents, Function.update_of_ne (hdrew.no_map h hr k' g hg)]
    · rw [← ht₁]
      rfl
    · rw [hcontents, Function.update_of_ne (hnew p hp.1 hne)]
    · refine ⟨by simp, hr, h0, fun j k' p e => (by cases e), fun k' hk' => ?_,
        fun j k' p hp hne => ?_, fun j hj => ?_⟩
      · rw [forest_root, forest_root]
        show i_block (t₁.inode i) k' = _
        rw [hin₁, addBlock_block, setBlock_block, hin, hdrew.sgn hr]
        simp only [List.cons.injEq, and_true]
      · have hother : uns 32 ((forest s i).ptr (k' :: p)) ≠ uns 32 r :=
          hnew _ (path_closed _ _ _ hp) hne
        rw [forest_entry, forest_entry, if_neg (by intro e; cases e)]
        show blkptr (buffer (contents b _)) j = _
        rw [hcontents, Function.update_of_ne hother, haside.index h (path_closed _ _ _ hp) hne]
      · rw [forest_entry]
        show blkptr (buffer (contents b _)) j = _
        rw [hcontents, Function.update_self, buffer_ptr _ hj.index_lt, clearBuf_ptr _ hsize hj.index_lt]

/-! ## what is still in reach after a stage -/

/-- an index block has entries, a data block has none -/
theorem Index.ne_leaf {p q : List Nat} (h : Index p) (hq : Leaf q) : p ≠ q := by
  rintro rfl
  refine hq.2 0 ?_
  rcases h with rfl | rfl | ⟨j, hj, rfl⟩
  · exact ⟨[0], 12, rfl, by decide, show 1 ≤ 1 by decide, by simp⟩
  · exact ⟨[0], 13, rfl, by decide, show 1 ≤ 2 by decide, by simp⟩
  · refine ⟨[0, j], 13, rfl, by decide, show 2 ≤ 2 by decide, fun x hx => ?_⟩
    simp only [List.mem_cons, List.not_mem_nil, or_false] at hx
    omega

/-- blocks were read -/
theorem Grown.ready {s t : State} {i : Slot} {c n m : Nat} (h : Grown s i [] c t)
    (hf : forest t i = forest s i) (hs : Ready s i n m) : Ready t i n m where
  indices p hp h0 := by
    rw [hf] at h0 ⊢
    exact hs.indices p hp h0
  bitmaps := h.gives.reach n (by rw [List.length_nil, Nat.zero_add]; exact hs.bitmaps)
  made x hx := by
    apply hs.made
    rwa [h.gives.list, List.nil_append]

/-- a block was found or taken -/
theorem Stage.ready {s t : State} {i : Slot} {p₀ : List Nat} {r : Int} {N : List Nat} {n m : Nat}
    (h : Stage s i p₀ r t N) (hs : Ready s i (N.length + n) (N.length + m)) : Ready t i n m where
  indices p hp h0 := by
    rw [h.ptr p hp.path] at h0 ⊢
    split at h0
    · rename_i e
      rw [if_pos e]
      rcases h.result with ⟨hne, hr, -⟩ | ⟨-, ⟨-, rfl⟩ | ⟨hr, -⟩⟩
      · rw [hr, ← e]
        exact hs.indices p hp (by rwa [e])
      · apply hs.made
        rw [h.grown.gives.list, List.singleton_append, List.length_singleton, Nat.add_comm 1 m,
          List.take_succ_cons]
        exact List.mem_cons_self
      · exact absurd hr h0
    · rename_i e
      rw [if_neg e]
      exact hs.indices p hp h0
  bitmaps := h.grown.gives.reach n hs.bitmaps
  made x hx := by
    apply hs.made
    rw [h.grown.gives.list, List.take_length_add_append]
    exact List.mem_append_right N hx

/-! ## an entry of an index block -/

/-- blocks were read before -/
theorem Stage.after {s s₁ t : State} {i : Slot} {p₀ : List Nat} {r : Int} {N : List Nat}
    (hg : Grown s i [] 0 s₁) (hf : forest s₁ i = forest s i) (h : Stage s₁ i p₀ r t N) :
    Stage s i p₀ r t N := by
  have hsup : supply s₁ = supply s := hg.supply
  refine ⟨?_, fun p hp => ?_, ?_⟩
  · have hboth := hg.trans h.grown
    rwa [List.nil_append, Nat.zero_add] at hboth
  · rw [h.ptr p hp, hf]
  · have hres := h.result
    rwa [hf, hsup] at hres

/-- blocks of different paths are different -/
theorem Consistent.block_ne {s : State} {i : Slot} (h : Consistent s i) {p q : List Nat}
    (hp : Path p) (hq : Path q) (hp0 : (forest s i).ptr p ≠ 0) (hq0 : (forest s i).ptr q ≠ 0)
    (hne : p ≠ q) : uns 32 ((forest s i).ptr p) ≠ uns 32 ((forest s i).ptr q) := by
  intro e
  apply hne
  apply h.distinct p q hp hq hp0
  rw [← forest_int s i p, ← forest_int s i q, ← sgn32_uns32 ((forest s i).ptr p),
    ← sgn32_uns32 ((forest s i).ptr q), e]

/-- a data block is not an index block -/
theorem Leaf.ne_index {s : State} {i : Slot} {q : List Nat} (hq : Leaf q) (h : Consistent s i) {j k : Nat} {p : List Nat} (hp : Path (j :: k :: p))
    (hd : (forest s i).ptr (k :: p) ≠ 0) (hq0 : (forest s i).ptr q ≠ 0) :
    uns 32 ((forest s i).ptr q) ≠ uns 32 ((forest s i).ptr (k :: p)) := by
  apply h.block_ne hq.1 (path_closed _ _ _ hp) hq0 hd
  rintro rfl
  exact hq.2 j hp

section
variable {s t₀ : State} {i : Slot} (h : Consistent s i) {r : Int} (haside : Aside s t₀)
  (hdrew : Drew s r t₀) (hr : r ≠ 0) {j k : Nat} {p : List Nat} (hp : Path (j :: k :: p))
  (hd : (forest s i).ptr (k :: p) ≠ 0)
include h haside hdrew hr hp hd

/-- the number of the new block was stored in an index block -/
theorem links_entry (h0 : (forest s i).ptr (j :: k :: p) = 0) {t : State}
    (hin : ∀ x : Nat, i_block (t.inode i) x = i_block (s.inode i) x)
    (hparent : contents t.bio (uns 32 ((forest s i).ptr (k :: p)))
      = (setPtr (buffer (contents s.bio (uns 32 ((forest s i).ptr (k :: p))))) j r).get 0 1024)
    (hother : ∀ x, x ≠ uns 32 ((forest s i).ptr (k :: p)) → x ≠ uns 32 r →
      contents t.bio x = contents t₀.bio x)
    (hleaf : ∀ j', Path (j' :: j :: k :: p) → (forest t i).entry r j' = 0) :
    Radix.Links Path (forest s i) (forest t i) (j :: k :: p) r := by
  obtain ⟨-, -, hnew⟩ := hdrew.fresh h hr
  refine ⟨by simp, hr, h0, fun j' k' p' e => ?_, fun x hx => ?_, fun j' k' p' hp' hne => ?_, hleaf⟩
  · cases e
    exact hd
  · rw [forest_root, forest_root, hin, if_neg (by intro e; cases e)]
  · have hup := path_closed _ _ _ hp'
    rw [forest_entry, forest_entry]
    by_cases e : k' :: p' = k :: p
    · -- another entry of the same block
      rw [e, hparent, buffer_ptr _ hp'.index_lt, setPtr_ptr, hdrew.sgn hr]
      simp only [List.cons.injEq, and_true]
    · have hne' := h.block_ne hup (path_closed _ _ _ hp) hne hd e
      rw [if_neg (fun e' => e (List.cons.inj e').2), hother _ hne' (hnew _ hup hne),
        haside.index h hup hne]

end

/-- a block of the inode is written, after one was counted -/
theorem write_index {s t₀ : State} {i : Slot} (h : Consistent s i) (hok : Sound t₀) {q : List Nat} (hq : Path q)
    (hd : (forest s i).ptr q ≠ 0) (hs : Near (uns 32 ((forest s i).ptr q))) (m : Mem) :
    ∃ b, bwrite ((forest s i).ptr q) m (addBlock i t₀)
        = some ((), (addBlock i t₀).over b ((forest s i).ptr q :: t₀.asked)) ∧
      (∃ a, Bio.Held b a) ∧
      contents b = Function.update (contents t₀.bio) (uns 32 ((forest s i).ptr q)) (m.get 0 1024) ∧
      b.bio_blocksize = t₀.bio.bio_blocksize := by
  obtain ⟨hint, h1⟩ := h.int hq hd hs
  obtain ⟨b, hb, hrest⟩ := write_run (s := addBlock i t₀) hok.coherent hok.plan.blocksize h1 hs m
  rw [← hint] at hb
  exact ⟨b, hb, hrest⟩

/-- the last stage, where the block itself is found or allocated: where the block is not `checked`,
one is counted even when there is none left -/
def Last (checked : Bool) (s : State) (i : Slot) (p₀ : List Nat) (r : Int) (t : State) : Prop :=
  (∃ N, Stage s i p₀ r t N ∧ (checked = false → r ≠ 0)) ∨
    (checked = false ∧ r = 0 ∧ (forest s i).ptr p₀ = 0 ∧ supply s = 0 ∧ Grown s i [] 1 t ∧
      ∀ p, Path p → (forest t i).ptr p = (forest s i).ptr p)

section
variable {s t₀ : State} {i : Slot} (h : Consistent s i) {r : Int} (hok : Sound t₀)
  (haside : Aside s t₀) (hdrew : Drew s r t₀) {j k : Nat} {p : List Nat} (hp : Path (j :: k :: p))
  (hd : (forest s i).ptr (k :: p) ≠ 0) (hs : Near (uns 32 ((forest s i).ptr (k :: p))))
  (h0 : (forest s i).ptr (j :: k :: p) = 0)
include h hok haside hdrew hp hd hs h0

/-- the entry after the allocation of an index block -/
theorem index_made (hmade : r ≠ 0 → Near (uns 32 r)) : ∃ t N, (if r = 0 then pure 0
      else do
        modify (addBlock i)
        bwrite ((forest s i).ptr (k :: p))
          (setPtr (buffer (contents s.bio (uns 32 ((forest s i).ptr (k :: p))))) j r)
        let s ← get
        bwrite r (clearBuf s)
        pure r : Prog State Int) t₀ = some (r, t) ∧ Stage s i (j :: k :: p) r t N := by
  have hup := path_closed _ _ _ hp
  by_cases hr : r = 0
  · refine ⟨t₀, [], ?_, Stage.none h hok haside hdrew h0 hr⟩
    rw [if_pos hr, hr]
    rfl
  obtain ⟨hint, h1, hreach⟩ := hdrew.int h hr (hmade hr)
  obtain ⟨-, -, hnew⟩ := hdrew.fresh h hr
  have hne := hnew _ hup hd
  have hin := haside.inode i
  have hlim : t₀.blocksize = 1024 := by
    rw [haside.rest]
    exact h.limits.blocksize
  obtain ⟨b, hb, hheld, hcontents, hbs⟩ := write_index h hok hup hd hs
    (setPtr (buffer (contents s.bio (uns 32 ((forest s i).ptr (k :: p))))) j r)
  generalize ht₁ : (addBlock i t₀).over b ((forest s i).ptr (k :: p) :: t₀.asked) = t₁ at hb
  have hbio : t₁.bio = b := by rw [← ht₁]; rfl
  have hsize : t₁.blocksize = 1024 := by rw [← ht₁]; exact hlim
  obtain ⟨c, hc, hheld', hcontents', hbs'⟩ := write_run (s := t₁) (by rw [hbio]; exact hheld)
    (by rw [hbio, hbs]; exact hok.plan.blocksize) h1 hreach (clearBuf t₁)
  rw [hbio, hcontents] at hcontents'
  rw [hbio, hbs] at hbs'
  rw [← hint] at hc
  refine ⟨t₁.over c (r :: t₁.asked), [uns 32 r], ?_, ?_⟩
  · rw [if_neg hr, Prog.bind_run (Prog.modify_run _ _), Prog.bind_run hb, Prog.bind_run (Prog.get_run _),
      Prog.bind_run hc]
    rfl
  · have hin₁ : t₁.inode i = (addBlock i t₀).inode i := by
      rw [← ht₁]
      rfl
    refine Stage.linked h hok haside hdrew hr (f := t₁.inode_table) (b := c) (l := r :: t₁.asked)
      hheld' hbs' (fun k' g hg => ?_) ?_
      (countedIn_addBlock haside h.limits.blocksize (b := 0) (k := 0) (Or.inr hin₁))
      (fun q hq hne' => ?_) ?_
    · rw [hcontents', Function.update_of_ne (hdrew.no_map h hr k' g hg),
        Function.update_of_ne (h.apart _ hup hd k' g hg).symm]
    · rw [← ht₁]
      rfl
    · rw [hcontents', Function.update_of_ne (hnew q hq.1 hne'),
        Function.update_of_ne (hq.ne_index h hp hd hne')]
    · apply links_entry h haside hdrew hr hp hd h0
      · intro x
        show i_block (t₁.inode i) x = _
        rw [hin₁, addBlock_block, hin]
      · show contents c _ = _
        rw [hcontents', Function.update_of_ne hne, Function.update_self]
      · intro x hx hx'
        show contents c x = _
        rw [hcontents', Function.update_of_ne hx', Function.update_of_ne hx]
      · intro j' hj'
        rw [forest_entry]
        show blkptr (buffer (contents c _)) j' = _
        rw [hcontents', Function.update_self, buffer_ptr _ hj'.index_lt, clearBuf_ptr _ hsize hj'.index_lt]

/-- the entry after the allocation of the block itself -/
theorem block_made (hend : ∀ j', ¬ Path (j' :: j :: k :: p)) (checked : Bool) :
    ∃ t, (if checked ∧ r = 0 then pure 0
      else do
        modify (addBlock i)
        bwrite ((forest s i).ptr (k :: p))
          (setPtr (buffer (contents s.bio (uns 32 ((forest s i).ptr (k :: p))))) j r)
        pure r : Prog State Int) t₀ = some (r, t) ∧ Last checked s i (j :: k :: p) r t := by
  have hup := path_closed _ _ _ hp
  by_cases hcr : checked ∧ r = 0
  · refine ⟨t₀, ?_, Or.inl ⟨[], Stage.none h hok haside hdrew h0 hcr.2, fun e => ?_⟩⟩
    · rw [if_pos hcr, hcr.2]
      rfl
    · rw [hcr.1] at e
      cases e
  have hin := haside.inode i
  obtain ⟨b, hb, hheld, hcontents, hbs⟩ := write_index h hok hup hd hs
    (setPtr (buffer (contents s.bio (uns 32 ((forest s i).ptr (k :: p))))) j r)
  refine ⟨(addBlock i t₀).over b ((forest s i).ptr (k :: p) :: t₀.asked), ?_, ?_⟩
  · rw [if_neg hcr, Prog.bind_run (Prog.modify_run _ _), Prog.bind_run hb]
    rfl
  have hcounts : CountedIn s i 1 ((addBlock i t₀).over b ((forest s i).ptr (k :: p) :: t₀.asked)) :=
    countedIn_addBlock haside h.limits.blocksize (b := 0) (k := 0) (Or.inr rfl)
  have hroots : ∀ x : Nat,
      i_block (((addBlock i t₀).over b ((forest s i).ptr (k :: p) :: t₀.asked)).inode i) x
        = i_block (s.inode i) x := by
    intro x
    show i_block ((addBlock i t₀).inode i) x = _
    rw [addBlock_block, hin]
  by_cases hr : r = 0
  · -- the entry stays as it is, and is written all the same
    have hsame : contents b = contents t₀.bio := by
      have hentry := Radix.ptr_next (j := j) hd
      rw [h0, forest_entry] at hentry
      have hlen : (contents s.bio (uns 32 ((forest s i).ptr (k :: p)))).length = 1024 := by
        obtain ⟨a, ha⟩ := h.sound.coherent
        rw [contents_eq ha, ha.length, h.sound.plan.blocksize]
      rw [hcontents, hr, setPtr_zero hentry.symm, buffer_whole hlen, ← haside.index h hup hd,
        Function.update_eq_self]
    have hchecked : checked = false := by
      cases checked with
      | true => exact absurd ⟨rfl, hr⟩ hcr
      | false => rfl
    obtain ⟨hgrown, hsup, hptr⟩ := Grown.none (c := 1) h hok haside hdrew hr hheld hbs hsame rfl
      (fun x _ => hroots x) hcounts
    exact Or.inr ⟨hchecked, hr, h0, hsup, hgrown, hptr⟩
  · refine Or.inl ⟨[uns 32 r], ?_, fun _ => hr⟩
    refine Stage.linked h hok haside hdrew hr hheld hbs (fun k' g hg => ?_) rfl hcounts
      (fun q hq hne => ?_) ?_
    · rw [hcontents, Function.update_of_ne (h.apart _ hup hd k' g hg).symm]
    · rw [hcontents, Function.update_of_ne (hq.ne_index h hp hd hne)]
    · apply links_entry h haside hdrew hr hp hd h0 hroots
      · show contents b _ = _
        rw [hcontents, Function.update_self]
      · intro x hx _
        show contents b x = _
        rw [hcontents, Function.update_of_ne hx]
      · intro j' hj'
        exact absurd hj' (hend j')

end

/-- the index block that an entry of another one leads to -/
theorem indirectIn_stage {s : State} {i : Slot} (h : Consistent s i) {n m : Nat}
    (hs : Ready s i n m) (hro : s.readonly = false) {j k : Nat} {p : List Nat} (hp : Path (j :: k :: p))
    (hindex : Index (k :: p)) (hd : (forest s i).ptr (k :: p) ≠ 0)
    (hn : (forest s i).ptr (j :: k :: p) = 0 → 1 ≤ n ∧ 1 ≤ m) :
    ∃ r t N, indirectIn i ((forest s i).ptr (k :: p)) j true s = some (r, t) ∧
      Stage s i (j :: k :: p) r t N := by
  obtain ⟨a, ha⟩ := h.sound.coherent
  obtain rfl := contents_eq ha
  obtain ⟨s₁, hread, hro₁⟩ := read_index h (path_closed _ _ _ hp) hd (hs.indices _ hindex hd)
    (ReadOnly.refl ha)
  have hentry := Radix.ptr_next (j := j) hd
  rw [forest_entry] at hentry
  by_cases h0 : (forest s i).ptr (j :: k :: p) = 0
  · obtain ⟨hgrown, hforest, hc⟩ := h.still hro₁
    have h₁ := hgrown.consistent
    have hs₁ := hgrown.ready hforest hs
    obtain ⟨r, t₀, hrun, hok, haside, hdrew⟩ :=
      balloc_supply h₁.sound (h₁.writable (hgrown.readonly.trans hro)) (hs₁.bitmaps.mono (hn h0).1)
    obtain ⟨t, N, ht, hstage⟩ := index_made h₁ hok haside hdrew hp (by rwa [hforest])
      (hs₁.indices _ hindex (by rwa [hforest])) (by rwa [hforest])
      fun hr => hdrew.near hr (hn h0).2 hs₁.made
    refine ⟨r, t, N, ?_, hstage.after hgrown hforest⟩
    rw [hforest, hc] at ht
    unfold indirectIn
    rw [Prog.bind_run hread, if_pos ⟨hentry.symm.trans h0, rfl⟩, Prog.bind_run hrun]
    exact ht
  · refine ⟨_, s₁, [], ?_, Stage.found h h0 hro₁⟩
    rw [indirectIn_found hread (Or.inl ?_), hentry]
    rw [← hentry]
    exact h0

theorem Last.after {checked : Bool} {s s₁ t : State} {i : Slot} {p₀ : List Nat} {r : Int}
    (hg : Grown s i [] 0 s₁) (hf : forest s₁ i = forest s i) (h : Last checked s₁ i p₀ r t) :
    Last checked s i p₀ r t := by
  have hsup : supply s₁ = supply s := hg.supply
  rcases h with ⟨N, hstage, hr⟩ | ⟨hc, hr, h0, hs0, hgrown, hptr⟩
  · exact Or.inl ⟨N, hstage.after hg hf, hr⟩
  · rw [hf] at h0 hptr
    rw [hsup] at hs0
    exact Or.inr ⟨hc, hr, h0, hs0, hg.trans hgrown, hptr⟩

theorem Last.found {checked : Bool} {s t : State} {i : Slot} {p₀ : List Nat} (h : Consistent s i)
    (h0 : (forest s i).ptr p₀ ≠ 0) (ht : ReadOnly s t (contents s.bio)) :
    Last checked s i p₀ ((forest s i).ptr p₀) t := Or.inl ⟨[], Stage.found h h0 ht, fun _ => h0⟩

/-- the block that an entry of an index block leads to -/
theorem ptrIn_last {s : State} {i : Slot} (h : Consistent s i) {n m : Nat} (hs : Ready s i n m)
    (hro : s.readonly = false) {j k : Nat} {p : List Nat} (hp : Path (j :: k :: p))
    (hindex : Index (k :: p)) (hend : ∀ j', ¬ Path (j' :: j :: k :: p))
    (hd : (forest s i).ptr (k :: p) ≠ 0) (hn : (forest s i).ptr (j :: k :: p) = 0 → 1 ≤ n)
    (checked : Bool) :
    ∃ r t, ptrIn i ((forest s i).ptr (k :: p)) j true checked s = some (r, t) ∧
      Last checked s i (j :: k :: p) r t := by
  obtain ⟨a, ha⟩ := h.sound.coherent
  obtain rfl := contents_eq ha
  obtain ⟨s₁, hread, hro₁⟩ := read_index h (path_closed _ _ _ hp) hd (hs.indices _ hindex hd)
    (ReadOnly.refl ha)
  have hentry := Radix.ptr_next (j := j) hd
  rw [forest_entry] at hentry
  by_cases h0 : (forest s i).ptr (j :: k :: p) = 0
  · obtain ⟨hgrown, hforest, hc⟩ := h.still hro₁
    have h₁ := hgrown.consistent
    have hs₁ := hgrown.ready hforest hs
    obtain ⟨r, t₀, hrun, hok, haside, hdrew⟩ :=
      balloc_supply h₁.sound (h₁.writable (hgrown.readonly.trans hro)) (hs₁.bitmaps.mono (hn h0))
    obtain ⟨t, ht, hlast⟩ := block_made h₁ hok haside hdrew hp (by rwa [hforest])
      (hs₁.indices _ hindex (by rwa [hforest])) (by rwa [hforest]) hend checked
    refine ⟨r, t, ?_, hlast.after hgrown hforest⟩
    rw [hforest, hc] at ht
    unfold ptrIn
    rw [Prog.bind_run hread, if_pos ⟨hentry.symm.trans h0, rfl⟩, Prog.bind_run hrun]
    exact ht
  · refine ⟨_, s₁, ?_, Last.found h h0 hro₁⟩
    rw [ptrIn_found hread (Or.inl ?_), hentry]
    rw [← hentry]
    exact h0

/-- a block that the inode leads to -/
theorem direct_last {s : State} {i : Slot} (h : Consistent s i) (hro : s.readonly = false) {k : Nat}
    (hk : k < 12) (hs : (forest s i).ptr [k] = 0 → DrawsInReach s 1) :
    ∃ r t, ext2_blkno i k true s = some (r, t) ∧ Last false s i [k] r t := by
  have hroot : (forest s i).ptr [k] = i_block (s.inode i) k := by
    rw [Radix.ptr_root, forest_root]
  rw [blkno_in_inode h (fun _ => hro) hk, ← hroot]
  by_cases h0 : (forest s i).ptr [k] = 0
  · obtain ⟨r, t₀, hrun, hok, haside, hdrew⟩ := balloc_supply h.sound (h.writable hro) (hs h0)
    have hin := haside.inode i
    rw [if_pos ⟨h0, rfl⟩, Prog.bind_run hrun, Prog.bind_run (Prog.modify_run _ _)]
    refine ⟨r, addBlock i (setBlock i k r t₀), rfl, ?_⟩
    by_cases hr : r = 0
    · -- the pointer stays as it is, and a block is counted
      have hsame : setBlock i k r t₀ = t₀ := by
        rw [hr]
        apply setBlock_zero
        rw [hin, ← hroot]
        exact h0
      rw [hsame]
      obtain ⟨hgrown, hsup, hptr⟩ := Grown.none (c := 1) h hok haside hdrew hr
        (t := addBlock i t₀) hok.coherent rfl rfl rfl (fun x _ => by rw [addBlock_block, hin])
        (countedIn_addBlock haside h.limits.blocksize (b := 0) (k := 0) (Or.inr rfl))
      exact Or.inr ⟨rfl, hr, h0, hsup, hgrown, hptr⟩
    · refine Or.inl ⟨[uns 32 r], ?_, fun _ => hr⟩
      refine Stage.linked h hok haside hdrew hr hok.coherent rfl (fun _ _ _ => rfl) rfl
        (countedIn_addBlock haside h.limits.blocksize (Or.inl rfl)) (fun _ _ _ => rfl) ?_
      · refine ⟨by simp, hr, h0, fun j k' p e => (by cases e), fun k' hk' => ?_,
          fun j k' p hp hne => ?_, fun j hj => ?_⟩
        · rw [forest_root, forest_root, addBlock_block, setBlock_block, hin, hdrew.sgn hr]
          simp only [List.cons.injEq, and_true]
        · rw [forest_entry, forest_entry, if_neg (by intro e; cases e)]
          show blkptr (buffer (contents t₀.bio _)) j = _
          rw [haside.index h (path_closed _ _ _ hp) hne]
        · have hlen := Path.length_le (p := [j]) hj
          rw [levelOf, List.length_singleton] at hlen
          omega
  · obtain ⟨a, ha⟩ := h.sound.coherent
    obtain rfl := contents_eq ha
    refine ⟨_, s, ?_, Last.found h h0 (ReadOnly.refl ha)⟩
    rw [if_neg (fun e => h0 e.1)]
    rfl

end E2
