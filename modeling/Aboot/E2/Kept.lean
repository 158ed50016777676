import Aboot.E2.Cache

/-!
# What every function of the ext2 writer keeps

`Kept s t`: the geometry of the file system is the same in both states, the descriptors differ in
their counts only, and the buffers stand for some array of blocks as before, provided that bio.c was
asked for blocks in reach only.  Every function of e2lib.c is such a step; so is every run of them.

* `bread_kept`, `bwrite_kept`   the two calls of bio.c;
* `.._kept`                     one lemma for each function;
* `Kept.held`                   what it says of the buffers.
-/

set_option linter.unusedVariables false

namespace E2
open Word Bytes Prog

/-- a block number in reach of the `int` offsets of bio.c -/
def InReach (bs : Nat) (n : Int) : Prop := ∃ m : Nat, n = m ∧ (m + 1) * bs ≤ 2147483648

structure Kept (s t : State) : Prop where
  sb : ∀ x, x < 12 ∨ 20 ≤ x → t.sb x = s.sb x
  gds : ∀ x, x % 32 < 12 ∨ 18 ≤ x % 32 → t.gds x = s.gds x
  ngroups : t.ngroups = s.ngroups
  blocksize : t.blocksize = s.blocksize
  directlim : t.directlim = s.directlim
  ind1lim : t.ind1lim = s.ind1lim
  ind2lim : t.ind2lim = s.ind2lim
  ptrs_per_blk : t.ptrs_per_blk = s.ptrs_per_blk
  readonly : t.readonly = s.readonly
  bio_blocksize : t.bio.bio_blocksize = s.bio.bio_blocksize
  asked : ∃ l, t.asked = l ++ s.asked ∧ ((∀ n ∈ l, InReach s.bio.bio_blocksize n) →
    ∀ a, Bio.Held s.bio a → ∃ a', Bio.Held t.bio a')

theorem Kept.refl (s : State) : Kept s s :=
  ⟨fun _ _ => rfl, fun _ _ => rfl, rfl, rfl, rfl, rfl, rfl, rfl, rfl, rfl,
    ⟨[], rfl, fun _ a h => ⟨a, h⟩⟩⟩

theorem Kept.trans (s t u : State) (h : Kept s t) (h' : Kept t u) : Kept s u := by
  obtain ⟨l, hl, hheld⟩ := h.asked
  obtain ⟨l', hl', hheld'⟩ := h'.asked
  refine ⟨fun x hx => (h'.sb x hx).trans (h.sb x hx), fun x hx => (h'.gds x hx).trans (h.gds x hx),
    h'.ngroups.trans h.ngroups, h'.blocksize.trans h.blocksize, h'.directlim.trans h.directlim,
    h'.ind1lim.trans h.ind1lim, h'.ind2lim.trans h.ind2lim, h'.ptrs_per_blk.trans h.ptrs_per_blk,
    h'.readonly.trans h.readonly, h'.bio_blocksize.trans h.bio_blocksize,
    ⟨l' ++ l, by rw [hl', hl, List.append_assoc], fun hr a ha => ?_⟩⟩
  obtain ⟨a', ha'⟩ := hheld (fun n hn => hr n (List.mem_append_right _ hn)) a ha
  rw [h.bio_blocksize] at hheld'
  exact hheld' (fun n hn => hr n (List.mem_append_left _ hn)) a' ha'

/-- what a run keeps of the buffers -/
theorem Kept.held {s t : State} (h : Kept s t) (hs : s.asked = [])
    (hr : ∀ n ∈ t.asked, InReach s.bio.bio_blocksize n) {a : Nat → List UInt8}
    (ha : Bio.Held s.bio a) : ∃ a', Bio.Held t.bio a' := by
  obtain ⟨l, hl, hheld⟩ := h.asked
  rw [hs, List.append_nil] at hl
  rw [hl] at hr
  exact hheld hr a ha

/-! ## the rules at `Kept` -/

theorem kept_pure {α : Type} (a : α) : Steps Kept (pure a : Prog State α) := Steps.pure Kept.refl a

theorem kept_get : Steps Kept (get : Prog State State) := Steps.get Kept.refl

theorem kept_bind {α β : Type} {x : Prog State α} {f : α → Prog State β} (hx : Steps Kept x)
    (hf : ∀ a, Steps Kept (f a)) : Steps Kept (x >>= f) := Steps.bind Kept.trans hx hf

theorem kept_forM {α : Type} {f : α → Prog State Unit} (hf : ∀ a, Steps Kept (f a)) (l : List α) :
    Steps Kept (l.forM f) := Steps.forM Kept.trans Kept.refl hf l

theorem kept_when {c : Prop} [Decidable c] {x : Prog State Unit} (hx : Steps Kept x) :
    Steps Kept (when c x) := Steps.when Kept.refl hx

/-! ## the calls of bio.c -/

theorem bio_bread_blocksize {n : Int} {s t : Bio.State} {d : List UInt8}
    (h : Bio.bread n s = some (d, t)) : t.bio_blocksize = s.bio_blocksize := by
  unfold Bio.bread at h
  cases hl : Bio.lookup s n with
  | some i =>
    rw [hl] at h
    cases hd : (s.buflist i).data with
    | none =>
      simp only [hd] at h
      cases h
    | some v =>
      simp only [hd] at h
      rw [← (Prod.mk.inj (Option.some.inj h)).2]
      rfl
  | none =>
    rw [hl] at h
    have h : (Bio.fillBuf _ _ _).2 = t := congrArg Prod.snd (Option.some.inj h)
    rw [← h, (Bio.fillBuf_eq _ _ _).2.1]
    exact Bio.writeOut_blocksize _ _

theorem bio_bwrite_blocksize {n : Int} {d : List UInt8} {s t : Bio.State}
    (h : Bio.bwrite n d s = some t) : t.bio_blocksize = s.bio_blocksize := by
  unfold Bio.bwrite at h
  cases hl : Bio.lookup s n with
  | some i =>
    rw [hl] at h
    cases hd : (s.buflist i).data with
    | none =>
      simp only [hd] at h
      cases h
    | some v =>
      simp only [hd] at h
      rw [← Option.some.inj h]
      rfl
  | none =>
    rw [hl] at h
    rw [← Option.some.inj h]
    exact Bio.writeOut_blocksize _ _

theorem bread_kept (n : Int) : Steps Kept (bread n) := by
  intro s m t h
  unfold bread at h
  obtain ⟨⟨d, b⟩, hb, he⟩ := Option.map_eq_some_iff.mp h
  obtain ⟨-, rfl⟩ := Prod.mk.inj he
  refine ⟨fun _ _ => rfl, fun _ _ => rfl, rfl, rfl, rfl, rfl, rfl, rfl, rfl, bio_bread_blocksize hb,
    ⟨[n], rfl, fun hr a ha => ?_⟩⟩
  obtain ⟨k, rfl, hk⟩ := hr n (List.mem_singleton_self n)
  exact ⟨a, (Bio.bread_held ha hk hb).2.1⟩

theorem bwrite_kept (n : Int) (m : Mem) : Steps Kept (bwrite n m) := by
  intro s u t h
  unfold bwrite at h
  obtain ⟨b, hb, he⟩ := Option.map_eq_some_iff.mp h
  obtain ⟨-, rfl⟩ := Prod.mk.inj he
  refine ⟨fun _ _ => rfl, fun _ _ => rfl, rfl, rfl, rfl, rfl, rfl, rfl, rfl, bio_bwrite_blocksize hb,
    ⟨[n], rfl, fun hr a ha => ?_⟩⟩
  obtain ⟨k, rfl, hk⟩ := hr n (List.mem_singleton_self n)
  exact ⟨_, (Bio.bwrite_held ha hk (Mem.length_get _ _ _) hb).1⟩

/-! ## the variables in memory -/

/-- a change of the inode table only -/
theorem Kept.of_table (s : State) (f : Slot → Entry) : Kept s { s with inode_table := f } :=
  ⟨fun _ _ => rfl, fun _ _ => rfl, rfl, rfl, rfl, rfl, rfl, rfl, rfl, rfl,
    ⟨[], rfl, fun _ a h => ⟨a, h⟩⟩⟩

/-- a change of the counts only -/
theorem Kept.of_counts (s : State) {sb gds : Mem} (hsb : ∀ x, x < 12 ∨ 20 ≤ x → sb x = s.sb x)
    (hgds : ∀ x, x % 32 < 12 ∨ 18 ≤ x % 32 → gds x = s.gds x) :
    Kept s { s with sb := sb, gds := gds } :=
  ⟨hsb, hgds, rfl, rfl, rfl, rfl, rfl, rfl, rfl, rfl, ⟨[], rfl, fun _ a h => ⟨a, h⟩⟩⟩

theorem setInode_kept (i : Slot) (ip : Mem) (s : State) : Kept s (setInode i ip s) :=
  Kept.of_table s _

theorem setEntry_kept (i : Slot) (e : Entry) (s : State) : Kept s (setEntry i e s) :=
  Kept.of_table s _

theorem addFreeBlocks_kept (i : Nat) (n : Int) (s : State) : Kept s (addFreeBlocks i n s) := by
  refine Kept.of_counts s (fun x hx => Mem.put_out _ _ _ _ ?_) fun x hx => Mem.put_out _ _ _ _ ?_
  · rw [length_ofNum]
    omega
  · rw [length_ofNum]
    omega

theorem addFreeInodes_kept (i : Nat) (n : Int) (s : State) : Kept s (addFreeInodes i n s) := by
  refine Kept.of_counts s (fun x hx => Mem.put_out _ _ _ _ ?_) fun x hx => Mem.put_out _ _ _ _ ?_
  · rw [length_ofNum]
    omega
  · rw [length_ofNum]
    omega

theorem addUsedDirs_kept (g : Nat) (n : Int) (s : State) : Kept s (addUsedDirs g n s) := by
  refine Kept.of_counts s (fun _ _ => rfl) fun x hx => Mem.put_out _ _ _ _ ?_
  rw [length_ofNum]
  omega

theorem countDirs_kept (g old_mode mode : Nat) (s : State) : Kept s (countDirs g old_mode mode s) := by
  unfold countDirs
  simp only
  split
  · split
    · exact Kept.trans _ _ _ (addUsedDirs_kept g _ s) (addUsedDirs_kept g _ _)
    · exact addUsedDirs_kept g _ s
  · split
    · exact addUsedDirs_kept g _ s
    · exact Kept.refl s

/-! ## allocating and freeing -/

theorem firstGroup_kept {f : Nat → Prog State (Option Int)} (hf : ∀ i, Steps Kept (f i))
    (l : List Nat) : Steps Kept (firstGroup f l) := by
  induction l with
  | nil => exact kept_pure 0
  | cons i l ih =>
    refine kept_bind (hf i) fun r => ?_
    cases r with
    | none => exact ih
    | some r => exact kept_pure r

theorem ballocIn_kept (i : Nat) : Steps Kept (ballocIn i) := by
  refine kept_bind kept_get fun s => Steps.ite (kept_bind (bread_kept _) fun m => ?_) (kept_pure _)
  refine Steps.ite (kept_pure _) (kept_bind (bwrite_kept _ _) fun _ => ?_)
  exact kept_bind (Steps.modify fun s => addFreeBlocks_kept i _ s) fun _ => kept_pure _

theorem contiguousIn_kept (n : Int) (i : Nat) : Steps Kept (contiguousIn n i) := by
  refine kept_bind kept_get fun s => Steps.ite (kept_bind (bread_kept _) fun m => ?_) (kept_pure _)
  refine Steps.ite (kept_pure _) (kept_bind (bwrite_kept _ _) fun _ => ?_)
  exact kept_bind (Steps.modify fun s => addFreeBlocks_kept i _ s) fun _ => kept_pure _

theorem iallocIn_kept (i : Nat) : Steps Kept (iallocIn i) := by
  refine kept_bind kept_get fun s => Steps.ite (kept_bind (bread_kept _) fun m => ?_) (kept_pure _)
  refine Steps.ite (kept_pure _) (kept_bind (bwrite_kept _ _) fun _ => ?_)
  exact kept_bind (Steps.modify fun s => addFreeInodes_kept i _ s) fun _ => kept_pure _

theorem ext2_balloc_kept : Steps Kept ext2_balloc :=
  kept_bind kept_get fun s => Steps.ite (kept_pure _) (firstGroup_kept ballocIn_kept _)

theorem ext2_contiguous_balloc_kept (n : Int) : Steps Kept (ext2_contiguous_balloc n) :=
  kept_bind kept_get fun s => Steps.ite (kept_pure _) (firstGroup_kept (contiguousIn_kept n) _)

theorem ext2_ialloc_kept : Steps Kept ext2_ialloc :=
  kept_bind kept_get fun s => Steps.ite (kept_pure _) (firstGroup_kept iallocIn_kept _)

theorem ext2_bfree_kept (blk : Int) : Steps Kept (ext2_bfree blk) := by
  refine kept_bind kept_get fun s => kept_bind (bread_kept _) fun m => ?_
  exact kept_bind (bwrite_kept _ _) fun _ => Steps.modify fun s => addFreeBlocks_kept _ _ s

theorem ext2_ifree_kept (ino : Int) : Steps Kept (ext2_ifree ino) := by
  refine kept_bind kept_get fun s => kept_bind (bread_kept _) fun m => ?_
  exact kept_bind (bwrite_kept _ _) fun _ => Steps.modify fun s => addFreeInodes_kept _ _ s

/-! ## inodes -/

theorem ext2_iget_kept (ino : Int) : Steps Kept (ext2_iget ino) := by
  refine kept_bind kept_get fun s => ?_
  cases freeSlot s with
  | none => exact kept_pure _
  | some i =>
    refine Steps.ite (kept_bind (bread_kept _) fun m => ?_) Steps.fail
    exact kept_bind (Steps.modify fun s => setEntry_kept _ _ s) fun _ => kept_pure _

theorem writeInode_kept (i : Slot) (ino : Int) : Steps Kept (writeInode i ino) := by
  refine kept_bind kept_get fun s => Steps.ite (kept_bind (bread_kept _) fun m => ?_) Steps.fail
  exact kept_bind (bwrite_kept _ _) fun _ => Steps.modify fun s => countDirs_kept _ _ _ s

theorem ext2_iput_kept (i : Slot) : Steps Kept (ext2_iput i) := by
  refine kept_bind kept_get fun s => kept_bind (kept_when (ext2_ifree_kept _)) fun _ => ?_
  refine kept_bind (Steps.modify fun s => setEntry_kept _ _ s) fun _ => ?_
  refine kept_bind (kept_when (writeInode_kept _ _)) fun _ => ?_
  exact Steps.modify fun s => setEntry_kept _ _ s

/-! ## the blocks of a file -/

theorem setBlock_kept (i : Slot) (k blkno : Int) (s : State) : Kept s (setBlock i k blkno s) :=
  setInode_kept i _ s

theorem setSize_kept (i : Slot) (size : Int) (s : State) : Kept s (setSize i size s) :=
  setInode_kept i _ s

theorem setBlocks_kept (i : Slot) (n : Int) (s : State) : Kept s (setBlocks i n s) :=
  setInode_kept i _ s

theorem addBlock_kept (i : Slot) (s : State) : Kept s (addBlock i s) := setBlocks_kept i _ s

theorem ptrIn_kept (i : Slot) (iblkno k : Int) (allocate checked : Bool) :
    Steps Kept (ptrIn i iblkno k allocate checked) := by
  refine kept_bind (bread_kept _) fun lp => Steps.ite (kept_bind ext2_balloc_kept fun blkno => ?_)
    (kept_pure _)
  refine Steps.ite (kept_pure _) (kept_bind (Steps.modify fun s => addBlock_kept i s) fun _ => ?_)
  exact kept_bind (bwrite_kept _ _) fun _ => kept_pure _

theorem newIndirect_kept (i : Slot) (k : Int) : Steps Kept (newIndirect i k) := by
  refine kept_bind ext2_balloc_kept fun iblkno => Steps.ite (kept_pure _) ?_
  refine kept_bind (Steps.modify fun s => ?_) fun _ => ?_
  · exact Kept.trans _ _ _ (setBlock_kept i k iblkno s) (addBlock_kept i _)
  · exact kept_bind kept_get fun s => kept_bind (bwrite_kept _ _) fun _ => kept_pure _

theorem indirectIn_kept (i : Slot) (diblkno k : Int) (allocate : Bool) :
    Steps Kept (indirectIn i diblkno k allocate) := by
  refine kept_bind (bread_kept _) fun lp => Steps.ite (kept_bind ext2_balloc_kept fun iblkno => ?_)
    (kept_pure _)
  refine Steps.ite (kept_pure _) (kept_bind (Steps.modify fun s => addBlock_kept i s) fun _ => ?_)
  refine kept_bind (bwrite_kept _ _) fun _ => kept_bind kept_get fun s => ?_
  exact kept_bind (bwrite_kept _ _) fun _ => kept_pure _

theorem ext2_blkno_kept (i : Slot) (blkoff : Int) (allocate : Bool) :
    Steps Kept (ext2_blkno i blkoff allocate) := by
  refine kept_bind kept_get fun s => Steps.ite (kept_pure _) (Steps.ite ?_ (Steps.ite ?_
    (Steps.ite ?_ (kept_pure _))))
  · refine Steps.ite (kept_bind ext2_balloc_kept fun blkno => ?_) (kept_pure _)
    refine kept_bind (Steps.modify fun s => ?_) fun _ => kept_pure _
    exact Kept.trans _ _ _ (setBlock_kept i blkoff blkno s) (addBlock_kept i _)
  · refine kept_bind (Steps.ite (newIndirect_kept i _) (kept_pure _)) fun iblkno => ?_
    exact Steps.ite (kept_pure _) (ptrIn_kept i _ _ _ _)
  · refine kept_bind (Steps.ite (newIndirect_kept i _) (kept_pure _)) fun diblkno => ?_
    refine Steps.ite (kept_pure _) (kept_bind (indirectIn_kept i _ _ _) fun iblkno => ?_)
    exact Steps.ite (kept_pure _) (ptrIn_kept i _ _ _ _)

theorem ext2_bread_kept (i : Slot) (blkno : Int) : Steps Kept (ext2_bread i blkno) := by
  refine kept_bind (ext2_blkno_kept i _ _) fun dev_blkno => Steps.ite ?_ (bread_kept _)
  exact kept_bind kept_get fun s => kept_pure _

theorem ext2_bwrite_kept (i : Slot) (blkno : Int) (buf : Mem) : Steps Kept (ext2_bwrite i blkno buf) := by
  refine kept_bind kept_get fun s => Steps.ite (kept_pure _) ?_
  exact kept_bind (ext2_blkno_kept i _ _) fun dev_blkno => Steps.ite (kept_pure _) (bwrite_kept _ _)

theorem ext2_free_indirect_kept (level : Nat) : ∀ n, Steps Kept (ext2_free_indirect level n) := by
  induction level with
  | zero =>
    intro n
    refine kept_bind (bread_kept _) fun m => kept_bind kept_get fun s => ?_
    exact kept_bind (kept_forM (fun k => kept_when (ext2_bfree_kept _)) _) fun _ => ext2_bfree_kept _
  | succ level ih =>
    intro n
    refine kept_bind (bread_kept _) fun m => kept_bind kept_get fun s => ?_
    exact kept_bind (kept_forM (fun k => kept_when (ih _)) _) fun _ => ext2_bfree_kept _

theorem truncateBlock_kept (i : Slot) {free : Int → Prog State Unit} (hf : ∀ n, Steps Kept (free n))
    (k : Int) : Steps Kept (truncateBlock i free k) := by
  refine kept_bind kept_get fun s => kept_when (kept_bind (hf _) fun _ => ?_)
  exact Steps.modify fun s => setBlock_kept i k 0 s

theorem ext2_truncate_kept (i : Slot) : Steps Kept (ext2_truncate i) := by
  have hdirect : ∀ k : Nat, Steps Kept (truncateBlock i ext2_bfree k) :=
    fun k => truncateBlock_kept i ext2_bfree_kept k
  refine kept_bind (kept_forM hdirect _) fun _ => ?_
  refine kept_bind (truncateBlock_kept i (ext2_free_indirect_kept 0) _) fun _ => ?_
  refine kept_bind (truncateBlock_kept i (ext2_free_indirect_kept 1) _) fun _ => ?_
  refine kept_bind (truncateBlock_kept i (ext2_free_indirect_kept 2) _) fun _ => ?_
  exact Steps.modify fun s => setSize_kept i 0 s

theorem fillPtrs_kept (i : Slot) (firstblock : Int) (n : Nat) (m : Mem) (s : State) :
    Kept s (fillPtrs i firstblock n m s).2 := by
  unfold fillPtrs
  induction n with
  | zero => exact Kept.refl s
  | succ n ih =>
    rw [List.range_succ, List.foldl_append, List.foldl_cons, List.foldl_nil]
    split
    · exact Kept.trans _ _ _ ih (setBlock_kept i _ _ _)
    · exact ih

theorem fillInode_kept (i : Slot) (nblocks firstblock iblkno : Int) :
    Steps Kept (fillInode i nblocks firstblock iblkno) := by
  refine kept_bind (Steps.modify fun s => setSize_kept i _ s) fun _ => ?_
  refine kept_bind (Steps.modifyGet fun s => fillPtrs_kept i firstblock _ _ s) fun m => ?_
  exact kept_bind (kept_when (bwrite_kept _ _)) fun _ => kept_pure _

theorem ext2_fill_contiguous_kept (i : Slot) (nblocks : Int) :
    Steps Kept (ext2_fill_contiguous i nblocks) := by
  refine kept_bind kept_get fun s => Steps.ite (kept_pure _) ?_
  refine kept_bind (ext2_contiguous_balloc_kept _) fun first => Steps.ite (kept_pure _) ?_
  refine kept_bind (Steps.modify fun s => setBlocks_kept i _ s) fun _ => Steps.ite ?_
    (fillInode_kept i _ _ _)
  refine kept_bind ext2_balloc_kept fun iblkno => Steps.ite ?_ ?_
  · exact kept_bind (kept_forM (fun k => ext2_bfree_kept _) _) fun _ => kept_pure _
  · refine kept_bind (Steps.modify fun s => ?_) fun _ => fillInode_kept i _ _ _
    exact Kept.trans _ _ _ (addBlock_kept i s) (setBlock_kept i _ _ _)

theorem ext2_write_bootblock_kept (bb : Mem) : Steps Kept (ext2_write_bootblock bb) := bwrite_kept 0 bb

/-! ## directories -/

theorem searchDir_kept (fuel : Nat) (i : Slot) (name : List UInt8) (n : Nat) :
    ∀ diroffset, Steps Kept (searchDir fuel i name n diroffset) := by
  induction n with
  | zero => exact fun _ => Steps.fail
  | succ n ih =>
    intro diroffset
    refine kept_bind kept_get fun s => Steps.ite (kept_bind (ext2_bread_kept i _) fun m => ?_)
      (kept_pure _)
    cases searchBlock name s.blocksize m fuel 0 with
    | none => exact Steps.fail
    | some r => exact Steps.ite (kept_pure _) (ih _)

theorem walk_kept (fuel : Nat) (cs : List (List UInt8)) : ∀ i, Steps Kept (walk fuel cs i) := by
  induction cs with
  | nil => exact fun i => kept_pure i
  | cons c cs ih =>
    intro i
    cases i with
    | none => exact Steps.fail
    | some i =>
      refine kept_bind (searchDir_kept fuel i c fuel 0) fun next => ?_
      refine kept_bind (ext2_iput_kept i) fun _ => Steps.ite (kept_pure _) ?_
      exact kept_bind (ext2_iget_kept _) fun j => ih j

theorem ext2_namei_kept (fuel : Nat) (name : List UInt8) : Steps Kept (ext2_namei fuel name) :=
  kept_bind (ext2_iget_kept _) fun i => walk_kept fuel _ i

theorem mknodLoop_kept (fuel : Nat) (dip : Slot) (name : List UInt8) (ino : Int) (n : Nat) :
    ∀ diroffset m, Steps Kept (mknodLoop fuel dip name ino n diroffset m) := by
  induction n with
  | zero => exact fun _ _ => Steps.fail
  | succ n ih =>
    intro diroffset m
    refine kept_bind kept_get fun s => Steps.ite (kept_bind (ext2_bread_kept dip _) fun m => ?_) ?_
    · rcases findRoom name.length s.blocksize m fuel 0 with _ | _ | ⟨dp, buf⟩
      · exact Steps.fail
      · exact ih _ _
      · exact ext2_bwrite_kept dip _ _
    · exact kept_bind (ext2_bwrite_kept dip _ _) fun _ => Steps.modify fun s => setSize_kept dip _ s

theorem ext2_mknod_kept (fuel : Nat) (dip : Slot) (name : List UInt8) (ino : Int) :
    Steps Kept (ext2_mknod fuel dip name ino) :=
  kept_bind kept_get fun s => mknodLoop_kept fuel dip name ino fuel 0 _

end E2
