import Aboot.Ext2.Impl
import Mathlib.Logic.Relation

/-!
# The indirect-block caches

`Coh M s`: a buffer with a cached block number holds that block of the mounted partition.

`Keeps M s t`: from `s` to `t` the mounted partition stays the same, the log only grows, and the
caches stay coherent as long as no read of an index block fails over a cached one.  Every
function but `ext2_mount` keeps the caches in this sense; `ext2_mount` does when nothing is
cached.  `SameTable s t`: the inode table is not touched; this is what holds of everything that
only reads blocks.

* `run_coherent`   the caches are coherent in every state of a run of such steps;
* `remount_stale`  a second mount leaves a cached number with a fresh buffer.
-/

set_option linter.unusedVariables false

namespace Ext2
open Word State

/-! ## what the functions can do -/

/-- the two caches hold the blocks they say -/
structure Coh (M : Machine) (s : State) : Prop where
  iblk : s.cached_iblkno ≠ -1 → ∀ k : Nat, (k : Int) < s.blocksize →
    s.iblkbuf k = M.bytes s.dev (s.blockOffset s.cached_iblkno + k)
  diblk : s.cached_diblkno ≠ -1 → ∀ k : Nat, (k : Int) < s.blocksize →
    s.diblkbuf k = M.bytes s.dev (s.blockOffset s.cached_diblkno + k)

/-- no read of an index block failed over a cached block -/
def IndexFine (l : List Read) : Prop :=
  ∀ r ∈ l, r.target = .iblk ∨ r.target = .diblk → r.ret = r.count ∨ r.held = -1

instance (l : List Read) : Decidable (IndexFine l) :=
  inferInstanceAs (Decidable (∀ r ∈ l, _))

/-- the mounted partition and its limits -/
structure SameMount (s t : State) : Prop where
  sb : t.sb = s.sb
  gds : t.gds = s.gds
  dev : t.dev = s.dev
  part : t.partition_offset = s.partition_offset
  blocksize : t.blocksize = s.blocksize
  directlim : t.directlim = s.directlim
  ind1lim : t.ind1lim = s.ind1lim
  ind2lim : t.ind2lim = s.ind2lim
  ptrs : t.ptrs_per_blk = s.ptrs_per_blk

structure SameTable (s t : State) : Prop where
  table : t.inode_table = s.inode_table
  root : t.root_inode = s.root_inode
  nofree : t.no_free_inodes = s.no_free_inodes

/-- the bytes after the inodes of the table, which no read reaches -/
def SameTails (s t : State) : Prop :=
  ∀ i k, 128 ≤ k → (t.inode_table i).inode k = (s.inode_table i).inode k

structure Keeps (M : Machine) (s t : State) : Prop where
  mount : SameMount s t
  tails : SameTails s t
  log : ∃ l, t.log = s.log ++ l ∧ (∀ r ∈ l, r.ret ≤ r.count) ∧ (IndexFine l → Coh M s → Coh M t)

theorem SameMount.refl (s : State) : SameMount s s := by constructor <;> rfl

theorem SameMount.trans {s t u : State} (h : SameMount s t) (h' : SameMount t u) :
    SameMount s u where
  sb := h'.sb.trans h.sb
  gds := h'.gds.trans h.gds
  dev := h'.dev.trans h.dev
  part := h'.part.trans h.part
  blocksize := h'.blocksize.trans h.blocksize
  directlim := h'.directlim.trans h.directlim
  ind1lim := h'.ind1lim.trans h.ind1lim
  ind2lim := h'.ind2lim.trans h.ind2lim
  ptrs := h'.ptrs.trans h.ptrs

theorem SameTable.refl (s : State) : SameTable s s := ⟨rfl, rfl, rfl⟩

theorem SameTable.trans {s t u : State} (h : SameTable s t) (h' : SameTable t u) : SameTable s u :=
  ⟨h'.table.trans h.table, h'.root.trans h.root, h'.nofree.trans h.nofree⟩

theorem Keeps.refl (M : Machine) (s : State) : Keeps M s s :=
  ⟨SameMount.refl s, fun _ _ _ => rfl, [], (List.append_nil _).symm, by simp, fun _ h => h⟩

theorem Keeps.trans {M : Machine} {s t u : State} (h : Keeps M s t) (h' : Keeps M t u) :
    Keeps M s u := by
  obtain ⟨hm, ht, l, hl, hle, hc⟩ := h
  obtain ⟨hm', ht', l', hl', hle', hc'⟩ := h'
  refine ⟨hm.trans hm', fun i k hk => (ht' i k hk).trans (ht i k hk), l ++ l', by rw [hl', hl, List.append_assoc],
    List.forall_mem_append.mpr ⟨hle, hle'⟩, fun hf hs => ?_⟩
  exact hc' (fun r hr => hf r (List.mem_append_right _ hr))
    (hc (fun r hr => hf r (List.mem_append_left _ hr)) hs)

/-- a change outside the caches, the log and the mount -/
theorem Keeps.of_same {M : Machine} {s t : State} (hm : SameMount s t) (ht : SameTails s t)
    (hlog : t.log = s.log)
    (h1 : t.cached_iblkno = s.cached_iblkno) (h2 : t.iblkbuf = s.iblkbuf)
    (h3 : t.cached_diblkno = s.cached_diblkno) (h4 : t.diblkbuf = s.diblkbuf) : Keeps M s t := by
  refine ⟨hm, ht, [], by rw [hlog, List.append_nil], by simp, fun _ h => ?_⟩
  constructor
  · intro hn k hk
    rw [h1] at hn ⊢
    rw [hm.blocksize] at hk
    rw [h2, h.iblk hn k hk, hm.dev, blockOffset, blockOffset, hm.part, hm.blocksize]
  · intro hn k hk
    rw [h3] at hn ⊢
    rw [hm.blocksize] at hk
    rw [h4, h.diblk hn k hk, hm.dev, blockOffset, blockOffset, hm.part, hm.blocksize]

/-- what a read enters in the log -/
theorem note_le (M : Machine) (target : Target) (count offset : Int) (s : State) :
    ∀ r ∈ [(⟨target, count, offset, (s.rd M count offset).ret, s.held target⟩ : Read)],
      r.ret ≤ r.count := by
  intro r hr
  rw [List.mem_singleton.mp hr]
  exact M.ret_le _ _ _ _

/-- a read that does not fill an index buffer -/
theorem Keeps.note (M : Machine) (target : Target) (count offset : Int) (s : State) :
    Keeps M s (s.note M target count offset) :=
  ⟨by constructor <;> rfl, fun _ _ _ => rfl, _, rfl, note_le M target count offset s,
    fun _ h => ⟨h.iblk, h.diblk⟩⟩

/-! ## the caches -/

/-- a block read in whole is the block of the partition -/
theorem readIblk_exact (M : Machine) (n : Int) (s : State)
    (h : (s.rd M s.blocksize (s.blockOffset n)).ret = s.blocksize) (k : Nat)
    (hk : (k : Int) < s.blocksize) :
    (readIblk M n s).iblkbuf k = M.bytes s.dev (s.blockOffset n + k) :=
  M.put_read_exact h s.iblkbuf hk

theorem readDiblk_exact (M : Machine) (n : Int) (s : State)
    (h : (s.rd M s.blocksize (s.blockOffset n)).ret = s.blocksize) (k : Nat)
    (hk : (k : Int) < s.blocksize) :
    (readDiblk M n s).diblkbuf k = M.bytes s.dev (s.blockOffset n + k) :=
  M.put_read_exact h s.diblkbuf hk

theorem cacheIblk_keeps (M : Machine) (n : Int) (s : State) :
    Keeps M s (cacheIblk M n s).2 := by
  unfold cacheIblk
  split
  · exact Keeps.refl M s
  · split
    · rename_i hn hr
      refine ⟨by constructor <;> rfl, fun _ _ _ => rfl, _, rfl, note_le M _ _ _ s, fun hf h => ?_⟩
      constructor
      · intro hc
        have := hf _ (List.mem_singleton_self _) (Or.inl rfl)
        exact absurd (this.resolve_left hr) hc
      · exact h.diblk
    · rename_i hn hr
      refine ⟨by constructor <;> rfl, fun _ _ _ => rfl, _, rfl, note_le M _ _ _ s, fun hf h => ?_⟩
      exact ⟨fun _ k hk => readIblk_exact M n s (not_not.mp hr) k hk, h.diblk⟩

theorem cacheDiblk_keeps (M : Machine) (n : Int) (s : State) :
    Keeps M s (cacheDiblk M n s).2 := by
  unfold cacheDiblk
  split
  · exact Keeps.refl M s
  · split
    · rename_i hn hr
      refine ⟨by constructor <;> rfl, fun _ _ _ => rfl, _, rfl, note_le M _ _ _ s, fun hf h => ?_⟩
      constructor
      · exact h.iblk
      · intro hc
        have := hf _ (List.mem_singleton_self _) (Or.inr rfl)
        exact absurd (this.resolve_left hr) hc
    · rename_i hn hr
      refine ⟨by constructor <;> rfl, fun _ _ _ => rfl, _, rfl, note_le M _ _ _ s, fun hf h => ?_⟩
      exact ⟨h.iblk, fun _ k hk => readDiblk_exact M n s (not_not.mp hr) k hk⟩

theorem cacheIblk_table (M : Machine) (n : Int) (s : State) : SameTable s (cacheIblk M n s).2 := by
  unfold cacheIblk
  split
  · exact SameTable.refl s
  · split <;> exact ⟨rfl, rfl, rfl⟩

theorem cacheDiblk_table (M : Machine) (n : Int) (s : State) :
    SameTable s (cacheDiblk M n s).2 := by
  unfold cacheDiblk
  split
  · exact SameTable.refl s
  · split <;> exact ⟨rfl, rfl, rfl⟩

/-! ## mapping and reading blocks -/

/-- reading blocks: the caches are kept and the inode table is not touched -/
structure Reads (M : Machine) (s t : State) : Prop where
  keeps : Keeps M s t
  table : SameTable s t

theorem Reads.refl (M : Machine) (s : State) : Reads M s s := ⟨Keeps.refl M s, SameTable.refl s⟩

theorem Reads.trans {M : Machine} {s t u : State} (h : Reads M s t) (h' : Reads M t u) :
    Reads M s u := ⟨h.keeps.trans h'.keeps, h.table.trans h'.table⟩

theorem Reads.note (M : Machine) (target : Target) (count offset : Int) (s : State) :
    Reads M s (s.note M target count offset) := ⟨Keeps.note M target count offset s, rfl, rfl, rfl⟩

theorem viaIblk_reads (M : Machine) (n k : Int) (s : State) : Reads M s (viaIblk M n k s).2 := by
  unfold viaIblk
  split
  · exact Reads.refl M s
  · split <;> exact ⟨cacheIblk_keeps M n s, cacheIblk_table M n s⟩

theorem viaDiblk_reads (M : Machine) (n k : Int) (s : State) : Reads M s (viaDiblk M n k s).2 := by
  have hc : Reads M s (cacheDiblk M n s).2 := ⟨cacheDiblk_keeps M n s, cacheDiblk_table M n s⟩
  unfold viaDiblk
  split
  · exact Reads.refl M s
  · split
    · exact hc.trans (viaIblk_reads M _ _ _)
    · exact hc

theorem ext2_blkno_reads (M : Machine) (i : Slot) (blkoff : Int) (s : State) :
    Reads M s (ext2_blkno M i blkoff s).2 := by
  unfold ext2_blkno
  split
  · exact Reads.refl M s
  · split
    · exact viaIblk_reads M _ _ s
    · split
      · exact viaDiblk_reads M _ _ s
      · exact Reads.refl M s

theorem group_reads (M : Machine) (i : Slot) (d : Int) (n : Nat) :
    ∀ (blkno : Int) (nc : Nat) (s : State), Reads M s (group M i d n blkno nc s).2.2 := by
  induction n with
  | zero => intro blkno nc s; exact Reads.refl M s
  | succ n ih =>
    intro blkno nc s
    have hb := ext2_blkno_reads M i (sgn 32 blkno) s
    unfold group
    split
    · exact hb.trans (ih _ _ _)
    · exact hb

theorem nextGroup_reads (M : Machine) (i : Slot) (n : Nat) (blkno : Int) (s : State) :
    Reads M s (nextGroup M i n blkno s).2.2.2 :=
  (ext2_blkno_reads M i (sgn 32 blkno) s).trans (group_reads M i _ n _ _ _)

theorem breadLoop_reads (M : Machine) (i : Slot) (fuel : Nat) :
    ∀ (n : Nat) (blkno tot : Int) (s : State), Reads M s (breadLoop M i fuel n blkno tot s).st := by
  induction fuel with
  | zero => intro n blkno tot s; exact Reads.refl M s
  | succ fuel ih =>
    intro n blkno tot s
    cases n with
    | zero => exact Reads.refl M s
    | succ n =>
      have hg := nextGroup_reads M i n blkno s
      unfold breadLoop
      simp only
      split
      · exact hg.trans (ih _ _ _ _)
      · split
        · exact hg.trans (Reads.note M _ _ _ _)
        · exact (hg.trans (Reads.note M _ _ _ _)).trans (ih _ _ _ _)

theorem ext2_breadi_reads (M : Machine) (i : Slot) (blkno nblks : Int) (s : State) :
    Reads M s (ext2_breadi M i blkno nblks s).st := by
  unfold ext2_breadi
  split
  · exact Reads.refl M s
  · exact breadLoop_reads M i _ _ _ _ s

theorem ext4_breadi_reads (M : Machine) (i : Slot) (blkno nblks : Int) (s : State) :
    Reads M s (ext4_breadi M i blkno nblks s).st := by
  unfold ext4_breadi
  simp only
  repeat' split
  all_goals first
    | exact Reads.refl M s
    | exact Reads.note M _ _ _ s

theorem extn_breadi_reads (M : Machine) (i : Slot) (blkno nblks : Int) (s : State) :
    Reads M s (extn_breadi M i blkno nblks s).st := by
  unfold extn_breadi
  split
  · exact ext4_breadi_reads M i blkno nblks s
  · exact ext2_breadi_reads M i blkno nblks s

/-! ## directories -/

theorem breadBlkbuf_reads (M : Machine) (i : Slot) (blkno : Int) (s : State) :
    Reads M s (breadBlkbuf M i blkno s).2 :=
  (extn_breadi_reads M i blkno 1 s).trans
    ⟨Keeps.of_same (by constructor <;> rfl) (fun _ _ _ => rfl) rfl rfl rfl rfl rfl, rfl, rfl, rfl⟩

/-- a change of the position in a directory, or of `blkbuf` -/
theorem Reads.of_pos {M : Machine} {s t : State} (dir blk : Int) (buf : Mem)
    (h : t = { s with diroffset := dir, blockoffset := blk, blkbuf := buf }) : Reads M s t := by
  subst h
  exact ⟨Keeps.of_same (by constructor <;> rfl) (fun _ _ _ => rfl) rfl rfl rfl rfl rfl, rfl, rfl, rfl⟩

theorem nextEntry_reads (M : Machine) (s : State) : Reads M s (nextEntry s).2 :=
  Reads.of_pos _ _ _ rfl

theorem nextDirBlock_reads (M : Machine) (i : Slot) (s : State) :
    Reads M s (nextDirBlock M i s).2 := by
  have h0 : Reads M s { s with diroffset := sgn 32 (s.diroffset + s.blocksize) } := Reads.of_pos _ _ _ rfl
  unfold nextDirBlock
  simp only
  split
  · exact h0
  · split
    · exact h0.trans (breadBlkbuf_reads M i _ _)
    · exact ((h0.trans (breadBlkbuf_reads M i _ _)).trans (Reads.of_pos _ _ _ rfl)).trans
        (nextEntry_reads M _)

theorem readdirStep_reads (M : Machine) (i : Slot) (s : State) :
    Reads M s (readdirStep M i s).2 := by
  unfold readdirStep
  split
  · exact nextDirBlock_reads M i s
  · exact nextEntry_reads M s

theorem ext2_readdiri_reads (M : Machine) (i : Slot) (rewind : Bool) (s : State) :
    Reads M s (ext2_readdiri M i rewind s).2 := by
  have h0 : Reads M s { s with diroffset := 0, blockoffset := 0 } := Reads.of_pos _ _ _ rfl
  unfold ext2_readdiri
  simp only
  split
  · split
    · exact h0.trans (breadBlkbuf_reads M i _ _)
    · exact (h0.trans (breadBlkbuf_reads M i _ _)).trans (readdirStep_reads M i _)
  · exact readdirStep_reads M i s

theorem ext2_readdir_reads (M : Machine) (fd : Slot) (rewind : Bool) (s : State) :
    Reads M s (ext2_readdir M fd rewind s).2 := by
  have h := ext2_readdiri_reads M fd rewind s
  unfold ext2_readdir
  split
  · split
    · rename_i hd; rw [hd] at h; exact h
    · rename_i hd; rw [hd] at h; exact h.trans (Reads.of_pos _ _ _ rfl)
  · exact Reads.refl M s

theorem searchDir_reads (M : Machine) (i : Slot) (c : List UInt8) (fuel : Nat) :
    ∀ (rewind : Bool) (s : State) (r : Int × State), searchDir M i c fuel rewind s = some r →
      Reads M s r.2 := by
  induction fuel with
  | zero => intro rewind s r h; cases h
  | succ fuel ih =>
    intro rewind s r h
    have hd := ext2_readdiri_reads M i rewind s
    unfold searchDir at h
    split at h
    · rename_i e
      rw [e] at hd
      rw [← Option.some.inj h]
      exact hd
    · rename_i e
      rw [e] at hd
      split at h
      · rw [← Option.some.inj h]
        exact hd
      · exact hd.trans (ih _ _ _ h)

/-! ## the inode table -/

theorem setEntry_self (i : Slot) (e : Entry) (s : State) : (setEntry i e s).inode_table i = e := by
  simp [setEntry]

theorem setEntry_other {i j : Slot} (e : Entry) (s : State) (h : j ≠ i) :
    (setEntry i e s).inode_table j = s.inode_table j := by
  simp [setEntry, h]

theorem setEntry_keeps (M : Machine) (i : Slot) {e : Entry} {s : State}
    (h : ∀ k, 128 ≤ k → e.inode k = (s.inode_table i).inode k) : Keeps M s (setEntry i e s) := by
  refine Keeps.of_same (by constructor <;> rfl) (fun j k hk => ?_) rfl rfl rfl rfl rfl
  by_cases hj : j = i
  · rw [hj, setEntry_self]
    exact h k hk
  · rw [setEntry_other e s hj]

/-- a read of an inode changes the 128 bytes of it -/
theorem inode_tail (M : Machine) (ino : Int) (s : State) (m : Mem) {k : Nat} (hk : 128 ≤ k) :
    m.put 0 (s.rd M sizeof_inode (inodeOffset s ino)).data k = m k := by
  have hle : (s.rd M sizeof_inode (inodeOffset s ino)).data.length ≤ 128 := M.read_le _ _ _ _
  exact Mem.put_out m 0 k _ (Or.inr (by omega))

theorem readInode_keeps (M : Machine) (i : Slot) (ino : Int) (s : State) :
    Keeps M s (readInode M i ino s) :=
  (Keeps.note M .inode sizeof_inode (inodeOffset s ino) s).trans
    (setEntry_keeps M i fun k hk => inode_tail M ino s _ hk)

theorem ext2_iget_keeps (M : Machine) (ino : Int) (s : State) :
    Keeps M s (ext2_iget M ino s).2 := by
  unfold ext2_iget
  split
  · exact Keeps.of_same (by constructor <;> rfl) (fun _ _ _ => rfl) rfl rfl rfl rfl rfl
  · split
    · exact readInode_keeps M _ ino s
    · exact (readInode_keeps M _ ino s).trans (setEntry_keeps M _ fun _ _ => rfl)

theorem ext2_iput_keeps (M : Machine) (i : Slot) (s : State) : Keeps M s (ext2_iput i s) :=
  setEntry_keeps M i fun _ _ => rfl

theorem releaseDir_keeps (M : Machine) (i : Slot) (s : State) : Keeps M s (releaseDir i s) := by
  unfold releaseDir
  split
  · exact Keeps.refl M s
  · exact ext2_iput_keeps M i s

theorem ext2_close_keeps (M : Machine) (fd : Slot) (s : State) : Keeps M s (ext2_close fd s) := by
  unfold ext2_close
  split
  · exact Keeps.refl M s
  · exact ext2_iput_keeps M fd s

/-! ## path names -/

theorem walk_keeps (M : Machine) (fuel : Nat) (cs : List (List UInt8)) :
    ∀ (i : Slot) (s : State) (r : Option Slot × State), walk M fuel cs i s = some r →
      Keeps M s r.2 := by
  induction cs with
  | nil =>
    intro i s r h
    rw [← Option.some.inj h]
    exact Keeps.refl M s
  | cons c cs ih =>
    intro i s r h
    unfold walk at h
    split at h
    · cases h
    · rename_i next_ino s₁ hs
      have h1 := (searchDir_reads M i c fuel true s _ hs).keeps.trans (releaseDir_keeps M i s₁)
      simp only at h
      split at h
      · rw [← Option.some.inj h]
        exact h1
      · have h2 := h1.trans (ext2_iget_keeps M next_ino (releaseDir i s₁))
        split at h
        · rename_i e
          rw [e] at h2
          rw [← Option.some.inj h]
          exact h2
        · rename_i e
          rw [e] at h2
          exact h2.trans (ih _ _ _ h)

theorem getRoot_keeps (M : Machine) (s : State) : Keeps M s (getRoot M s) := by
  unfold getRoot
  split
  · exact Keeps.refl M s
  · exact (ext2_iget_keeps M _ s).trans
      (Keeps.of_same (by constructor <;> rfl) (fun _ _ _ => rfl) rfl rfl rfl rfl rfl)

theorem ext2_namei_keeps (M : Machine) (fuel : Nat) (name : List UInt8) (s : State)
    (r : Option Slot × State) (h : ext2_namei M fuel name s = some r) : Keeps M s r.2 := by
  unfold ext2_namei at h
  split at h
  · rw [← Option.some.inj h]
    exact getRoot_keeps M s
  · exact (getRoot_keeps M s).trans (walk_keeps M fuel _ _ _ r h)

theorem linkText_reads (M : Machine) (fuel : Nat) (i : Slot) (s : State)
    (r : Option (List UInt8) × State) (h : linkText M fuel i s = some r) : Reads M s r.2 := by
  unfold linkText at h
  split at h
  · split at h
    · rw [← Option.some.inj h]
      exact breadBlkbuf_reads M i 0 s
    · obtain ⟨t, -, rfl⟩ := Option.map_eq_some_iff.mp h
      exact breadBlkbuf_reads M i 0 s
  · obtain ⟨t, -, rfl⟩ := Option.map_eq_some_iff.mp h
    exact Reads.refl M s

theorem ext2_follow_link_keeps (M : Machine) (fuel : Nat) (i : Slot) (base : List UInt8) (s : State)
    (r : Option Slot × State) (h : ext2_follow_link M fuel i base s = some r) :
    Keeps M s r.2 := by
  unfold ext2_follow_link at h
  split at h
  · cases h
  · rename_i e
    rw [← Option.some.inj h]
    exact (linkText_reads M fuel i s _ e).keeps
  · rename_i e
    exact (linkText_reads M fuel i s _ e).keeps.trans (ext2_namei_keeps M fuel _ _ r h)

theorem followLinks_keeps (M : Machine) (filename : List UInt8) (depth fuel : Nat) :
    ∀ (i : Slot) (s : State) (r : Option Slot × State),
      followLinks M filename depth fuel i s = some r → Keeps M s r.2 := by
  induction fuel with
  | zero => intro i s r h; cases h
  | succ fuel ih =>
    intro i s r h
    unfold followLinks at h
    split at h
    · split at h
      · cases h
      · rename_i e
        rw [← Option.some.inj h]
        exact ext2_follow_link_keeps M depth i filename s _ e
      · rename_i e
        exact (ext2_follow_link_keeps M depth i filename s _ e).trans (ih _ _ _ h)
    · rw [← Option.some.inj h]
      exact Keeps.refl M s

theorem ext2_open_keeps (M : Machine) (fuel : Nat) (filename : List UInt8) (s : State)
    (r : Option Slot × State) (h : ext2_open M fuel filename s = some r) : Keeps M s r.2 := by
  unfold ext2_open at h
  split at h
  · cases h
  · rename_i e
    rw [← Option.some.inj h]
    exact ext2_namei_keeps M fuel filename s _ e
  · rename_i e
    exact (ext2_namei_keeps M fuel filename s _ e).trans (followLinks_keeps M _ _ _ _ _ r h)

/-! ## mounting -/

theorem mountBuffers_cached (M : Machine) (p : Nat) (s : State) :
    (mountBuffers M p s).2.2.cached_iblkno = s.cached_iblkno ∧
      (mountBuffers M p s).2.2.cached_diblkno = s.cached_diblkno := by
  unfold mountBuffers
  simp only
  repeat' split
  all_goals exact ⟨rfl, rfl⟩

/-- a mount does not touch the cached block numbers -/
theorem ext2_mount_cached (M : Machine) (dev off : Int) (p : Nat) (s : State) :
    (ext2_mount M dev off p s).2.2.cached_iblkno = s.cached_iblkno ∧
      (ext2_mount M dev off p s).2.2.cached_diblkno = s.cached_diblkno := by
  unfold ext2_mount mountGroups
  simp only
  split
  · exact ⟨rfl, rfl⟩
  · split
    · exact ⟨rfl, rfl⟩
    · split
      · exact ⟨rfl, rfl⟩
      · exact mountBuffers_cached M _ _

theorem coh_of_empty (M : Machine) {s : State} (h1 : s.cached_iblkno = -1)
    (h2 : s.cached_diblkno = -1) : Coh M s :=
  ⟨fun h => absurd h1 h, fun h => absurd h2 h⟩

/-! ## runs -/

/-- a call of the ext2 reader -/
inductive Call where
  | mount (dev p_offset : Int) (free_mem_ptr : Nat)
  | open (fuel : Nat) (filename : List UInt8)
  | bread (fd : Slot) (blkno nblks : Int)
  | readdir (fd : Slot) (rewind : Bool)
  | close (fd : Slot)

/-- the state after a call that returns -/
def call (M : Machine) (c : Call) (s : State) : Option State :=
  match c with
  | .mount dev off p => some (ext2_mount M dev off p s).2.2
  | .open fuel f => (ext2_open M fuel f s).map Prod.snd
  | .bread fd b n => some (ext2_bread M fd b n s).st
  | .readdir fd rewind => some (ext2_readdir M fd rewind s).2
  | .close fd => some (ext2_close fd s)

/-- `t` is reached from `s` by calls for which `ok` holds -/
def Reach (M : Machine) (ok : Call → State → State → Prop) (s t : State) : Prop :=
  Relation.ReflTransGen (fun t u => ∃ c, call M c t = some u ∧ ok c t u) s t

/-- a mount finds nothing cached; no index-block read of another call fails over a cached block -/
def CacheSafe (c : Call) (s t : State) : Prop :=
  match c with
  | .mount _ _ _ => s.cached_iblkno = -1 ∧ s.cached_diblkno = -1
  | _ => IndexFine (t.log.drop s.log.length)

theorem Keeps.coh {M : Machine} {s t : State} (h : Keeps M s t)
    (hf : IndexFine (t.log.drop s.log.length)) (hs : Coh M s) : Coh M t := by
  obtain ⟨-, -, l, hl, -, hc⟩ := h
  rw [hl, List.drop_left] at hf
  exact hc hf hs

/-- every call but a mount keeps the caches -/
theorem call_keeps {M : Machine} {c : Call} {s t : State} (h : call M c s = some t)
    (hc : ∀ dev off p, c ≠ .mount dev off p) : Keeps M s t := by
  cases c with
  | mount dev off p => exact absurd rfl (hc dev off p)
  | «open» fuel f =>
    obtain ⟨r, hr, rfl⟩ := Option.map_eq_some_iff.mp h
    exact ext2_open_keeps M fuel f s r hr
  | bread fd b n =>
    rw [← Option.some.inj h]
    exact (extn_breadi_reads M fd b n s).keeps
  | readdir fd rewind =>
    rw [← Option.some.inj h]
    exact (ext2_readdir_reads M fd rewind s).keeps
  | close fd =>
    rw [← Option.some.inj h]
    exact ext2_close_keeps M fd s

theorem call_coherent {M : Machine} {c : Call} {s t : State} (h : call M c s = some t)
    (hok : CacheSafe c s t) (hs : Coh M s) : Coh M t := by
  cases c with
  | mount dev off p =>
    have e := Option.some.inj h
    obtain ⟨h1, h2⟩ := ext2_mount_cached M dev off p s
    rw [e] at h1 h2
    exact coh_of_empty M (h1.trans hok.1) (h2.trans hok.2)
  | «open» fuel f => exact (call_keeps h (by simp)).coh hok hs
  | bread fd b n => exact (call_keeps h (by simp)).coh hok hs
  | readdir fd rewind => exact (call_keeps h (by simp)).coh hok hs
  | close fd => exact (call_keeps h (by simp)).coh hok hs

/-- **The caches are coherent in every state of a run** in which every mount finds nothing cached
and no index-block read fails over a cached block. -/
theorem run_coherent (M : Machine) (s t : State) (h1 : s.cached_iblkno = -1)
    (h2 : s.cached_diblkno = -1) (h : Reach M CacheSafe s t) : Coh M t := by
  induction h with
  | refl => exact coh_of_empty M h1 h2
  | tail _ hstep ih =>
    obtain ⟨c, hc, hok⟩ := hstep
    exact call_coherent hc hok ih

/-! ## a remount -/

/-- a 1024-byte-block file system with one group; the root has 20 blocks, and block 12 of it is
block 9, found through the indirect block 7 -/
def smallDisk (x : Int) : UInt8 :=
  if x = 1028 then 64 else if x = 1044 then 1 else if x = 1057 then 32
  else if x = 1064 then 8 else if x = 1080 then 0x53 else if x = 1081 then 0xEF
  else if x = 2056 then 5
  else if x = 5249 then 0x41 else if x = 5253 then 80 else if x = 5248 + 88 then 7
  else if x = 7168 then 9 else 0

def smallMachine : Machine :=
  Machine.faultless (fun _ x => smallDisk x) (fun _ _ => 0) [⟨0, 1024, 0⟩]

/-- the static variables at power-on -/
def powerOn : State where
  sb := fun _ => 0
  gds := fun _ => 0
  root_inode := none
  ngroups := 0
  directlim := 0
  ind1lim := 0
  ind2lim := 0
  ptrs_per_blk := 0
  blocksize := 0
  blkbuf := fun _ => 0
  cached_iblkno := -1
  iblkbuf := fun _ => 0
  cached_diblkno := -1
  diblkbuf := fun _ => 0
  dev := -1
  partition_offset := 0
  inode_table := fun _ => ⟨fun _ => 0, 0, false, 0⟩
  diroffset := 0
  blockoffset := 0
  log := []
  no_free_inodes := 0

/-- the small file system is mounted, -/
def smallMounted : State := (ext2_mount smallMachine 0 0 0 powerOn).2.2

/-- its root is opened, -/
def smallOpened : State :=
  ((ext2_open smallMachine 1 ['/'.toUInt8] smallMounted).map Prod.snd).getD smallMounted

/-- block 12 of it is read, -/
def smallRead : State := (ext2_bread smallMachine 0 12 1 smallOpened).st

/-- and the same partition is mounted again -/
def smallRemounted : State := (ext2_mount smallMachine 0 0 4096000 smallRead).2.2

theorem smallOpened_call :
    call smallMachine (.open 1 ['/'.toUInt8]) smallMounted = some smallOpened := by
  have h : (ext2_open smallMachine 1 ['/'.toUInt8] smallMounted).isSome = true := by decide +kernel
  obtain ⟨r, hr⟩ := Option.isSome_iff_exists.mp h
  simp only [call, smallOpened, hr, Option.map_some, Option.getD_some]

theorem run_coherent_small :
    Reach smallMachine CacheSafe powerOn smallRead ∧ smallRead.cached_iblkno = 7 ∧
      Coh smallMachine smallRead := by
  have h : Reach smallMachine CacheSafe powerOn smallRead := by
    refine ((Relation.ReflTransGen.single ⟨.mount 0 0 0, rfl, rfl, rfl⟩).tail
      (b := smallMounted) ⟨_, smallOpened_call, ?_⟩).tail (b := smallOpened)
      ⟨.bread 0 12 1, rfl, ?_⟩
    · show IndexFine _
      decide +kernel
    · show IndexFine _
      decide +kernel
  exact ⟨h, by decide +kernel, run_coherent smallMachine powerOn smallRead rfl rfl h⟩

/-- after a remount `iblkbuf` is fresh memory, but `cached_iblkno` still says block 7 -/
theorem remount_stale : ¬ ∀ (M : Machine) (s t : State), s.cached_iblkno = -1 →
    s.cached_diblkno = -1 → Reach M (fun _ _ _ => True) s t → Coh M t := by
  intro hall
  have hr : Reach smallMachine (fun _ _ _ => True) powerOn smallRemounted :=
    (((Relation.ReflTransGen.single ⟨.mount 0 0 0, rfl, trivial⟩).tail
      (b := smallMounted) ⟨_, smallOpened_call, trivial⟩).tail (b := smallOpened)
      ⟨.bread 0 12 1, rfl, trivial⟩).tail (b := smallRead) ⟨.mount 0 0 4096000, rfl, trivial⟩
  have hc := (hall _ _ _ rfl rfl hr).iblk (by decide +kernel) 0 (by decide +kernel)
  have hne : smallRemounted.iblkbuf 0 ≠ smallMachine.bytes smallRemounted.dev
      (smallRemounted.blockOffset smallRemounted.cached_iblkno + (0 : Nat)) := by decide +kernel
  exact hne hc

end Ext2
