import Aboot.Ext2.Grouped
import Aboot.Lib.Loop

/-!
# Looking up a name in a directory

The directory as it is on the disk: its blocks, and in each block a chain of entries that ends where
the block does (`ChainFine`).

* `breadBlkbuf_file`   a block of a file in `blkbuf`;
* `readdirStep_at`     the entry after a position in the directory;
* `searchDir_finds`    a name that is found is the first entry with this name.
-/

set_option linter.unusedVariables false

namespace Ext2
open Word State

/-! ## inodes on the disk -/

/-- the inode `ino` of the mounted partition -/
def diskInode (M : Machine) (s : State) (ino : Nat) : Mem := fun k => M.bytes s.dev (inodeOffset s ino + k)

/-- the same inode: the bytes that are read of it -/
def SameInode (m m' : Mem) : Prop := ∀ k < 128, m k = m' k

theorem SameInode.le32 {m m' : Mem} (h : SameInode m m') {k : Nat} (hk : k ≤ 124) :
    m.le32 k = m'.le32 k := Mem.le_congr fun j hj => h (k + j) (by omega)

theorem SameInode.le16 {m m' : Mem} (h : SameInode m m') {k : Nat} (hk : k ≤ 126) :
    m.le16 k = m'.le16 k := Mem.le_congr fun j hj => h (k + j) (by omega)

theorem SameInode.mode {m m' : Mem} (h : SameInode m m') : i_mode m = i_mode m' := h.le16 (by omega)
theorem SameInode.size {m m' : Mem} (h : SameInode m m') : i_size m = i_size m' := h.le32 (by omega)
theorem SameInode.blocks {m m' : Mem} (h : SameInode m m') : i_blocks m = i_blocks m' := h.le32 (by omega)
theorem SameInode.flags {m m' : Mem} (h : SameInode m m') : i_flags m = i_flags m' := h.le32 (by omega)

theorem SameInode.mapped {m m' : Mem} (h : SameInode m m') (look : Nat → Nat → Mem) (P b : Nat) :
    Ext2.mapped look P m b = Ext2.mapped look P m' b := by
  unfold Ext2.mapped
  by_cases h1 : b < 12
  · rw [if_pos h1, if_pos h1, h.le32 (by omega)]
  · rw [if_neg h1, if_neg h1, h.le32 (by omega), h.le32 (by omega)]

theorem diskInode_same {M : Machine} {s t : State} (h : SameMount s t) : diskInode M t = diskInode M s := by
  funext ino k
  rw [diskInode, diskInode, inodeOffset, inodeOffset, h.dev, h.part, h.gds, h.sb, h.blocksize]

/-! ## the blocks of a file -/

/-- the pointer of a block of a file -/
def diskPtr (M : Machine) (s : State) (ip : Mem) (b : Nat) : Nat :=
  mapped (fun _ n => diskBlock M s n) (ptrs s) ip b

/-- a block of a file, zeros for a hole -/
def fileBlock (M : Machine) (s : State) (ip : Mem) (b : Nat) : Mem :=
  if diskPtr M s ip b = 0 then fun _ => 0 else diskBlock M s (diskPtr M s ip b)

/-- the number of blocks of a file -/
def blocksOf (s : State) (ip : Mem) : Nat := (i_size ip + s.blocksize.toNat - 1) / s.blocksize.toNat

/-- a file that the reader can read: no extents, blocks within the range of the mapper, and block
numbers that are not negative as `int`s -/
structure Readable (M : Machine) (s : State) (ip : Mem) : Prop where
  noext : i_flags ip &&& EXT4_EXTENTS_FL = 0
  size : i_size ip + s.blocksize.toNat < 4294967296
  limit : blocksOf s ip ≤ 12 + ptrs s * ptrs s
  single : ip.le32 88 < 2147483648
  double : ip.le32 92 < 2147483648
  below : ip.le32 92 ≠ 0 → ∀ k < ptrs s, (diskBlock M s (ip.le32 92)).le32 (4 * k) < 2147483648
  ptr : ∀ b < blocksOf s ip, diskPtr M s ip b < 2147483648

instance (M : Machine) (s : State) (ip : Mem) : Decidable (Readable M s ip) :=
  decidable_of_iff (i_flags ip &&& EXT4_EXTENTS_FL = 0 ∧ i_size ip + s.blocksize.toNat < 4294967296 ∧
      blocksOf s ip ≤ 12 + ptrs s * ptrs s ∧ ip.le32 88 < 2147483648 ∧ ip.le32 92 < 2147483648 ∧
      (ip.le32 92 ≠ 0 → ∀ k < ptrs s, (diskBlock M s (ip.le32 92)).le32 (4 * k) < 2147483648) ∧
      ∀ b < blocksOf s ip, diskPtr M s ip b < 2147483648)
    ⟨fun ⟨h1, h2, h3, h4, h5, h6, h7⟩ => ⟨h1, h2, h3, h4, h5, h6, h7⟩,
      fun h => ⟨h.noext, h.size, h.limit, h.single, h.double, h.below, h.ptr⟩⟩

variable {M : Machine} {s t : State} {i : Slot} {ip : Mem} {b : Nat}

/-- an index read that fails gives the pointer of a hole -/
theorem cacheIblk_true {n : Int} (h : (cacheIblk M n s).1 = true) : IndexOk (newLog s (cacheIblk M n s).2) := by
  unfold cacheIblk at h ⊢
  by_cases hn : s.cached_iblkno = n
  · rw [if_pos hn, newLog_self]
    simp [IndexOk]
  · rw [if_neg hn] at h ⊢
    by_cases hr : (s.rd M s.blocksize (s.blockOffset n)).ret ≠ s.blocksize
    · rw [if_pos hr] at h
      cases h
    · rw [if_neg hr]
      intro r hmem _
      have hlog : newLog s { readIblk M n s with cached_iblkno := n }
          = newLog s (s.note M .iblk s.blocksize (s.blockOffset n)) := rfl
      rw [hlog, newLog_note, List.mem_singleton] at hmem
      rw [hmem]
      exact not_not.mp hr

theorem cacheDiblk_true {n : Int} (h : (cacheDiblk M n s).1 = true) :
    IndexOk (newLog s (cacheDiblk M n s).2) := by
  unfold cacheDiblk at h ⊢
  by_cases hn : s.cached_diblkno = n
  · rw [if_pos hn, newLog_self]
    simp [IndexOk]
  · rw [if_neg hn] at h ⊢
    by_cases hr : (s.rd M s.blocksize (s.blockOffset n)).ret ≠ s.blocksize
    · rw [if_pos hr] at h
      cases h
    · rw [if_neg hr]
      intro r hmem _
      have hlog : newLog s { readDiblk M n s with cached_diblkno := n }
          = newLog s (s.note M .diblk s.blocksize (s.blockOffset n)) := rfl
      rw [hlog, newLog_note, List.mem_singleton] at hmem
      rw [hmem]
      exact not_not.mp hr

theorem viaIblk_failed {n k : Int} (h : ¬ IndexOk (newLog s (viaIblk M n k s).2)) :
    (viaIblk M n k s).1 = 0 := by
  unfold viaIblk at h ⊢
  by_cases hz : n = 0
  · rw [if_pos hz]
  · rw [if_neg hz] at h ⊢
    by_cases ht : (cacheIblk M n s).1 = true
    · rw [if_pos ht] at h
      exact absurd (cacheIblk_true ht) h
    · rw [if_neg ht]

theorem viaDiblk_failed {n k : Int} (h : ¬ IndexOk (newLog s (viaDiblk M n k s).2)) :
    (viaDiblk M n k s).1 = 0 := by
  unfold viaDiblk at h ⊢
  by_cases hz : n = 0
  · rw [if_pos hz]
  · rw [if_neg hz] at h ⊢
    by_cases ht : (cacheDiblk M n s).1 = true
    · rw [if_pos ht] at h ⊢
      rw [newLog_trans (cacheDiblk_keeps M n s) (viaIblk_reads M _ _ _).keeps, indexOk_append] at h
      exact viaIblk_failed fun h' => h ⟨cacheDiblk_true ht, h'⟩
    · rw [if_neg ht]

theorem ext2_blkno_failed {b : Int} (h : ¬ IndexOk (newLog s (ext2_blkno M i b s).2)) :
    (ext2_blkno M i b s).1 = 0 ∧ s.directlim < b := by
  unfold ext2_blkno at h ⊢
  by_cases h1 : b ≤ s.directlim
  · rw [if_pos h1, newLog_self] at h
    exact absurd (by simp [IndexOk]) h
  · rw [if_neg h1] at h ⊢
    refine ⟨?_, not_le.mp h1⟩
    by_cases h2 : b ≤ s.ind1lim
    · rw [if_pos h2] at h ⊢
      exact viaIblk_failed h
    · rw [if_neg h2] at h ⊢
      by_cases h3 : b ≤ s.ind2lim
      · rw [if_pos h3] at h ⊢
        exact viaDiblk_failed h
      · rw [if_neg h3]

/-- the position in a directory stays -/
def SamePlace (s t : State) : Prop := t.diroffset = s.diroffset ∧ t.blockoffset = s.blockoffset

theorem SamePlace.trans {u : State} (h : SamePlace s t) (h' : SamePlace t u) : SamePlace s u :=
  ⟨h'.1.trans h.1, h'.2.trans h.2⟩

theorem cacheIblk_place (n : Int) : SamePlace s (cacheIblk M n s).2 := by
  unfold cacheIblk
  split
  · exact ⟨rfl, rfl⟩
  · split <;> exact ⟨rfl, rfl⟩

theorem cacheDiblk_place (n : Int) : SamePlace s (cacheDiblk M n s).2 := by
  unfold cacheDiblk
  split
  · exact ⟨rfl, rfl⟩
  · split <;> exact ⟨rfl, rfl⟩

theorem viaIblk_place (n k : Int) : SamePlace s (viaIblk M n k s).2 := by
  unfold viaIblk
  split
  · exact ⟨rfl, rfl⟩
  · split <;> exact cacheIblk_place n

theorem viaDiblk_place (n k : Int) : SamePlace s (viaDiblk M n k s).2 := by
  unfold viaDiblk
  split
  · exact ⟨rfl, rfl⟩
  · split
    · exact (cacheDiblk_place n).trans (viaIblk_place _ _)
    · exact cacheDiblk_place n

theorem ext2_blkno_place (b : Int) : SamePlace s (ext2_blkno M i b s).2 := by
  unfold ext2_blkno
  split
  · exact ⟨rfl, rfl⟩
  · split
    · exact viaIblk_place _ _
    · split
      · exact viaDiblk_place _ _
      · exact ⟨rfl, rfl⟩

theorem group_place {dev_blkno : Int} {n : Nat} : ∀ (b : Int) (nc : Nat) (s : State),
    SamePlace s (group M i dev_blkno n b nc s).2.2 := by
  induction n with
  | zero =>
    intro b nc s
    exact ⟨rfl, rfl⟩
  | succ n ih =>
    intro b nc s
    unfold group
    split
    · exact (ext2_blkno_place _).trans (ih _ _ _)
    · exact ext2_blkno_place _

theorem breadLoop_place {fuel : Nat} : ∀ (n : Nat) (b tot : Int) (s : State),
    SamePlace s (breadLoop M i fuel n b tot s).st := by
  induction fuel with
  | zero =>
    intro n b tot s
    exact ⟨rfl, rfl⟩
  | succ fuel ih =>
    intro n b tot s
    cases n with
    | zero => exact ⟨rfl, rfl⟩
    | succ n =>
      have hg : SamePlace s (nextGroup M i n b s).2.2.2 := (ext2_blkno_place _).trans (group_place _ _ _)
      unfold breadLoop
      simp only
      split
      · exact hg.trans (ih _ _ _ _)
      · split
        · exact hg
        · exact hg.trans (ih _ _ _ _)

/-- no read of a block of a file moves the position -/
theorem breadBlkbuf_place (b : Int) : SamePlace s (breadBlkbuf M i b s).2 := by
  show SamePlace s (extn_breadi M i b 1 s).st
  unfold extn_breadi
  split
  · unfold ext4_breadi
    simp only
    repeat' split
    all_goals exact ⟨rfl, rfl⟩
  · unfold ext2_breadi
    split
    · exact ⟨rfl, rfl⟩
    · exact breadLoop_place _ _ _ _

/-- the mapper on a readable file, when its index reads succeed -/
theorem Readable.blkno (hr : Readable M s ip) (hm : Mounted s) (hc : Coh M s)
    (hi : SameInode (s.inode_table i).inode ip) (hb : b < blocksOf s ip)
    (hok : IndexOk (newLog s (ext2_blkno M i b s).2)) :
    (ext2_blkno M i b s).1 = diskPtr M s ip b := by
  have hP : ((ptrs s * ptrs s : Nat) : Int) = s.ptrs_per_blk * s.ptrs_per_blk := by
    rw [Nat.cast_mul, hm.ptrs_eq]
  have hlim := hr.limit
  have hle : (b : Int) ≤ s.ind2lim := by
    rw [hm.ind2lim]
    omega
  have hway : ∀ n ∈ onTheWay M s i b, n < 2147483648 := by
    unfold onTheWay
    simp only
    rw [hi.le32 (by omega), hi.le32 (by omega)]
    split
    · simp
    · split
      · intro n hn
        rw [List.mem_singleton.mp hn]
        exact hr.single
      · split
        · simp
        · rename_i h1 h2 hz
          have hk : (b - 12 - ptrs s) / ptrs s < ptrs s := Nat.div_lt_of_lt_mul (by omega)
          intro n hn
          rcases List.mem_cons.mp hn with rfl | hn
          · exact hr.double
          · rw [List.mem_singleton.mp hn]
            exact hr.below hz _ hk
  have hptr := hr.ptr b hb
  have hformat : formatPtr M s i b = diskPtr M s ip b := hi.mapped _ _ _
  rw [ext2_blkno_looked hm hc b hok, if_pos hle, lookedPtr_eq M s i b hway, hformat]
  exact sgn32_of_range (by omega) (by omega)

/-- the request for one block of the file is not cut -/
theorem Readable.clamp (hr : Readable M s ip) (hm : Mounted s)
    (hi : SameInode (s.inode_table i).inode ip) (hb : b < blocksOf s ip) : clampBlks s i b 1 = 1 := by
  have hsize : i_size (s.inode_table i).inode = i_size ip := hi.size
  have hin : b + 1 ≤ fileBlocks s i := by
    unfold fileBlocks
    rw [hsize]
    exact hb
  have h := clampBlks_inside hm hin
  have hlt := hr.size
  rw [if_neg (by omega)] at h
  exact h

/-- a request for one block that is not cut: its read fails, or it is read or taken for a hole -/
theorem extn_breadi_block (hm : Mounted s) (hnoext : ¬ hasExtents s i) (hclamp : clampBlks s i b 1 = 1)
    (hbig : b < 2147483648) :
    ((extn_breadi M i b 1 s).ret = -1 ∧ ∃ count offset, ((ext2_blkno M i b s).2.rd M count offset).ret ≠ count) ∨
      (extn_breadi M i b 1 s).ret = s.blocksize ∧
      (extn_breadi M i b 1 s).data = blockBytes M s (ext2_blkno M i b s).1 ∧
      (Coh M (ext2_blkno M i b s).2 → Coh M (extn_breadi M i b 1 s).st) := by
  have hpos := hm.pos
  have hsmall := hm.small
  have hbs := hm.blocksize
  have hone : uns 64 1 = 1 := uns64_natCast (n := 1) (by omega)
  have hsgn : sgn 32 (b : Int) = b := sgn32_of_range (by omega) (by omega)
  have hret : sgn 32 (0 + s.blocksize) = s.blocksize := by
    rw [zero_add]
    exact sgn32_of_range (by omega) (by omega)
  have hm' := (ext2_blkno_reads M i b s).keeps.mount
  have hnb : (((1 : Nat) : Int) * (ext2_blkno M i b s).2.blocksize) = s.blocksize := by
    rw [hm'.blocksize, Nat.cast_one, one_mul]
  unfold hasExtents at hnoext
  unfold extn_breadi ext2_breadi
  rw [if_neg hnoext, if_neg hnoext, hclamp, hone, breadLoop]
  unfold nextGroup group blockBytes
  simp only [hsgn, hnb]
  by_cases hz : (ext2_blkno M i b s).1 = 0
  · rw [if_pos hz, if_pos hz]
    exact .inr ⟨by simp only [breadLoop, hret], by simp [BreadRes.data, breadLoop], fun h => h⟩
  · rw [if_neg hz, if_neg hz]
    by_cases hrd : ((ext2_blkno M i b s).2.rd M s.blocksize
        ((ext2_blkno M i b s).2.blockOffset (ext2_blkno M i b s).1)).ret ≠ s.blocksize
    · rw [if_pos hrd]
      exact .inl ⟨rfl, _, _, hrd⟩
    · rw [if_neg hrd]
      refine .inr ⟨by simp only [breadLoop, hret], ?_, fun h => ⟨h.iblk, h.diblk⟩⟩
      have hdata := M.read_exact _ _ _ _ (not_not.mp hrd)
      have hoff : (ext2_blkno M i b s).2.blockOffset (ext2_blkno M i b s).1
          = s.blockOffset (ext2_blkno M i b s).1 := by
        rw [blockOffset, blockOffset, hm'.part, hm'.blocksize]
      rw [hm'.dev, hoff] at hdata
      rw [← hdata, ← hoff]
      simp [BreadRes.data, breadLoop, rd, hm'.dev]

/-- one block: it is read, or it is taken for a hole -/
theorem extn_breadi_one (hm : Mounted s) (hr : Readable M s ip)
    (hi : SameInode (s.inode_table i).inode ip) (hb : b < blocksOf s ip) :
    (extn_breadi M i b 1 s).ret = -1 ∨
      (extn_breadi M i b 1 s).data = blockBytes M s (ext2_blkno M i b s).1 ∧
      (Coh M (ext2_blkno M i b s).2 → Coh M (extn_breadi M i b 1 s).st) := by
  have hlt := hr.size
  have hpos := hm.pos
  have hbs := hm.blocksize
  have hbig : b < 2147483648 := by
    have hle : (b + 1) * s.blocksize.toNat ≤ i_size ip + s.blocksize.toNat - 1 :=
      (Nat.le_div_iff_mul_le (by omega)).mp hb
    have : (b + 1) * 4 ≤ (b + 1) * s.blocksize.toNat := Nat.mul_le_mul_left _ (by omega)
    omega
  have hnoext : ¬ hasExtents s i := by
    unfold hasExtents
    rw [hi.flags]
    exact not_not.mpr hr.noext
  obtain ⟨hret, -⟩ | ⟨-, h⟩ := extn_breadi_block (M := M) hm hnoext (hr.clamp hm hi hb) hbig
  · exact .inl hret
  · exact .inr h

theorem put_blockBytes (m : Mem) (n : Int) {k : Nat} (hk : (k : Int) < s.blocksize) :
    m.put 0 (blockBytes M s n) k = if n = 0 then 0 else diskBlock M s n k := by
  have hlen : k < (blockBytes M s n).length := by
    rw [length_blockBytes]
    omega
  have hput := Mem.put_in m 0 k _ hlen
  rw [Nat.zero_add] at hput
  rw [hput]
  unfold blockBytes diskBlock
  by_cases hn : n = 0
  · simp [hn]
  · simp [hn]

/-- a block of a file in `blkbuf`; zeros, where an index block could not be read -/
structure InBlkbuf (M : Machine) (s : State) (ip : Mem) (b : Nat) (t : State) : Prop where
  reads : Reads M s t
  place : SamePlace s t
  block : (Coh M t ∧ ∀ k : Nat, (k : Int) < s.blocksize → t.blkbuf k = fileBlock M s ip b k) ∨
    (12 ≤ b ∧ ∀ k : Nat, (k : Int) < s.blocksize → t.blkbuf k = 0)

/-- **a block in `blkbuf`.** A read of a block of a file fails, or `blkbuf` holds the block. -/
theorem breadBlkbuf_file (hm : Mounted s) (hc : Coh M s) (hr : Readable M s ip)
    (hi : SameInode (s.inode_table i).inode ip) (hb : b < blocksOf s ip) :
    (breadBlkbuf M i b s).1 = -1 ∨ InBlkbuf M s ip b (breadBlkbuf M i b s).2 := by
  obtain hret | ⟨hdata, hcoh⟩ := extn_breadi_one (M := M) hm hr hi hb
  · exact .inl hret
  · have hbuf : ∀ k : Nat, (k : Int) < s.blocksize → (breadBlkbuf M i b s).2.blkbuf k
        = if (ext2_blkno M i b s).1 = 0 then 0 else diskBlock M s (ext2_blkno M i b s).1 k := by
      intro k hk
      unfold breadBlkbuf
      simp only [hdata]
      exact put_blockBytes _ _ hk
    refine .inr ⟨breadBlkbuf_reads M i b s, breadBlkbuf_place b, ?_⟩
    by_cases hok : IndexOk (newLog s (ext2_blkno M i b s).2)
    · have hptr := hr.blkno hm hc hi hb hok
      have hcoh' := hcoh ((ext2_blkno_reads M i b s).keeps.coh_ok hc hok)
      refine .inl ⟨⟨hcoh'.iblk, hcoh'.diblk⟩, fun k hk => ?_⟩
      rw [hbuf k hk, hptr, fileBlock]
      by_cases hz : diskPtr M s ip b = 0
      · rw [if_pos hz, if_pos (by exact_mod_cast hz)]
      · rw [if_neg hz, if_neg (by exact_mod_cast hz)]
    · obtain ⟨hz, hlim⟩ := ext2_blkno_failed hok
      rw [hm.directlim] at hlim
      refine .inr ⟨by omega, fun k hk => ?_⟩
      rw [hbuf k hk, if_pos hz]

/-! ## the entries of a directory -/

/-- an entry of a directory -/
structure DirEnt where
  inode : Nat
  rec_len : Nat
  name : List UInt8
deriving DecidableEq

def entryAt (blk : Mem) (o : Nat) : DirEnt :=
  ⟨blk.le32 o, blk.le16 (o + 4), blk.get (o + 8) (blk (o + 6)).toNat⟩

/-- the entries of a block from `o` on -/
def chain (blk : Mem) (bs : Nat) : (n : Nat) → (o : Nat) → List DirEnt
  | 0, _ => []
  | n + 1, o => if o = bs then [] else entryAt blk o :: chain blk bs n (o + (entryAt blk o).rec_len)

/-- the entries from `o` on lie in the block, and the last one ends where it does -/
def ChainFine (blk : Mem) (bs : Nat) : (n : Nat) → (o : Nat) → Prop
  | 0, o => o = bs
  | n + 1, o => o = bs ∨ (8 + (entryAt blk o).name.length ≤ (entryAt blk o).rec_len ∧
      o + (entryAt blk o).rec_len ≤ bs ∧ ChainFine blk bs n (o + (entryAt blk o).rec_len))

instance decChainFine (blk : Mem) (bs : Nat) : (n o : Nat) → Decidable (ChainFine blk bs n o)
  | 0, o => inferInstanceAs (Decidable (o = bs))
  | n + 1, o =>
    have := decChainFine blk bs n (o + (entryAt blk o).rec_len)
    inferInstanceAs (Decidable (_ ∨ (_ ∧ _ ∧ _)))

/-- the entries of a block -/
def blockEntries (M : Machine) (s : State) (ip : Mem) (b : Nat) : List DirEnt :=
  chain (fileBlock M s ip b) s.blocksize.toNat s.blocksize.toNat 0

/-- the entries of a directory -/
def dirEntries (M : Machine) (s : State) (ip : Mem) : List DirEnt :=
  (List.range (blocksOf s ip)).flatMap (blockEntries M s ip)

/-- a directory of whole blocks of entries, which the reader can read -/
structure DirFine (M : Machine) (s : State) (ip : Mem) : Prop where
  readable : Readable M s ip
  pos : 0 < blocksOf s ip
  whole : i_size ip = blocksOf s ip * s.blocksize.toNat
  /-- `diroffset` is an `int` -/
  small : i_size ip < 2147483648
  chain : ∀ b < blocksOf s ip, ChainFine (fileBlock M s ip b) s.blocksize.toNat s.blocksize.toNat 0

instance (M : Machine) (s : State) (ip : Mem) : Decidable (DirFine M s ip) :=
  decidable_of_iff (Readable M s ip ∧ 0 < blocksOf s ip ∧
      i_size ip = blocksOf s ip * s.blocksize.toNat ∧ i_size ip < 2147483648 ∧ ∀ b < blocksOf s ip,
        ChainFine (fileBlock M s ip b) s.blocksize.toNat s.blocksize.toNat 0)
    ⟨fun ⟨h1, h2, h3, h4, h5⟩ => ⟨h1, h2, h3, h4, h5⟩,
      fun h => ⟨h.readable, h.pos, h.whole, h.small, h.chain⟩⟩

/-- an entry in a buffer that holds the block -/
theorem entryAt_congr {buf blk : Mem} {bs o : Nat} (h : ∀ k < bs, buf k = blk k)
    (hin : o + (8 + (entryAt blk o).name.length) ≤ bs) (c : List UInt8) :
    d_inode buf o = sgn 32 (entryAt blk o).inode ∧ d_rec_len buf o = (entryAt blk o).rec_len ∧
      (d_name_len buf o = c.length ∧ d_name buf o c.length = c ↔ (entryAt blk o).name = c) := by
  have hlen : (entryAt blk o).name.length = (blk (o + 6)).toNat := Mem.length_get _ _ _
  rw [hlen] at hin
  have h32 : buf.le32 o = blk.le32 o := Mem.le_congr fun j hj => h _ (by omega)
  have h16 : buf.le16 (o + 4) = blk.le16 (o + 4) := Mem.le_congr fun j hj => h _ (by omega)
  have h6 : d_name_len buf o = (blk (o + 6)).toNat := congrArg UInt8.toNat (h (o + 6) (by omega))
  refine ⟨congrArg (fun n : Nat => sgn 32 n) h32, congrArg Nat.cast h16, ?_⟩
  rw [h6]
  constructor
  · rintro ⟨hl, hn⟩
    rw [← hn, ← hl]
    exact Mem.get_eq_of_forall _ _ _ _ fun k hk => (h _ (by omega)).symm
  · intro hn
    have hl : (blk (o + 6)).toNat = c.length := by rw [← hlen, hn]
    refine ⟨hl, Eq.trans ?_ hn⟩
    rw [← hl]
    exact Mem.get_eq_of_forall _ _ _ _ fun k hk => h _ (by omega)

/-! ## searching -/

theorem blocksOf_same (h : SameMount s t) : blocksOf t = blocksOf s := by
  funext ip
  rw [blocksOf, blocksOf, h.blocksize]

theorem diskPtr_same (h : SameMount s t) : diskPtr M t = diskPtr M s := by
  funext ip b
  rw [diskPtr, diskPtr, ptrs, ptrs, h.blocksize, diskBlock_same h]

theorem fileBlock_same (h : SameMount s t) : fileBlock M t = fileBlock M s := by
  funext ip b
  rw [fileBlock, fileBlock, diskPtr_same h, diskBlock_same h]

theorem Readable.same (hr : Readable M s ip) (h : SameMount s t) : Readable M t ip := by
  obtain ⟨h1, h2, h3, h4, h5, h6, h7⟩ := hr
  refine ⟨h1, ?_, ?_, h4, h5, ?_, ?_⟩
  · rwa [h.blocksize]
  · rwa [blocksOf_same h, ptrs, h.blocksize]
  · rwa [ptrs, h.blocksize, diskBlock_same h]
  · rwa [blocksOf_same h, diskPtr_same h]

/-- the entries from a position on, of a directory of the blocks `blk 0 .. blk (N - 1)` -/
def entriesAt (blk : Nat → Mem) (N bs b n o : Nat) : List DirEnt :=
  chain (blk b) bs n o ++ (List.range' (b + 1) (N - (b + 1))).flatMap fun j => chain (blk j) bs bs 0

theorem entriesAt_zero (blk : Nat → Mem) {N bs : Nat} (hN : 0 < N) :
    entriesAt blk N bs 0 bs 0 = (List.range N).flatMap fun j => chain (blk j) bs bs 0 := by
  obtain ⟨k, rfl⟩ : ∃ k, N = k + 1 := ⟨N - 1, by omega⟩
  rw [entriesAt, List.range_eq_range', List.range'_succ, List.flatMap_cons, Nat.add_sub_cancel]

theorem chain_end (blk : Mem) (bs n : Nat) : chain blk bs n bs = [] := by
  cases n with
  | zero => rfl
  | succ n => exact if_pos rfl

/-- the next block of the directory -/
theorem entriesAt_end (blk : Nat → Mem) {N bs n : Nat} (hb : b + 1 < N) :
    entriesAt blk N bs b n bs = entriesAt blk N bs (b + 1) bs 0 := by
  obtain ⟨k, hk⟩ : ∃ k, N - (b + 1) = k + 1 := ⟨N - (b + 1) - 1, by omega⟩
  have hk' : N - (b + 1 + 1) = k := by omega
  rw [entriesAt, entriesAt, chain_end, hk, hk', List.range'_succ, List.flatMap_cons, List.nil_append]

/-- a position in a directory of the blocks `blk 0 .. blk (N - 1)`, which was begun in `s` -/
structure Place (M : Machine) (s : State) (blk : Nat → Mem) (N b n o : Nat) (t : State) : Prop where
  reads : Reads M s t
  coh : Coh M t
  dir : t.diroffset = b * s.blocksize
  off : t.blockoffset = o
  buf : ∀ k : Nat, (k : Int) < s.blocksize → t.blkbuf k = blk b k
  inside : b < N
  fine : ChainFine (blk b) s.blocksize.toNat n o

/-- the entry at a position, and the position after it -/
theorem Place.entry {blk : Nat → Mem} {N n o : Nat} (h : Place M s blk N b n o t)
    (ho : o ≠ s.blocksize.toNat) :
    ∃ e n', entriesAt blk N s.blocksize.toNat b n o
        = e :: entriesAt blk N s.blocksize.toNat b n' (o + e.rec_len) ∧
      d_inode t.blkbuf o = sgn 32 e.inode ∧
      (∀ c, d_name_len t.blkbuf o = c.length ∧ d_name t.blkbuf o c.length = c ↔ e.name = c) ∧
      Place M s blk N b n' (o + e.rec_len) (nextEntry t).2 := by
  cases n with
  | zero => exact absurd h.fine ho
  | succ n =>
    obtain ⟨h1, h2, h3⟩ := h.fine.resolve_left ho
    have hbuf : ∀ k < s.blocksize.toNat, t.blkbuf k = blk b k := fun k hk => h.buf k (by omega)
    have hcongr := entryAt_congr hbuf (o := o) (by omega)
    refine ⟨entryAt (blk b) o, n, ?_, (hcongr []).1, fun c => (hcongr c).2.2, ?_⟩
    · rw [entriesAt, chain, if_neg ho, List.cons_append, entriesAt]
    · refine ⟨h.reads.trans (nextEntry_reads M t), ⟨h.coh.iblk, h.coh.diblk⟩, h.dir, ?_, h.buf,
        h.inside, h3⟩
      show t.blockoffset + d_rec_len t.blkbuf t.blockoffset = _
      rw [h.off, (hcongr []).2.1]
      push_cast
      rfl

/-- a position in the directory `ip`, which was begun in `s` -/
structure At (M : Machine) (s : State) (ip : Mem) (b n o : Nat) (t : State) : Prop where
  reads : Reads M s t
  coh : Coh M t
  dir : t.diroffset = b * s.blocksize
  off : t.blockoffset = o
  buf : ∀ k : Nat, (k : Int) < s.blocksize → t.blkbuf k = fileBlock M s ip b k
  inside : b < blocksOf s ip
  fine : ChainFine (fileBlock M s ip b) s.blocksize.toNat n o

theorem at_iff_place {n o : Nat} :
    At M s ip b n o t ↔ Place M s (fileBlock M s ip) (blocksOf s ip) b n o t :=
  ⟨fun ⟨h1, h2, h3, h4, h5, h6, h7⟩ => ⟨h1, h2, h3, h4, h5, h6, h7⟩,
    fun ⟨h1, h2, h3, h4, h5, h6, h7⟩ => ⟨h1, h2, h3, h4, h5, h6, h7⟩⟩

/-- the entries from a position on -/
def entriesFrom (M : Machine) (s : State) (ip : Mem) (b n o : Nat) : List DirEnt :=
  chain (fileBlock M s ip b) s.blocksize.toNat n o ++
    (List.range' (b + 1) (blocksOf s ip - (b + 1))).flatMap (blockEntries M s ip)

theorem entriesFrom_zero (hb : 0 < blocksOf s ip) :
    entriesFrom M s ip 0 s.blocksize.toNat 0 = dirEntries M s ip := entriesAt_zero _ hb

/-- the next block of the directory -/
theorem entriesFrom_end {n : Nat} (hb : b + 1 < blocksOf s ip) :
    entriesFrom M s ip b n s.blocksize.toNat = entriesFrom M s ip (b + 1) s.blocksize.toNat 0 :=
  entriesAt_end _ hb

/-- the entry at a position, and the position after it -/
theorem At.entry {n o : Nat} (h : At M s ip b n o t) (ho : o ≠ s.blocksize.toNat) :
    ∃ e n', entriesFrom M s ip b n o = e :: entriesFrom M s ip b n' (o + e.rec_len) ∧
      d_inode t.blkbuf o = sgn 32 e.inode ∧
      (∀ c, d_name_len t.blkbuf o = c.length ∧ d_name t.blkbuf o c.length = c ↔ e.name = c) ∧
      At M s ip b n' (o + e.rec_len) (nextEntry t).2 := by
  obtain ⟨e, n', h1, h2, h3, h4⟩ := (at_iff_place.mp h).entry ho
  exact ⟨e, n', h1, h2, h3, at_iff_place.mpr h4⟩

/-- a search that ends at an entry of this name -/
def Found (M : Machine) (s : State) (c : List UInt8) (es : List DirEnt) (r : Int) (t : State) : Prop :=
  (∃ e, es.find? (fun e => decide (e.name = c)) = some e ∧ r = sgn 32 e.inode) ∧ Reads M s t ∧ Coh M t

variable {c : List UInt8} {r : Int}

/-- the search at an entry -/
theorem search_entry {fuel n o : Nat} {u : State} (h : At M s ip b n o u) (ho : o ≠ s.blocksize.toNat)
    (ih : ∀ n o v, At M s ip b n o v → searchDir M i c fuel false v = some (r, t) →
      Found M s c (entriesFrom M s ip b n o) r t)
    (hrun : (if d_name_len (nextEntry u).2.blkbuf u.blockoffset = c.length ∧
        d_name (nextEntry u).2.blkbuf u.blockoffset c.length = c then
        some (d_inode (nextEntry u).2.blkbuf u.blockoffset, (nextEntry u).2)
      else searchDir M i c fuel false (nextEntry u).2) = some (r, t)) :
    Found M s c (entriesFrom M s ip b n o) r t := by
  obtain ⟨e, n', hes, hino, hname, hat⟩ := h.entry ho
  have hbuf : (nextEntry u).2.blkbuf = u.blkbuf := rfl
  rw [hbuf, h.off, hino] at hrun
  rw [hes]
  by_cases hc : e.name = c
  · rw [if_pos ((hname c).mpr hc), Option.some.injEq, Prod.mk.injEq] at hrun
    refine ⟨⟨e, ?_, hrun.1.symm⟩, hrun.2 ▸ hat.reads, hrun.2 ▸ hat.coh⟩
    rw [List.find?_cons_of_pos (by simpa using hc)]
  · rw [if_neg fun h => hc ((hname c).mp h)] at hrun
    obtain ⟨⟨e', h1, h2⟩, h3, h4⟩ := ih _ _ _ hat hrun
    refine ⟨⟨e', ?_, h2⟩, h3, h4⟩
    rw [List.find?_cons_of_neg (by simpa using hc)]
    exact h1

/-- a round of the search -/
def searchRound (M : Machine) (i : Slot) (c : List UInt8) (x : Bool × State) :
    (Bool × State) ⊕ (Int × State) :=
  match ext2_readdiri M i x.1 x.2 with
  | (none, t) => .inr (-1, t)
  | (some dp, t) =>
    if d_name_len t.blkbuf dp = c.length ∧ d_name t.blkbuf dp c.length = c then
      .inr (d_inode t.blkbuf dp, t)
    else .inl (false, t)

theorem searchDir_run {fuel : Nat} {rewind : Bool} :
    searchDir M i c fuel rewind s = Loop.run (searchRound M i c) fuel (rewind, s) := by
  induction fuel generalizing rewind s with
  | zero => rfl
  | succ fuel ih =>
    rw [searchDir, Loop.run, searchRound]
    cases hr : ext2_readdiri M i rewind s with
    | mk dp t =>
      cases dp with
      | none => rfl
      | some dp =>
        simp only
        split
        · rfl
        · exact ih

/-- the search goes on in the block in `blkbuf` -/
theorem searchDir_inside {fuel : Nat} {u : State} (h : u.blockoffset < u.blocksize) :
    searchDir M i c (fuel + 1) false u
      = if d_name_len (nextEntry u).2.blkbuf u.blockoffset = c.length ∧
          d_name (nextEntry u).2.blkbuf u.blockoffset c.length = c then
          some (d_inode (nextEntry u).2.blkbuf u.blockoffset, (nextEntry u).2)
        else searchDir M i c fuel false (nextEntry u).2 := by
  have hstep : ext2_readdiri M i false u = (some u.blockoffset, (nextEntry u).2) := by
    unfold ext2_readdiri readdirStep
    rw [if_neg (by decide), if_neg (not_le.mpr h)]
    rfl
  rw [searchDir, hstep]

/-- in a buffer of zeros the search does not end -/
theorem search_zero (hc : c ≠ []) (fuel : Nat) {u : State} (hm : 0 < u.blocksize)
    (hoff : u.blockoffset = 0) (hbuf : ∀ k < 8, u.blkbuf k = 0) : searchDir M i c fuel false u = none := by
  induction fuel generalizing u with
  | zero => rfl
  | succ fuel ih =>
    have hlen : d_name_len u.blkbuf 0 = 0 := congrArg UInt8.toNat (hbuf 6 (by omega))
    have hrec : d_rec_len u.blkbuf 0 = 0 := by
      have h4 := hbuf 4 (by omega)
      have h5 := hbuf 5 (by omega)
      simp [d_rec_len, Mem.le16, Mem.le, h4, h5]
    have hpos : c.length ≠ 0 := fun h0 => hc (List.length_eq_zero_iff.mp h0)
    rw [searchDir_inside (by omega), hoff, if_neg]
    · refine ih hm ?_ hbuf
      show u.blockoffset + d_rec_len u.blkbuf u.blockoffset = 0
      rw [hoff, hrec, add_zero]
    · rintro ⟨h1, -⟩
      have hbuf' : (nextEntry u).2.blkbuf = u.blkbuf := rfl
      rw [hbuf', hlen] at h1
      exact hpos h1.symm

/-- the search goes on in the next block -/
theorem searchDir_next {fuel : Nat} {u : State} (h : u.blocksize ≤ u.blockoffset)
    (hrun : searchDir M i c (fuel + 1) false u = some (r, t)) (hr : 0 ≤ r) :
    uns 32 (sgn 32 (u.diroffset + u.blocksize)) < i_size (u.inode_table i).inode ∧
      ∃ v, v = (breadBlkbuf M i (Int.tdiv (sgn 32 (u.diroffset + u.blocksize)) u.blocksize)
          { u with diroffset := sgn 32 (u.diroffset + u.blocksize) }) ∧ ¬ v.1 < 0 ∧
        (if d_name_len (nextEntry { v.2 with blockoffset := 0 }).2.blkbuf 0 = c.length ∧
            d_name (nextEntry { v.2 with blockoffset := 0 }).2.blkbuf 0 c.length = c then
            some (d_inode (nextEntry { v.2 with blockoffset := 0 }).2.blkbuf 0,
              (nextEntry { v.2 with blockoffset := 0 }).2)
          else searchDir M i c fuel false (nextEntry { v.2 with blockoffset := 0 }).2) = some (r, t) := by
  have hstep : ext2_readdiri M i false u = nextDirBlock M i u := by
    unfold ext2_readdiri readdirStep
    rw [if_neg (by decide), if_pos h]
  rw [searchDir, hstep] at hrun
  unfold nextDirBlock at hrun
  simp only at hrun
  by_cases hsize : i_size (u.inode_table i).inode ≤ uns 32 (sgn 32 (u.diroffset + u.blocksize))
  · rw [if_pos hsize] at hrun
    have h1 : -1 = r := congrArg Prod.fst (Option.some.inj hrun)
    omega
  · rw [if_neg hsize] at hrun
    refine ⟨not_le.mp hsize, _, rfl, ?_⟩
    by_cases hret : (breadBlkbuf M i (Int.tdiv (sgn 32 (u.diroffset + u.blocksize)) u.blocksize)
          { u with diroffset := sgn 32 (u.diroffset + u.blocksize) }).1 < 0
    · rw [if_pos hret] at hrun
      have h1 : -1 = r := congrArg Prod.fst (Option.some.inj hrun)
      omega
    · rw [if_neg hret] at hrun
      exact ⟨hret, hrun⟩

theorem ChainFine.lt {blk : Mem} {bs n o : Nat} (h : ChainFine blk bs n o) (ho : o ≠ bs) : o + 8 ≤ bs := by
  cases n with
  | zero => exact absurd h ho
  | succ n =>
    have := h.resolve_left ho
    omega

theorem DirFine.blocksize (hm : Mounted s) (hd : DirFine M s ip) : 8 ≤ s.blocksize.toNat := by
  have hpos := hm.blocksize_pos
  have := (hd.chain 0 hd.pos).lt (by omega)
  omega

/-- the search from a position on -/
theorem search_at (hm : Mounted s) (hd : DirFine M s ip) (hi : SameInode (s.inode_table i).inode ip)
    (hc : c ≠ []) (hr : 0 ≤ r) (fuel : Nat) {n o : Nat} {u : State} (h : At M s ip b n o u)
    (hrun : searchDir M i c fuel false u = some (r, t)) :
    Found M s c (entriesFrom M s ip b n o) r t := by
  induction fuel generalizing b n o u with
  | zero => cases hrun
  | succ fuel ih =>
    have h8 := hd.blocksize hm
    have hbs : u.blocksize = s.blocksize := h.reads.keeps.mount.blocksize
    have hoff := h.off
    by_cases ho : o = s.blocksize.toNat
    · obtain ⟨hsize, v, hv, hret, hrun⟩ := searchDir_next (by omega) hrun hr
      have hb := h.inside
      obtain ⟨B, hB⟩ : ∃ B : Nat, s.blocksize = B := ⟨s.blocksize.toNat, by omega⟩
      have hwhole := hd.whole
      have hsmall := hd.small
      have hle : (b + 1) * B ≤ blocksOf s ip * B := Nat.mul_le_mul_right B hb
      rw [hB, Int.toNat_natCast] at hwhole
      have hdir : sgn 32 (u.diroffset + u.blocksize) = ((b + 1 : Nat) : Int) * s.blocksize := by
        have hsum : u.diroffset + u.blocksize = (((b + 1) * B : Nat) : Int) := by
          rw [h.dir, hbs, hB]
          push_cast
          ring
        rw [hsum, sgn32_of_range (by omega) (by omega), hB, Nat.cast_mul]
      have hmount : SameMount s { u with diroffset := sgn 32 (u.diroffset + u.blocksize) } :=
        (h.reads.trans (Reads.of_pos _ _ _ rfl)).keeps.mount
      have htable : u.inode_table = s.inode_table := h.reads.table.table
      have hnext : b + 1 < blocksOf s ip := by
        have hu : uns 32 (((b + 1 : Nat) : Int) * (B : Int)) = (b + 1) * B := by
          rw [← Nat.cast_mul]
          exact uns32_natCast (by omega)
        rw [hdir, htable, hi.size, hB, hu, hwhole] at hsize
        exact Nat.lt_of_mul_lt_mul_right hsize
      have hdiv : Int.tdiv (sgn 32 (u.diroffset + u.blocksize)) u.blocksize = ((b + 1 : Nat) : Int) := by
        rw [hdir, hbs]
        exact Int.mul_tdiv_cancel _ (by omega)
      rw [hdiv] at hv
      have hblk := (breadBlkbuf_file (M := M) (i := i) (b := b + 1) (hm.same hmount)
        ⟨h.coh.iblk, h.coh.diblk⟩ (hd.readable.same hmount) (by rw [htable]; exact hi)
        (by rw [blocksOf_same hmount]; exact hnext)).resolve_left (hv ▸ fun h1 => hret (by omega))
      rw [← hv] at hblk
      have hreads : Reads M s v.2 := (h.reads.trans (Reads.of_pos _ _ _ rfl)).trans hblk.reads
      rw [ho, entriesFrom_end hnext]
      obtain ⟨hcoh, hbuf⟩ | ⟨-, hzero⟩ := hblk.block
      · rw [fileBlock_same hmount] at hbuf
        have hat : At M s ip (b + 1) s.blocksize.toNat 0 { v.2 with blockoffset := 0 } :=
          ⟨hreads.trans (Reads.of_pos _ _ _ rfl), ⟨hcoh.iblk, hcoh.diblk⟩, hblk.place.1.trans hdir, rfl,
            fun k hk => hbuf k (hbs ▸ hk), hnext, hd.chain _ hnext⟩
        exact search_entry hat (by omega) (fun n o v h' hrun' => ih h' hrun') hrun
      · exfalso
        have hvbs : v.2.blocksize = s.blocksize := hreads.keeps.mount.blocksize
        have hz : ∀ k < 8, v.2.blkbuf k = 0 := fun k hk => hzero k (by
          show (k : Int) < u.blocksize
          omega)
        have hnone := search_zero (M := M) (i := i) hc (fuel + 1) (u := { v.2 with blockoffset := 0 })
          (show 0 < v.2.blocksize by omega) rfl hz
        rw [searchDir_inside (show (0 : Int) < v.2.blocksize by omega)] at hnone
        cases hnone.symm.trans hrun
    · have hlt := h.fine.lt ho
      rw [searchDir_inside (by omega)] at hrun
      exact search_entry h ho (fun n o v h' hrun' => ih h' hrun') hrun

/-- the search begins in the first block -/
theorem searchDir_first {fuel : Nat} (hrun : searchDir M i c (fuel + 1) true s = some (r, t)) (hr : 0 ≤ r) :
    ∃ v, v = breadBlkbuf M i 0 { s with diroffset := 0, blockoffset := 0 } ∧ ¬ v.1 < 0 ∧
      (v.2.blockoffset < v.2.blocksize →
        (if d_name_len (nextEntry v.2).2.blkbuf v.2.blockoffset = c.length ∧
            d_name (nextEntry v.2).2.blkbuf v.2.blockoffset c.length = c then
            some (d_inode (nextEntry v.2).2.blkbuf v.2.blockoffset, (nextEntry v.2).2)
          else searchDir M i c fuel false (nextEntry v.2).2) = some (r, t)) := by
  refine ⟨_, rfl, ?_⟩
  rw [searchDir] at hrun
  unfold ext2_readdiri at hrun
  rw [if_pos rfl] at hrun
  simp only at hrun
  by_cases hret : (breadBlkbuf M i 0 { s with diroffset := 0, blockoffset := 0 }).1 < 0
  · rw [if_pos hret] at hrun
    have h1 : -1 = r := congrArg Prod.fst (Option.some.inj hrun)
    omega
  · rw [if_neg hret] at hrun
    refine ⟨hret, fun hlt => ?_⟩
    unfold readdirStep at hrun
    rw [if_neg (not_le.mpr hlt)] at hrun
    exact hrun

/-- **a name that is found.** When the search of a directory finds a name, it is the first entry with
this name, and the caches are still what they say. -/
theorem searchDir_finds (hm : Mounted s) (hcoh : Coh M s) (hd : DirFine M s ip)
    (hi : SameInode (s.inode_table i).inode ip) (hc : c ≠ []) (hr : 0 ≤ r) {fuel : Nat}
    (hrun : searchDir M i c fuel true s = some (r, t)) : Found M s c (dirEntries M s ip) r t := by
  cases fuel with
  | zero => cases hrun
  | succ fuel =>
    have h8 := hd.blocksize hm
    obtain ⟨v, hv, hret, hrun⟩ := searchDir_first hrun hr
    have hmount : SameMount s { s with diroffset := 0, blockoffset := 0 } :=
      (Reads.of_pos (M := M) _ _ _ rfl).keeps.mount
    have hblk := (breadBlkbuf_file (M := M) (i := i) (b := 0) (hm.same hmount)
      ⟨hcoh.iblk, hcoh.diblk⟩ (hd.readable.same hmount) hi hd.pos).resolve_left (hv ▸ fun h1 => hret (by omega))
    rw [Nat.cast_zero, ← hv] at hblk
    have hreads : Reads M s v.2 := (Reads.of_pos _ _ _ rfl).trans hblk.reads
    have hvbs : v.2.blocksize = s.blocksize := hreads.keeps.mount.blocksize
    have hoff : v.2.blockoffset = 0 := hblk.place.2
    obtain ⟨hcoh', hbuf⟩ := hblk.block.resolve_right fun h => absurd h.1 (by omega)
    rw [fileBlock_same hmount] at hbuf
    have hat : At M s ip 0 s.blocksize.toNat 0 v.2 := by
      refine ⟨hreads, hcoh', ?_, hoff, hbuf, hd.pos, hd.chain 0 hd.pos⟩
      rw [hblk.place.1, Nat.cast_zero, zero_mul]
    rw [← entriesFrom_zero hd.pos]
    exact search_entry hat (by omega)
      (fun n o w h' hrun' => search_at hm hd hi hc hr fuel h' hrun') (hrun (by omega))

end Ext2
