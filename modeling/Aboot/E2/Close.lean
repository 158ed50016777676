import Aboot.E2.Kept

/-!
# What ext2_close writes

The format keeps copies of the superblock and of the group descriptors in the first blocks of some
groups, `Reserved`.  `ext2_close` stores them itself, past the buffers, once for each group that it
counts.

* `ext2_close_bio`   the close as a list of direct writes, each with a flush after it;
* `Fits`             the file systems on which the groups that are counted are the groups with copies;
* `directWrites_reserved`   the direct writes stay in the reserved blocks;
* `Apart`, `bflush_apart`   two devices that differ in the reserved blocks only, over a flush;
* `close_reserved_only`     the close after any calls.
-/

set_option linter.unusedVariables false

namespace E2
open Word Bytes Prog
open Ext2 (s_blocks_count s_first_data_block s_blocks_per_group)

/-! ## the copies of the format -/

def s_feature_ro_compat (sb : Mem) : Nat := sb.le32 100

/-- `EXT2_FEATURE_RO_COMPAT_SPARSE_SUPER` -/
def sparse_super (sb : Mem) : Bool := (s_feature_ro_compat sb).testBit 0

/-- the groups of a file system that starts with block 1 -/
def formatGroups (sb : Mem) : Nat :=
  (s_blocks_count sb - 1 + s_blocks_per_group sb - 1) / s_blocks_per_group sb

/-- the blocks of a copy of the group descriptors -/
def descBlocks (sb : Mem) : Nat := (formatGroups sb * 32 + 1023) / 1024

/-- with `sparse_super` the copies are in group 0 and in the powers of 3, 5 and 7 -/
def HasCopy (sb : Mem) (i : Nat) : Prop :=
  sparse_super sb = false ∨ i = 0 ∨ ∃ p ∈ [3, 5, 7], ∃ k, i = p ^ k

/-- a block of a copy of the superblock and the group descriptors -/
def Reserved (sb : Mem) (b : Nat) : Prop :=
  ∃ i, i < formatGroups sb ∧ HasCopy sb i ∧ i * s_blocks_per_group sb + 1 ≤ b ∧
    b ≤ i * s_blocks_per_group sb + 1 + descBlocks sb

/-- the groups that `ext2_close` counts are those of the format, each has a copy, and the last copy
is within 2 GB and within the file system -/
structure Fits (sb : Mem) : Prop where
  bitmap : s_blocks_per_group sb ≤ 8192
  last : (s_blocks_count sb - 1) % s_blocks_per_group sb ≠ 0
  copies : sparse_super sb = false ∨ formatGroups sb ≤ 2
  near : ((formatGroups sb - 1) * s_blocks_per_group sb + 1) * 1024 < 2147483648
  room : (formatGroups sb - 1) * s_blocks_per_group sb + 2 + descBlocks sb ≤ s_blocks_count sb

/-! ## the direct writes -/

/-- the writes of `ext2_close` that do not go through the buffers -/
def directWrites (s : State) : List (Int × List UInt8) :=
  (List.range s.ngroups.toNat).map fun i => (superOffset s i, superBytes s)

/-- a direct write, and all dirty buffers -/
def writeThrough (b : Bio.State) (w : Int × List UInt8) : Bio.State :=
  Bio.bflush (Bio.write w.2 (Bio.lseek w.1 b))

theorem closeGroup_foldl (l : List Nat) :
    ∀ (s : State) (b : Bio.State), l.foldl (fun s i => closeGroup i s) { s with bio := b }
      = { s with bio := (l.map fun i => (superOffset s i, superBytes s)).foldl writeThrough b } := by
  induction l with
  | nil => exact fun s b => rfl
  | cons i l ih => exact fun s b => ih s (writeThrough b (superOffset s i, superBytes s))

theorem ext2_close_bio {s : State} (h : s.readonly = false) :
    (ext2_close s).bio = (directWrites s).foldl writeThrough s.bio := by
  have hc := closeGroup_foldl (List.range s.ngroups.toNat) s s.bio
  unfold ext2_close
  rw [if_neg (by rw [h]; exact Bool.false_ne_true)]
  exact congrArg State.bio hc

/-! ## where they go -/

/-- rounding up -/
theorem div_round {c n : Nat} (hn : 0 < n) (h : c % n ≠ 0) : (c + n - 1) / n = c / n + 1 := by
  have hc := Nat.div_add_mod c n
  have hr := Nat.mod_lt c hn
  have e : c + n - 1 = c % n - 1 + n * (c / n + 1) := by
    rw [Nat.mul_succ]
    omega
  rw [e, Nat.add_mul_div_left _ _ hn, Nat.div_eq_of_lt (by omega), Nat.zero_add]

section
variable {sb : Mem} (hf : Fits sb)
include hf

theorem Fits.groups (hn : 0 < s_blocks_per_group sb) :
    formatGroups sb = (s_blocks_count sb - 1) / s_blocks_per_group sb + 1 :=
  div_round hn hf.last

theorem Fits.count_le (hn : 0 < s_blocks_per_group sb) : s_blocks_count sb ≤ 2105344 := by
  have hg := hf.groups hn
  have hnear := hf.near
  have hb := hf.bitmap
  have hc := Nat.div_add_mod' (s_blocks_count sb - 1) (s_blocks_per_group sb)
  have hr := Nat.mod_lt (s_blocks_count sb - 1) hn
  rw [hg, Nat.add_sub_cancel] at hnear
  generalize (s_blocks_count sb - 1) / s_blocks_per_group sb * s_blocks_per_group sb = q at hc hnear
  generalize (s_blocks_count sb - 1) % s_blocks_per_group sb = r at hc hr
  omega

/-- the groups that are counted are those of the format -/
theorem Fits.groups_of (hn : 0 < s_blocks_per_group sb) : groups_of sb = formatGroups sb := by
  have hc := hf.count_le hn
  have hb := hf.bitmap
  have hlast := hf.last
  have hpos : 0 < s_blocks_count sb := by
    rcases Nat.eq_zero_or_pos (s_blocks_count sb) with h0 | h0
    · rw [h0, Nat.zero_sub, Nat.zero_mod] at hlast
      exact absurd rfl hlast
    · exact h0
  have he : (s_blocks_count sb : Int) + s_blocks_per_group sb - 1
      = ((s_blocks_count sb - 1 + s_blocks_per_group sb : Nat) : Int) := by omega
  have hdiv : (s_blocks_count sb - 1 + s_blocks_per_group sb) / s_blocks_per_group sb
      = formatGroups sb := by rw [hf.groups hn, Nat.add_div_right _ hn]
  have hle : formatGroups sb ≤ s_blocks_count sb - 1 + s_blocks_per_group sb :=
    hdiv ▸ Nat.div_le_self _ _
  unfold E2.groups_of
  rw [he, uns32_natCast (by omega), hdiv]
  exact sgn32_of_range (by omega) (by omega)

theorem Fits.hasCopy {i : Nat} (hi : i < formatGroups sb) : HasCopy sb i := by
  rcases hf.copies with h | h
  · exact Or.inl h
  · right
    rcases Nat.eq_zero_or_pos i with h0 | h0
    · exact Or.inl h0
    · exact Or.inr ⟨3, by simp, 0, by omega⟩

/-- the direct writes of a state with this superblock stay in the reserved blocks -/
theorem directWrites_reserved {s : State} (hsb : s.sb = sb) (hbs : s.blocksize = 1024)
    (hg : s.ngroups = formatGroups sb) {w : Int × List UInt8} (hw : w ∈ directWrites s) :
    0 ≤ w.1 ∧ ∀ k, k < w.2.length → Reserved sb ((w.1.toNat + k) / 1024) ∧
      (w.1.toNat + k) / 1024 < s_blocks_count sb := by
  obtain ⟨i, hi, rfl⟩ := List.mem_map.mp hw
  rw [List.mem_range, hg, Int.toNat_natCast] at hi
  have hle : i * s_blocks_per_group sb ≤ (formatGroups sb - 1) * s_blocks_per_group sb :=
    Nat.mul_le_mul_right _ (by omega)
  have hnear := hf.near
  have hroom := hf.room
  have hoff : superOffset s i = ((i * s_blocks_per_group sb + 1) * 1024 : Nat) := by
    have e : ((i : Int) * s_blocks_per_group s.sb + 1) * s.blocksize
        = ((i * s_blocks_per_group sb + 1) * 1024 : Nat) := by
      rw [hsb, hbs]
      push_cast
      rfl
    unfold superOffset
    rw [e]
    exact sgn32_of_range (by omega) (by omega)
  have hlen : (superBytes s).length = 1024 + formatGroups sb * 32 := by
    simp only [superBytes, List.length_append, Mem.length_get, hg, Int.toNat_natCast]
    rfl
  have hdesc : formatGroups sb * 32 ≤ descBlocks sb * 1024 := by
    unfold descBlocks
    omega
  simp only [hoff, hlen, Int.toNat_natCast]
  refine ⟨Int.natCast_nonneg _, fun k hk => ?_⟩
  have h1 : i * s_blocks_per_group sb + 1 ≤ ((i * s_blocks_per_group sb + 1) * 1024 + k) / 1024 := by
    omega
  have h2 : ((i * s_blocks_per_group sb + 1) * 1024 + k) / 1024
      ≤ i * s_blocks_per_group sb + 1 + descBlocks sb := by omega
  exact ⟨⟨i, hi, hf.hasCopy hi, h1, h2⟩, by omega⟩

end

/-! ## the blocks that are not reserved -/

/-- the same buffers over two devices that agree on the blocks in `P` -/
structure Apart (P : Nat → Prop) (t w : Bio.State) : Prop where
  blocksize : t.bio_blocksize = w.bio_blocksize
  buflist : t.buflist = w.buflist
  blocks : ∀ b, P b → Bio.dblock t b = Bio.dblock w b

theorem Apart.refl (P : Nat → Prop) (w : Bio.State) : Apart P w w := ⟨rfl, rfl, fun _ _ => rfl⟩

theorem writeOut_apart {P : Nat → Prop} {t w : Bio.State} {a : Nat → List UInt8} (h : Apart P t w)
    (hw : Bio.Held w a) (i : Fin Bio.NBUFS) : Apart P (Bio.writeOut i t) (Bio.writeOut i w) := by
  refine ⟨?_, ?_, ?_⟩
  · rw [Bio.writeOut_blocksize, Bio.writeOut_blocksize, h.blocksize]
  · rw [Bio.writeOut_buflist, Bio.writeOut_buflist, h.buflist]
  · have hti : t.buflist i = w.buflist i := by rw [h.buflist]
    cases hd : (w.buflist i).dirty with
    | false =>
      rw [Bio.writeOut_clean w i hd, Bio.writeOut_clean t i (by rw [hti, hd])]
      exact h.blocks
    | true =>
      rcases hw.buf i with ⟨-, hn, -⟩ | ⟨n, d, hb, hr, hdata, hlen⟩
      · rw [hn] at hd
        cases hd
      have hput : ∀ v : Bio.State, v.buflist i = w.buflist i → v.bio_blocksize = w.bio_blocksize →
          Bio.dblock (Bio.writeOut i v) = Function.update (Bio.dblock v) n d := by
        intro v hv hs
        rw [Bio.dblock_writeOut v i (by rw [hv, hd]), hv, hb, hdata, Option.getD_some, hs,
          List.take_of_length_le (by omega), Bio.dblock_write v n d (by rw [hs, hlen]) (by rw [hs]; exact hr)]
      intro b hP
      rw [hput t hti h.blocksize, hput w rfl rfl]
      by_cases e : b = n
      · rw [e, Function.update_self, Function.update_self]
      · rw [Function.update_of_ne e, Function.update_of_ne e]
        exact h.blocks b hP

theorem bflush_apart {P : Nat → Prop} {t w : Bio.State} {a : Nat → List UInt8} (h : Apart P t w)
    (hw : Bio.Held w a) : Apart P (Bio.bflush t) (Bio.bflush w) := by
  unfold Bio.bflush
  induction List.finRange Bio.NBUFS generalizing t w with
  | nil => exact h
  | cons i l ih => exact ih (writeOut_apart h hw i) (Bio.writeOut_held hw i)

/-- a direct write outside `P` -/
theorem write_apart {P : Nat → Prop} {t w : Bio.State} (h : Apart P t w) {off : Int}
    {d : List UInt8} (h0 : 0 ≤ off)
    (hout : ∀ k, k < d.length → ¬ P ((off.toNat + k) / t.bio_blocksize)) :
    Apart P (Bio.write d (Bio.lseek off t)) w := by
  have hpos : (Bio.lseek off t).pos = off.toNat := by
    rw [Bio.lseek, if_pos h0]
  have hbs : (Bio.lseek off t).bio_blocksize = t.bio_blocksize := Bio.lseek_blocksize off t
  have hdisk : (Bio.lseek off t).disk = t.disk := Bio.lseek_disk off t
  have hbuf : (Bio.lseek off t).buflist = t.buflist := by
    rw [Bio.lseek, if_pos h0]
  refine ⟨hbs.trans h.blocksize, hbuf.trans h.buflist, fun b hP => ?_⟩
  rw [← h.blocks b hP]
  show ((Bio.lseek off t).disk.put (Bio.lseek off t).pos d).get (b * (Bio.lseek off t).bio_blocksize)
    (Bio.lseek off t).bio_blocksize = Bio.dblock t b
  rw [hpos, hbs, hdisk]
  apply Mem.get_eq_of_forall
  intro j hj
  refine Mem.put_out _ _ _ _ ?_
  by_contra hin
  refine hout (b * t.bio_blocksize + j - off.toNat) (by omega) ?_
  have e : (off.toNat + (b * t.bio_blocksize + j - off.toNat)) / t.bio_blocksize = b := by
    have e1 : off.toNat + (b * t.bio_blocksize + j - off.toNat) = j + b * t.bio_blocksize := by omega
    rw [e1, Nat.add_mul_div_right _ _ (by omega), Nat.div_eq_of_lt hj, Nat.zero_add]
  rwa [e]

/-- direct writes outside `P`, each with a flush: the blocks in `P` get what the buffers have -/
theorem writeThrough_kept {P : Nat → Prop} {a : Nat → List UInt8} (l : List (Int × List UInt8)) :
    ∀ t w, Apart P t w → Bio.Held w a →
      (∀ x ∈ l, 0 ≤ x.1 ∧ ∀ k, k < x.2.length → ¬ P ((x.1.toNat + k) / t.bio_blocksize)) →
      (l ≠ [] ∨ Bio.dblock w = a) → ∀ b, P b → Bio.dblock (l.foldl writeThrough t) b = a b := by
  induction l with
  | nil =>
    intro t w h hw _ ha b hP
    have ha := ha.resolve_left fun h => h rfl
    rw [← ha]
    exact h.blocks b hP
  | cons x l ih =>
    intro t w h hw hl _ b hP
    obtain ⟨h0, hout⟩ := hl x List.mem_cons_self
    have happ := bflush_apart (write_apart h h0 hout) hw
    obtain ⟨hw', hbs, hdev, -⟩ := Bio.bflush_held hw
    have hsize : (writeThrough t x).bio_blocksize = t.bio_blocksize :=
      happ.blocksize.trans (hbs.trans h.blocksize.symm)
    refine ih (writeThrough t x) (Bio.bflush w) happ hw' (fun y hy => ?_) (Or.inr hdev) b hP
    rw [hsize]
    exact hl y (List.mem_cons_of_mem _ hy)

/-! ## sequences of calls -/

/-- a call of a function of e2lib.c, or a store of the caller into an inode that it has open.  The
directory searches carry the fuel of their loops. -/
inductive Call where
  | iget (ino : Int)
  | iput (ip : Slot)
  | balloc
  | bfree (blk : Int)
  | contiguous_balloc (nblocks : Int)
  | fill_contiguous (ip : Slot) (nblocks : Int)
  | write_bootblock (bb : Mem)
  | ialloc
  | blkno (ip : Slot) (blkoff : Int) (allocate : Bool)
  | bread (ip : Slot) (blkno : Int)
  | bwrite (ip : Slot) (blkno : Int) (buf : Mem)
  | namei (fuel : Nat) (name : List UInt8)
  | mknod (fuel : Nat) (dip : Slot) (name : List UInt8) (ino : Int)
  | truncate (ip : Slot)
  | store (ip : Slot) (inode : Mem)

/-- a call without its result -/
def quiet {α : Type} (x : Prog State α) : Prog State Unit := x >>= fun _ => pure ()

def Call.run : Call → Prog State Unit
  | .iget ino => quiet (ext2_iget ino)
  | .iput ip => ext2_iput ip
  | .balloc => quiet ext2_balloc
  | .bfree blk => ext2_bfree blk
  | .contiguous_balloc nblocks => quiet (ext2_contiguous_balloc nblocks)
  | .fill_contiguous ip nblocks => quiet (ext2_fill_contiguous ip nblocks)
  | .write_bootblock bb => ext2_write_bootblock bb
  | .ialloc => quiet ext2_ialloc
  | .blkno ip blkoff allocate => quiet (ext2_blkno ip blkoff allocate)
  | .bread ip n => quiet (ext2_bread ip n)
  | .bwrite ip n buf => ext2_bwrite ip n buf
  | .namei fuel name => quiet (ext2_namei fuel name)
  | .mknod fuel dip name ino => ext2_mknod fuel dip name ino
  | .truncate ip => ext2_truncate ip
  | .store ip inode => modify (setInode ip inode)

def runCalls (calls : List Call) : Prog State Unit := calls.forM Call.run

theorem quiet_kept {α : Type} {x : Prog State α} (h : Steps Kept x) : Steps Kept (quiet x) :=
  kept_bind h fun _ => kept_pure ()

theorem Call.run_kept (c : Call) : Steps Kept c.run := by
  cases c with
  | iget ino => exact quiet_kept (ext2_iget_kept ino)
  | iput ip => exact ext2_iput_kept ip
  | balloc => exact quiet_kept ext2_balloc_kept
  | bfree blk => exact ext2_bfree_kept blk
  | contiguous_balloc nblocks => exact quiet_kept (ext2_contiguous_balloc_kept nblocks)
  | fill_contiguous ip nblocks => exact quiet_kept (ext2_fill_contiguous_kept ip nblocks)
  | write_bootblock bb => exact ext2_write_bootblock_kept bb
  | ialloc => exact quiet_kept ext2_ialloc_kept
  | blkno ip blkoff allocate => exact quiet_kept (ext2_blkno_kept ip blkoff allocate)
  | bread ip n => exact quiet_kept (ext2_bread_kept ip n)
  | bwrite ip n buf => exact ext2_bwrite_kept ip n buf
  | namei fuel name => exact quiet_kept (ext2_namei_kept fuel name)
  | mknod fuel dip name ino => exact ext2_mknod_kept fuel dip name ino
  | truncate ip => exact ext2_truncate_kept ip
  | store ip inode => exact Steps.modify fun s => setInode_kept ip inode s

theorem runCalls_kept (calls : List Call) : Steps Kept (runCalls calls) :=
  kept_forM Call.run_kept calls

/-! ## the close after any calls -/

theorem ext2_init_some {ro : Bool} {heap : Mem} {st s : State} (h : ext2_init ro heap st = some s) :
    s.sb = superOf st.bio.disk ∧ 0 < s_blocks_per_group s.sb ∧ s.ngroups = groups_of s.sb ∧
      s.blocksize = Ext2.block_size s.sb ∧ s.readonly = ro ∧ s.asked = [] ∧
      s.bio = Bio.binit s.blocksize.toNat st.bio := by
  unfold ext2_init at h
  simp only at h
  by_cases h1 : Ext2.s_magic (superOf st.bio.disk) ≠ Ext2.EXT2_SUPER_MAGIC
  · rw [if_pos h1] at h
    cases h
  rw [if_neg h1] at h
  by_cases h2 : s_first_data_block (superOf st.bio.disk) ≠ 1
  · rw [if_pos h2] at h
    cases h
  rw [if_neg h2] at h
  by_cases h3 : s_blocks_per_group (superOf st.bio.disk) = 0
  · rw [if_pos h3] at h
    cases h
  rw [if_neg h3] at h
  rw [← Option.some.inj h]
  dsimp only
  exact ⟨rfl, Nat.pos_of_ne_zero h3, rfl, rfl, rfl, rfl, rfl⟩

/-- two superblocks that differ in their free counts only -/
theorem format_congr {sb sb' : Mem} (h : ∀ x, x < 12 ∨ 20 ≤ x → sb' x = sb x) :
    s_blocks_count sb' = s_blocks_count sb ∧ s_blocks_per_group sb' = s_blocks_per_group sb ∧
      sparse_super sb' = sparse_super sb := by
  have hle : ∀ a, a + 4 ≤ 12 ∨ 20 ≤ a → sb'.le32 a = sb.le32 a := fun a ha =>
    le_congr fun j hj => h (a + j) (by omega)
  refine ⟨hle 4 (by omega), hle 32 (by omega), ?_⟩
  unfold sparse_super s_feature_ro_compat
  rw [hle 100 (by omega)]

theorem formatGroups_congr {sb sb' : Mem} (h : ∀ x, x < 12 ∨ 20 ≤ x → sb' x = sb x) :
    formatGroups sb' = formatGroups sb := by
  obtain ⟨h1, h2, -⟩ := format_congr h
  unfold formatGroups
  rw [h1, h2]

theorem Fits.congr {sb sb' : Mem} (h : ∀ x, x < 12 ∨ 20 ≤ x → sb' x = sb x) (hf : Fits sb) :
    Fits sb' := by
  obtain ⟨h1, h2, h3⟩ := format_congr h
  have hg := formatGroups_congr h
  have hd : descBlocks sb' = descBlocks sb := by
    unfold descBlocks
    rw [hg]
  refine ⟨?_, ?_, ?_, ?_, ?_⟩
  · rw [h2]
    exact hf.bitmap
  · rw [h1, h2]
    exact hf.last
  · rw [h3, hg]
    exact hf.copies
  · rw [h2, hg]
    exact hf.near
  · rw [h1, h2, hg, hd]
    exact hf.room

/-- **the close touches only metadata.**  After any calls on a file system with blocks of 1024 bytes
that `Fits`, the direct writes of `ext2_close` stay in the reserved blocks of the format, below the
last block, and every other block of the device gets what was stored in it through the buffers. -/
theorem close_reserved_only (ro : Bool) (heap : Mem) (st s₀ s : State) (calls : List Call)
    (hinit : ext2_init ro heap st = some s₀) (hbs : s₀.blocksize = 1024) (hfits : Fits s₀.sb)
    (hrun : runCalls calls s₀ = some ((), s)) (hreach : ∀ n ∈ s.asked, InReach 1024 n) :
    (ro = true → ext2_close s = s) ∧
      (ro = false →
        (∀ w ∈ directWrites s, 0 ≤ w.1 ∧ ∀ k, k < w.2.length →
          Reserved s.sb ((w.1.toNat + k) / 1024) ∧
            (w.1.toNat + k) / 1024 < s_blocks_count s.sb) ∧
        ∀ b, ¬ Reserved s.sb b → Bio.dblock (ext2_close s).bio b = contents s.bio b) := by
  obtain ⟨-, hpos, hng, -, hro, hasked, hbio⟩ := ext2_init_some hinit
  have hk := runCalls_kept calls s₀ () s hrun
  have hsize₀ : s₀.bio.bio_blocksize = 1024 := by
    rw [hbio, hbs]
    rfl
  have hsize : s.bio.bio_blocksize = 1024 := hk.bio_blocksize.trans hsize₀
  refine ⟨fun h => ?_, fun h => ?_⟩
  · unfold ext2_close
    rw [if_pos (hk.readonly.trans (hro.trans h))]
  have hgroups : s.ngroups = formatGroups s.sb := by
    rw [hk.ngroups, hng, hfits.groups_of hpos, formatGroups_congr hk.sb]
  have hdirect : ∀ w ∈ directWrites s, _ := fun w hw =>
    directWrites_reserved (hfits.congr hk.sb) rfl (hk.blocksize.trans hbs) hgroups hw
  refine ⟨hdirect, fun b hb => ?_⟩
  obtain ⟨a, ha⟩ := hk.held hasked (by rwa [hsize₀]) (by rw [hbio]; exact Bio.binit_held st.bio _)
  rw [ext2_close_bio (hk.readonly.trans (hro.trans h)), contents_eq ha]
  refine writeThrough_kept (P := fun b => ¬ Reserved s.sb b) (directWrites s) s.bio s.bio
    (Apart.refl _ _) ha (fun w hw => ⟨(hdirect w hw).1, fun k hk => ?_⟩) (Or.inl ?_) b hb
  · rw [hsize]
    exact fun hn => hn ((hdirect w hw).2 k hk).1
  · intro hnil
    have hlen := congrArg List.length hnil
    rw [directWrites, List.length_map, List.length_range, hgroups, Int.toNat_natCast,
      formatGroups_congr hk.sb, hfits.groups hpos] at hlen
    cases hlen

/-! ## three groups -/

/-- a device with 20000 blocks in groups of 8192 -/
def three (ro_compat : Nat) : State where
  sb _ := 0
  gds _ := 0
  ngroups := 0
  blocksize := 0
  directlim := 0
  ind1lim := 0
  ind2lim := 0
  ptrs_per_blk := 0
  readonly := false
  inode_table _ := ⟨fun _ => 0, 0, true, 0⟩
  bio :=
    { bio_counter := 0
      bio_blocksize := 0
      buflist := fun _ => ⟨0, 0, false, none⟩
      disk := record [(1028, 20000, 4), (1044, 1, 4), (1056, 8192, 4), (1064, 64, 4),
        (1080, 0xef53, 2), (1124, ro_compat, 4), (2056, 5, 4)]
      pos := 0 }
  stack _ := 0
  asked := []

/-- a call that reads the inode of the root: without `sparse_super` the first block after the third
copy is kept -/
theorem close_reserved_only_three : ∃ s₀ s, ext2_init false (fun _ => 0) (three 0) = some s₀ ∧
    runCalls [.iget 2] s₀ = some ((), s) ∧ directWrites s ≠ [] ∧
    Bio.dblock (ext2_close s).bio 16387 = contents s.bio 16387 := by
  have hval : ((ext2_init false (fun _ => 0) (three 0)).bind fun s₀ =>
      (runCalls [.iget 2] s₀).map fun r => (s₀.blocksize, sparse_super s₀.sb, r.2.asked,
        [s_blocks_per_group s₀.sb, s_blocks_count s₀.sb, formatGroups s₀.sb,
          s_blocks_per_group r.2.sb, formatGroups r.2.sb, (directWrites r.2).length]))
      = some (1024, false, [5], [8192, 20000, 3, 8192, 3, 3]) := by decide +kernel
  obtain ⟨s₀, hinit, hval⟩ := Option.bind_eq_some_iff.mp hval
  obtain ⟨⟨u, s⟩, hrun, hval⟩ := Option.map_eq_some_iff.mp hval
  simp only [Prod.mk.injEq, List.cons.injEq, and_true] at hval
  obtain ⟨hbs, hsparse, hasked, hn, hcount, hg, hn', hg', hlen⟩ := hval
  have hfits : Fits s₀.sb := by
    refine ⟨?_, ?_, Or.inl hsparse, ?_, ?_⟩
    · rw [hn]
    · rw [hn, hcount]
      decide
    · rw [hn, hg]
      decide
    · rw [hn, hcount, descBlocks, hg]
      decide
  have hfree : ¬ Reserved s.sb 16387 := by
    rintro ⟨i, hi, -, h1, h2⟩
    rw [hn'] at h1 h2
    rw [descBlocks, hg'] at h2
    omega
  have h := close_reserved_only false (fun _ => 0) (three 0) s₀ s [.iget 2] hinit hbs hfits hrun (by
    intro n hmem
    rw [hasked, List.mem_singleton] at hmem
    exact ⟨5, hmem, by decide⟩)
  refine ⟨s₀, s, hinit, hrun, ?_, (h.2 rfl).2 16387 hfree⟩
  intro hnil
  rw [hnil] at hlen
  cases hlen

/-- with `sparse_super` the third group has no copy: block 16385 may be a block of a file, and the
close stores a superblock in it -/
theorem third_group_overwritten : ∃ s, ext2_init false (fun _ => 0) (three 1) = some s ∧
    s.blocksize = 1024 ∧ ¬ Reserved s.sb 16385 ∧
    Bio.dblock (ext2_close s).bio 16385 ≠ contents s.bio 16385 := by
  have hval : (ext2_init false (fun _ => 0) (three 1)).map (fun s => (s.blocksize,
      (s_blocks_per_group s.sb, formatGroups s.sb, sparse_super s.sb),
      (Bio.dblock (ext2_close s).bio 16385)[56]?, (contents s.bio 16385)[56]?))
      = some (1024, (8192, 3, true), some 0x53, some 0) := by decide +kernel
  obtain ⟨s, hinit, hval⟩ := Option.map_eq_some_iff.mp hval
  simp only [Prod.mk.injEq] at hval
  obtain ⟨hbs, ⟨hn, hg, hsparse⟩, hnew, hold⟩ := hval
  refine ⟨s, hinit, hbs, ?_, fun h => ?_⟩
  · rintro ⟨i, hi, hcopy, h1, h2⟩
    rw [hn] at h1 h2
    rw [descBlocks, hg] at h2
    obtain rfl : i = 2 := by omega
    rcases hcopy with h | h | ⟨p, hp, k, hk⟩
    · rw [hsparse] at h
      cases h
    · cases h
    · have hodd : Odd p := by
        simp only [List.mem_cons, List.not_mem_nil, or_false] at hp
        rcases hp with rfl | rfl | rfl <;> decide
      have := hodd.pow (n := k)
      rw [← hk] at this
      exact absurd this (by decide)
  · rw [h, hold] at hnew
    cases hnew

end E2
