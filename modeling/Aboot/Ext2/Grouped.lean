import Aboot.Ext2.BlockMap
import Mathlib.Data.List.Basic

/-!
# Grouped reads

`ext2_breadi` reads runs of contiguous blocks in one go.  `Logged Q s t`: every read issued between
two states has the property `Q`.  `AllReads M dev`: every read of the device succeeds.  Then a request delivers the same bytes as reading block by block, `blockBytes` of what
`ext2_blkno` says for each of them:

* `run_device`          a run read in one go is its blocks, one after the other;
* `breadLoop_blocks`    the loop, for pointers none of which is 1 or negative;
* `ext2_breadi_iff`     when a request inside the file is served so: the byte count has to fit an
                        `int`, and the rounded size an `unsigned int`.
-/

set_option linter.unusedVariables false

namespace Ext2
open Word State

/-! ## the reads of a request -/

/-- every read that is issued between two states has a property -/
def Logged (Q : Read → Prop) (s t : State) : Prop := ∀ r ∈ newLog s t, Q r

/-- a property of all reads of the mounted partition -/
def EveryRead (M : Machine) (s : State) (Q : Read → Prop) : Prop :=
  ∀ u, SameMount s u → ∀ target count offset, 0 ≤ count →
    Q ⟨target, count, offset, (u.rd M count offset).ret, u.held target⟩

theorem EveryRead.same {M : Machine} {s t : State} {Q : Read → Prop} (h : EveryRead M s Q)
    (hs : SameMount s t) : EveryRead M t Q := fun u hu => h u (hs.trans hu)

theorem Logged.refl (Q : Read → Prop) (s : State) : Logged Q s s := by
  unfold Logged
  rw [newLog_self]
  simp

theorem Logged.trans {M : Machine} {Q : Read → Prop} {s t u : State} (h : Logged Q s t)
    (h' : Logged Q t u) (hk : Keeps M s t) (hk' : Keeps M t u) : Logged Q s u := by
  unfold Logged
  rw [newLog_trans hk hk', List.forall_mem_append]
  exact ⟨h, h'⟩

section
variable {M : Machine} {Q : Read → Prop} {s : State} (h : EveryRead M s Q) (hs : 0 ≤ s.blocksize)

include h in
theorem note_logged (target : Target) {count : Int} (hc : 0 ≤ count) (offset : Int) :
    Logged Q s (s.note M target count offset) := by
  intro r hr
  rw [newLog_note, List.mem_singleton] at hr
  rw [hr]
  exact h s (SameMount.refl s) target count offset hc

include h hs

theorem cacheIblk_logged (n : Int) : Logged Q s (cacheIblk M n s).2 := by
  unfold cacheIblk
  split
  · exact Logged.refl Q s
  · split <;> exact note_logged h _ hs _

theorem cacheDiblk_logged (n : Int) : Logged Q s (cacheDiblk M n s).2 := by
  unfold cacheDiblk
  split
  · exact Logged.refl Q s
  · split <;> exact note_logged h _ hs _

theorem viaIblk_logged (n k : Int) : Logged Q s (viaIblk M n k s).2 := by
  unfold viaIblk
  split
  · exact Logged.refl Q s
  · split <;> exact cacheIblk_logged h hs n

theorem viaDiblk_logged (n k : Int) : Logged Q s (viaDiblk M n k s).2 := by
  have hc := cacheDiblk_keeps M n s
  unfold viaDiblk
  split
  · exact Logged.refl Q s
  · split
    · exact (cacheDiblk_logged h hs n).trans
        (viaIblk_logged (h.same hc.mount) (by rw [hc.mount.blocksize]; exact hs) _ _) hc
        (viaIblk_reads M _ _ _).keeps
    · exact cacheDiblk_logged h hs n

theorem ext2_blkno_logged (i : Slot) (b : Int) : Logged Q s (ext2_blkno M i b s).2 := by
  unfold ext2_blkno
  split
  · exact Logged.refl Q s
  · split
    · exact viaIblk_logged h hs _ _
    · split
      · exact viaDiblk_logged h hs _ _
      · exact Logged.refl Q s

end

theorem group_logged {M : Machine} {Q : Read → Prop} {i : Slot} {d : Int} (n : Nat) :
    ∀ (b : Int) (nc : Nat) (s : State), EveryRead M s Q → 0 ≤ s.blocksize →
      Logged Q s (group M i d n b nc s).2.2 := by
  induction n with
  | zero => intro b nc s _ _; exact Logged.refl Q s
  | succ n ih =>
    intro b nc s h hs
    have hb := ext2_blkno_reads M i (sgn 32 b) s
    have hf := ext2_blkno_logged h hs i (sgn 32 b)
    unfold group
    split
    · exact hf.trans (ih _ _ _ (h.same hb.keeps.mount) (by rw [hb.keeps.mount.blocksize]; exact hs))
        hb.keeps (group_reads M i d n _ _ _).keeps
    · exact hf

theorem nextGroup_logged {M : Machine} {Q : Read → Prop} {s : State} (h : EveryRead M s Q)
    (hs : 0 ≤ s.blocksize) (i : Slot) (n : Nat) (b : Int) :
    Logged Q s (nextGroup M i n b s).2.2.2 := by
  have hb := ext2_blkno_reads M i (sgn 32 b) s
  exact (ext2_blkno_logged h hs i (sgn 32 b)).trans
    (group_logged n _ _ _ (h.same hb.keeps.mount) (by rw [hb.keeps.mount.blocksize]; exact hs))
    hb.keeps (group_reads M i _ n _ _ _).keeps

theorem breadLoop_logged {M : Machine} {Q : Read → Prop} {i : Slot} (fuel : Nat) :
    ∀ (n : Nat) (b tot : Int) (s : State), EveryRead M s Q → 0 ≤ s.blocksize →
      Logged Q s (breadLoop M i fuel n b tot s).st := by
  induction fuel with
  | zero => intro n b tot s _ _; exact Logged.refl Q s
  | succ fuel ih =>
    intro n b tot s h hs
    cases n with
    | zero => exact Logged.refl Q s
    | succ n =>
      have hg := nextGroup_reads M i n b s
      have hgf := nextGroup_logged h hs i n b
      have hd := h.same hg.keeps.mount
      have hs' : 0 ≤ (nextGroup M i n b s).2.2.2.blocksize := by
        rw [hg.keeps.mount.blocksize]; exact hs
      unfold breadLoop
      simp only
      split
      · exact hgf.trans (ih _ _ _ _ hd hs') hg.keeps (breadLoop_reads M i fuel _ _ _ _).keeps
      · have hn : ∀ offset, Logged Q s ((nextGroup M i n b s).2.2.2.note M .data
            ((nextGroup M i n b s).2.2.1 * (nextGroup M i n b s).2.2.2.blocksize) offset) :=
          fun offset => hgf.trans
            (note_logged hd _ (mul_nonneg (Int.natCast_nonneg _) hs') _) hg.keeps
            (Keeps.note M _ _ _ _)
        split
        · exact hn _
        · exact (hn _).trans (ih _ _ _ _ (hd.same (Keeps.note M _ _ _ _).mount) hs')
            (hg.keeps.trans (Keeps.note M _ _ _ _)) (breadLoop_reads M i fuel _ _ _ _).keeps

/-! ## reads that succeed -/

/-- every read of a device succeeds -/
def AllReads (M : Machine) (dev : Int) : Prop :=
  ∀ t count offset, (M.read t dev count offset).ret = count

theorem AllReads.every {M : Machine} {s : State} (h : AllReads M s.dev) :
    EveryRead M s fun r => r.ret = r.count := by
  intro u hu target count offset _
  show (M.read _ u.dev _ _).ret = count
  rw [hu.dev]
  exact h _ _ _

theorem indexOk_of_logged {s t : State} (h : Logged (fun r => r.ret = r.count) s t) :
    IndexOk (newLog s t) := fun r hr _ => h r hr

theorem noData_of_logged {s t : State} (h : Logged (fun r => r.ret = r.count) s t) :
    ¬ DataFails (newLog s t) := by
  rintro ⟨r, hr, -, hne⟩
  exact hne (h r hr)

/-! ## block by block -/

/-- the bytes of a block of the partition, zeros for a hole -/
def blockBytes (M : Machine) (s : State) (n : Int) : List UInt8 :=
  if n = 0 then List.replicate s.blocksize.toNat 0
  else (List.range s.blocksize.toNat).map fun k : Nat => M.bytes s.dev (s.blockOffset n + k)

theorem length_blockBytes (M : Machine) (s : State) (n : Int) :
    (blockBytes M s n).length = s.blocksize.toNat := by
  unfold blockBytes
  split <;> simp

theorem length_blocks (M : Machine) (s : State) (f : Nat → Int) (n : Nat) :
    ((List.range n).flatMap fun j => blockBytes M s (f j)).length = n * s.blocksize.toNat := by
  induction n with
  | zero => simp
  | succ n ih =>
    rw [List.range_succ, List.flatMap_append, List.length_append, ih, List.flatMap_singleton,
      length_blockBytes, Nat.succ_mul]

/-- the bytes of a block of the partition -/
def deviceBlock (M : Machine) (s : State) (n : Int) : List UInt8 :=
  (List.range s.blocksize.toNat).map fun k : Nat => M.bytes s.dev (s.blockOffset n + k)

/-- a run that is read in one go is its blocks, one after the other -/
theorem run_device {M : Machine} {s : State} (hs : 0 ≤ s.blocksize) (d : Int) (m : Nat) :
    (List.range ((m : Int) * s.blocksize).toNat).map
        (fun k : Nat => M.bytes s.dev (s.blockOffset d + k))
      = (List.range m).flatMap fun j : Nat => deviceBlock M s (d + j) := by
  obtain ⟨B, hB⟩ := Int.eq_ofNat_of_zero_le hs
  have hm : ∀ m : Nat, ((m : Int) * s.blocksize).toNat = m * B := by
    intro m
    rw [hB, ← Nat.cast_mul, Int.toNat_natCast]
  induction m with
  | zero => simp
  | succ m ih =>
    rw [hm] at ih
    rw [hm, Nat.succ_mul, List.range_add, List.map_append, ih, List.range_succ, List.flatMap_append,
      List.flatMap_singleton, List.map_map]
    congr 1
    rw [deviceBlock, hB, Int.toNat_natCast]
    apply List.map_congr_left
    intro k _
    have e : s.blockOffset d + ((m * B + k : Nat) : Int) = s.blockOffset (d + m) + k := by
      unfold blockOffset
      rw [hB]
      push_cast
      ring
    show M.bytes s.dev _ = _
    rw [e]

theorem run_blocks {M : Machine} {s : State} (hs : 0 ≤ s.blocksize) {d : Int} (hd : 0 < d) (m : Nat) :
    (List.range ((m : Int) * s.blocksize).toNat).map
        (fun k : Nat => M.bytes s.dev (s.blockOffset d + k))
      = (List.range m).flatMap fun j : Nat => blockBytes M s (d + j) := by
  rw [run_device hs]
  apply List.flatMap_congr
  intro j _
  have hne : d + (j : Int) ≠ 0 := by omega
  rw [blockBytes, if_neg hne, deviceBlock]

/-- the blocks `a .. a + m + n - 1` -/
theorem flatMap_blocks {α : Type} (f : Nat → List α) (m n : Nat) :
    (List.range (m + n)).flatMap f
      = (List.range m).flatMap f ++ (List.range n).flatMap fun j => f (m + j) := by
  rw [List.range_add, List.flatMap_append, List.flatMap_map]

/-- the bytes of a group of `m` blocks from the block `d` on -/
def groupBytes (M : Machine) (s : State) (d : Int) (m : Nat) : List UInt8 :=
  if d = 0 then List.replicate ((m : Int) * s.blocksize).toNat 0
  else (List.range ((m : Int) * s.blocksize).toNat).map
    fun k : Nat => M.bytes s.dev (s.blockOffset d + k)

theorem groupBytes_reads {M : Machine} {s t : State} (h : Reads M s t) (d : Int) (m : Nat) :
    groupBytes M t d m = groupBytes M s d m := by
  simp only [groupBytes, blockOffset, h.keeps.mount.blocksize, h.keeps.mount.dev,
    h.keeps.mount.part]

theorem length_groupBytes {M : Machine} {s : State} (hs : 0 ≤ s.blocksize) (d : Int) (m : Nat) :
    (groupBytes M s d m).length = m * s.blocksize.toNat := by
  have hnat : ((m : Int) * s.blocksize).toNat = m * s.blocksize.toNat := by
    rw [Int.toNat_mul (Int.natCast_nonneg _) hs, Int.toNat_natCast]
  unfold groupBytes
  rw [hnat]
  split <;> simp

/-- one round of the loop when the reads succeed -/
theorem breadLoop_round {M : Machine} {i : Slot} {s : State} (h : AllReads M s.dev)
    (hs : 0 ≤ s.blocksize) (fuel n : Nat) (b tot : Int) :
    ∃ (t : State) (tot' : Int), Reads M s t ∧ (Coh M s → Coh M t) ∧
      (breadLoop M i (fuel + 1) (n + 1) b tot s).data
        = groupBytes M s (nextGroup M i n b s).1 (nextGroup M i n b s).2.2.1
          ++ (breadLoop M i fuel (nextGroup M i n b s).2.1 (b + (nextGroup M i n b s).2.2.1)
            tot' t).data := by
  have hg := nextGroup_reads M i n b s
  have hd : AllReads M (nextGroup M i n b s).2.2.2.dev := by rw [hg.keeps.mount.dev]; exact h
  have hc : Coh M s → Coh M (nextGroup M i n b s).2.2.2 := fun hcs =>
    hg.keeps.coh_ok hcs (indexOk_of_logged (nextGroup_logged h.every hs i n b))
  rw [← groupBytes_reads hg]
  rw [breadLoop]
  unfold groupBytes
  simp only
  by_cases hz : (nextGroup M i n b s).1 = 0
  · rw [if_pos hz, if_pos hz]
    refine ⟨_, tot + (nextGroup M i n b s).2.2.1 * (nextGroup M i n b s).2.2.2.blocksize, hg, hc, ?_⟩
    rw [BreadRes.data, List.flatMap_cons]
    rfl
  · have hret := hd (nextGroup M i n b s).2.2.2.log.length
      ((nextGroup M i n b s).2.2.1 * (nextGroup M i n b s).2.2.2.blocksize)
      ((nextGroup M i n b s).2.2.2.blockOffset (nextGroup M i n b s).1)
    rw [if_neg hz, if_neg hz, if_neg (by exact not_not.mpr hret), ← M.read_exact _ _ _ _ hret]
    refine ⟨_, tot + (nextGroup M i n b s).2.2.1 * (nextGroup M i n b s).2.2.2.blocksize,
      hg.trans (Reads.note M .data
        ((nextGroup M i n b s).2.2.1 * (nextGroup M i n b s).2.2.2.blocksize)
        ((nextGroup M i n b s).2.2.2.blockOffset (nextGroup M i n b s).1) _),
      fun hs => ⟨(hc hs).iblk, (hc hs).diblk⟩, ?_⟩
    rw [BreadRes.data, List.flatMap_cons]
    rfl

/-- a request has as many bytes as its blocks -/
theorem breadLoop_length {M : Machine} {i : Slot} (fuel : Nat) :
    ∀ (n : Nat) (b tot : Int) (s : State), AllReads M s.dev → 0 ≤ s.blocksize → n ≤ fuel →
      (breadLoop M i fuel n b tot s).data.length = n * s.blocksize.toNat := by
  induction fuel with
  | zero =>
    intro n b tot s _ _ hn
    obtain rfl : n = 0 := by omega
    simp [breadLoop, BreadRes.data]
  | succ fuel ih =>
    intro n b tot s h hs hn
    cases n with
    | zero => simp [breadLoop, BreadRes.data]
    | succ n =>
      obtain ⟨hlen, hpos, -⟩ := nextGroup_len M i n b s
      obtain ⟨t, tot', ht, -, hdata⟩ := breadLoop_round (i := i) h hs fuel n b tot
      rw [hdata, List.length_append, length_groupBytes hs, ih _ _ _ _
        (by rw [ht.keeps.mount.dev]; exact h) (by rw [ht.keeps.mount.blocksize]; exact hs)
        (by omega), ht.keeps.mount.blocksize, ← Nat.add_mul, Nat.add_comm, hlen]

/-- the blocks of a group count up -/
theorem group_counts {M : Machine} {i : Slot} {s : State} {b : Int} {N : Nat} {f : Nat → Int}
    (hall : AllReads M s.dev) (hbs : 0 ≤ s.blocksize)
    (hf : ∀ t, Reads M s t → Coh M t → ∀ j < N, (ext2_blkno M i (sgn 32 (b + j)) t).1 = f j)
    (d : Int) (n : Nat) :
    ∀ (a nc : Nat) (t : State), Reads M s t → Coh M t → a + n ≤ N →
      ∀ j, nc + j < (group M i d n (b + a) nc t).2.1 → f (a + j) = d + nc + j := by
  induction n with
  | zero =>
    intro a nc t _ _ _ j hj
    simp only [group] at hj
    omega
  | succ n ih =>
    intro a nc t ht hc ha j hj
    have hd : AllReads M t.dev := by rw [ht.keeps.mount.dev]; exact hall
    have hb := ext2_blkno_reads M i (sgn 32 (b + a)) t
    have hcb := hb.keeps.coh_ok hc (indexOk_of_logged (ext2_blkno_logged hd.every
      (by rw [ht.keeps.mount.blocksize]; exact hbs) i (sgn 32 (b + a))))
    have ef := hf t ht hc a (by omega)
    unfold group at hj
    by_cases he : (ext2_blkno M i (sgn 32 (b + a)) t).1 = d + nc
    · rw [if_pos he] at hj
      cases j with
      | zero => rw [Nat.add_zero, ← ef, he]; simp
      | succ j =>
        have hcast : b + (a : Int) + 1 = b + ((a + 1 : Nat) : Int) := by push_cast; ring
        rw [hcast] at hj
        have := ih (a + 1) (nc + 1) _ (ht.trans hb) hcb (by omega) j (by omega)
        have e : a + (j + 1) = a + 1 + j := by omega
        rw [e, this]
        push_cast
        ring
    · rw [if_neg he] at hj
      simp only at hj
      omega

theorem nextGroup_counts {M : Machine} {i : Slot} {s : State} {b : Int} {N : Nat} {f : Nat → Int}
    (hall : AllReads M s.dev) (hbs : 0 ≤ s.blocksize)
    (hf : ∀ t, Reads M s t → Coh M t → ∀ j < N, (ext2_blkno M i (sgn 32 (b + j)) t).1 = f j)
    {n a : Nat} {t : State} (ht : Reads M s t) (hc : Coh M t) (ha : a + (n + 1) ≤ N) :
    (nextGroup M i n (b + a) t).1 = f a ∧
      ∀ j < (nextGroup M i n (b + a) t).2.2.1, f (a + j) = f a + j := by
  have hd : AllReads M t.dev := by rw [ht.keeps.mount.dev]; exact hall
  have hb := ext2_blkno_reads M i (sgn 32 (b + a)) t
  have hcb := hb.keeps.coh_ok hc (indexOk_of_logged (ext2_blkno_logged hd.every
    (by rw [ht.keeps.mount.blocksize]; exact hbs) i (sgn 32 (b + a))))
  have ef := hf t ht hc a (by omega)
  refine ⟨ef, fun j hj => ?_⟩
  cases j with
  | zero => simp
  | succ j =>
    have hcast : b + (a : Int) + 1 = b + ((a + 1 : Nat) : Int) := by push_cast; ring
    have hj' : 1 + j < (group M i (ext2_blkno M i (sgn 32 (b + a)) t).1 n (b + a + 1) 1
        (ext2_blkno M i (sgn 32 (b + a)) t).2).2.1 := by rw [Nat.add_comm]; exact hj
    rw [hcast] at hj'
    have := group_counts hall hbs hf _ n (a + 1) 1 _ (ht.trans hb) hcb (by omega) j hj'
    have e : a + (j + 1) = a + 1 + j := by omega
    rw [e, this, ef]
    push_cast
    ring

/-- the loop delivers what block by block reading delivers -/
theorem breadLoop_blocks {M : Machine} {i : Slot} {s : State} {b : Int} {N : Nat} {f : Nat → Int}
    (hall : AllReads M s.dev) (hbs : 0 ≤ s.blocksize)
    (hf : ∀ t, Reads M s t → Coh M t → ∀ j < N, (ext2_blkno M i (sgn 32 (b + j)) t).1 = f j)
    (hp : ∀ j < N, 0 ≤ f j ∧ f j ≠ 1) (fuel : Nat) :
    ∀ (n a : Nat) (tot : Int) (t : State), Reads M s t → Coh M t → n ≤ fuel → a + n ≤ N →
      (breadLoop M i fuel n (b + a) tot t).data
        = (List.range n).flatMap fun j => blockBytes M s (f (a + j)) := by
  induction fuel with
  | zero =>
    intro n a tot t _ _ hn _
    obtain rfl : n = 0 := by omega
    simp [breadLoop, BreadRes.data]
  | succ fuel ih =>
    intro n a tot t ht hc hn ha
    cases n with
    | zero => simp [breadLoop, BreadRes.data]
    | succ n =>
      have hd : AllReads M t.dev := by rw [ht.keeps.mount.dev]; exact hall
      obtain ⟨hlen, hpos, -⟩ := nextGroup_len M i n (b + a) t
      obtain ⟨g1, hrun⟩ := nextGroup_counts hall hbs hf ht hc ha
      obtain ⟨u, tot', hu, hcu, hdata⟩ := breadLoop_round (i := i) hd
        (by rw [ht.keeps.mount.blocksize]; exact hbs) fuel n (b + a) tot
      rw [groupBytes_reads ht] at hdata
      generalize nextGroup M i n (b + a) t = g at hlen hpos g1 hrun hdata
      have hcast : b + (a : Int) + (g.2.2.1 : Int) = b + ((a + g.2.2.1 : Nat) : Int) := by
        push_cast
        ring
      have hsplit : n + 1 = g.2.2.1 + g.2.1 := by omega
      rw [hdata, hcast, ih g.2.1 (a + g.2.2.1) tot' u (ht.trans hu) (hcu hc) (by omega) (by omega),
        hsplit, flatMap_blocks]
      simp only [Nat.add_assoc]
      congr 1
      rw [g1]
      by_cases hz : f a = 0
      · -- a hole is a group of its own: the next pointer would be 1
        have hone : g.2.2.1 = 1 := by
          by_contra hne
          have h1 := hrun 1 (by omega)
          rw [hz] at h1
          exact (hp (a + 1) (by omega)).2 h1
        rw [groupBytes, if_pos hz, hone, List.range_one, List.flatMap_singleton, Nat.add_zero,
          blockBytes, if_pos hz, Nat.cast_one, one_mul]
      · have hpos' : 0 < f a := by
          have h0 := (hp a (by omega)).1
          omega
        rw [groupBytes, if_neg hz, run_blocks hbs hpos']
        apply List.flatMap_congr
        intro j hj
        rw [hrun j (List.mem_range.mp hj)]

/-! ## plain pointers -/

/-- a block number below 2^31 that is not 1 -/
def Plain (n : Nat) : Prop := n ≠ 1 ∧ n < 2147483648

instance (n : Nat) : Decidable (Plain n) := inferInstanceAs (Decidable (_ ∧ _))

/-- the pointers of a file, those in its index blocks included, are plain -/
structure PlainPtrs (M : Machine) (s : State) (i : Slot) : Prop where
  slot : ∀ k < 15, Plain ((s.inode_table i).inode.le32 (40 + 4 * k))
  single : (s.inode_table i).inode.le32 88 ≠ 0 → ∀ k < ptrs s,
    Plain ((diskBlock M s ((s.inode_table i).inode.le32 88)).le32 (4 * k))
  double : (s.inode_table i).inode.le32 92 ≠ 0 → ∀ k < ptrs s,
    Plain ((diskBlock M s ((s.inode_table i).inode.le32 92)).le32 (4 * k))
  below : (s.inode_table i).inode.le32 92 ≠ 0 → ∀ k < ptrs s,
    (diskBlock M s ((s.inode_table i).inode.le32 92)).le32 (4 * k) ≠ 0 → ∀ j < ptrs s,
    Plain ((diskBlock M s ((diskBlock M s ((s.inode_table i).inode.le32 92)).le32
      (4 * k) : Nat)).le32 (4 * j))

theorem formatPtr_reads {M : Machine} {s t : State} (h : Reads M s t) (i : Slot) (b : Nat) :
    formatPtr M t i b = formatPtr M s i b := by
  simp only [formatPtr, ptrs, h.keeps.mount.blocksize, h.table.table, diskBlock_same h.keeps.mount]

theorem onTheWay_reads {M : Machine} {s t : State} (h : Reads M s t) (i : Slot) (b : Nat) :
    onTheWay M t i b = onTheWay M s i b := by
  unfold onTheWay ptrs
  rw [h.keeps.mount.blocksize, h.table.table, diskBlock_same h.keeps.mount]

/-- the index blocks on the way are below 2^31 -/
theorem PlainPtrs.way {M : Machine} {s : State} {i : Slot} (hp : PlainPtrs M s i) {b : Nat}
    (hb : b < 12 + ptrs s + ptrs s * ptrs s) : ∀ n ∈ onTheWay M s i b, n < 2147483648 := by
  have hind := hp.slot 12 (by omega)
  have hdind := hp.slot 13 (by omega)
  unfold onTheWay
  simp only
  split
  · simp
  · split
    · intro n hn
      rw [List.mem_singleton.mp hn]
      exact hind.2
    · split
      · simp
      · rename_i h1 h2 hz
        have hk : (b - 12 - ptrs s) / ptrs s < ptrs s := Nat.div_lt_of_lt_mul (by omega)
        intro n hn
        rcases List.mem_cons.mp hn with rfl | hn
        · exact hdind.2
        · rw [List.mem_singleton.mp hn]
          exact (hp.double hz _ hk).2

theorem PlainPtrs.format {M : Machine} {s : State} {i : Slot} (hp : PlainPtrs M s i) {b : Nat}
    (hb : b < 12 + ptrs s + ptrs s * ptrs s) : Plain (formatPtr M s i b) := by
  have hzero : Plain 0 := by decide
  unfold formatPtr mapped
  split
  · rename_i h1
    exact hp.slot b (by omega)
  · split
    · rename_i h1 h2
      simp only [chase, pow_zero, Nat.div_one]
      split
      · exact hzero
      · rename_i hz
        exact hp.single hz _ (by omega)
    · rename_i h1 h2
      have hpos : 0 < ptrs s := by
        by_contra h0
        have : ptrs s = 0 := by omega
        rw [this] at hb h2
        omega
      have hk : (b - 12 - ptrs s) / ptrs s < ptrs s := Nat.div_lt_of_lt_mul (by omega)
      have hr := Nat.mod_lt (b - 12 - ptrs s) hpos
      simp only [chase, pow_zero, pow_one, Nat.div_one]
      split
      · exact hzero
      · rename_i hz
        split
        · exact hzero
        · rename_i hz'
          exact hp.below hz _ hk hz' _ hr

/-- the mapper on a file with plain pointers -/
theorem PlainPtrs.blkno {M : Machine} {s t : State} {i : Slot} (hp : PlainPtrs M s i)
    (hm : Mounted s) (hall : AllReads M s.dev) (ht : Reads M s t) (hc : Coh M t) (b : Nat) :
    (ext2_blkno M i b t).1 = if (b : Int) ≤ s.ind2lim then (formatPtr M s i b : Int) else 0 := by
  have hd : AllReads M t.dev := by rw [ht.keeps.mount.dev]; exact hall
  have hP : ((ptrs s * ptrs s : Nat) : Int) = s.ptrs_per_blk * s.ptrs_per_blk := by
    rw [Nat.cast_mul, hm.ptrs_eq]
  rw [ext2_blkno_looked (hm.same ht.keeps.mount) hc b 
    (indexOk_of_logged (ext2_blkno_logged hd.every
      (by rw [ht.keeps.mount.blocksize]; exact hm.blocksize_pos.le) i b)),
    ht.keeps.mount.ind2lim]
  by_cases h : (b : Int) ≤ s.ind2lim
  · have hb : b < 12 + ptrs s + ptrs s * ptrs s := by
      rw [hm.ind2lim] at h
      omega
    have hway : ∀ n ∈ onTheWay M t i b, n < 2147483648 := by
      rw [onTheWay_reads ht]
      exact hp.way hb
    have hlt := (hp.format hb).2
    rw [if_pos h, if_pos h, lookedPtr_eq M t i b hway, formatPtr_reads ht]
    exact sgn32_of_range (by omega) (by omega)
  · rw [if_neg h, if_neg h]

/-! ## a request inside the file -/

/-- the number of blocks of a file -/
def fileBlocks (s : State) (i : Slot) : Nat :=
  (i_size (s.inode_table i).inode + s.blocksize.toNat - 1) / s.blocksize.toNat

/-- the request is cut only when it ends in a last block that is not full, and then the rounded size
has to fit -/
theorem clampBlks_inside {s : State} (hm : Mounted s) {i : Slot} {b n : Nat}
    (hn : b + n ≤ fileBlocks s i) :
    clampBlks s i b n = if i_size (s.inode_table i).inode < (b + n) * s.blocksize.toNat ∧
        4294967296 ≤ i_size (s.inode_table i).inode + s.blocksize.toNat then -(b : Int) else n := by
  have hS : i_size (s.inode_table i).inode < 4294967296 := Mem.le32_lt _ _
  have hpos := hm.pos
  have hsmall := hm.small
  have hbs := hm.blocksize
  obtain ⟨B, hB⟩ := Int.eq_ofNat_of_zero_le (a := s.blocksize) (by omega)
  have hB0 : 0 < B := by omega
  have hB1 : B ≤ 65536 := by omega
  unfold fileBlocks at hn
  unfold clampBlks
  rw [hB, Int.toNat_natCast] at hn ⊢
  generalize i_size (s.inode_table i).inode = S at hS hn ⊢
  have hle : (b + n) * B ≤ S + B - 1 := (Nat.le_div_iff_mul_le hB0).mp hn
  have hcast : ((b : Int) + n) * B = (((b + n) * B : Nat) : Int) := by push_cast; ring
  rw [hcast, sgn64_natCast (by omega)]
  by_cases hlt : S < (b + n) * B
  · have e : ((S : Int) + B) = ((S + B : Nat) : Int) := by push_cast; ring
    rw [if_pos (by exact_mod_cast hlt), e, uns32_natCast (n := B) (by omega)]
    by_cases hov : 4294967296 ≤ S + B
    · have hu : uns 32 ((S + B : Nat) : Int) = S + B - 4294967296 := by
        obtain ⟨q, h1, h2⟩ := uns32_cases ((S + B : Nat) : Int)
        omega
      rw [if_pos ⟨hlt, hov⟩, hu, Nat.div_eq_of_lt (by omega)]
      omega
    · rw [if_neg (fun h => hov h.2), uns32_natCast (by omega)]
      have hd : (S + B) / B = b + n := by
        have h1 : (S + B) / B < b + n + 1 := by
          rw [Nat.div_lt_iff_lt_mul hB0, Nat.add_mul]
          omega
        have h2 : b + n ≤ (S + B) / B := by
          rw [Nat.le_div_iff_mul_le hB0]
          omega
        omega
      rw [hd]
      push_cast
      ring
  · rw [if_neg (by exact_mod_cast hlt), if_neg (fun h => hlt h.1)]

/-- a request delivers the blocks of the file one after the other, and says how many bytes -/
def BlockByBlock (M : Machine) (i : Slot) (b n : Nat) (s : State) : Prop :=
  (ext2_breadi M i b n s).ret = n * s.blocksize ∧
  (ext2_breadi M i b n s).data
    = (List.range n).flatMap fun j => blockBytes M s (ext2_blkno M i (b + j : Nat) s).1

/-- the value that a request returns when the reads succeed -/
theorem breadLoop_ret {M : Machine} {i : Slot} {s : State} (hall : AllReads M s.dev)
    (hs : 0 ≤ s.blocksize) (n : Nat) (b : Int) : (breadLoop M i n n b 0 s).ret = sgn 32 (n * s.blocksize) := by
  have hspec := breadLoop_spec (M := M) (i := i) b n n 0 0 s (le_refl n)
  rw [Nat.cast_zero, add_zero] at hspec
  rcases hspec with ⟨-, hd⟩ | ⟨hr, -⟩
  · exact absurd hd (noData_of_logged (breadLoop_logged n n b 0 s hall.every hs))
  · rw [hr, zero_add]

/-- a request that is not cut delivers the blocks -/
theorem breadLoop_plain {M : Machine} {i : Slot} {s : State} (hm : Mounted s) (hc : Coh M s)
    (hall : AllReads M s.dev) (hp : PlainPtrs M s i) {b n : Nat} (hb : b + n ≤ 2147483648) :
    (breadLoop M i n n b 0 s).data
      = (List.range n).flatMap fun j => blockBytes M s (ext2_blkno M i (b + j : Nat) s).1 := by
  have hz := breadLoop_blocks (N := n) (f := fun j => (ext2_blkno M i (b + j : Nat) s).1) (b := b)
    (i := i) hall hm.blocksize_pos.le ?_ ?_ n n 0 0 s (Reads.refl M s) hc (le_refl n) (by omega)
  · simp only [Nat.zero_add] at hz
    rw [Nat.cast_zero, add_zero] at hz
    exact hz
  · intro t ht hct j hj
    have e : sgn 32 ((b : Int) + j) = ((b + j : Nat) : Int) := by
      rw [← Nat.cast_add]
      exact sgn32_of_range (by omega) (by omega)
    rw [e, hp.blkno hm hall ht hct, hp.blkno hm hall (Reads.refl M s) hc]
  · intro j hj
    have hP : ((ptrs s * ptrs s : Nat) : Int) = s.ptrs_per_blk * s.ptrs_per_blk := by
      rw [Nat.cast_mul, hm.ptrs_eq]
    simp only [hp.blkno hm hall (Reads.refl M s) hc]
    split
    · rename_i hle
      rw [hm.ind2lim] at hle
      have hf := hp.format (b := b + j) (by omega)
      exact ⟨Int.natCast_nonneg _, fun h1 => hf.1 (by exact_mod_cast h1)⟩
    · omega

/-- **When grouped reads are block by block reads.**  A request for blocks of the file delivers them
one after the other exactly when its bytes fit an `int`, and either it does not reach a last block
that is not full or the size rounded up fits an `unsigned int`. -/
theorem ext2_breadi_iff (M : Machine) (s : State) (hm : Mounted s) (hc : Coh M s)
    (hall : AllReads M s.dev) (i : Slot) (hx : ¬ hasExtents s i) (hp : PlainPtrs M s i) (b n : Nat)
    (hn : b + n ≤ fileBlocks s i) :
    BlockByBlock M i b n s ↔
      n * s.blocksize.toNat < 2147483648 ∧
      (i_size (s.inode_table i).inode + s.blocksize.toNat < 4294967296 ∨
        (b + n) * s.blocksize.toNat ≤ i_size (s.inode_table i).inode) := by
  have hS : i_size (s.inode_table i).inode < 4294967296 := Mem.le32_lt _ _
  have hpos := hm.pos
  have hsmall := hm.small
  have hbs := hm.blocksize
  have hclamp := clampBlks_inside hm hn
  obtain ⟨B, hB⟩ := Int.eq_ofNat_of_zero_le (a := s.blocksize) (by omega)
  have hB0 : 4 ≤ B := by omega
  have hB1 : B ≤ 65536 := by omega
  have hle : (b + n) * B ≤ i_size (s.inode_table i).inode + B - 1 := by
    unfold fileBlocks at hn
    rw [hB, Int.toNat_natCast] at hn
    exact (Nat.le_div_iff_mul_le (by omega)).mp hn
  have hlen : b + n ≤ 2147483648 := by
    have : (b + n) * 4 ≤ (b + n) * B := Nat.mul_le_mul_left _ hB0
    omega
  unfold BlockByBlock ext2_breadi
  unfold hasExtents at hx
  rw [if_neg hx, hclamp, hB, Int.toNat_natCast]
  by_cases h : i_size (s.inode_table i).inode < (b + n) * B ∧
      4294967296 ≤ i_size (s.inode_table i).inode + B
  · -- the count is not the one asked for
    rw [if_pos h]
    constructor
    · rintro ⟨-, hd⟩
      exfalso
      have hl := breadLoop_length (M := M) (i := i) _ _ (b : Int) 0 s hall (by omega)
        (le_refl (uns 64 (-(b : Int))))
      have hl' := congrArg List.length hd
      rw [hl, length_blocks, hB, Int.toNat_natCast] at hl'
      have hu : uns 64 (-(b : Int)) = n := Nat.eq_of_mul_eq_mul_right (by omega) hl'
      obtain ⟨q, h1, h2⟩ := uns64_cases (-(b : Int))
      have hb0 : b + n = 0 := by omega
      rw [hb0] at h
      omega
    · rintro ⟨-, h1 | h1⟩ <;> omega
  · have hu : uns 64 (n : Int) = n := uns64_natCast (by omega)
    have hc2 : ((n : Int) * B) = ((n * B : Nat) : Int) := by push_cast; ring
    rw [if_neg h, hu, breadLoop_ret hall hm.blocksize_pos.le, hB, hc2]
    have hd := breadLoop_plain hm hc hall hp hlen
    constructor
    · rintro ⟨hr, -⟩
      obtain ⟨q, -, -, h3⟩ := sgn32_cases ((n * B : Nat) : Int)
      rw [hr] at h3
      refine ⟨by exact_mod_cast h3, ?_⟩
      rcases not_and_or.mp h with h1 | h1
      · exact Or.inr (not_lt.mp h1)
      · exact Or.inl (not_le.mp h1)
    · rintro ⟨hr, -⟩
      refine ⟨?_, hd⟩
      rw [sgn32_of_range (by omega) (by omega)]

/-- block 12 of the small root -/
theorem ext2_breadi_small : BlockByBlock smallMachine 0 12 1 smallOpened := by
  have hp : PlainPtrs smallMachine smallOpened 0 := by
    have hs : ∀ k : Fin 15, Plain ((smallOpened.inode_table 0).inode.le32 (40 + 4 * k.val)) := by
      decide +kernel
    have hi : ∀ k : Fin 256, Plain ((diskBlock smallMachine smallOpened
        ((smallOpened.inode_table 0).inode.le32 88)).le32 (4 * k.val)) := by decide +kernel
    have hn : ptrs smallOpened = 256 := by decide +kernel
    have hz : (smallOpened.inode_table 0).inode.le32 92 = 0 := by decide +kernel
    exact ⟨fun k hk => hs ⟨k, hk⟩, fun _ k hk => hi ⟨k, by rw [hn] at hk; exact hk⟩,
      fun h => absurd hz h, fun h => absurd hz h⟩
  obtain ⟨hm, hc⟩ := smallOpened_running.mounted
  exact (ext2_breadi_iff smallMachine smallOpened hm hc (fun _ _ _ => rfl) 0 (by decide +kernel) hp
    12 1 (by decide +kernel)).mpr (by decide +kernel)

/-- the small file system, with a file of 4294967295 bytes that has no blocks -/
def hugeDisk (x : Int) : UInt8 :=
  if 5252 ≤ x ∧ x ≤ 5255 then 255 else if x = 5336 then 0 else smallDisk x

def hugeMachine : Machine :=
  Machine.faultless (fun _ x => hugeDisk x) (fun _ _ => 0) [⟨0, 1024, 0⟩]

def hugeMounted : State := (ext2_mount hugeMachine 0 0 0 powerOn).2.2

def hugeOpened : State :=
  ((ext2_open hugeMachine 1 ['/'.toUInt8] hugeMounted).map Prod.snd).getD hugeMounted

theorem hugeOpened_running : Running hugeMachine hugeOpened := by
  have hcall : call hugeMachine (.open 1 ['/'.toUInt8]) hugeMounted = some hugeOpened := by
    have h : (ext2_open hugeMachine 1 ['/'.toUInt8] hugeMounted).isSome = true := by decide +kernel
    obtain ⟨r, hr⟩ := Option.isSome_iff_exists.mp h
    simp only [call, hugeOpened, hr, Option.map_some, Option.getD_some]
  refine ⟨powerOn, 0, 0, 0, rfl, rfl, by decide +kernel, by decide +kernel, ?_⟩
  refine Relation.ReflTransGen.single ⟨_, hcall, by simp, ?_⟩
  show IndexFine _
  decide +kernel

/-- the whole of a file of 4294967295 bytes: the size rounded up is 0, and nothing is delivered -/
theorem ext2_breadi_huge : ¬ ∀ (M : Machine) (s : State), Mounted s → Coh M s →
    AllReads M s.dev → ∀ i : Slot, ¬ hasExtents s i → PlainPtrs M s i →
    ∀ b n : Nat, b + n ≤ fileBlocks s i → BlockByBlock M i b n s := by
  intro hall
  have hp : PlainPtrs hugeMachine hugeOpened 0 := by
    have hs : ∀ k : Fin 15, Plain ((hugeOpened.inode_table 0).inode.le32 (40 + 4 * k.val)) := by
      decide +kernel
    have hz : (hugeOpened.inode_table 0).inode.le32 88 = 0 := by decide +kernel
    have hz' : (hugeOpened.inode_table 0).inode.le32 92 = 0 := by decide +kernel
    exact ⟨fun k hk => hs ⟨k, hk⟩, fun h => absurd hz h, fun h => absurd hz' h,
      fun h => absurd hz' h⟩
  obtain ⟨hm, hc⟩ := hugeOpened_running.mounted
  have h := (hall hugeMachine hugeOpened hm hc (fun _ _ _ => rfl) 0 (by decide +kernel) hp 0 4194304
    (by decide +kernel)).1
  have hne : (ext2_breadi hugeMachine 0 (0 : Nat) (4194304 : Nat) hugeOpened).ret
      ≠ ((4194304 : Nat) : Int) * hugeOpened.blocksize := by decide +kernel
  exact hne h

end Ext2
