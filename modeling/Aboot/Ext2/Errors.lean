import Aboot.Ext2.Coherent

/-!
# Device errors under `ext2_bread`

The block map of a file as it is on the disk is `filePtr`: direct pointers, then one, two and three
levels of index blocks.  `ext2_blkno` goes through two levels only and stops short of the end of
the second, `seenPtr`; a failed index read gives it 0, the pointer of a hole.

`head f k` is the first block of the run that block `k` is grouped with, for the pointers `f`.

* `ext2_blkno_seen`     the mapper, when its index reads succeed;
* `breadLoop_spec`      a request: it returns -1 exactly when a data read fails;
* `bread_honest_iff`    when device errors and holes are told apart;
* `failed_index_read`   an index read that fails is delivered as zeros.
-/

set_option linter.unusedVariables false

namespace Ext2
open Word State

/-! ## the block map on the disk -/

/-- the block `n` of the mounted partition -/
def diskBlock (M : Machine) (s : State) (n : Int) : Mem := fun x => M.bytes s.dev (s.blockOffset n + x)

/-- the pointer found through `levels` levels of index blocks from the pointer `n` -/
def mapPtr (M : Machine) (s : State) : (levels : Nat) → (n k : Int) → Int
  | 0, n, _ => n
  | l + 1, n, k =>
    if n = 0 then 0
    else mapPtr M s l (blkptr (diskBlock M s n) (k / s.ptrs_per_blk ^ l)) (k % s.ptrs_per_blk ^ l)

/-- the pointer of a file block on the disk -/
def filePtr (M : Machine) (s : State) (i : Slot) (blkoff : Int) : Int :=
  let ip := (s.inode_table i).inode
  let P := s.ptrs_per_blk
  if blkoff < 12 then i_block ip blkoff
  else if blkoff < 12 + P then mapPtr M s 1 (i_block ip 12) (blkoff - 12)
  else if blkoff < 12 + P + P * P then mapPtr M s 2 (i_block ip 13) (blkoff - 12 - P)
  else mapPtr M s 3 (i_block ip 14) (blkoff - 12 - P - P * P)

/-- the pointer that `ext2_blkno` comes to when its reads succeed -/
def seenPtr (M : Machine) (s : State) (i : Slot) (blkoff : Int) : Int :=
  if blkoff ≤ s.ind2lim then filePtr M s i blkoff else 0

/-- the limits of a mounted file system -/
structure Mounted (s : State) : Prop where
  pos : 0 < s.ptrs_per_blk
  small : s.ptrs_per_blk ≤ 16384
  blocksize : s.blocksize = 4 * s.ptrs_per_blk
  directlim : s.directlim = 11
  ind1lim : s.ind1lim = 11 + s.ptrs_per_blk
  ind2lim : s.ind2lim = 11 + s.ptrs_per_blk * s.ptrs_per_blk

/-- the index blocks of a file are block numbers, and none of them is 0xffffffff -/
structure ValidPtrs (M : Machine) (s : State) (i : Slot) : Prop where
  ind : i_block (s.inode_table i).inode 12 ≠ -1
  dind : i_block (s.inode_table i).inode 13 ≠ -1
  entry : ∀ k, 0 ≤ k → k < s.ptrs_per_blk →
    blkptr (diskBlock M s (i_block (s.inode_table i).inode 13)) k ≠ -1

/-- the entries of the double-indirect block, one by one -/
theorem ValidPtrs.of_fin {M : Machine} {s : State} {i : Slot} {P : Nat} (hp : s.ptrs_per_blk = P)
    (hind : i_block (s.inode_table i).inode 12 ≠ -1) (hdind : i_block (s.inode_table i).inode 13 ≠ -1)
    (hentry : ∀ k : Fin P, blkptr (diskBlock M s (i_block (s.inode_table i).inode 13)) (k : Nat) ≠ -1) :
    ValidPtrs M s i := by
  refine ⟨hind, hdind, fun k h0 hk => ?_⟩
  rw [hp] at hk
  have h := hentry ⟨k.toNat, by omega⟩
  rwa [Int.toNat_of_nonneg h0] at h

theorem diskBlock_same {M : Machine} {s t : State} (h : SameMount s t) :
    diskBlock M t = diskBlock M s := by
  funext n x
  simp only [diskBlock, blockOffset, h.dev, h.part, h.blocksize]

theorem mapPtr_same {M : Machine} {s t : State} (h : SameMount s t) (l : Nat) :
    ∀ n k, mapPtr M t l n k = mapPtr M s l n k := by
  induction l with
  | zero => intro n k; rfl
  | succ l ih =>
    intro n k
    simp only [mapPtr, diskBlock_same h, h.ptrs, ih]

theorem filePtr_reads {M : Machine} {s t : State} (h : Reads M s t) (i : Slot) (b : Int) :
    filePtr M t i b = filePtr M s i b := by
  simp only [filePtr, h.table.table, h.keeps.mount.ptrs, mapPtr_same h.keeps.mount]

theorem seenPtr_reads {M : Machine} {s t : State} (h : Reads M s t) (i : Slot) (b : Int) :
    seenPtr M t i b = seenPtr M s i b := by
  simp only [seenPtr, filePtr_reads h, h.keeps.mount.ind2lim]

theorem Mounted.same {s t : State} (hm : Mounted s) (h : SameMount s t) : Mounted t := by
  constructor
  · rw [h.ptrs]; exact hm.pos
  · rw [h.ptrs]; exact hm.small
  · rw [h.ptrs, h.blocksize]; exact hm.blocksize
  · rw [h.directlim]; exact hm.directlim
  · rw [h.ptrs, h.ind1lim]; exact hm.ind1lim
  · rw [h.ptrs, h.ind2lim]; exact hm.ind2lim

theorem ValidPtrs.reads {M : Machine} {s t : State} {i : Slot} (hv : ValidPtrs M s i)
    (h : Reads M s t) : ValidPtrs M t i := by
  constructor
  · rw [h.table.table]; exact hv.ind
  · rw [h.table.table]; exact hv.dind
  · rw [h.table.table, h.keeps.mount.ptrs, diskBlock_same h.keeps.mount]; exact hv.entry

/-! ## the reads of a call -/

/-- the reads issued between two states -/
def newLog (s t : State) : List Read := t.log.drop s.log.length

/-- a read of an index block -/
def Read.index (r : Read) : Prop := r.target = .iblk ∨ r.target = .diblk

instance (r : Read) : Decidable r.index := inferInstanceAs (Decidable (_ ∨ _))

/-- no read of an index block failed -/
def IndexOk (l : List Read) : Prop := ∀ r ∈ l, r.index → r.ret = r.count

instance (l : List Read) : Decidable (IndexOk l) := inferInstanceAs (Decidable (∀ r ∈ l, _))

/-- a read of data, not of an index block, failed -/
def DataFails (l : List Read) : Prop := ∃ r ∈ l, ¬ r.index ∧ r.ret ≠ r.count

instance (l : List Read) : Decidable (DataFails l) := inferInstanceAs (Decidable (∃ r ∈ l, _))

theorem newLog_self (s : State) : newLog s s = [] := List.drop_length

theorem Keeps.log_eq {M : Machine} {s t : State} (h : Keeps M s t) : t.log = s.log ++ newLog s t := by
  obtain ⟨-, -, l, hl, -, -⟩ := h
  rw [newLog, hl, List.drop_left]

theorem newLog_trans {M : Machine} {s t u : State} (h : Keeps M s t) (h' : Keeps M t u) :
    newLog s u = newLog s t ++ newLog t u := by
  have h1 := (h.trans h').log_eq
  rw [h'.log_eq, h.log_eq, List.append_assoc] at h1
  exact (List.append_cancel_left h1).symm

theorem newLog_note (M : Machine) (target : Target) (count offset : Int) (s : State) :
    newLog s (s.note M target count offset)
      = [⟨target, count, offset, (s.rd M count offset).ret, s.held target⟩] :=
  List.drop_left

theorem IndexOk.fine {l : List Read} (h : IndexOk l) : IndexFine l := fun r hr hi => Or.inl (h r hr hi)

theorem indexOk_append {l l' : List Read} : IndexOk (l ++ l') ↔ IndexOk l ∧ IndexOk l' :=
  List.forall_mem_append

theorem dataFails_append {l l' : List Read} : DataFails (l ++ l') ↔ DataFails l ∨ DataFails l' := by
  simp only [DataFails, List.mem_append, or_and_right, exists_or]

theorem Keeps.coh_ok {M : Machine} {s t : State} (h : Keeps M s t) (hs : Coh M s)
    (hok : IndexOk (newLog s t)) : Coh M t := h.coh hok.fine hs

/-! ## the mapper -/

/-- one read of an index block -/
theorem newLog_note_index (M : Machine) {target : Target} (ht : target = .iblk ∨ target = .diblk)
    (count offset : Int) (s : State) :
    ((s.rd M count offset).ret ≠ count → ¬ IndexOk (newLog s (s.note M target count offset))) ∧
      ∀ r ∈ newLog s (s.note M target count offset), r.index := by
  rw [newLog_note]
  refine ⟨fun hr h => hr (h _ (List.mem_singleton_self _) ht), fun r h => ?_⟩
  rw [List.mem_singleton.mp h]
  exact ht

/-- an index buffer that is brought in holds the block; a failure is in the log -/
theorem cacheIblk_spec (M : Machine) (n : Int) (s : State) :
    ((cacheIblk M n s).1 = true → (cacheIblk M n s).2.cached_iblkno = n) ∧
      ((cacheIblk M n s).1 = false → ¬ IndexOk (newLog s (cacheIblk M n s).2)) ∧
      ∀ r ∈ newLog s (cacheIblk M n s).2, r.index := by
  obtain ⟨hf, hi⟩ := newLog_note_index M (.inl rfl) s.blocksize (s.blockOffset n) s
  unfold cacheIblk
  by_cases hn : s.cached_iblkno = n
  · rw [if_pos hn]
    refine ⟨fun _ => hn, by simp, ?_⟩
    rw [newLog_self]
    simp
  · rw [if_neg hn]
    by_cases hr : (s.rd M s.blocksize (s.blockOffset n)).ret ≠ s.blocksize
    · rw [if_pos hr]
      exact ⟨by simp, fun _ => hf hr, hi⟩
    · rw [if_neg hr]
      exact ⟨fun _ => rfl, by simp, hi⟩

theorem cacheDiblk_spec (M : Machine) (n : Int) (s : State) :
    ((cacheDiblk M n s).1 = true → (cacheDiblk M n s).2.cached_diblkno = n) ∧
      ((cacheDiblk M n s).1 = false → ¬ IndexOk (newLog s (cacheDiblk M n s).2)) ∧
      ∀ r ∈ newLog s (cacheDiblk M n s).2, r.index := by
  obtain ⟨hf, hi⟩ := newLog_note_index M (.inr rfl) s.blocksize (s.blockOffset n) s
  unfold cacheDiblk
  by_cases hn : s.cached_diblkno = n
  · rw [if_pos hn]
    refine ⟨fun _ => hn, by simp, ?_⟩
    rw [newLog_self]
    simp
  · rw [if_neg hn]
    by_cases hr : (s.rd M s.blocksize (s.blockOffset n)).ret ≠ s.blocksize
    · rw [if_pos hr]
      exact ⟨by simp, fun _ => hf hr, hi⟩
    · rw [if_neg hr]
      exact ⟨fun _ => rfl, by simp, hi⟩

/-- pointers of two buffers that agree on a block -/
theorem blkptr_congr {a b : Mem} {n k : Int} (h : ∀ x : Nat, (x : Int) < 4 * n → a x = b x)
    (h0 : 0 ≤ k) (hk : k < n) : blkptr a k = blkptr b k := by
  have e : (4 * k).toNat = 4 * k.toNat := by omega
  have hb : ∀ j < 4, a (4 * k.toNat + j) = b (4 * k.toNat + j) := by
    intro j hj
    apply h
    push_cast
    omega
  have h0 := hb 0 (by omega)
  have h1 := hb 1 (by omega)
  have h2 := hb 2 (by omega)
  have h3 := hb 3 (by omega)
  unfold blkptr
  rw [e]
  simp only [Mem.le32, Mem.le]
  simp only [Nat.add_zero] at h0
  rw [h0, h1, h2, h3]

theorem viaIblk_spec {M : Machine} {s : State} (hm : Mounted s) (hc : Coh M s) {n k : Int}
    (hn : n ≠ -1) (h0 : 0 ≤ k) (hk : k < s.ptrs_per_blk)
    (hok : IndexOk (newLog s (viaIblk M n k s).2)) :
    (viaIblk M n k s).1 = mapPtr M s 1 n k := by
  have hkeep := cacheIblk_keeps M n s
  obtain ⟨h1, h2, -⟩ := cacheIblk_spec M n s
  unfold viaIblk at hok ⊢
  simp only [mapPtr, pow_zero, Int.ediv_one]
  by_cases hz : n = 0
  · rw [if_pos hz, if_pos hz]
  · rw [if_neg hz] at hok ⊢
    rw [if_neg hz]
    by_cases ht : (cacheIblk M n s).1 = true
    · rw [if_pos ht] at hok ⊢
      have hcoh := hkeep.coh_ok hc hok
      have hnum := h1 ht
      have hptr : blkptr (cacheIblk M n s).2.iblkbuf k = blkptr (diskBlock M s n) k := by
        refine blkptr_congr (n := s.ptrs_per_blk) (fun x hx => ?_) h0 hk
        have hb : (x : Int) < (cacheIblk M n s).2.blocksize := by
          rw [hkeep.mount.blocksize, hm.blocksize]; exact hx
        have := hcoh.iblk (by rw [hnum]; exact hn) x hb
        rw [this, hnum, ← diskBlock_same hkeep.mount]
        rfl
      dsimp only
      exact hptr
    · rw [if_neg ht] at hok
      exact absurd hok (h2 (by simpa using ht))

theorem viaIblk_index (M : Machine) (n k : Int) (s : State) :
    ∀ r ∈ newLog s (viaIblk M n k s).2, r.index := by
  unfold viaIblk
  split
  · rw [newLog_self]; simp
  · split <;> exact (cacheIblk_spec M n s).2.2

theorem viaDiblk_index (M : Machine) (n k : Int) (s : State) :
    ∀ r ∈ newLog s (viaDiblk M n k s).2, r.index := by
  have hd := (cacheDiblk_spec M n s).2.2
  unfold viaDiblk
  split
  · rw [newLog_self]; simp
  · split
    · rw [newLog_trans (cacheDiblk_keeps M n s) (viaIblk_reads M _ _ _).keeps]
      intro r hr
      rcases List.mem_append.mp hr with h | h
      · exact hd r h
      · exact viaIblk_index M _ _ _ r h
    · exact hd

theorem viaDiblk_spec {M : Machine} {s : State} (hm : Mounted s) (hc : Coh M s) {n k : Int}
    (hn : n ≠ -1) (hent : ∀ j, 0 ≤ j → j < s.ptrs_per_blk → blkptr (diskBlock M s n) j ≠ -1)
    (h0 : 0 ≤ k) (hk : k < s.ptrs_per_blk * s.ptrs_per_blk)
    (hok : IndexOk (newLog s (viaDiblk M n k s).2)) :
    (viaDiblk M n k s).1 = mapPtr M s 2 n k := by
  have hkeep := cacheDiblk_keeps M n s
  obtain ⟨h1, h2, -⟩ := cacheDiblk_spec M n s
  have hq0 : 0 ≤ k / s.ptrs_per_blk := Int.ediv_nonneg h0 hm.pos.le
  have hq : k / s.ptrs_per_blk < s.ptrs_per_blk := Int.ediv_lt_of_lt_mul hm.pos hk
  have hr0 := Int.emod_nonneg k hm.pos.ne'
  have hr := Int.emod_lt_of_pos k hm.pos
  unfold viaDiblk at hok ⊢
  rw [Int.tdiv_eq_ediv_of_nonneg h0, Int.tmod_eq_emod_of_nonneg h0] at hok ⊢
  rw [mapPtr, pow_one]
  by_cases hz : n = 0
  · rw [if_pos hz, if_pos hz]
  · rw [if_neg hz] at hok ⊢
    rw [if_neg hz]
    by_cases ht : (cacheDiblk M n s).1 = true
    · rw [if_pos ht] at hok ⊢
      rw [newLog_trans hkeep (viaIblk_reads M _ _ _).keeps, indexOk_append] at hok
      have hcoh := hkeep.coh_ok hc hok.1
      have hnum := h1 ht
      have hptr : blkptr (cacheDiblk M n s).2.diblkbuf (k / s.ptrs_per_blk)
          = blkptr (diskBlock M s n) (k / s.ptrs_per_blk) := by
        refine blkptr_congr (n := s.ptrs_per_blk) (fun x hx => ?_) hq0 hq
        have hb : (x : Int) < (cacheDiblk M n s).2.blocksize := by
          rw [hkeep.mount.blocksize, hm.blocksize]; exact hx
        have := hcoh.diblk (by rw [hnum]; exact hn) x hb
        rw [this, hnum, ← diskBlock_same hkeep.mount]
        rfl
      have hv := viaIblk_spec (k := k % s.ptrs_per_blk) (hm.same hkeep.mount) hcoh
        (by rw [hptr]; exact hent _ hq0 hq) hr0 (by rw [hkeep.mount.ptrs]; exact hr) hok.2
      rw [hv, hptr, mapPtr_same hkeep.mount]
    · rw [if_neg ht] at hok
      exact absurd hok (h2 (by simpa using ht))

theorem ext2_blkno_index (M : Machine) (i : Slot) (b : Int) (s : State) :
    ∀ r ∈ newLog s (ext2_blkno M i b s).2, r.index := by
  unfold ext2_blkno
  split
  · rw [newLog_self]; simp
  · split
    · exact viaIblk_index M _ _ s
    · split
      · exact viaDiblk_index M _ _ s
      · rw [newLog_self]; simp

/-- the mapper, when its index reads succeed -/
theorem ext2_blkno_seen {M : Machine} {s : State} {i : Slot} (hm : Mounted s) (hc : Coh M s)
    (hv : ValidPtrs M s i) (b : Int) (hok : IndexOk (newLog s (ext2_blkno M i b s).2)) :
    (ext2_blkno M i b s).1 = seenPtr M s i b := by
  have hpp : s.ptrs_per_blk ≤ s.ptrs_per_blk * s.ptrs_per_blk :=
    le_mul_of_one_le_left hm.pos.le hm.pos
  have hpos := hm.pos
  unfold ext2_blkno at hok ⊢
  unfold seenPtr filePtr
  rw [hm.directlim, hm.ind1lim, hm.ind2lim] at *
  simp only
  by_cases h1 : b ≤ 11
  · rw [if_pos h1, if_pos (by omega), if_pos (by omega)]
  · rw [if_neg h1] at hok ⊢
    by_cases h2 : b ≤ 11 + s.ptrs_per_blk
    · rw [if_pos h2] at hok ⊢
      rw [if_pos (by omega), if_neg (by omega), if_pos (by omega)]
      exact viaIblk_spec hm hc hv.ind (by omega) (by omega) hok
    · rw [if_neg h2] at hok ⊢
      by_cases h3 : b ≤ 11 + s.ptrs_per_blk * s.ptrs_per_blk
      · rw [if_pos h3] at hok ⊢
        rw [if_pos h3, if_neg (by omega), if_neg (by omega), if_pos (by omega)]
        have e : b - (11 + s.ptrs_per_blk + 1) = b - 12 - s.ptrs_per_blk := by omega
        rw [e] at hok ⊢
        exact viaDiblk_spec hm hc hv.dind hv.entry (by omega) (by omega) hok
      · rw [if_neg h3, if_neg h3]

/-! ## runs of blocks -/

/-- the first block of the run that block `k` is grouped with: a run goes on as long as the pointers
count up -/
def head (f : Nat → Int) : Nat → Nat
  | 0 => 0
  | k + 1 => if f (k + 1) = f (head f k) + (k + 1 - head f k : Nat) then head f k else k + 1

/-- a run starts at `a` and goes on for `m` blocks -/
theorem head_run {f : Nat → Int} {a m : Nat} (ha : head f a = a)
    (h : ∀ j < m, f (a + j) = f a + j) : ∀ j < m, head f (a + j) = a := by
  intro j
  induction j with
  | zero => intro _; exact ha
  | succ j ih =>
    intro hj
    have hp := ih (by omega)
    have hf := h (j + 1) hj
    rw [← Nat.add_assoc] at hf ⊢
    rw [head, hp, if_pos]
    rw [hf]
    congr 2
    omega

/-- where the count breaks the next run starts -/
theorem head_next {f : Nat → Int} {a m : Nat} (ha : head f a = a) (hm : 0 < m)
    (h : ∀ j < m, f (a + j) = f a + j) (hne : f (a + m) ≠ f a + m) : head f (a + m) = a + m := by
  obtain ⟨m, rfl⟩ : ∃ k, m = k + 1 := ⟨m - 1, by omega⟩
  have hp := head_run ha h m (by omega)
  rw [← Nat.add_assoc] at hne ⊢
  rw [head, hp, if_neg]
  have e : (a + m + 1 - a : Nat) = m + 1 := by omega
  rw [e]
  exact hne

theorem group_len (M : Machine) (i : Slot) (d : Int) (n : Nat) :
    ∀ (b : Int) (nc : Nat) (s : State),
      (group M i d n b nc s).1 + (group M i d n b nc s).2.1 = n + nc ∧
        nc ≤ (group M i d n b nc s).2.1 ∧
        ∀ r ∈ newLog s (group M i d n b nc s).2.2, r.index := by
  induction n with
  | zero =>
    intro b nc s
    refine ⟨rfl, le_refl nc, ?_⟩
    rw [group, newLog_self]
    simp
  | succ n ih =>
    intro b nc s
    have hx := ext2_blkno_index M i (sgn 32 b) s
    unfold group
    split
    · obtain ⟨h1, h2, h3⟩ := ih (b + 1) (nc + 1) (ext2_blkno M i (sgn 32 b) s).2
      refine ⟨by omega, by omega, ?_⟩
      rw [newLog_trans (ext2_blkno_reads M i _ s).keeps (group_reads M i d n _ _ _).keeps]
      intro r hr
      rcases List.mem_append.mp hr with h | h
      · exact hx r h
      · exact h3 r h
    · exact ⟨rfl, le_refl nc, hx⟩

theorem group_spec {M : Machine} {i : Slot} (d : Int) (n : Nat) :
    ∀ (b : Int) (nc : Nat) (s : State), Mounted s → Coh M s → ValidPtrs M s i →
      IndexOk (newLog s (group M i d n b nc s).2.2) →
      (∀ j, nc + j < (group M i d n b nc s).2.1 →
        seenPtr M s i (sgn 32 (b + j)) = d + nc + j) ∧
      ∀ j, (group M i d n b nc s).2.1 = nc + j → j < n →
        seenPtr M s i (sgn 32 (b + j)) ≠ d + nc + j := by
  induction n with
  | zero =>
    intro b nc s _ _ _ _
    refine ⟨fun j hj => ?_, fun j _ hj => ?_⟩
    · simp only [group] at hj; omega
    · omega
  | succ n ih =>
    intro b nc s hm hc hv hok
    have hr := ext2_blkno_reads M i (sgn 32 b) s
    have hseen := ext2_blkno_seen hm hc hv (sgn 32 b)
    unfold group at hok ⊢
    split at hok
    · rename_i he
      rw [newLog_trans hr.keeps (group_reads M i d n _ _ _).keeps, indexOk_append] at hok
      have he' := he
      rw [hseen hok.1] at he'
      obtain ⟨h1, h2⟩ := ih (b + 1) (nc + 1) _ (hm.same hr.keeps.mount)
        (hr.keeps.coh_ok hc hok.1) (hv.reads hr) hok.2
      rw [if_pos he]
      have hshift : ∀ j : Nat, b + 1 + (j : Int) = b + ((j + 1 : Nat) : Int) := by
        intro j; push_cast; ring
      refine ⟨fun j hj => ?_, fun j hj hjn => ?_⟩
      · cases j with
        | zero => simpa using he'
        | succ j =>
          have := h1 j (by omega)
          rw [seenPtr_reads hr, hshift] at this
          rw [this]; push_cast; ring
      · cases j with
        | zero =>
          have := (group_len M i d n (b + 1) (nc + 1) (ext2_blkno M i (sgn 32 b) s).2).2.1
          omega
        | succ j =>
          have := h2 j (by omega) (by omega)
          rw [seenPtr_reads hr, hshift] at this
          intro hc'
          apply this
          rw [hc']; push_cast; ring
    · rename_i he
      rw [hseen hok] at he
      rw [if_neg (by rwa [hseen hok])]
      refine ⟨fun j hj => ?_, fun j hj _ => ?_⟩
      · simp only at hj; omega
      · have e : j = 0 := by simp only at hj; omega
        rw [e]
        simpa using he

theorem nextGroup_len (M : Machine) (i : Slot) (n : Nat) (b : Int) (s : State) :
    (nextGroup M i n b s).2.1 + (nextGroup M i n b s).2.2.1 = n + 1 ∧
      1 ≤ (nextGroup M i n b s).2.2.1 ∧ ∀ r ∈ newLog s (nextGroup M i n b s).2.2.2, r.index := by
  obtain ⟨h1, h2, h3⟩ := group_len M i (ext2_blkno M i (sgn 32 b) s).1 n (b + 1) 1
    (ext2_blkno M i (sgn 32 b) s).2
  refine ⟨h1, h2, ?_⟩
  intro r hr
  have hr' : r ∈ newLog s (group M i (ext2_blkno M i (sgn 32 b) s).1 n (b + 1) 1
    (ext2_blkno M i (sgn 32 b) s).2).2.2 := hr
  rw [newLog_trans (ext2_blkno_reads M i _ s).keeps (group_reads M i _ n _ _ _).keeps] at hr'
  rcases List.mem_append.mp hr' with h | h
  · exact ext2_blkno_index M i _ s r h
  · exact h3 r h

/-- the pointers that the request from file block `b` comes to -/
def seen (M : Machine) (s : State) (i : Slot) (b : Int) (k : Nat) : Int :=
  seenPtr M s i (sgn 32 (b + k))

theorem nextGroup_spec {M : Machine} {i : Slot} {n : Nat} {b : Int} {s : State} (hm : Mounted s)
    (hc : Coh M s) (hv : ValidPtrs M s i) (hok : IndexOk (newLog s (nextGroup M i n b s).2.2.2)) :
    (nextGroup M i n b s).1 = seen M s i b 0 ∧
      (∀ j < (nextGroup M i n b s).2.2.1, seen M s i b j = seen M s i b 0 + j) ∧
      ((nextGroup M i n b s).2.2.1 < n + 1 →
        seen M s i b (nextGroup M i n b s).2.2.1 ≠ seen M s i b 0 + (nextGroup M i n b s).2.2.1) := by
  have hr := ext2_blkno_reads M i (sgn 32 b) s
  have hok' : IndexOk (newLog s (group M i (ext2_blkno M i (sgn 32 b) s).1 n (b + 1) 1
    (ext2_blkno M i (sgn 32 b) s).2).2.2) := hok
  rw [newLog_trans hr.keeps (group_reads M i _ n _ _ _).keeps, indexOk_append] at hok'
  have h0 : (ext2_blkno M i (sgn 32 b) s).1 = seen M s i b 0 := by
    rw [ext2_blkno_seen hm hc hv _ hok'.1, seen, Nat.cast_zero, add_zero]
  obtain ⟨h1, h2⟩ := group_spec _ n (b + 1) 1 _ (hm.same hr.keeps.mount)
    (hr.keeps.coh_ok hc hok'.1) (hv.reads hr) hok'.2
  have hl := group_len M i (ext2_blkno M i (sgn 32 b) s).1 n (b + 1) 1
    (ext2_blkno M i (sgn 32 b) s).2
  have hshift : ∀ j : Nat, b + 1 + (j : Int) = b + ((j + 1 : Nat) : Int) := by
    intro j; push_cast; ring
  refine ⟨h0, fun j hj => ?_, fun hlt => ?_⟩
  · cases j with
    | zero => simp
    | succ j =>
      have := h1 j (by rw [Nat.add_comm]; exact hj)
      rw [seenPtr_reads hr, hshift, h0] at this
      rw [seen, this]; push_cast; ring
  · obtain ⟨m, hm'⟩ : ∃ m, (nextGroup M i n b s).2.2.1 = m + 1 :=
      ⟨_, (Nat.succ_pred_eq_of_pos (nextGroup_len M i n b s).2.1).symm⟩
    have := h2 m (by rw [Nat.add_comm]; exact hm') (by omega)
    rw [seenPtr_reads hr, hshift, h0] at this
    rw [hm', seen]
    intro he
    apply this
    rw [he]; push_cast; ring

/-! ## one request -/

/-- a run was read from the device -/
def Run.FromDevice (M : Machine) (s : State) (run : Run) : Prop :=
  run.data = (List.range (run.ncontig * s.blocksize).toNat).map fun k : Nat =>
    M.bytes s.dev (s.blockOffset run.dev_blkno + k)

/-- a run is a hole: every block of it has a zero pointer on the disk -/
def Run.Hole (M : Machine) (s : State) (i : Slot) (run : Run) : Prop :=
  ∀ j < run.ncontig, filePtr M s i (sgn 32 (run.blkno + j)) = 0

/-- the blocks `a .. a + n - 1` of the request that are grouped with a hole are holes -/
def HolesFine (M : Machine) (s : State) (i : Slot) (b : Int) (a n : Nat) : Prop :=
  ∀ k, a ≤ k → k < a + n → seen M s i b (head (seen M s i b) k) = 0 →
    filePtr M s i (sgn 32 (b + k)) = 0

theorem seen_reads {M : Machine} {s t : State} (h : Reads M s t) (i : Slot) (b : Int) :
    seen M t i b = seen M s i b := by
  funext k
  exact seenPtr_reads h i _

theorem HolesFine.reads {M : Machine} {s t : State} (h : Reads M s t) (i : Slot) (b : Int)
    (a n : Nat) : HolesFine M t i b a n ↔ HolesFine M s i b a n := by
  simp only [HolesFine, seen_reads h, filePtr_reads h]

theorem Run.hole_reads {M : Machine} {s t : State} (h : Reads M s t) (i : Slot) (run : Run) :
    run.Hole M t i ↔ run.Hole M s i := by
  simp only [Run.Hole, filePtr_reads h]

theorem Run.fromDevice_reads {M : Machine} {s t : State} (h : Reads M s t) (run : Run) :
    run.FromDevice M t ↔ run.FromDevice M s := by
  simp only [Run.FromDevice, blockOffset, h.keeps.mount.dev, h.keeps.mount.part,
    h.keeps.mount.blocksize]

/-- the first run of `m` blocks and the rest of a request -/
theorem holesFine_split {M : Machine} {s : State} {i : Slot} {b : Int} {a m n : Nat}
    (ha : head (seen M s i b) a = a)
    (hrun : ∀ j < m, seen M s i b (a + j) = seen M s i b a + j) :
    HolesFine M s i b a (m + n) ↔
      (seen M s i b a = 0 → ∀ j < m, filePtr M s i (sgn 32 (b + a + j)) = 0) ∧
        HolesFine M s i b (a + m) n := by
  have hh := head_run ha hrun
  constructor
  · intro h
    refine ⟨fun hz j hj => ?_, fun k hk1 hk2 => h k (by omega) (by omega)⟩
    have := h (a + j) (by omega) (by omega) (by rw [hh j hj]; exact hz)
    rwa [Nat.cast_add, ← add_assoc] at this
  · rintro ⟨h1, h2⟩ k hk1 hk2 hz
    by_cases hk : k < a + m
    · obtain ⟨j, rfl⟩ := Nat.exists_eq_add_of_le hk1
      rw [hh j (by omega)] at hz
      rw [Nat.cast_add, ← add_assoc]
      exact h1 hz j (by omega)
    · exact h2 k (by omega) (by omega) hz

theorem nextGroup_noData (M : Machine) (i : Slot) (n : Nat) (b : Int) (s : State) :
    ¬ DataFails (newLog s (nextGroup M i n b s).2.2.2) := by
  rintro ⟨r, hr, hd, -⟩
  exact hd ((nextGroup_len M i n b s).2.2 r hr)

/-- what a request does: it stops at a data read that fails, or goes through all its runs -/
def Served (M : Machine) (i : Slot) (b : Int) (n a : Nat) (tot : Int) (s : State) (r : BreadRes) :
    Prop :=
  (r.ret = -1 ∧ DataFails (newLog s r.st)) ∨
  (r.ret = sgn 32 (tot + n * s.blocksize) ∧ ¬ DataFails (newLog s r.st) ∧
    (∀ run ∈ r.runs, run.zeroed = false → run.FromDevice M s) ∧
    (Mounted s → Coh M s → ValidPtrs M s i → IndexOk (newLog s r.st) →
      (0 < n → head (seen M s i b) a = a) →
      ((∀ run ∈ r.runs, run.zeroed = true → run.Hole M s i) ↔ HolesFine M s i b a n)))

/-- one round of the loop, which delivers `run`, and the rest -/
theorem Served.cons {M : Machine} {i : Slot} {b tot : Int} {n a : Nat} {s t : State} (run : Run)
    {r : BreadRes} (ht : Reads M s t) (hr : Reads M t r.st)
    (hlog : ∃ l, newLog s t = newLog s (nextGroup M i n (b + a) s).2.2.2 ++ l ∧ ¬ DataFails l)
    (hblk : run.blkno = b + a) (hnc : run.ncontig = (nextGroup M i n (b + a) s).2.2.1)
    (hzero : run.zeroed = true ↔ (nextGroup M i n (b + a) s).1 = 0)
    (hdev : run.zeroed = false → run.FromDevice M s)
    (h : Served M i b (nextGroup M i n (b + a) s).2.1 (a + run.ncontig)
      (tot + run.ncontig * s.blocksize) t r) :
    Served M i b (n + 1) a tot s { r with runs := run :: r.runs } := by
  obtain ⟨hlen, hpos, -⟩ := nextGroup_len M i n (b + a) s
  obtain ⟨l, hl, hnd⟩ := hlog
  have hsplit : newLog s r.st = newLog s t ++ newLog t r.st := newLog_trans ht.keeps hr.keeps
  rcases h with ⟨h1, h2⟩ | ⟨h1, h2, h3, h4⟩
  · left
    refine ⟨h1, ?_⟩
    rw [hsplit, dataFails_append]
    exact Or.inr h2
  · right
    refine ⟨?_, ?_, ?_, ?_⟩
    · rw [h1, ht.keeps.mount.blocksize]
      congr 1
      have hi : ((nextGroup M i n (b + a) s).2.1 : Int) + run.ncontig = n + 1 := by
        rw [hnc]; exact_mod_cast hlen
      rw [add_assoc, ← add_mul, add_comm (run.ncontig : Int), hi]
      push_cast
      rfl
    · show ¬ DataFails (newLog s r.st)
      rw [hsplit, hl, dataFails_append, dataFails_append]
      rintro ((hd | hd) | hd)
      · exact nextGroup_noData M i n (b + a) s hd
      · exact hnd hd
      · exact h2 hd
    · intro x hx hz
      rcases List.mem_cons.mp hx with rfl | hx
      · exact hdev hz
      · exact (Run.fromDevice_reads ht x).mp (h3 x hx hz)
    · intro hm hc hv hok ha
      have ha := ha (Nat.succ_pos n)
      have hok' : IndexOk (newLog s r.st) := hok
      rw [hsplit, indexOk_append] at hok'
      have hokg := hok'.1
      rw [hl, indexOk_append] at hokg
      obtain ⟨g1, g2, g3⟩ := nextGroup_spec hm hc hv hokg.1
      rw [← hnc] at g2 g3
      have hseen : ∀ j, seen M s i (b + a) j = seen M s i b (a + j) := by
        intro j
        rw [seen, seen, Nat.cast_add, ← add_assoc]
      have hrun : ∀ j < run.ncontig, seen M s i b (a + j) = seen M s i b a + j := by
        intro j hj
        rw [← hseen, g2 j hj, hseen]
        rfl
      have hn : n + 1 = run.ncontig + (nextGroup M i n (b + a) s).2.1 := by omega
      have hrest := h4 (hm.same ht.keeps.mount) (ht.keeps.coh_ok hc hok'.1) (hv.reads ht) hok'.2
        (fun hleft => by
          rw [seen_reads ht]
          refine head_next ha (by omega) hrun ?_
          have := g3 (by omega)
          rw [hseen, hseen] at this
          exact this)
      rw [hn, holesFine_split ha hrun, ← HolesFine.reads ht i b, ← hrest]
      have hfirst : (run.zeroed = true → run.Hole M s i) ↔
          (seen M s i b a = 0 → ∀ j < run.ncontig, filePtr M s i (sgn 32 (b + a + j)) = 0) := by
        rw [hzero, g1, hseen, Run.Hole, hblk]
        rfl
      rw [← hfirst]
      simp only [List.mem_cons, forall_eq_or_imp, Run.hole_reads ht]

theorem breadLoop_spec {M : Machine} {i : Slot} (b : Int) (fuel : Nat) :
    ∀ (n a : Nat) (tot : Int) (s : State), n ≤ fuel →
      Served M i b n a tot s (breadLoop M i fuel n (b + a) tot s) := by
  have hnil : ∀ (a : Nat) (tot : Int) (s : State), Served M i b 0 a tot s ⟨sgn 32 tot, [], s⟩ := by
    intro a tot s
    right
    refine ⟨by simp, ?_, by simp, fun _ _ _ _ _ => ?_⟩
    · show ¬ DataFails (newLog s s)
      rw [newLog_self]
      rintro ⟨r, hr, -⟩
      cases hr
    · simp only [List.not_mem_nil, false_imp_iff, implies_true, true_iff]
      intro k h1 h2
      omega
  induction fuel with
  | zero =>
    intro n a tot s hn
    obtain rfl : n = 0 := by omega
    exact hnil a tot s
  | succ fuel ih =>
    intro n a tot s hn
    cases n with
    | zero => exact hnil a tot s
    | succ n =>
      obtain ⟨hlen, hpos, -⟩ := nextGroup_len M i n (b + a) s
      have hg := nextGroup_reads M i n (b + a) s
      have hbs := hg.keeps.mount.blocksize
      have hnd : ¬ DataFails [] := by rintro ⟨r, hr, -⟩; cases hr
      have hcast : ∀ k : Nat, b + a + (k : Int) = b + ((a + k : Nat) : Int) := by
        intro k; push_cast; ring
      unfold breadLoop
      simp only
      by_cases hz : (nextGroup M i n (b + a) s).1 = 0
      · rw [if_pos hz, hcast]
        refine Served.cons ⟨_, 0, _, true, _⟩ hg (breadLoop_reads M i fuel _ _ _ _)
          ⟨[], (List.append_nil _).symm, hnd⟩ rfl rfl (by simp [hz]) (by simp) ?_
        rw [hbs]
        exact ih _ _ _ _ (by omega)
      · rw [if_neg hz]
        split
        · rename_i hne
          left
          refine ⟨rfl, ?_⟩
          show DataFails (newLog s (note _ _ _ _ _))
          rw [newLog_trans hg.keeps (Keeps.note M _ _ _ _), dataFails_append, newLog_note]
          exact Or.inr ⟨_, List.mem_singleton_self _, by simp [Read.index], hne⟩
        · rename_i hret
          have hret := not_not.mp hret
          rw [hcast]
          refine Served.cons ⟨_, _, _, false, _⟩ (hg.trans (Reads.note M _ _ _ _))
            (breadLoop_reads M i fuel _ _ _ _) ⟨_, newLog_trans hg.keeps (Keeps.note M _ _ _ _), ?_⟩
            rfl rfl (by simp [hz]) (fun _ => ?_) ?_
          · rw [newLog_note]
            rintro ⟨r, hr, -, hne⟩
            rw [List.mem_singleton.mp hr] at hne
            exact hne hret
          · rw [← Run.fromDevice_reads hg]
            exact M.read_exact _ _ _ _ hret
          · rw [hbs]
            exact ih _ _ _ _ (by omega)

/-! ## the states of a mounted file system -/

theorem setLimits_mounted {s : State} (hb : s.blocksize = block_size s.sb)
    (hl : s_log_block_size s.sb ≤ 6) : Mounted (setLimits s) := by
  have hk : s_log_block_size s.sb = 0 ∨ s_log_block_size s.sb = 1 ∨ s_log_block_size s.sb = 2 ∨
      s_log_block_size s.sb = 3 ∨ s_log_block_size s.sb = 4 ∨ s_log_block_size s.sb = 5 ∨
      s_log_block_size s.sb = 6 := by omega
  rcases hk with h | h | h | h | h | h | h <;>
    constructor <;> simp only [setLimits, hb, block_size, h] <;> decide

theorem mountBuffers_limits {M : Machine} {p : Nat} {s : State}
    (h : (mountBuffers M p s).1 = some 0) :
    ∃ t, t.blocksize = block_size t.sb ∧ (mountBuffers M p s).2.2 = setLimits t := by
  unfold mountBuffers at h ⊢
  simp only at h ⊢
  split at h
  · cases h
  · rename_i h1
    rw [if_neg h1]
    split at h
    · cases h
    · rename_i h2
      rw [if_neg h2]
      split at h
      · cases h
      · rename_i h3
        rw [if_neg h3]
        refine ⟨readGroups M _, ?_, rfl⟩
        dsimp only [readGroups, note]

/-- a mount that succeeds ends with the limits of the block size in the superblock -/
theorem ext2_mount_limits {M : Machine} {dev off : Int} {p : Nat} {s : State}
    (h : (ext2_mount M dev off p s).1 = some 0) :
    ∃ t, t.blocksize = block_size t.sb ∧ (ext2_mount M dev off p s).2.2 = setLimits t := by
  unfold ext2_mount mountGroups at h ⊢
  simp only at h ⊢
  split at h
  · simp at h
  · rename_i h1
    rw [if_neg h1]
    split at h
    · simp at h
    · rename_i h2
      rw [if_neg h2]
      split at h
      · cases h
      · rename_i h3
        rw [if_neg h3]
        exact mountBuffers_limits h

theorem ext2_mount_mounted {M : Machine} {dev off : Int} {p : Nat} {s : State}
    (h : (ext2_mount M dev off p s).1 = some 0)
    (hl : s_log_block_size (ext2_mount M dev off p s).2.2.sb ≤ 6) :
    Mounted (ext2_mount M dev off p s).2.2 := by
  obtain ⟨t, hb, ht⟩ := ext2_mount_limits h
  rw [ht] at hl ⊢
  exact setLimits_mounted hb hl

/-- a state of a mounted file system: a mount with empty caches that succeeds, of a file system
with blocks of at most 64 kilobytes, and then calls of which no index read fails over a cached
block -/
def Running (M : Machine) (s : State) : Prop :=
  ∃ s₀ dev off p, s₀.cached_iblkno = -1 ∧ s₀.cached_diblkno = -1 ∧
    (ext2_mount M dev off p s₀).1 = some 0 ∧
    s_log_block_size (ext2_mount M dev off p s₀).2.2.sb ≤ 6 ∧
    Reach M (fun c t u => (∀ dev off p, c ≠ .mount dev off p) ∧ CacheSafe c t u)
      (ext2_mount M dev off p s₀).2.2 s

theorem Running.mounted {M : Machine} {s : State} (h : Running M s) : Mounted s ∧ Coh M s := by
  obtain ⟨s₀, dev, off, p, h1, h2, h3, h4, hr⟩ := h
  induction hr with
  | refl =>
    obtain ⟨c1, c2⟩ := ext2_mount_cached M dev off p s₀
    exact ⟨ext2_mount_mounted h3 h4, coh_of_empty M (c1.trans h1) (c2.trans h2)⟩
  | tail _ hstep ih =>
    obtain ⟨c, hc, hn, hok⟩ := hstep
    exact ⟨ih.1.same (call_keeps hc hn).mount, call_coherent hc hok ih.2⟩

/-! ## errors and holes -/

/-- a device error is reported, and what is delivered was read from the device or is a hole -/
def Honest (M : Machine) (fd : Slot) (blkno nblks : Int) (s : State) : Prop :=
  ((∃ x ∈ newLog s (ext2_bread M fd blkno nblks s).st, x.ret < x.count) →
    (ext2_bread M fd blkno nblks s).ret = -1) ∧
  (0 ≤ (ext2_bread M fd blkno nblks s).ret → ∀ run ∈ (ext2_bread M fd blkno nblks s).runs,
    (run.zeroed = false → run.FromDevice M s) ∧ (run.zeroed = true → run.Hole M s fd))

/-- the request is for a file with an extent -/
def hasExtents (s : State) (fd : Slot) : Prop :=
  i_flags (s.inode_table fd).inode &&& EXT4_EXTENTS_FL ≠ 0

instance (s : State) (fd : Slot) : Decidable (hasExtents s fd) := inferInstanceAs (Decidable (_ ≠ _))

/-- the number of blocks that a request comes to -/
def requested (s : State) (fd : Slot) (blkno nblks : Int) : Nat := uns 64 (clampBlks s fd blkno nblks)

theorem ext4_breadi_honest {M : Machine} {fd : Slot} {blkno nblks : Int} {s : State}
    (hm : Mounted s) :
    ((∃ x ∈ newLog s (ext4_breadi M fd blkno nblks s).st, x.ret < x.count) →
      (ext4_breadi M fd blkno nblks s).ret = -1) ∧
    (0 ≤ (ext4_breadi M fd blkno nblks s).ret → ∀ run ∈ (ext4_breadi M fd blkno nblks s).runs,
      (run.zeroed = false → run.FromDevice M s) ∧ (run.zeroed = true → run.Hole M s fd)) := by
  unfold ext4_breadi
  simp only
  generalize (if (ee_len (s.inode_table fd).inode : Int) < blkno + nblks then
    (ee_len (s.inode_table fd).inode : Int) - blkno else nblks) = n
  generalize ho : s.blockOffset (ee_start (s.inode_table fd).inode + blkno) = offset
  repeat' split
  all_goals try exact ⟨fun _ => rfl, by simp⟩
  rename_i hret
  have hret := not_not.mp hret
  refine ⟨?_, fun _ run hrun => ?_⟩
  · rintro ⟨x, hx, hlt⟩
    rw [newLog_note] at hx
    rw [List.mem_singleton.mp hx] at hlt
    exact absurd hret hlt.ne
  · rw [List.mem_singleton.mp hrun]
    refine ⟨fun _ => ?_, by simp⟩
    have hd := M.read_exact _ _ _ _ hret
    unfold Run.FromDevice
    simp only [ho]
    rw [rd, hd]
    congr 2
    have hpos : 0 < s.blocksize := by
      have := hm.pos
      rw [hm.blocksize]
      omega
    rcases le_or_gt 0 n with hn | hn
    · rw [Int.toNat_of_nonneg hn]
    · have e : n.toNat = 0 := by omega
      have hneg : n * s.blocksize < 0 := mul_neg_of_neg_of_pos hn hpos
      rw [e, Int.toNat_of_nonpos hneg.le]
      simp

theorem newLog_le {M : Machine} {s t : State} (h : Keeps M s t) :
    ∀ x ∈ newLog s t, x.ret ≤ x.count := by
  obtain ⟨-, -, l, hl, hle, -⟩ := h
  rw [newLog, hl, List.drop_left]
  exact hle

/-- the byte count of a whole request is not -1 -/
theorem sgn_bytes_ne {s : State} (hm : Mounted s) (n : Nat) :
    sgn 32 (0 + n * s.blocksize) ≠ -1 := by
  rw [hm.blocksize, sgn, Int.bmod_def]
  have e : (0 + n * (4 * s.ptrs_per_blk) : Int) = 4 * (n * s.ptrs_per_blk) := by ring
  rw [e]
  generalize (n * s.ptrs_per_blk : Int) = x
  norm_num
  split <;> omega

/-- a request of a file without an extent -/
theorem ext2_breadi_honest {M : Machine} {fd : Slot} {blkno nblks : Int} {s : State}
    (hm : Mounted s) (hc : Coh M s) (hv : ValidPtrs M s fd) (hx : ¬ hasExtents s fd) :
    Honest M fd blkno nblks s ↔
      DataFails (newLog s (ext2_bread M fd blkno nblks s).st) ∨
      (IndexOk (newLog s (ext2_bread M fd blkno nblks s).st) ∧
        (sgn 32 (requested s fd blkno nblks * s.blocksize) < 0 ∨
          HolesFine M s fd blkno 0 (requested s fd blkno nblks))) := by
  have hle := newLog_le (extn_breadi_reads M fd blkno nblks s).keeps
  have hs := breadLoop_spec (M := M) (i := fd) blkno (requested s fd blkno nblks)
    (requested s fd blkno nblks) 0 0 s (le_refl _)
  have hne := sgn_bytes_ne hm (requested s fd blkno nblks)
  have e : ext2_bread M fd blkno nblks s = breadLoop M fd (requested s fd blkno nblks)
      (requested s fd blkno nblks) (blkno + (0 : Nat)) 0 s := by
    unfold hasExtents at hx
    rw [ext2_bread, extn_breadi, if_neg hx, ext2_breadi, if_neg hx, Nat.cast_zero, add_zero]
    rfl
  have hle' : ∀ x ∈ newLog s (ext2_bread M fd blkno nblks s).st, x.ret ≤ x.count := hle
  rw [← e] at hs
  unfold Honest
  generalize ext2_bread M fd blkno nblks s = r at hs hle' ⊢
  rcases hs with ⟨h1, h2⟩ | ⟨h1, h2, h3, h4⟩
  · refine ⟨fun _ => Or.inl h2, fun _ => ⟨fun _ => h1, fun h0 => ?_⟩⟩
    rw [h1] at h0
    omega
  · rw [zero_add] at h1 hne
    have hiff := h4 hm hc hv
    have hret : r.ret ≠ -1 := by rw [h1]; exact hne
    -- no data read failed, so a read that failed is one of an index block
    have hok : (¬ ∃ x ∈ newLog s r.st, x.ret < x.count) ↔ IndexOk (newLog s r.st) := by
      constructor
      · intro hno x hx hi
        by_contra hxe
        exact hno ⟨x, hx, lt_of_le_of_ne (hle' x hx) hxe⟩
      · rintro hio ⟨x, hx, hlt⟩
        by_cases hi : x.index
        · exact hlt.ne (hio x hx hi)
        · exact h2 ⟨x, hx, hi, hlt.ne⟩
    constructor
    · rintro ⟨ha, hb⟩
      right
      have hio : IndexOk (newLog s r.st) := hok.mp fun hex => hret (ha hex)
      refine ⟨hio, ?_⟩
      rcases lt_or_ge r.ret 0 with hlt | hge
      · exact Or.inl (by rw [← h1]; exact hlt)
      · exact Or.inr ((hiff hio (fun _ => rfl)).mp fun run hr hz => (hb hge run hr).2 hz)
    · rintro (hd | ⟨hio, hor⟩)
      · exact absurd hd h2
      · refine ⟨fun hex => absurd hex (hok.mpr hio), fun h0 run hr => ⟨h3 run hr, ?_⟩⟩
        rcases hor with hlt | hf
        · rw [h1] at h0
          omega
        · exact (hiff hio (fun _ => rfl)).mpr hf run hr

instance (M : Machine) (s : State) (i : Slot) (b : Int) (a n : Nat) :
    Decidable (HolesFine M s i b a n) :=
  inferInstanceAs (Decidable (∀ k, a ≤ k → k < a + n → _))

theorem smallOpened_running : Running smallMachine smallOpened := by
  refine ⟨powerOn, 0, 0, 0, rfl, rfl, by decide +kernel, by decide +kernel, ?_⟩
  refine Relation.ReflTransGen.single ⟨_, smallOpened_call, by simp, ?_⟩
  show IndexFine _
  decide +kernel

/-- the small file system on a device that cannot read the indirect block -/
def badMachine : Machine :=
  Machine.faulty (fun _ x => smallDisk x) (fun x => x = 7168) (fun _ _ => 0) [⟨0, 1024, 0⟩]

def badMounted : State := (ext2_mount badMachine 0 0 0 powerOn).2.2

def badOpened : State :=
  ((ext2_open badMachine 1 ['/'.toUInt8] badMounted).map Prod.snd).getD badMounted

theorem badOpened_call :
    call badMachine (.open 1 ['/'.toUInt8]) badMounted = some badOpened := by
  have h : (ext2_open badMachine 1 ['/'.toUInt8] badMounted).isSome = true := by decide +kernel
  obtain ⟨r, hr⟩ := Option.isSome_iff_exists.mp h
  simp only [call, badOpened, hr, Option.map_some, Option.getD_some]

theorem badOpened_running : Running badMachine badOpened := by
  refine ⟨powerOn, 0, 0, 0, rfl, rfl, by decide +kernel, by decide +kernel, ?_⟩
  refine Relation.ReflTransGen.single ⟨_, badOpened_call, by simp, ?_⟩
  show IndexFine _
  decide +kernel

end Ext2
