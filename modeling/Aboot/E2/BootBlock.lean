import Aboot.E2.Cache

/-!
# The boot block over the block buffers

`ext2_write_bootblock` is a `bwrite` of block 0.  A buffer that was never used has block number 0
as well, and `bwrite` takes it for the buffer of the block: it has no data area, and the copy
follows a null pointer.

* `NoZero`        the buffers with block number 0 are the unused ones;
* `run_held`      what a run of calls on other blocks keeps;
* `bootblock_of_used`, `bootblock_unused`   a boot block with and without such a buffer;
* `bootblock_iff` when the boot block reaches the device.
-/

set_option linter.unusedVariables false

namespace Bio

/-- a buffer with block number 0 was never used -/
def NoZero (s : State) : Prop := ∀ i, (s.buflist i).blkno = 0 → (s.buflist i).data = none

theorem binit_noZero (blocksize : Nat) (s : State) : NoZero (binit blocksize s) :=
  fun _ _ => rfl

theorem NoZero.bump {s : State} (h : NoZero s) (i : Fin NBUFS) : NoZero (bump i s) := by
  intro j hj
  obtain ⟨h1, -, h3⟩ := bump_buf i j s
  rw [h1] at hj
  rw [h3]
  exact h j hj

theorem NoZero.writeOut {s : State} (h : NoZero s) (i : Fin NBUFS) : NoZero (writeOut i s) := by
  intro j
  rw [writeOut_buflist]
  by_cases e : j = i
  · rw [e, Function.update_self]
    exact h i
  · rw [Function.update_of_ne e]
    exact h j

/-- one buffer takes over a block from 1 on -/
theorem NoZero.update {s t : State} (h : NoZero s) {i : Fin NBUFS} {b : Buf}
    (hbuf : t.buflist = Function.update s.buflist i b) (hb : b.blkno ≠ 0) : NoZero t := by
  intro j hj
  rw [hbuf] at hj ⊢
  by_cases e : j = i
  · rw [e, Function.update_self] at hj
    exact absurd hj hb
  · rw [Function.update_of_ne e] at hj ⊢
    exact h j hj

theorem bread_noZero {s t : State} (h : NoZero s) {n : Nat} (hn : 1 ≤ n) {d : List UInt8}
    (hx : bread n s = some (d, t)) : NoZero t := by
  have hn0 : (n : Int) ≠ 0 := by omega
  unfold bread at hx
  cases hl : lookup s n with
  | some i =>
    rw [hl] at hx
    cases hd : (s.buflist i).data with
    | none =>
      simp only [hd] at hx
      cases hx
    | some v =>
      simp only [hd] at hx
      rw [← (Prod.mk.inj (Option.some.inj hx)).2]
      exact h.bump i
  | none =>
    rw [hl] at hx
    have ht : (fillBuf (lowcount_buf s) n (recycle n s)).2 = t := congrArg Prod.snd (Option.some.inj hx)
    rw [← ht]
    apply (h.writeOut (lowcount_buf s)).update (i := lowcount_buf s)
    · rw [(fillBuf_eq _ _ _).2.2.2]
      show Function.update (Function.update _ _ _) _ _ = _
      rw [Function.update_idem]
    · simpa [recycle, assign] using hn0

theorem bwrite_noZero {s t : State} (h : NoZero s) {n : Nat} (hn : 1 ≤ n) {d : List UInt8}
    (hx : bwrite n d s = some t) : NoZero t := by
  have hn0 : (n : Int) ≠ 0 := by omega
  unfold bwrite at hx
  cases hl : lookup s n with
  | some i =>
    rw [hl] at hx
    cases hd : (s.buflist i).data with
    | none =>
      simp only [hd] at hx
      cases hx
    | some v =>
      simp only [hd] at hx
      rw [← Option.some.inj hx]
      refine (h.bump i).update (i := i) rfl ?_
      show ((bump i s).buflist i).blkno ≠ 0
      rwa [(bump_buf i i s).1, lookup_some hl]
  | none =>
    rw [hl] at hx
    rw [← Option.some.inj hx]
    apply (h.writeOut (lowcount_buf s)).update (i := lowcount_buf s)
    · show Function.update (Function.update (Function.update _ _ _) _ _) _ _ = _
      rw [Function.update_idem, Function.update_idem]
    · show ((bump _ _).buflist _).blkno ≠ 0
      rw [(bump_buf _ _ _).1]
      simpa [recycle, assign] using hn0

theorem bflush_noZero {s : State} (h : NoZero s) : NoZero (bflush s) := by
  have hfold : ∀ (l : List (Fin NBUFS)) (t : State), NoZero t →
      NoZero (l.foldl (fun s i => writeOut i s) t) := by
    intro l
    induction l with
    | nil =>
      intro t ht
      exact ht
    | cons i l ih =>
      intro t ht
      exact ih _ (ht.writeOut i)
  exact hfold _ s h

/-! ## a run of calls on blocks from 1 on -/

theorem step_held {s : State} {a : Nat → List UInt8} (h : Held s a) (hz : NoZero s) (op : Op)
    (hop : op.ok s.bio_blocksize) : ∃ d t, step op s = some (d, t) ∧ Held t (op.apply a) ∧
      NoZero t ∧ t.bio_blocksize = s.bio_blocksize := by
  cases op with
  | bread n =>
    obtain ⟨d, t, ht⟩ := bread_returns h hop.1
    obtain ⟨-, hi, hb⟩ := bread_held h hop.2 ht
    exact ⟨[d], t, by simp [step, ht], hi, bread_noZero hz hop.1 ht, hb⟩
  | bwrite n d =>
    obtain ⟨t, ht⟩ := bwrite_returns h hop.1 d
    obtain ⟨hi, hb⟩ := bwrite_held h hop.2.1 hop.2.2 ht
    exact ⟨[], t, by simp [step, ht], hi, bwrite_noZero hz hop.1 ht, hb⟩
  | bflush =>
    obtain ⟨hi, hb, -, -⟩ := bflush_held h
    exact ⟨[], bflush s, rfl, hi, bflush_noZero hz, hb⟩

theorem run_held (ops : List Op) :
    ∀ (s : State) (a : Nat → List UInt8), Held s a → NoZero s →
      (∀ op ∈ ops, op.ok s.bio_blocksize) → ∃ d t, run ops s = some (d, t) ∧
        Held t (latest a ops) ∧ NoZero t ∧ t.bio_blocksize = s.bio_blocksize := by
  induction ops with
  | nil =>
    intro s a h hz _
    exact ⟨[], s, rfl, h, hz, rfl⟩
  | cons op ops ih =>
    intro s a h hz hok
    obtain ⟨d, u, hu, hui, huz, hub⟩ := step_held h hz op (hok op List.mem_cons_self)
    obtain ⟨d', t, ht, hti, htz, htb⟩ := ih u (op.apply a) hui huz
      (fun op' h' => by rw [hub]; exact hok op' (List.mem_cons_of_mem _ h'))
    refine ⟨d ++ d', t, ?_, hti, htz, htb.trans hub⟩
    simp only [run, hu, ht, Option.map_some]

/-- a run of calls from `binit` on -/
theorem run_binit (blocksize : Nat) (s : State) (ops : List Op) (hops : ∀ op ∈ ops, op.ok blocksize) :
    ∃ d t, run ops (binit blocksize s) = some (d, t) ∧ NoZero t ∧ t.bio_blocksize = blocksize ∧
      Held t (latest (fun b => s.disk.get (b * blocksize) blocksize) ops) := by
  obtain ⟨d, t, ht, hi, hz, hb⟩ := run_held ops _ _ (binit_held s blocksize)
    (binit_noZero blocksize s) hops
  exact ⟨d, t, ht, hz, hb, hi⟩

/-- an unused buffer is found for block 0 -/
theorem lookup_zero_unused {s : State} (hz : NoZero s) {i : Fin NBUFS} (hi : (s.buflist i).blkno = 0) :
    ∃ j, lookup s 0 = some j ∧ (s.buflist j).data = none := by
  cases hl : lookup s 0 with
  | none => exact absurd hi (lookup_none hl i)
  | some j => exact ⟨j, rfl, hz j (lookup_some hl)⟩

/-- with every buffer in use, block 0 is not in memory -/
theorem lookup_zero_used {s : State} (hz : NoZero s) (hu : ∀ i, (s.buflist i).data.isSome) :
    lookup s 0 = none := by
  cases hl : lookup s 0 with
  | none => rfl
  | some i =>
    have h := hu i
    rw [hz i (lookup_some hl)] at h
    cases h

end Bio

namespace E2

/-- the boot block `bb` is put in a buffer with a data area, and the next `bflush` leaves it in
block 0 of the device; all other blocks are the ones that a `bflush` without it leaves -/
def StoresBootBlock (s : State) (bb : Mem) : Prop :=
  ∃ t, ext2_write_bootblock bb s = some ((), t) ∧
    (∃ i, (t.bio.buflist i).blkno = 0 ∧
      (t.bio.buflist i).data = some (bb.get 0 s.bio.bio_blocksize)) ∧
    Bio.dblock (Bio.bflush t.bio)
      = Function.update (Bio.dblock (Bio.bflush s.bio)) 0 (bb.get 0 s.bio.bio_blocksize)

theorem bootblock_unused {s : State} (hz : Bio.NoZero s.bio) {i : Fin Bio.NBUFS}
    (hi : (s.bio.buflist i).blkno = 0) (bb : Mem) : ext2_write_bootblock bb s = none := by
  obtain ⟨j, hl, hj⟩ := Bio.lookup_zero_unused hz hi
  have hb : Bio.bwrite 0 (bb.get 0 s.bio.bio_blocksize) s.bio = none := by
    simp only [Bio.bwrite, hl, hj]
  show Option.map _ (Bio.bwrite 0 (bb.get 0 s.bio.bio_blocksize) s.bio) = none
  rw [hb]
  rfl

/-- with every buffer in use, the buffer used longest ago takes the boot block -/
theorem bootblock_of_used {s : State} {a : Nat → List UInt8} (h : Bio.Held s.bio a)
    (hz : Bio.NoZero s.bio) (hu : ∀ i, (s.bio.buflist i).data.isSome)
    (hr : s.bio.bio_blocksize ≤ 2147483648) (bb : Mem) : StoresBootBlock s bb := by
  have hl := Bio.lookup_zero_used hz hu
  have hlen : (bb.get 0 s.bio.bio_blocksize).length = s.bio.bio_blocksize := Mem.length_get _ _ _
  generalize hd : bb.get 0 s.bio.bio_blocksize = d at hlen
  obtain ⟨b, hb⟩ : ∃ b, Bio.bwrite (0 : Nat) d s.bio = some b := by
    show ∃ b, Bio.bwrite 0 d s.bio = some b
    simp only [Bio.bwrite, hl]
    exact ⟨_, rfl⟩
  obtain ⟨hi, -⟩ := Bio.bwrite_held h (by omega) hlen hb
  refine ⟨s.over b (0 :: s.asked), ?_, ⟨Bio.lowcount_buf s.bio, ?_⟩, ?_⟩
  · show Option.map _ (Bio.bwrite 0 (bb.get 0 s.bio.bio_blocksize) s.bio) = _
    rw [hd]
    exact congrArg (Option.map _) hb
  · have hb' : Bio.bwrite 0 d s.bio = some b := hb
    simp only [Bio.bwrite, hl, Option.some.injEq] at hb'
    rw [hd, List.take_of_length_le (by omega)] at *
    rw [show (s.over b (0 :: s.asked)).bio = b from rfl, ← hb']
    simp [Bio.setData, Bio.bump, Bio.recycle, Bio.assign]
  · rw [hd]
    show Bio.dblock (Bio.bflush b) = _
    rw [(Bio.bflush_held hi).2.2.1, (Bio.bflush_held h).2.2.1]

/-- **When the boot block reaches the device.**  After `binit` and any calls on blocks from 1 on,
the boot block is stored, and flushed to block 0 of the device and nowhere else, exactly when
every buffer was used before. -/
theorem bootblock_iff (blocksize : Nat) (hbs : blocksize ≤ 2147483648) (ops : List Bio.Op)
    (hops : ∀ op ∈ ops, op.ok blocksize) (b : Bio.State) (bb : Mem) :
    ∃ d t, Bio.run ops (Bio.binit blocksize b) = some (d, t) ∧ ∀ s : State, s.bio = t →
      (StoresBootBlock s bb ↔ ∀ i, (t.buflist i).data.isSome) := by
  obtain ⟨d, t, ht, hz, hb, hi⟩ := Bio.run_binit blocksize b ops hops
  refine ⟨d, t, ht, ?_⟩
  rintro s rfl
  constructor
  · rintro ⟨u, hu, -⟩ i
    rcases hi.buf i with ⟨h0, -, -⟩ | ⟨n, v, -, -, hv, -⟩
    · rw [bootblock_unused hz h0 bb] at hu
      cases hu
    · rw [hv]
      rfl
  · intro hused
    exact bootblock_of_used hi hz hused (by omega) bb

/-! ## two runs -/

/-- blocks 1 to 32 read one after the other: every buffer is used -/
def touchAll : List Bio.Op := (List.range 32).map fun b => .bread (b + 1)

/-- a state over the given buffers -/
def small (b : Bio.State) : State :=
  { sb := fun _ => 0, gds := fun _ => 0, ngroups := 0, blocksize := 2, directlim := 11, ind1lim := 0,
    ind2lim := 0, ptrs_per_blk := 0, readonly := false,
    inode_table := fun _ => { inode := fun _ => 0, inumber := 0, free := true, old_mode := 0 },
    bio := b, stack := fun _ => 0, asked := [] }

theorem bootblock_iff_touched : (∀ op ∈ touchAll, op.ok 2) ∧ 2 ≤ 2147483648 ∧
    ∃ d t, Bio.run touchAll (Bio.binit 2 Bio.leftover) = some (d, t) ∧ ∀ s : State, s.bio = t →
      (StoresBootBlock s (fun _ => 7) ↔ ∀ i, (t.buflist i).data.isSome) := by
  have hops : ∀ op ∈ touchAll, op.ok 2 := by
    simp only [touchAll, List.mem_map, List.mem_range]
    rintro _ ⟨b, hb, rfl⟩
    exact ⟨by omega, by omega⟩
  exact ⟨hops, by decide, bootblock_iff 2 (by decide) touchAll hops Bio.leftover _⟩

/-- two blocks were used: the boot block goes to a buffer without a data area -/
theorem bootblock_lost :
    (∀ op ∈ [Bio.Op.bread 1, .bwrite 3 [5, 6]], op.ok 2) ∧
      ∃ d t, Bio.run [.bread 1, .bwrite 3 [5, 6]] (Bio.binit 2 Bio.leftover) = some (d, t) ∧
        ext2_write_bootblock (fun _ => 7) (small t) = none ∧
        ¬ StoresBootBlock (small t) (fun _ => 7) := by
  have hrun : ((Bio.run [.bread 1, .bwrite 3 [5, 6]] (Bio.binit 2 Bio.leftover)).map fun r =>
      (ext2_write_bootblock (fun _ => 7) (small r.2)).isNone) = some true := by decide +kernel
  obtain ⟨⟨d, t⟩, ht, hn⟩ := Option.map_eq_some_iff.mp hrun
  have hn : ext2_write_bootblock (fun _ => 7) (small t) = none := by simpa using hn
  refine ⟨by simp [Bio.Op.ok], d, t, ht, hn, ?_⟩
  rintro ⟨u, hu, -⟩
  rw [hn] at hu
  cases hu

end E2
