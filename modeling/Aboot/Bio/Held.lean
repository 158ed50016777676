import Aboot.Bio.Transparent

/-!
# The block buffers with block 0

A buffer that was never used has block number 0 and no data area; `bread(0)` and `bwrite(0)` that
find it follow the null pointer.  When no such buffer is left, block 0 is a block like any other.
`Held s a` covers both: the buffers that have a data area are a coherent write-back cache of the
array `a`, block 0 included.

* `bread_held`, `bwrite_held`   a call that returns keeps `Held` and does to the array what it says;
* `bread_returns`, `bwrite_returns`   a call on a block from 1 on returns;
* `bflush_held`                 a flush leaves the array on the device;
* `binit_held`                  the buffers at the start.
-/

set_option linter.unusedVariables false

namespace Bio
open Word

/-- a buffer as a slot of a write-back cache: an unused buffer has no data area -/
def heldSlot (b : Buf) : WB.Slot Nat (List UInt8) where
  key := if b.data.isSome ∧ 0 ≤ b.blkno then some b.blkno.toNat else none
  val := b.data.getD []
  dirty := b.dirty

/-- an unused buffer, or one with a block in reach of the `int` offset -/
def BufFine (blocksize : Nat) (b : Buf) : Prop :=
  (b.blkno = 0 ∧ b.dirty = false ∧ b.data = none) ∨
    ∃ (n : Nat) (d : List UInt8), b.blkno = n ∧ (n + 1) * blocksize ≤ 2147483648 ∧
      b.data = some d ∧ d.length = blocksize

structure Held (s : State) (a : Nat → List UInt8) : Prop where
  buf : ∀ i, BufFine s.bio_blocksize (s.buflist i)
  coh : WB.Coherent (fun i => heldSlot (s.buflist i)) (dblock s) a

theorem heldSlot_key {b : Buf} {n : Nat} {d : List UInt8} (h : b.blkno = n) (hd : b.data = some d) :
    (heldSlot b).key = some n := by
  have h0 : b.data.isSome ∧ 0 ≤ b.blkno := by
    rw [h, hd]
    exact ⟨rfl, Int.natCast_nonneg n⟩
  simp only [heldSlot]
  rw [if_pos h0, h, Int.toNat_natCast]

theorem of_heldSlot_key {b : Buf} {n : Nat} (h : (heldSlot b).key = some n) :
    b.blkno = n ∧ b.data.isSome := by
  simp only [heldSlot] at h
  by_cases h0 : b.data.isSome ∧ 0 ≤ b.blkno
  · rw [if_pos h0] at h
    have := Option.some.inj h
    exact ⟨by omega, h0.1⟩
  · rw [if_neg h0] at h
    cases h

/-- every block of the array is a whole block -/
theorem Held.length {s : State} {a : Nat → List UInt8} (h : Held s a) (n : Nat) :
    (a n).length = s.bio_blocksize := by
  by_cases hk : ∃ i, (heldSlot (s.buflist i)).key = some n
  · obtain ⟨i, hi⟩ := hk
    have hval := h.coh.held i n hi
    obtain ⟨hb, hd⟩ := of_heldSlot_key hi
    rcases h.buf i with ⟨-, -, hn⟩ | ⟨n', d, -, -, hd', hl⟩
    · rw [hn] at hd
      cases hd
    · simp only [heldSlot, hd', Option.getD_some] at hval
      rw [← hval]
      exact hl
  · rw [← h.coh.miss n fun i hi => hk ⟨i, hi⟩]
    exact Mem.length_get _ _ _

/-- a change of the access counts only -/
theorem Held.bump {s : State} {a : Nat → List UInt8} (h : Held s a) (i : Fin NBUFS) :
    Held (bump i s) a := by
  have hslot : (fun j => heldSlot ((Bio.bump i s).buflist j)) = fun j => heldSlot (s.buflist j) := by
    funext j
    obtain ⟨h1, h2, h3⟩ := bump_buf i j s
    simp only [heldSlot, h1, h2, h3]
  refine ⟨fun j => ?_, ?_⟩
  · obtain ⟨h1, h2, h3⟩ := bump_buf i j s
    have := h.buf j
    unfold BufFine at this ⊢
    rwa [h1, h2, h3]
  · rw [hslot]
    exact h.coh

theorem heldSlot_clean (b : Buf) :
    heldSlot { b with dirty := false } = { heldSlot b with dirty := false } := rfl

theorem writeOut_held {s : State} {a : Nat → List UInt8} (h : Held s a) (i : Fin NBUFS) :
    Held (writeOut i s) a := by
  cases hd : (s.buflist i).dirty with
  | false => rwa [writeOut_clean s i hd]
  | true =>
    rcases h.buf i with ⟨-, hn, -⟩ | ⟨n, d, hb, hr, hdata, hlen⟩
    · rw [hn] at hd
      cases hd
    have hkey := heldSlot_key hb hdata
    have hval : (heldSlot (s.buflist i)).val = d := by simp only [heldSlot, hdata, Option.getD_some]
    have hdisk : dblock (writeOut i s) = Function.update (dblock s) n d := by
      rw [dblock_writeOut s i hd, hb, hdata, Option.getD_some,
        List.take_of_length_le (by omega), dblock_write s n d hlen hr]
    have hslots : (fun j => heldSlot ((writeOut i s).buflist j))
        = Function.update (fun j => heldSlot (s.buflist j)) i
            { heldSlot (s.buflist i) with dirty := false } := by
      funext j
      rw [writeOut_buflist]
      by_cases e : j = i
      · rw [e, Function.update_self, Function.update_self, heldSlot_clean]
      · rw [Function.update_of_ne e, Function.update_of_ne e]
    refine ⟨fun j => ?_, ?_⟩
    · rw [writeOut_buflist, writeOut_blocksize]
      by_cases e : j = i
      · rw [e, Function.update_self]
        exact Or.inr ⟨n, d, hb, hr, hdata, hlen⟩
      · rw [Function.update_of_ne e]
        exact h.buf j
    · rw [hslots, hdisk, ← hval]
      exact h.coh.writeback hkey

/-! ## one call -/

/-- the recycled buffer takes the block `n` with data `v` -/
theorem recycle_held {s t : State} {a a' : Nat → List UInt8} {i : Fin NBUFS} {n : Nat}
    {v : List UInt8} {b : Buf} (h : Held s a) (hr : (n + 1) * s.bio_blocksize ≤ 2147483648)
    (hlen : v.length = s.bio_blocksize) (hbs : t.bio_blocksize = s.bio_blocksize)
    (hdisk : t.disk = s.disk) (hbuf : t.buflist = Function.update s.buflist i b)
    (hb : b.blkno = n) (hdata : b.data = some v)
    (hcoh : WB.Coherent (Function.update (fun j => heldSlot (s.buflist j)) i ⟨some n, v, b.dirty⟩)
      (dblock s) a') : Held t a' := by
  have hslots : (fun j => heldSlot (t.buflist j))
      = Function.update (fun j => heldSlot (s.buflist j)) i ⟨some n, v, b.dirty⟩ := by
    funext j
    rw [hbuf]
    by_cases e : j = i
    · rw [e, Function.update_self, Function.update_self]
      have hk := heldSlot_key hb hdata
      unfold heldSlot at hk ⊢
      simp only at hk
      rw [hk, hdata]
      rfl
    · rw [Function.update_of_ne e, Function.update_of_ne e]
  have hblk : dblock t = dblock s := by
    funext b
    simp only [dblock, hbs, hdisk]
  refine ⟨fun j => ?_, ?_⟩
  · rw [hbuf, hbs]
    by_cases e : j = i
    · rw [e, Function.update_self]
      exact Or.inr ⟨n, v, hb, hr, hdata, hlen⟩
    · rw [Function.update_of_ne e]
      exact h.buf j
  · rw [hslots, hblk]
    exact hcoh

/-- the state `w` before the recycled buffer `i` takes over the block: the buffer is clean and no
buffer has the block -/
theorem recycle_held_buf {s : State} {a : Nat → List UInt8} (h : Held s a) {n : Nat}
    (hl : lookup s n = none) :
    ∃ w, recycle n s = assign (lowcount_buf s) n w ∧ Held w a ∧
      w.bio_blocksize = s.bio_blocksize ∧ (w.buflist (lowcount_buf s)).dirty = false ∧
      ∀ j, (heldSlot (w.buflist j)).key ≠ some n := by
  refine ⟨writeOut (lowcount_buf s) s, rfl, writeOut_held h _, writeOut_blocksize s _, ?_, ?_⟩
  · rw [writeOut_buflist, Function.update_self]
  · intro j hj
    apply lookup_none hl j
    rw [← (of_heldSlot_key hj).1, writeOut_buflist]
    by_cases e : j = lowcount_buf s
    · rw [e, Function.update_self]
    · rw [Function.update_of_ne e]

/-- a buffer found for a block has the block of the array, if it has a data area -/
theorem Held.hit {s : State} {a : Nat → List UInt8} (h : Held s a) {i : Fin NBUFS} {n : Nat}
    {d : List UInt8} (hb : (s.buflist i).blkno = n) (hd : (s.buflist i).data = some d) :
    d = a n := by
  have hval := h.coh.held i n (heldSlot_key hb hd)
  simpa only [heldSlot, hd, Option.getD_some] using hval

/-- a buffer found for a block from 1 on has a data area -/
theorem Held.data {s : State} {a : Nat → List UInt8} (h : Held s a) {i : Fin NBUFS} {n : Nat}
    (hn : 1 ≤ n) (hb : (s.buflist i).blkno = n) : ∃ d, (s.buflist i).data = some d := by
  rcases h.buf i with ⟨h0, -, -⟩ | ⟨n', d, -, -, hd, -⟩
  · omega
  · exact ⟨d, hd⟩

theorem bread_held {s t : State} {a : Nat → List UInt8} (h : Held s a) {n : Nat}
    (hr : (n + 1) * s.bio_blocksize ≤ 2147483648) {d : List UInt8} (hx : bread n s = some (d, t)) :
    d = a n ∧ Held t a ∧ t.bio_blocksize = s.bio_blocksize := by
  unfold bread at hx
  cases hl : lookup s n with
  | some i =>
    rw [hl] at hx
    cases hd : (s.buflist i).data with
    | none =>
      simp only [hd] at hx
      cases hx
    | some v =>
      simp only [hd] at hx
      obtain ⟨rfl, rfl⟩ := Prod.mk.inj (Option.some.inj hx)
      have hv := h.hit (lookup_some hl) hd
      refine ⟨?_, h.bump i, rfl⟩
      rw [hv, List.take_of_length_le (by rw [h.length])]
  | none =>
    rw [hl] at hx
    simp only at hx
    obtain ⟨w, hrec, hw, hbs, hclean, hmiss⟩ := recycle_held_buf h hl
    rw [hrec] at hx
    generalize lowcount_buf s = i at hrec hclean hx
    rw [← hbs] at hr
    have hval : dblock w n = a n := hw.coh.miss n hmiss
    have hread := (read_block (assign i n w) n hr).trans hval
    have hfill := fillBuf_eq i n (assign i n w)
    rw [hread] at hfill
    have hx := Option.some.inj hx
    rw [hx] at hfill
    refine ⟨hfill.1, ?_, hfill.2.1.trans hbs⟩
    refine recycle_held (i := i) (n := n) (v := a n)
      (b := { t.buflist i with blkno := n, data := some (a n), dirty := false }) hw hr ?_ hfill.2.1
      hfill.2.2.1 ?_ rfl rfl ?_
    · rw [← hval, dblock, Mem.length_get]
    · rw [hfill.2.2.2]
      simp [assign, hclean]
    · have hf := hw.coh.fill hmiss (i := i) hclean
      rwa [hval] at hf

theorem bread_returns {s : State} {a : Nat → List UInt8} (h : Held s a) {n : Nat} (hn : 1 ≤ n) :
    ∃ d t, bread n s = some (d, t) := by
  unfold bread
  cases hl : lookup s n with
  | some i =>
    obtain ⟨d, hd⟩ := h.data hn (lookup_some hl)
    simp only [hd]
    exact ⟨_, _, rfl⟩
  | none => exact ⟨_, _, rfl⟩

theorem bwrite_held {s t : State} {a : Nat → List UInt8} (h : Held s a) {n : Nat}
    (hr : (n + 1) * s.bio_blocksize ≤ 2147483648) {d : List UInt8}
    (hlen : d.length = s.bio_blocksize) (hx : bwrite n d s = some t) :
    Held t (Function.update a n d) ∧ t.bio_blocksize = s.bio_blocksize := by
  have htake : d.take s.bio_blocksize = d := List.take_of_length_le (by omega)
  unfold bwrite at hx
  cases hl : lookup s n with
  | some i =>
    rw [hl] at hx
    have hb := lookup_some hl
    cases hd : (s.buflist i).data with
    | none =>
      simp only [hd] at hx
      cases hx
    | some v =>
      simp only [hd, htake] at hx
      obtain rfl := Option.some.inj hx
      have hb' := (bump_buf i i s).1.trans hb
      have hd' := (bump_buf i i s).2.2.trans hd
      refine ⟨?_, rfl⟩
      exact recycle_held (i := i) (n := n) (v := d)
        (b := { (bump i s).buflist i with data := some d, dirty := true }) (h.bump i) hr hlen rfl
        rfl rfl hb' rfl ((h.bump i).coh.store_hit (heldSlot_key hb' hd') d)
  | none =>
    rw [hl] at hx
    simp only at hx
    obtain ⟨w, hrec, hw, hbs, hclean, hmiss⟩ := recycle_held_buf h hl
    rw [hrec, htake] at hx
    generalize lowcount_buf s = i at hrec hclean hx
    obtain rfl := Option.some.inj hx
    rw [← hbs] at hr hlen
    refine ⟨recycle_held (i := i) (n := n) (v := d)
      (b := { (bump i (assign i n w)).buflist i with data := some d, dirty := true }) hw hr hlen
      rfl rfl ?_ ?_ rfl (hw.coh.store_miss hmiss hclean d), hbs⟩
    · simp [setData, Bio.bump, assign]
    · rw [(bump_buf i i _).1]
      simp [assign]

theorem bwrite_returns {s : State} {a : Nat → List UInt8} (h : Held s a) {n : Nat} (hn : 1 ≤ n)
    (d : List UInt8) : ∃ t, bwrite n d s = some t := by
  unfold bwrite
  cases hl : lookup s n with
  | some i =>
    obtain ⟨v, hv⟩ := h.data hn (lookup_some hl)
    simp only [hv]
    exact ⟨_, rfl⟩
  | none => exact ⟨_, rfl⟩

theorem foldl_writeOut_held {a : Nat → List UInt8} (l : List (Fin NBUFS)) :
    ∀ s, Held s a → Held (l.foldl (fun s i => writeOut i s) s) a ∧
      (l.foldl (fun s i => writeOut i s) s).bio_blocksize = s.bio_blocksize ∧
      ∀ j, (j ∈ l ∨ (s.buflist j).dirty = false) →
        ((l.foldl (fun s i => writeOut i s) s).buflist j).dirty = false := by
  induction l with
  | nil =>
    intro s h
    exact ⟨h, rfl, fun j hj => hj.resolve_left (List.not_mem_nil)⟩
  | cons i l ih =>
    intro s h
    obtain ⟨h1, h2, h3⟩ := ih (writeOut i s) (writeOut_held h i)
    refine ⟨h1, h2.trans (writeOut_blocksize s i), fun j hj => ?_⟩
    apply h3
    rw [writeOut_buflist]
    by_cases e : j = i
    · right
      rw [e, Function.update_self]
    · rw [Function.update_of_ne e]
      exact hj.imp (fun hj => (List.mem_cons.mp hj).resolve_left e) id

theorem bflush_held {s : State} {a : Nat → List UInt8} (h : Held s a) :
    Held (bflush s) a ∧ (bflush s).bio_blocksize = s.bio_blocksize ∧ dblock (bflush s) = a ∧
      ∀ j, ((bflush s).buflist j).dirty = false := by
  obtain ⟨h1, h2, h3⟩ := foldl_writeOut_held (List.finRange NBUFS) s h
  have hclean : ∀ j, ((bflush s).buflist j).dirty = false :=
    fun j => h3 j (Or.inl (List.mem_finRange j))
  exact ⟨h1, h2, h1.coh.back_eq fun i k _ => hclean i, hclean⟩

theorem binit_held (s : State) (blocksize : Nat) :
    Held (binit blocksize s) (dblock (binit blocksize s)) where
  buf _ := Or.inl ⟨rfl, rfl, rfl⟩
  coh := by
    refine ⟨?_, ?_, fun _ _ => rfl, fun _ _ _ _ => rfl⟩
    · intro i j k h1
      simp [heldSlot, binit] at h1
    · intro i k h1
      simp [heldSlot, binit] at h1

end Bio
