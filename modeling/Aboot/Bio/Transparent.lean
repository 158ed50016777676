import Aboot.Lib.WriteBack
import Aboot.Bio.Buffers

/-!
# The block buffers behave like a plain array of blocks

`Inv s a`: the buffers of `s` over its device are a coherent write-back cache (`WB.Coherent`) of
the array `a`; a buffer without a block is clean, and one with a block has its data area.

* `bread_spec`, `bwrite_spec`, `bflush_spec`   one call keeps `Inv` and does to the array what it
                says;
* `run_spec`    a sequence of calls returns what the array says (`reads`, `latest`);
* `buffers_transparent`   the same from `binit`, with the device after a `bflush`.
-/

set_option linter.unusedVariables false

namespace Bio
open Word

/-! ## the invariant -/

/-- a buffer as a slot of a write-back cache: block number 0 is an unused buffer -/
def slot (b : Buf) : WB.Slot Nat (List UInt8) where
  key := if 0 < b.blkno then some b.blkno.toNat else none
  val := b.data.getD []
  dirty := b.dirty

/-- an unused buffer, or one with a block in reach of the `int` offset and its data area -/
def BufOk (blocksize : Nat) (b : Buf) : Prop :=
  (b.blkno = 0 ∧ b.dirty = false) ∨
    ∃ (n : Nat) (d : List UInt8), b.blkno = n ∧ 1 ≤ n ∧ (n + 1) * blocksize ≤ 2147483648 ∧
      b.data = some d ∧ d.length = blocksize

structure Inv (s : State) (a : Nat → List UInt8) : Prop where
  buf : ∀ i, BufOk s.bio_blocksize (s.buflist i)
  coh : WB.Coherent (fun i => slot (s.buflist i)) (dblock s) a

theorem slot_key_some {b : Buf} {n : Nat} (h : b.blkno = n) (hn : 1 ≤ n) :
    (slot b).key = some n := by
  have h0 : (0 : Int) < b.blkno := by omega
  unfold slot
  simp only [if_pos h0]
  rw [h, Int.toNat_natCast]

theorem blkno_of_slot_key {b : Buf} {n : Nat} (h : (slot b).key = some n) : b.blkno = n := by
  unfold slot at h
  by_cases h0 : 0 < b.blkno
  · rw [if_pos h0] at h
    have := Option.some.inj h
    omega
  · rw [if_neg h0] at h
    cases h

/-- a change of the access counts only -/
theorem Inv.congr {s t : State} {a : Nat → List UInt8} (h : Inv s a)
    (hbs : t.bio_blocksize = s.bio_blocksize) (hdisk : t.disk = s.disk)
    (hbuf : ∀ i, (t.buflist i).blkno = (s.buflist i).blkno ∧
      (t.buflist i).dirty = (s.buflist i).dirty ∧ (t.buflist i).data = (s.buflist i).data) :
    Inv t a := by
  have hslot : (fun i => slot (t.buflist i)) = fun i => slot (s.buflist i) := by
    funext i
    obtain ⟨h1, h2, h3⟩ := hbuf i
    simp only [slot, h1, h2, h3]
  have hblk : dblock t = dblock s := by
    funext b
    simp only [dblock, hbs, hdisk]
  refine ⟨fun i => ?_, ?_⟩
  · obtain ⟨h1, h2, h3⟩ := hbuf i
    have := h.buf i
    unfold BufOk at this ⊢
    rwa [h1, h2, h3, hbs]
  · rw [hslot, hblk]
    exact h.coh

@[simp] theorem setBuf_blocksize (i : Fin NBUFS) (b : Buf) (s : State) :
    (setBuf i b s).bio_blocksize = s.bio_blocksize := rfl

@[simp] theorem setBuf_disk (i : Fin NBUFS) (b : Buf) (s : State) :
    (setBuf i b s).disk = s.disk := rfl

@[simp] theorem setBuf_buflist (i : Fin NBUFS) (b : Buf) (s : State) :
    (setBuf i b s).buflist = Function.update s.buflist i b := rfl

@[simp] theorem read_blocksize (n : Nat) (s : State) :
    (read n s).2.bio_blocksize = s.bio_blocksize := rfl

@[simp] theorem read_disk (n : Nat) (s : State) : (read n s).2.disk = s.disk := rfl

@[simp] theorem read_buflist (n : Nat) (s : State) : (read n s).2.buflist = s.buflist := rfl

@[simp] theorem bump_blocksize (i : Fin NBUFS) (s : State) :
    (bump i s).bio_blocksize = s.bio_blocksize := rfl

@[simp] theorem bump_disk (i : Fin NBUFS) (s : State) : (bump i s).disk = s.disk := rfl

theorem bump_buf (i j : Fin NBUFS) (s : State) :
    ((bump i s).buflist j).blkno = (s.buflist j).blkno ∧
      ((bump i s).buflist j).dirty = (s.buflist j).dirty ∧
      ((bump i s).buflist j).data = (s.buflist j).data := by
  by_cases e : j = i
  · subst e
    simp [bump, setBuf]
  · simp [bump, setBuf, Function.update_of_ne e]

theorem Inv.bump {s : State} {a : Nat → List UInt8} (h : Inv s a) (i : Fin NBUFS) :
    Inv (bump i s) a :=
  h.congr rfl rfl fun j => bump_buf i j s

/-! ## the device offset of a block -/

theorem offsetOf_natCast (s : State) (n : Nat) (h : (n + 1) * s.bio_blocksize ≤ 2147483648) :
    offsetOf s n = ((n * s.bio_blocksize : Nat) : Int) ∨ s.bio_blocksize = 0 := by
  rcases Nat.eq_zero_or_pos s.bio_blocksize with h0 | h0
  · exact Or.inr h0
  · left
    have h1 : (n + 1) * s.bio_blocksize = n * s.bio_blocksize + s.bio_blocksize := Nat.succ_mul ..
    have h2 : n * s.bio_blocksize < 2147483648 := by omega
    have e : (n : Int) * (s.bio_blocksize : Int) = ((n * s.bio_blocksize : Nat) : Int) := by
      push_cast
      ring
    unfold offsetOf
    rw [e]
    exact sgn32_of_range (by omega) (by exact_mod_cast h2)

theorem pos_lseek (s : State) (n : Nat) (h : (n + 1) * s.bio_blocksize ≤ 2147483648) :
    (lseek (offsetOf s n) s).pos = n * s.bio_blocksize ∨ s.bio_blocksize = 0 := by
  rcases offsetOf_natCast s n h with e | e
  · left
    unfold lseek
    rw [e, if_pos (Int.natCast_nonneg _), Int.toNat_natCast]
  · exact Or.inr e

@[simp] theorem lseek_blocksize (off : Int) (s : State) :
    (lseek off s).bio_blocksize = s.bio_blocksize := by
  unfold lseek
  split <;> rfl

@[simp] theorem lseek_buflist (off : Int) (s : State) : (lseek off s).buflist = s.buflist := by
  unfold lseek
  split <;> rfl

@[simp] theorem lseek_disk (off : Int) (s : State) : (lseek off s).disk = s.disk := by
  unfold lseek
  split <;> rfl

theorem block_apart {n n' bs : Nat} (h : n' ≠ n) :
    n' * bs + bs ≤ n * bs ∨ n * bs + bs ≤ n' * bs := by
  rcases Nat.lt_or_gt_of_ne h with h | h
  · left
    have := Nat.mul_le_mul_right bs (show n' + 1 ≤ n from h)
    rwa [Nat.succ_mul] at this
  · right
    have := Nat.mul_le_mul_right bs (show n + 1 ≤ n' from h)
    rwa [Nat.succ_mul] at this

/-- storing a whole block changes that block of the device only -/
theorem get_put_block (m : Mem) (n bs : Nat) (d : List UInt8) (hd : d.length = bs) :
    (fun b => (m.put (n * bs) d).get (b * bs) bs)
      = Function.update (fun b => m.get (b * bs) bs) n d := by
  funext b
  by_cases e : b = n
  · subst e
    rw [Function.update_self]
    have := Mem.get_put_self m (b * bs) d
    rwa [hd] at this
  · rw [Function.update_of_ne e]
    exact Mem.get_put_out m _ _ _ _ (by rw [hd]; exact block_apart e)

/-- a block is written where `lseek` has put the position -/
theorem dblock_write (s : State) (n : Nat) (d : List UInt8) (hd : d.length = s.bio_blocksize)
    (h : (n + 1) * s.bio_blocksize ≤ 2147483648) :
    dblock (write d (lseek (offsetOf s n) s)) = Function.update (dblock s) n d := by
  rcases pos_lseek s n h with e | e
  · have hput := get_put_block s.disk n s.bio_blocksize d hd
    show _ = Function.update (fun b => s.disk.get (b * s.bio_blocksize) s.bio_blocksize) n d
    rw [← hput]
    funext b
    simp only [dblock, write, lseek_disk, lseek_blocksize, e]
  · have hnil : d = [] := List.length_eq_zero_iff.mp (hd.trans e)
    funext b
    by_cases eb : b = n
    · subst eb
      rw [Function.update_self]
      simp [dblock, write, e, hnil]
    · rw [Function.update_of_ne eb]
      simp [dblock, write, e]

theorem read_block (s : State) (n : Nat) (h : (n + 1) * s.bio_blocksize ≤ 2147483648) :
    (read s.bio_blocksize (lseek (offsetOf s n) s)).1 = dblock s n := by
  rcases pos_lseek s n h with e | e
  · simp only [read, lseek_disk, e, dblock]
  · simp only [read, dblock, e, Mem.get_zero]

/-! ## writing a buffer out -/

theorem BufOk.of_dirty {bs : Nat} {b : Buf} (h : BufOk bs b) (hd : b.dirty = true) :
    ∃ (n : Nat) (d : List UInt8), b.blkno = n ∧ 1 ≤ n ∧ (n + 1) * bs ≤ 2147483648 ∧
      b.data = some d ∧ d.length = bs := by
  rcases h with ⟨-, h⟩ | h
  · rw [h] at hd
    cases hd
  · exact h

theorem writeOut_clean (s : State) (i : Fin NBUFS) (h : (s.buflist i).dirty = false) :
    writeOut i s = s := by
  simp [writeOut, h]

/-- what `writeOut` leaves: the buffer with its block, now clean; the other buffers as they were -/
theorem writeOut_buflist (s : State) (i : Fin NBUFS) :
    (writeOut i s).buflist
      = Function.update s.buflist i { s.buflist i with dirty := false } := by
  cases hd : (s.buflist i).dirty with
  | true => simp [writeOut, hd, setBuf, write]
  | false =>
    have e : ({ s.buflist i with dirty := false } : Buf) = s.buflist i := by rw [← hd]
    rw [e, Function.update_eq_self, writeOut_clean s i hd]

@[simp] theorem writeOut_blocksize (s : State) (i : Fin NBUFS) :
    (writeOut i s).bio_blocksize = s.bio_blocksize := by
  cases hd : (s.buflist i).dirty with
  | true => simp [writeOut, hd, setBuf, write]
  | false => rw [writeOut_clean s i hd]

theorem dblock_writeOut (s : State) (i : Fin NBUFS) (hd : (s.buflist i).dirty = true) :
    dblock (writeOut i s) = dblock (write (((s.buflist i).data.getD []).take s.bio_blocksize)
      (lseek (offsetOf s (s.buflist i).blkno) s)) := by
  unfold writeOut
  rw [if_pos hd]
  generalize lseek (offsetOf s (s.buflist i).blkno) s = t
  rfl

theorem slot_clean (b : Buf) : slot { b with dirty := false } = { slot b with dirty := false } := rfl

theorem writeOut_spec {s : State} {a : Nat → List UInt8} (h : Inv s a) (i : Fin NBUFS) :
    Inv (writeOut i s) a := by
  cases hd : (s.buflist i).dirty with
  | false => rwa [writeOut_clean s i hd]
  | true =>
    obtain ⟨n, d, hb, hn, hr, hdata, hlen⟩ := (h.buf i).of_dirty hd
    have hkey : (slot (s.buflist i)).key = some n := slot_key_some hb hn
    have hval : (slot (s.buflist i)).val = d := by simp only [slot, hdata, Option.getD_some]
    have hdisk : dblock (writeOut i s) = Function.update (dblock s) n d := by
      rw [dblock_writeOut s i hd, hb, hdata, Option.getD_some,
        List.take_of_length_le (by omega), dblock_write s n d hlen hr]
    have hslots : (fun j => slot ((writeOut i s).buflist j))
        = Function.update (fun j => slot (s.buflist j)) i
            { slot (s.buflist i) with dirty := false } := by
      funext j
      rw [writeOut_buflist]
      by_cases e : j = i
      · rw [e, Function.update_self, Function.update_self, slot_clean]
      · rw [Function.update_of_ne e, Function.update_of_ne e]
    refine ⟨fun j => ?_, ?_⟩
    · rw [writeOut_buflist, writeOut_blocksize]
      by_cases e : j = i
      · rw [e, Function.update_self]
        exact Or.inr ⟨n, d, hb, hn, hr, hdata, hlen⟩
      · rw [Function.update_of_ne e]
        exact h.buf j
    · rw [hslots, hdisk, ← hval]
      exact h.coh.writeback hkey

/-! ## looking a block up -/

theorem lookup_some {s : State} {b : Int} {i : Fin NBUFS} (h : lookup s b = some i) :
    (s.buflist i).blkno = b := by
  have := List.find?_some h
  simpa using this

theorem lookup_none {s : State} {b : Int} (h : lookup s b = none) (i : Fin NBUFS) :
    (s.buflist i).blkno ≠ b := by
  have := List.find?_eq_none.mp h i (List.mem_finRange i)
  simpa using this

/-- a buffer found for a block has its data area, with the block of the array -/
theorem Inv.hit {s : State} {a : Nat → List UInt8} (h : Inv s a) {i : Fin NBUFS} {n : Nat}
    (hn : 1 ≤ n) (hb : (s.buflist i).blkno = n) :
    (s.buflist i).data = some (a n) ∧ (a n).length = s.bio_blocksize := by
  rcases h.buf i with ⟨h0, -⟩ | ⟨n', d, hb', -, -, hdata, hlen⟩
  · omega
  · have hval := h.coh.held i n (slot_key_some hb hn)
    simp only [slot, hdata, Option.getD_some] at hval
    rw [hdata, ← hval]
    exact ⟨rfl, hlen⟩

/-- the recycled buffer takes the block `n` with data `v` -/
theorem recycle_spec {s t : State} {a a' : Nat → List UInt8} {i : Fin NBUFS} {n : Nat}
    {v : List UInt8} {b : Buf} (h : Inv s a) (hn : 1 ≤ n) (hr : (n + 1) * s.bio_blocksize ≤ 2147483648)
    (hlen : v.length = s.bio_blocksize) (hbs : t.bio_blocksize = s.bio_blocksize)
    (hdisk : t.disk = s.disk) (hbuf : t.buflist = Function.update s.buflist i b)
    (hb : b.blkno = n) (hdata : b.data = some v)
    (hcoh : WB.Coherent (Function.update (fun j => slot (s.buflist j)) i ⟨some n, v, b.dirty⟩)
      (dblock s) a') : Inv t a' := by
  have hslots : (fun j => slot (t.buflist j))
      = Function.update (fun j => slot (s.buflist j)) i ⟨some n, v, b.dirty⟩ := by
    funext j
    rw [hbuf]
    by_cases e : j = i
    · rw [e, Function.update_self, Function.update_self]
      have hk := slot_key_some hb hn
      unfold slot at hk ⊢
      simp only at hk
      rw [hk, hdata]
      rfl
    · rw [Function.update_of_ne e, Function.update_of_ne e]
  have hblk : dblock t = dblock s := by
    funext b
    simp only [dblock, hbs, hdisk]
  refine ⟨fun j => ?_, ?_⟩
  · rw [hbuf, hbs]
    by_cases e : j = i
    · rw [e, Function.update_self]
      exact Or.inr ⟨n, v, hb, hn, hr, hdata, hlen⟩
    · rw [Function.update_of_ne e]
      exact h.buf j
  · rw [hslots, hblk]
    exact hcoh

theorem fillBuf_eq (i : Fin NBUFS) (b : Int) (s : State) :
    (fillBuf i b s).1 = (read s.bio_blocksize (lseek (offsetOf s b) s)).1 ∧
      (fillBuf i b s).2.bio_blocksize = s.bio_blocksize ∧ (fillBuf i b s).2.disk = s.disk ∧
      (fillBuf i b s).2.buflist = Function.update s.buflist i
        { s.buflist i with
          data := some (read s.bio_blocksize (lseek (offsetOf s b) s)).1
          last_access := sgn 32 ((lseek (offsetOf s b) s).bio_counter + 1) } := by
  have h1 := lseek_blocksize (offsetOf s b) s
  have h2 := lseek_disk (offsetOf s b) s
  have h3 := lseek_buflist (offsetOf s b) s
  unfold fillBuf
  generalize lseek (offsetOf s b) s = t at h1 h2 h3 ⊢
  refine ⟨rfl, h1, h2, ?_⟩
  simp [bump, setData, setBuf, h3, read]

/-! ## one call -/

/-- the state `w` before the recycled buffer `i` takes over the block: the buffer is clean and no
buffer has the block -/
theorem recycle_buf {s : State} {a : Nat → List UInt8} (h : Inv s a) {n : Nat}
    (hl : lookup s n = none) :
    ∃ w, recycle n s = assign (lowcount_buf s) n w ∧ Inv w a ∧
      w.bio_blocksize = s.bio_blocksize ∧ (w.buflist (lowcount_buf s)).dirty = false ∧
      ∀ j, (slot (w.buflist j)).key ≠ some n := by
  refine ⟨writeOut (lowcount_buf s) s, rfl, writeOut_spec h _, writeOut_blocksize s _, ?_, ?_⟩
  · rw [writeOut_buflist, Function.update_self]
  · intro j hj
    apply lookup_none hl j
    rw [← blkno_of_slot_key hj, writeOut_buflist]
    by_cases e : j = lowcount_buf s
    · rw [e, Function.update_self]
    · rw [Function.update_of_ne e]

/-! ## one call -/

theorem bread_spec {s : State} {a : Nat → List UInt8} (h : Inv s a) {n : Nat} (hn : 1 ≤ n)
    (hr : (n + 1) * s.bio_blocksize ≤ 2147483648) :
    ∃ t, bread n s = some (a n, t) ∧ Inv t a ∧ t.bio_blocksize = s.bio_blocksize := by
  unfold bread
  cases hl : lookup s n with
  | some i =>
    obtain ⟨hd, hlen⟩ := h.hit hn (lookup_some hl)
    refine ⟨bump i s, ?_, h.bump i, rfl⟩
    simp only [hd]
    rw [List.take_of_length_le (by omega)]
  | none =>
    obtain ⟨w, hrec, hw, hbs, hclean, hmiss⟩ := recycle_buf h hl
    generalize lowcount_buf s = i at hrec hclean ⊢
    rw [← hbs] at hr
    have hval : dblock w n = a n := hw.coh.miss n hmiss
    have hread := (read_block (assign i n w) n hr).trans hval
    have hfill := fillBuf_eq i n (assign i n w)
    rw [hread] at hfill
    refine ⟨(fillBuf i n (assign i n w)).2, ?_, ?_, ?_⟩
    · rw [hrec, ← hfill.1]
    · refine recycle_spec (i := i) (n := n) (v := a n)
        (b := { (fillBuf i n (assign i n w)).2.buflist i with
          blkno := n, data := some (a n), dirty := false }) hw hn hr ?_ hfill.2.1 hfill.2.2.1 ?_ rfl
          rfl ?_
      · rw [← hval, dblock, Mem.length_get]
      · rw [hfill.2.2.2]
        simp [assign, hclean]
      · have hf := hw.coh.fill hmiss (i := i) hclean
        rwa [hval] at hf
    · rw [hfill.2.1]
      exact hbs

theorem bwrite_spec {s : State} {a : Nat → List UInt8} (h : Inv s a) {n : Nat} (hn : 1 ≤ n)
    (hr : (n + 1) * s.bio_blocksize ≤ 2147483648) {d : List UInt8}
    (hlen : d.length = s.bio_blocksize) :
    ∃ t, bwrite n d s = some t ∧ Inv t (Function.update a n d) ∧
      t.bio_blocksize = s.bio_blocksize := by
  have htake : d.take s.bio_blocksize = d := List.take_of_length_le (by omega)
  unfold bwrite
  cases hl : lookup s n with
  | some i =>
    have hb := lookup_some hl
    obtain ⟨hd, -⟩ := h.hit hn hb
    have hb' := (bump_buf i i s).1.trans hb
    refine ⟨setData i d true (bump i s), by simp only [hd, htake], ?_, rfl⟩
    exact recycle_spec (i := i) (n := n) (v := d)
      (b := { (bump i s).buflist i with data := some d, dirty := true }) (h.bump i) hn hr hlen rfl
      rfl rfl hb' rfl ((h.bump i).coh.store_hit (slot_key_some hb' hn) d)
  | none =>
    obtain ⟨w, hrec, hw, hbs, hclean, hmiss⟩ := recycle_buf h hl
    generalize lowcount_buf s = i at hrec hclean ⊢
    rw [hrec, htake]
    rw [← hbs] at hr hlen
    refine ⟨_, rfl, recycle_spec (i := i) (n := n) (v := d)
      (b := { (bump i (assign i n w)).buflist i with data := some d, dirty := true }) hw hn hr hlen
      rfl rfl ?_ ?_ rfl (hw.coh.store_miss hmiss hclean d), hbs⟩
    · simp [setData, bump, assign]
    · rw [(bump_buf i i _).1]
      simp [assign]

theorem foldl_writeOut_spec {a : Nat → List UInt8} (l : List (Fin NBUFS)) :
    ∀ s, Inv s a → Inv (l.foldl (fun s i => writeOut i s) s) a ∧
      (l.foldl (fun s i => writeOut i s) s).bio_blocksize = s.bio_blocksize ∧
      ∀ j, (j ∈ l ∨ (s.buflist j).dirty = false) →
        ((l.foldl (fun s i => writeOut i s) s).buflist j).dirty = false := by
  induction l with
  | nil =>
    intro s h
    exact ⟨h, rfl, fun j hj => hj.resolve_left (List.not_mem_nil)⟩
  | cons i l ih =>
    intro s h
    obtain ⟨h1, h2, h3⟩ := ih (writeOut i s) (writeOut_spec h i)
    refine ⟨h1, h2.trans (writeOut_blocksize s i), fun j hj => ?_⟩
    apply h3
    by_cases e : j = i
    · right
      rw [e, writeOut_buflist, Function.update_self]
    · rcases hj with hj | hj
      · exact Or.inl ((List.mem_cons.mp hj).resolve_left e)
      · right
        rw [writeOut_buflist, Function.update_of_ne e]
        exact hj

theorem bflush_spec {s : State} {a : Nat → List UInt8} (h : Inv s a) :
    Inv (bflush s) a ∧ (bflush s).bio_blocksize = s.bio_blocksize ∧ dblock (bflush s) = a := by
  obtain ⟨h1, h2, h3⟩ := foldl_writeOut_spec (List.finRange NBUFS) s h
  exact ⟨h1, h2, h1.coh.back_eq fun i k _ => h3 i (Or.inl (List.mem_finRange i))⟩

/-! ## sequences of calls -/

theorem step_spec {s : State} {a : Nat → List UInt8} (h : Inv s a) (op : Op)
    (hop : op.ok s.bio_blocksize) :
    ∃ t, step op s = some (reads a [op], t) ∧ Inv t (op.apply a) ∧
      t.bio_blocksize = s.bio_blocksize := by
  cases op with
  | bread n =>
    obtain ⟨t, ht, hi, hb⟩ := bread_spec h hop.1 hop.2
    exact ⟨t, by simp [step, ht, reads], hi, hb⟩
  | bwrite n d =>
    obtain ⟨t, ht, hi, hb⟩ := bwrite_spec h hop.1 hop.2.1 hop.2.2
    exact ⟨t, by simp [step, ht, reads], hi, hb⟩
  | bflush =>
    obtain ⟨hi, hb, -⟩ := bflush_spec h
    exact ⟨bflush s, rfl, hi, hb⟩

theorem reads_cons (a : Nat → List UInt8) (op : Op) (ops : List Op) :
    reads a (op :: ops) = reads a [op] ++ reads (op.apply a) ops := by
  cases op <;> rfl

theorem run_spec (ops : List Op) :
    ∀ (s : State) (a : Nat → List UInt8), Inv s a → (∀ op ∈ ops, op.ok s.bio_blocksize) →
      ∃ t, run ops s = some (reads a ops, t) ∧ Inv t (latest a ops) ∧
        t.bio_blocksize = s.bio_blocksize := by
  induction ops with
  | nil =>
    intro s a h _
    exact ⟨s, rfl, h, rfl⟩
  | cons op ops ih =>
    intro s a h hok
    obtain ⟨u, hu, hui, hub⟩ := step_spec h op (hok op List.mem_cons_self)
    obtain ⟨t, ht, hti, htb⟩ := ih u (op.apply a) hui
      (fun op' h' => by rw [hub]; exact hok op' (List.mem_cons_of_mem _ h'))
    refine ⟨t, ?_, hti, htb.trans hub⟩
    rw [reads_cons]
    simp only [run, hu, ht, Option.map_some]

theorem binit_inv (s : State) (blocksize : Nat) :
    Inv (binit blocksize s) (dblock (binit blocksize s)) where
  buf _ := Or.inl ⟨rfl, rfl⟩
  coh := by
    refine ⟨?_, ?_, fun _ _ => rfl, fun _ _ _ _ => rfl⟩
    · intro i j k h1
      simp [slot, binit] at h1
    · intro i k h1
      simp [slot, binit] at h1

/-- **The block cache is transparent.**  After `binit`, every sequence of calls on blocks from 1
on returns for each `bread` the data of the latest `bwrite` of that block, or the block the device
had; no block is in two buffers; and a `bflush` leaves on the device the latest data of every
block that was written and every other block as it was. -/
theorem buffers_transparent (s : State) (blocksize : Nat) (ops : List Op)
    (hops : ∀ op ∈ ops, op.ok blocksize) :
    ∃ t, run ops (binit blocksize s)
        = some (reads (fun b => s.disk.get (b * blocksize) blocksize) ops, t) ∧
      (∀ i j, 0 < (t.buflist i).blkno → (t.buflist i).blkno = (t.buflist j).blkno → i = j) ∧
      ∀ b, (bflush t).disk.get (b * blocksize) blocksize
        = latest (fun b => s.disk.get (b * blocksize) blocksize) ops b := by
  obtain ⟨t, ht, hinv, htb⟩ := run_spec ops _ _ (binit_inv s blocksize) hops
  refine ⟨t, ht, ?_, ?_⟩
  · intro i j hi hij
    obtain ⟨n, hn⟩ := Int.eq_ofNat_of_zero_le hi.le
    exact hinv.coh.uniq i j n (slot_key_some hn (by omega))
      (slot_key_some (hij.symm.trans hn) (by omega))
  · intro b
    obtain ⟨-, hb, hd⟩ := bflush_spec hinv
    have h := congrFun hd b
    rwa [dblock, hb.trans htb] at h

/-- a device whose byte `x` is `x`, with buffers left over from an earlier use -/
def leftover : State where
  bio_counter := 40
  bio_blocksize := 4
  buflist := fun _ => { blkno := 9, last_access := 40, dirty := true, data := none }
  disk := fun x => x.toUInt8
  pos := 3

theorem buffers_transparent_leftover :
    (∀ op ∈ [Op.bwrite 1 [5, 6], .bread 1, .bread 3, .bflush], op.ok 2) ∧
      ∃ t, run [Op.bwrite 1 [5, 6], .bread 1, .bread 3, .bflush] (binit 2 leftover)
          = some ([[5, 6], [6, 7]], t) ∧
        (∀ i j, 0 < (t.buflist i).blkno → (t.buflist i).blkno = (t.buflist j).blkno → i = j) ∧
        ∀ b, (bflush t).disk.get (b * 2) 2
          = Function.update (fun b => leftover.disk.get (b * 2) 2) 1 [5, 6] b := by
  have hops : ∀ op ∈ [Op.bwrite 1 [5, 6], .bread 1, .bread 3, .bflush], op.ok 2 := by
    simp [Op.ok]
  exact ⟨hops, buffers_transparent leftover 2 _ hops⟩

end Bio
