import Aboot.Lib.Loop
import Aboot.Machine

/-!
# cons.c: reading a device

`cons_read` over the console's callback `CCB_READ`, which reads whole sectors.

* `Console`        the callback: a call that returns what it was asked for has read the sectors;
* `Spot`, `round`  the loop over the sectors, with a bounce buffer for the first and the last;
* `Spot.Good`      what the loop has read so far;
* `sectors_spec`   the loop ends: with all bytes, or at the first call that fails;
* `cons_read_exact`   `cons_read` gives the bytes of the device exactly when no call fails.

A request is for a buffer that is in memory, so that no sum of the loop is near the end of a `long`.
`calls` records the calls of the callback; nothing in the source depends on it.
-/

namespace Cons

def SECT_SIZE : Int := 512

theorem SECT_SIZE_pos : 0 < SECT_SIZE := by decide

/-- `dispatch(CCB_READ, dev, n, buf, lbn)`: the `i`-th call of the `t`-th `cons_read` -/
structure Console where
  /-- the byte of a device at an offset -/
  bytes : Int → Int → UInt8
  read : (t i : Nat) → (dev n lbn : Int) → ReadRes
  exact : ∀ t i dev n lbn, (read t i dev n lbn).ret = n →
    (read t i dev n lbn).data
      = (List.range n.toNat).map fun k : Nat => bytes dev (lbn * SECT_SIZE + k)
  stored_le : ∀ t i dev n lbn, (read t i dev n lbn).data.length ≤ n.toNat
  ret_le : ∀ t i dev n lbn, (read t i dev n lbn).ret ≤ n

/-- a call of the callback and what it returned -/
structure Call where
  n : Int
  lbn : Int
  ret : Int
deriving DecidableEq, Repr

/-- what `cons_read` returned, what it stored from `buf` on, and its calls -/
structure Outcome extends ReadRes where
  calls : List Call

/-- the loop: what is stored so far is the part of `buf` below the pointer -/
structure Spot where
  bytesleft : Int
  iocount : Int
  blockoffset : Int
  lbn : Int
  stored : List UInt8
  readbuf : Mem
  calls : List Call

section
variable (C : Console) (t : Nat) (dev : Int)

/-- one round of the loop -/
def round (s : Spot) : Spot ⊕ Outcome :=
  if 0 < s.bytesleft then
    let r := C.read t s.calls.length dev SECT_SIZE s.lbn
    let calls := s.calls ++ [⟨SECT_SIZE, s.lbn, r.ret⟩]
    if s.blockoffset = 0 ∧ SECT_SIZE ≤ s.bytesleft then
      -- straight into the buffer
      if r.ret ≠ SECT_SIZE then .inr ⟨⟨-1, s.stored ++ r.data⟩, calls⟩
      else
        .inl ⟨s.bytesleft - SECT_SIZE, s.iocount + SECT_SIZE, 0, s.lbn + 1, s.stored ++ r.data,
          s.readbuf, calls⟩
    else
      if r.ret ≠ SECT_SIZE then .inr ⟨⟨-1, s.stored⟩, calls⟩
      else
        let readbuf := s.readbuf.put 0 r.data
        let iosize :=
          if SECT_SIZE ≤ s.blockoffset + s.bytesleft then SECT_SIZE - s.blockoffset else s.bytesleft
        .inl ⟨s.bytesleft - iosize, s.iocount + iosize, 0, s.lbn + 1,
          s.stored ++ readbuf.get s.blockoffset.toNat iosize.toNat, readbuf, calls⟩
  else .inr ⟨⟨s.iocount, s.stored⟩, s.calls⟩

/-- the sector-by-sector path; `none` is a loop that is not done after `count` rounds -/
def sectors (readbuf : Mem) (count offset : Int) : Option Outcome :=
  Loop.run (round C t dev) (count.toNat + 1)
    ⟨count, 0, offset.tmod SECT_SIZE, offset.tdiv SECT_SIZE, [], readbuf, []⟩

/-- `cons_read`; `readbuf` is what the static buffer holds -/
def cons_read (readbuf : Mem) (count offset : Int) : Option Outcome :=
  if count % SECT_SIZE = 0 ∧ offset % SECT_SIZE = 0 then
    let r := C.read t 0 dev count (offset.tdiv SECT_SIZE)
    some ⟨r, [⟨count, offset.tdiv SECT_SIZE, r.ret⟩]⟩
  else sectors C t dev readbuf count offset

end

/-! ## the bytes -/

/-- the bytes of a device from an offset on -/
def Console.range (C : Console) (dev offset : Int) (n : Nat) : List UInt8 :=
  (List.range n).map fun k : Nat => C.bytes dev (offset + k)

@[simp] theorem length_range (C : Console) (dev offset : Int) (n : Nat) :
    (C.range dev offset n).length = n := by
  rw [Console.range, List.length_map, List.length_range]

theorem range_add (C : Console) (dev offset : Int) (m n : Nat) :
    C.range dev offset (m + n) = C.range dev offset m ++ C.range dev (offset + m) n := by
  simp only [Console.range, List.range_add, List.map_append, List.map_map]
  congr 2
  funext k
  simp only [Function.comp_apply, Nat.cast_add, Int.add_assoc]

/-- what is read from the bounce buffer -/
theorem get_range (C : Console) (dev offset : Int) (buf : Mem) {m a n : Nat} (h : a + n ≤ m) :
    (buf.put 0 (C.range dev offset m)).get a n = C.range dev (offset + a) n := by
  apply List.ext_getElem
  · rw [Mem.length_get, length_range]
  · intro k h1 h2
    rw [length_range] at h2
    have hk : a + k < (C.range dev offset m).length := by
      rw [length_range]
      omega
    simp only [Mem.get, List.getElem_map, List.getElem_range, Console.range]
    have hp := Mem.put_in buf 0 (a + k) (C.range dev offset m) hk
    rw [Nat.zero_add] at hp
    refine hp.trans ?_
    simp only [Console.range, List.getElem_map, List.getElem_range, Nat.cast_add, Int.add_assoc]

/-! ## the loop -/

/-- the calls are calls of the callback, and have its results -/
def Logged (C : Console) (t : Nat) (dev : Int) (calls : List Call) : Prop :=
  ∀ i c, calls[i]? = some c → c.ret = (C.read t i dev c.n c.lbn).ret

theorem Logged.nil {C : Console} {t : Nat} {dev : Int} : Logged C t dev [] := by
  intro i c hc
  cases hc

theorem Logged.append {C : Console} {t : Nat} {dev : Int} {calls : List Call} (h : Logged C t dev calls)
    {c : Call} (hc : c.ret = (C.read t calls.length dev c.n c.lbn).ret) : Logged C t dev (calls ++ [c]) := by
  intro i d hd
  rcases Nat.lt_or_ge i calls.length with hlt | hge
  · rw [List.getElem?_append_left hlt] at hd
    exact h i d hd
  · rw [List.getElem?_append_right hge, List.getElem?_singleton] at hd
    split at hd
    · obtain rfl : i = calls.length := by omega
      rwa [← Option.some.inj hd]
    · cases hd

/-- when every read of whole sectors succeeds, so do the calls -/
theorem Logged.all {C : Console} {t : Nat} {dev : Int} {calls : List Call} (h : Logged C t dev calls)
    (hwhole : ∀ c ∈ calls, 0 < c.n ∧ SECT_SIZE ∣ c.n)
    (hread : ∀ i n lbn, 0 < n → SECT_SIZE ∣ n → (C.read t i dev n lbn).ret = n) :
    ∀ c ∈ calls, c.ret = c.n := by
  intro c hc
  obtain ⟨i, hi⟩ := List.mem_iff_getElem?.mp hc
  obtain ⟨h1, h2⟩ := hwhole c hc
  exact (h i c hi).trans (hread i c.n c.lbn h1 h2)

/-- what an outcome should be: whole sectors were asked for, nothing is stored past the request, and
either all calls and the request succeeded or one of them failed -/
structure Outcome.Right (C : Console) (t : Nat) (dev count offset : Int) (o : Outcome) : Prop where
  logged : Logged C t dev o.calls
  whole : 0 < count → ∀ c ∈ o.calls, 0 < c.n ∧ SECT_SIZE ∣ c.n
  ret_le : o.ret ≤ count
  within : o.data.length ≤ count.toNat
  exact : (∀ c ∈ o.calls, c.ret = c.n) → o.ret = count ∧ o.data = C.range dev offset count.toNat
  failed : (∃ c ∈ o.calls, c.ret ≠ c.n) → o.ret ≠ count

/-- the loop has read the bytes up to `iocount` -/
structure Spot.Good (C : Console) (t : Nat) (dev count offset : Int) (s : Spot) : Prop where
  logged : Logged C t dev s.calls
  left : 0 ≤ s.bytesleft
  read : 0 ≤ s.iocount
  sum : s.iocount + s.bytesleft = count
  inSector : 0 ≤ s.blockoffset ∧ s.blockoffset < SECT_SIZE
  place : 0 < s.bytesleft → s.lbn * SECT_SIZE + s.blockoffset = offset + s.iocount
  stored : s.stored = C.range dev offset s.iocount.toNat
  calls : ∀ c ∈ s.calls, c.n = SECT_SIZE ∧ c.ret = SECT_SIZE

section
variable {C : Console} {t : Nat} {dev count offset : Int} {s : Spot}

/-- a round that has read `iosize` bytes more -/
theorem Spot.Good.next (h : s.Good C t dev count offset) {iosize ret : Int} (readbuf : Mem)
    (hret : ret = SECT_SIZE) (hread : ret = (C.read t s.calls.length dev SECT_SIZE s.lbn).ret)
    (hpos : 0 < iosize) (hle : iosize ≤ s.bytesleft)
    (hend : iosize = s.bytesleft ∨ s.blockoffset + iosize = SECT_SIZE) {data : List UInt8}
    (hdata : data = C.range dev (offset + s.iocount) iosize.toNat) :
    Spot.Good C t dev count offset ⟨s.bytesleft - iosize, s.iocount + iosize, 0, s.lbn + 1,
      s.stored ++ data, readbuf, s.calls ++ [⟨SECT_SIZE, s.lbn, ret⟩]⟩ where
  logged := h.logged.append hread
  left := Int.sub_nonneg.mpr hle
  read := by
    have := h.read
    show 0 ≤ s.iocount + iosize
    omega
  sum := by
    have := h.sum
    show s.iocount + iosize + (s.bytesleft - iosize) = count
    omega
  inSector := ⟨le_refl 0, SECT_SIZE_pos⟩
  place hleft := by
    have hleft : 0 < s.bytesleft - iosize := hleft
    have hplace := h.place (by omega)
    show (s.lbn + 1) * SECT_SIZE + 0 = offset + (s.iocount + iosize)
    rcases hend with hend | hend
    · omega
    · rw [Int.add_mul]
      omega
  stored := by
    have hsum : (s.iocount + iosize).toNat = s.iocount.toNat + iosize.toNat :=
      Int.toNat_add h.read hpos.le
    show s.stored ++ data = C.range dev offset (s.iocount + iosize).toNat
    rw [hsum, range_add, h.stored, hdata, Int.toNat_of_nonneg h.read]
  calls := by
    intro c hc
    rcases List.mem_append.mp hc with hc | hc
    · exact h.calls c hc
    · rw [List.mem_singleton.mp hc]
      exact ⟨rfl, hret⟩

/-- the calls of the loop ask for sectors -/
theorem whole_calls {calls : List Call} (h : ∀ c ∈ calls, c.n = SECT_SIZE) :
    ∀ c ∈ calls, 0 < c.n ∧ SECT_SIZE ∣ c.n := by
  intro c hc
  rw [h c hc]
  exact ⟨by decide, dvd_refl _⟩

/-- a round that leaves with an error -/
theorem Spot.Good.error (h : s.Good C t dev count offset) (hcount : 0 ≤ count) {ret : Int}
    (hret : ret ≠ SECT_SIZE) (hread : ret = (C.read t s.calls.length dev SECT_SIZE s.lbn).ret)
    {data : List UInt8} (hlen : data.length ≤ s.bytesleft.toNat) :
    Outcome.Right C t dev count offset ⟨⟨-1, s.stored ++ data⟩, s.calls ++ [⟨SECT_SIZE, s.lbn, ret⟩]⟩ where
  logged := h.logged.append hread
  whole _ := by
    apply whole_calls
    intro c hc
    rcases List.mem_append.mp hc with hc | hc
    · exact (h.calls c hc).1
    · rw [List.mem_singleton.mp hc]
  ret_le := by
    show (-1 : Int) ≤ count
    omega
  within := by
    have h0 := h.left
    have h1 := h.read
    have h2 := h.sum
    show (s.stored ++ data).length ≤ count.toNat
    rw [List.length_append, h.stored, length_range]
    omega
  exact hall := absurd (hall _ (List.mem_append_right _ (List.mem_singleton.mpr rfl))) hret
  failed _ := by
    show (-1 : Int) ≠ count
    omega

/-- the loop that is done -/
theorem Spot.Good.done (h : s.Good C t dev count offset) (hleft : ¬ 0 < s.bytesleft) :
    Outcome.Right C t dev count offset ⟨⟨s.iocount, s.stored⟩, s.calls⟩ := by
  have hcount : s.iocount = count := by
    have h1 := h.left
    have h2 := h.sum
    omega
  refine ⟨h.logged, fun _ => whole_calls fun c hc => (h.calls c hc).1, hcount.le, ?_, fun _ => ⟨hcount, ?_⟩, ?_⟩
  · show s.stored.length ≤ count.toNat
    rw [h.stored, length_range, hcount]
  · show s.stored = _
    rw [h.stored, hcount]
  · rintro ⟨c, hc, hne⟩
    obtain ⟨h1, h2⟩ := h.calls c hc
    exact absurd (h2.trans h1.symm) hne

/-- one round: it reads on, or the loop is left with the right outcome -/
theorem round_spec (hcount : 0 ≤ count) (h : s.Good C t dev count offset) :
    (∃ u, Loop.Next (round C t dev) s u ∧ u.Good C t dev count offset ∧
        u.bytesleft.toNat < s.bytesleft.toNat) ∨
      ∃ o, round C t dev s = .inr o ∧ o.Right C t dev count offset := by
  by_cases hleft : 0 < s.bytesleft
  swap
  · exact Or.inr ⟨_, by rw [round, if_neg hleft], h.done hleft⟩
  have hplace := h.place hleft
  have hsect := h.inSector
  have hstored := C.stored_le t s.calls.length dev SECT_SIZE s.lbn
  have hexact : (C.read t s.calls.length dev SECT_SIZE s.lbn).ret = SECT_SIZE →
      (C.read t s.calls.length dev SECT_SIZE s.lbn).data
        = C.range dev (s.lbn * SECT_SIZE) SECT_SIZE.toNat := C.exact t s.calls.length dev SECT_SIZE s.lbn
  have hpos := SECT_SIZE_pos
  by_cases hret : (C.read t s.calls.length dev SECT_SIZE s.lbn).ret = SECT_SIZE
  · refine Or.inl ?_
    by_cases hfull : s.blockoffset = 0 ∧ SECT_SIZE ≤ s.bytesleft
    · -- a whole sector
      have hdata : (C.read t s.calls.length dev SECT_SIZE s.lbn).data
          = C.range dev (offset + s.iocount) SECT_SIZE.toNat := by
        rw [hexact hret, ← hplace, hfull.1, Int.add_zero]
      refine ⟨_, ?_, h.next s.readbuf hret rfl hpos hfull.2 (Or.inr (by omega)) hdata, ?_⟩
      · rw [Loop.Next, round, if_pos hleft, if_pos hfull, if_neg (not_not.mpr hret)]
      · show (s.bytesleft - SECT_SIZE).toNat < s.bytesleft.toNat
        omega
    · -- the first sector or the last, through the bounce buffer
      obtain ⟨iosize, hio⟩ : ∃ n, n = if SECT_SIZE ≤ s.blockoffset + s.bytesleft
        then SECT_SIZE - s.blockoffset else s.bytesleft := ⟨_, rfl⟩
      have hsize : 0 < iosize ∧ iosize ≤ s.bytesleft ∧ s.blockoffset + iosize ≤ SECT_SIZE ∧
          (iosize = s.bytesleft ∨ s.blockoffset + iosize = SECT_SIZE) := by
        rw [hio]
        split <;> omega
      have hdata : (s.readbuf.put 0 (C.read t s.calls.length dev SECT_SIZE s.lbn).data).get
          s.blockoffset.toNat iosize.toNat = C.range dev (offset + s.iocount) iosize.toNat := by
        rw [hexact hret, get_range C dev _ _ (by omega), ← hplace, Int.toNat_of_nonneg hsect.1]
      refine ⟨_, ?_, h.next (s.readbuf.put 0 (C.read t s.calls.length dev SECT_SIZE s.lbn).data) hret
        rfl hsize.1 hsize.2.1 hsize.2.2.2 hdata, ?_⟩
      · rw [Loop.Next, round, if_pos hleft, if_neg hfull, if_neg (not_not.mpr hret)]
        dsimp only
        rw [← hio]
      · show (s.bytesleft - iosize).toNat < s.bytesleft.toNat
        omega
  · refine Or.inr ?_
    by_cases hfull : s.blockoffset = 0 ∧ SECT_SIZE ≤ s.bytesleft
    · have hlen : (C.read t s.calls.length dev SECT_SIZE s.lbn).data.length ≤ s.bytesleft.toNat := by
        omega
      refine ⟨_, ?_, h.error hcount hret rfl hlen⟩
      rw [round, if_pos hleft, if_pos hfull, if_pos hret]
    · have hlen : ([] : List UInt8).length ≤ s.bytesleft.toNat := Nat.zero_le _
      refine ⟨_, ?_, h.error hcount hret rfl hlen⟩
      rw [round, if_pos hleft, if_neg hfull, if_pos hret, List.append_nil]

variable (C t dev) in
/-- the loop ends with the right outcome -/
theorem sectors_spec (hcount : 0 ≤ count) (hoff : 0 ≤ offset) (readbuf : Mem) :
    ∃ o, sectors C t dev readbuf count offset = some o ∧ o.Right C t dev count offset := by
  have hstart : Spot.Good C t dev count offset
      ⟨count, 0, offset.tmod SECT_SIZE, offset.tdiv SECT_SIZE, [], readbuf, []⟩ := by
    refine ⟨fun i c hc => (by cases hc), hcount, le_refl 0, Int.zero_add _, ⟨Int.tmod_nonneg _ hoff, ?_⟩, fun _ => ?_, rfl, ?_⟩
    · exact Int.tmod_lt_of_pos offset SECT_SIZE_pos
    · have := Int.mul_tdiv_add_tmod offset SECT_SIZE
      show offset.tdiv SECT_SIZE * SECT_SIZE + offset.tmod SECT_SIZE = offset + 0
      rw [Int.mul_comm, this, Int.add_zero]
    · intro c hc
      cases hc
  exact Loop.run_spec (I := Spot.Good C t dev count offset) (fun s : Spot => s.bytesleft.toNat)
    (fun s hs => round_spec hcount hs) hstart (Nat.lt_succ_self _)

/-- the one call for an aligned request -/
theorem aligned_right (hc : count % SECT_SIZE = 0) (ho : offset % SECT_SIZE = 0) :
    Outcome.Right C t dev count offset ⟨C.read t 0 dev count (offset.tdiv SECT_SIZE),
      [⟨count, offset.tdiv SECT_SIZE, (C.read t 0 dev count (offset.tdiv SECT_SIZE)).ret⟩]⟩ where
  logged := Logged.nil.append rfl
  whole hcount := List.forall_mem_singleton.mpr ⟨hcount, Int.dvd_of_emod_eq_zero hc⟩
  ret_le := C.ret_le _ _ _ _ _
  within := C.stored_le _ _ _ _ _
  exact hall := by
    have hret : (C.read t 0 dev count (offset.tdiv SECT_SIZE)).ret = count :=
      hall _ (List.mem_singleton.mpr rfl)
    refine ⟨hret, ?_⟩
    show (C.read t 0 dev count (offset.tdiv SECT_SIZE)).data = _
    rw [C.exact t 0 dev count _ hret, Int.tdiv_mul_cancel (Int.dvd_of_emod_eq_zero ho)]
    rfl
  failed := by
    rintro ⟨c, hc, hne⟩
    rw [List.mem_singleton.mp hc] at hne
    exact hne

variable (C t dev) in
theorem cons_read_right (hcount : 0 ≤ count) (hoff : 0 ≤ offset) (readbuf : Mem) :
    ∃ o, cons_read C t dev readbuf count offset = some o ∧ o.Right C t dev count offset := by
  unfold cons_read
  split
  · rename_i h
    exact ⟨_, rfl, aligned_right h.1 h.2⟩
  · exact sectors_spec C t dev hcount hoff readbuf

/-- what is stored of an outcome that succeeded -/
theorem put_range (buf : Mem) (n k : Nat) :
    buf.put 0 (C.range dev offset n) k = if k < n then C.bytes dev (offset + k) else buf k := by
  split
  · rename_i hk
    have hp := Mem.put_in buf 0 k (C.range dev offset n) (by rw [length_range]; exact hk)
    rw [Nat.zero_add] at hp
    rw [hp]
    simp only [Console.range, List.getElem_map, List.getElem_range]
  · rw [Mem.put_out _ _ _ _ (Or.inr (by rw [length_range]; omega))]

end

/-- a console whose calls all succeed -/
def Console.faultless (bytes : Int → Int → UInt8) : Console where
  bytes := bytes
  read _ _ dev n lbn := ⟨n, (List.range n.toNat).map fun k : Nat => bytes dev (lbn * SECT_SIZE + k)⟩
  exact _ _ _ _ _ _ := rfl
  stored_le _ _ _ _ _ := by simp
  ret_le _ _ _ _ _ := le_refl _

/-- what the loader assumes of `cons_read` -/
theorem cons_read_assumed (C : Console) (t : Nat) (dev : Int) (readbuf : Mem) (count offset : Int)
    (hcount : 0 ≤ count) (hoff : 0 ≤ offset) :
    ∃ o, cons_read C t dev readbuf count offset = some o ∧
      (o.ret = count → o.data = (List.range count.toNat).map fun k : Nat => C.bytes dev (offset + k)) ∧
      o.data.length ≤ count.toNat ∧ o.ret ≤ count := by
  obtain ⟨o, ho, hright⟩ := cons_read_right C t dev hcount hoff readbuf
  refine ⟨o, ho, fun hret => ?_, hright.within, hright.ret_le⟩
  refine (hright.exact fun c hc => ?_).2
  by_contra hne
  exact hright.failed ⟨c, hc, hne⟩ hret

end Cons
