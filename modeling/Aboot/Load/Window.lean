import Aboot.Load.Plan

/-!
# Compressed kernels: the copies of `flush_window`

The stream `F` of `N` bytes comes in windows of `WSIZE` bytes.  A segment is first met in the window
that it begins in, at the position `base`, where the segment before it ended or the window starts;
`gap` bytes of the window lie before it and `here` bytes of it lie in the window.  The source copies
`gap + here` bytes from `gap` bytes after the start of the window: too many by `gap`, and, as it
starts over at the window's first byte, those of `base % WSIZE` positions earlier.

`firstCopy` is that copy; the later copies of a segment are whole windows.  `loadSeg` is the effect
of all the copies of one segment, and `loadAll` that of all segments.

* `flushPlan_in`, `flushPlan_skip`   the plan of one segment in numbers;
* `flushPlan_spec`    one window;
* `planAll_spec`      all windows: their copies are good when the first ones are, and have the
                      effect of `loadAll`.
-/

set_option linter.unusedVariables false

namespace Load
open Word State

/-! ## the layout of a stream -/

/-- the window that a position is in, and its length -/
def windowStart (p : Nat) : Nat := p / WSIZE * WSIZE
def windowLen (N p : Nat) : Nat := min WSIZE (N - windowStart p)

/-- the position at which a segment is first met, when the stream was consumed up to `p` -/
def base (p : Nat) (s : Segment) : Nat :=
  if s.offset ≤ p then p else max p (windowStart s.offset)

/-- the bytes between the base and the segment -/
def gap (p : Nat) (s : Segment) : Nat := s.offset - base p s

/-- the bytes of the segment in the window of the base -/
def here (N p : Nat) (s : Segment) : Nat :=
  min s.fileEnd (windowStart (base p s) + windowLen N (base p s)) - max (base p s) s.offset

/-- the end of a segment in the file, as a 64-bit number -/
def Segment.stop (s : Segment) : Nat := s.fileEnd % 18446744073709551616

/-- the copy that is made when a segment is first met -/
def firstCopy (N p : Nat) (s : Segment) : Copy :=
  ⟨(s.addr + (base p s - s.offset)) % 18446744073709551616, gap p s,
    min s.stop (windowStart (base p s) + windowLen N (base p s)) - base p s, windowLen N (base p s)⟩

/-- a segment that the stream comes to at `p` does not end before that and not 2^63 bytes later, and
its first copy is good -/
structure Good (P : Copy → Prop) (N p : Nat) (s : Segment) : Prop where
  start : base p s ≤ s.stop
  size : s.stop < base p s + 9223372036854775808
  first : P (firstCopy N p s)

/-- all segments that a stream of `N` bytes comes to are good, from the position `p` on.  An offset of
2^63 or more past the stream counts as one before it, for the windows that begin 2^63 bytes or more
before the offset. -/
def AllGood (P : Copy → Prop) (N : Nat) : List Segment → Nat → Prop
  | [], _ => True
  | s :: segs, p => p < N →
    (s.offset < p + 9223372036854775808 → s.offset < N → Good P N p s ∧ AllGood P N segs s.stop) ∧
    (p + 9223372036854775808 ≤ s.offset → p ≤ s.stop ∧ s.stop < p + 9223372036854775808 ∧
      (max p (windowStart s.stop) + 9223372036854775808 ≤ s.offset → AllGood P N segs s.stop))

/-- `n` bytes of the stream from `p` on -/
def slice (F : Nat → UInt8) (p n : Nat) : List UInt8 := (List.range n).map fun k => F (p + k)

/-- the effect of the copies of one segment: those of the first window, and the rest -/
def loadSeg (F : Nat → UInt8) (N p : Nat) (s : Segment) (m : Mem) : Mem :=
  if N ≤ s.offset then m
  else
    (m.put (s.addr + (base p s - s.offset))
      (slice F (max (base p s) s.offset - base p s % WSIZE) (gap p s + here N p s))).put
      (s.addr + (base p s - s.offset) + here N p s)
      (slice F (max (base p s) s.offset + here N p s)
        (s.fileEnd - (max (base p s) s.offset + here N p s)))

/-- the effect of the copies of all segments -/
def loadAll (F : Nat → UInt8) (N : Nat) : List Segment → Nat → Mem → Mem
  | [], _, m => m
  | s :: segs, p, m => loadAll F N segs s.fileEnd (loadSeg F N p s m)

/-- listed by increasing offset, without overlap -/
def FileOrder (segs : List Segment) : Prop := segs.Pairwise fun a b => a.fileEnd ≤ b.offset

/-! ## slices -/

@[simp] theorem length_slice (F : Nat → UInt8) (p n : Nat) : (slice F p n).length = n := by
  simp [slice]

@[simp] theorem slice_zero (F : Nat → UInt8) (p : Nat) : slice F p 0 = [] := rfl

theorem put_put_next (m : Mem) (a : Nat) (x y : List UInt8) :
    (m.put a x).put (a + x.length) y = m.put a (x ++ y) := by
  funext z
  simp only [Mem.put]
  by_cases h1 : a + x.length ≤ z
  · have h2 : a ≤ z := by omega
    have h3 : x.length ≤ z - a := by omega
    have h4 : z - (a + x.length) = z - a - x.length := by omega
    rw [if_pos h1, if_pos h2, if_pos h2, List.getElem?_append_right h3, h4,
      List.getElem?_eq_none h3]
    rfl
  · rw [if_neg h1]
    by_cases h2 : a ≤ z
    · rw [if_pos h2, if_pos h2, List.getElem?_append_left (by omega)]
    · rw [if_neg h2, if_neg h2]

theorem slice_append (F : Nat → UInt8) (p a b : Nat) :
    slice F p a ++ slice F (p + a) b = slice F p (a + b) := by
  unfold slice
  rw [List.range_add, List.map_append, List.map_map]
  simp only [Function.comp_def, Nat.add_assoc]

/-! ## windows -/

theorem windowStart_le (p : Nat) : windowStart p ≤ p := Nat.div_mul_le_self p WSIZE

/-- a position of the window at `w` -/
theorem windowStart_of {w p : Nat} (hw : w % WSIZE = 0) (h1 : w ≤ p) (h2 : p < w + WSIZE) :
    windowStart p = w := by
  unfold windowStart WSIZE at *
  omega

theorem windowLen_bound {w N : Nat} (hws : windowStart w = w) (h : 0 < windowLen N w) :
    w + windowLen N w ≤ N := by
  rw [windowLen, hws] at h ⊢
  omega

theorem windowLen_pos {w N : Nat} (hws : windowStart w = w) (h : w < N) : 0 < windowLen N w := by
  rw [windowLen, hws, WSIZE]
  omega

theorem mod_of {w p : Nat} (hw : w % WSIZE = 0) (h1 : w ≤ p) (h2 : p < w + WSIZE) :
    p % WSIZE = p - w := by
  unfold WSIZE at *
  omega

/-! ## the loop in numbers -/

theorem stop_eq {s : Segment} (h : s.fileEnd < 18446744073709551616) : s.stop = s.fileEnd :=
  Nat.mod_eq_of_lt h

theorem stop_le (s : Segment) : s.stop ≤ s.fileEnd := Nat.mod_le _ _

section
variable {n i p r : Nat} {s : Segment} {segs : List Segment}

theorem uns32_natCast_le {n : Nat} (h : n ≤ WSIZE) : uns 32 (n : Int) = n :=
  uns32_natCast (by unfold WSIZE at h; omega)

theorem srcOf_eq (hp : p < 9223372036854775808) (ho : s.offset < p + 9223372036854775808) :
    srcOf p s = ((s.offset - p : Nat) : Int) := by
  have e : chunk_offset p s = (p : Int) - s.offset := sgn64_of_range (by omega) (by omega)
  unfold srcOf
  rw [e]
  split
  · rw [sgn64_of_range (by omega) (by omega)]
    omega
  · omega

theorem destOf_eq (hp : p < 9223372036854775808) (ho : s.offset < p + 9223372036854775808)
    (ha : s.addr < 18446744073709551616) :
    destOf p s = (s.addr + (p - s.offset)) % 18446744073709551616 := by
  have e : chunk_offset p s = (p : Int) - s.offset := sgn64_of_range (by omega) (by omega)
  unfold destOf
  rw [e]
  split
  · rw [Nat.sub_eq_zero_of_le (by omega), Nat.add_zero, Nat.mod_eq_of_lt ha]
  · rw [show (s.addr : Int) + ((p : Int) - s.offset) = (s.addr + (p - s.offset) : Nat) by omega]
    unfold uns
    omega

/-- an offset of 2^63 or more past the position: nothing is skipped -/
theorem srcOf_far (ho : p + 9223372036854775808 ≤ s.offset) (ho' : s.offset < 18446744073709551616) :
    srcOf p s ≤ 0 := by
  obtain ⟨q, hq, h1, h2⟩ := sgn64_cases ((p : Int) - s.offset)
  obtain ⟨q', hq', h3, h4⟩ := sgn64_cases (-sgn 64 ((p : Int) - s.offset))
  unfold srcOf chunk_offset
  split <;> omega

/-- the copy goes into the segment -/
theorem destOf_far (ho : p + 9223372036854775808 ≤ s.offset) (hs : s.Fits) (hp : p ≤ s.stop)
    (hstop : s.stop < p + 9223372036854775808) :
    ∃ k, destOf p s = (s.addr + k) % 18446744073709551616 ∧ k + (s.stop - p) ≤ s.size := by
  have h1 := hs.offset
  have h2 := hs.size
  have h3 := hs.addr
  have hend : s.stop = (s.offset + s.size) % 18446744073709551616 := rfl
  obtain ⟨q, hq, hlow, hhigh⟩ := sgn64_cases ((p : Int) - s.offset)
  unfold destOf chunk_offset
  split
  · exact ⟨0, by rw [Nat.add_zero, Nat.mod_eq_of_lt h3], by omega⟩
  · have hle : s.offset ≤ p + 18446744073709551616 := by omega
    obtain ⟨k, hk⟩ := Nat.exists_eq_add_of_le hle
    have e : (s.addr : Int) + sgn 64 ((p : Int) - s.offset) = (s.addr + k : Nat) := by omega
    refine ⟨k, ?_, by omega⟩
    rw [e]
    unfold uns
    omega

theorem to_copy_eq (hp : p ≤ s.stop) (hs : s.stop < p + 9223372036854775808) :
    to_copy p r s = (min (s.stop - p) r : Nat) := by
  have hend : s.stop = (s.offset + s.size) % 18446744073709551616 := rfl
  have e : sgn 64 ((s.offset : Int) + s.size - p) = (s.stop - p : Nat) := by
    obtain ⟨q, hq, h1, h2⟩ := sgn64_cases ((s.offset : Int) + s.size - p)
    omega
  rw [to_copy, e]
  split <;> omega

/-- a segment that begins past the window -/
theorem flushPlan_skip (hp : p + r < 9223372036854775808) (ho : s.offset < p + 9223372036854775808)
    (hr : r ≤ s.offset - p) :
    flushPlan n i (s :: segs) p r
      = ⟨n, i, s :: segs, p + r, [.table (sizeof_segment * i + 8) 8], false⟩ := by
  have hpr : uns 64 ((p + r : Nat) : Int) = p + r := uns64_natCast (by omega)
  rw [flushPlan, srcOf_eq (by omega) ho, if_pos (by omega), hpr]

/-- a segment that is copied from -/
theorem flushPlan_copy (hp : p + r < 9223372036854775808) (hr : r ≤ WSIZE) (ho : srcOf p s < r)
    (h1 : p ≤ s.stop) (h2 : s.stop < p + 9223372036854775808) :
    flushPlan n i (s :: segs) p r =
      if s.stop - p < r then
        (flushPlan n (i + 1) segs s.stop (r - (s.stop - p))).after
          [.table (sizeof_segment * i) sizeof_segment,
            .copy ⟨destOf p s, uns 64 (srcOf p s), s.stop - p, n⟩]
      else ⟨n, i, s :: segs, p + r, [.table (sizeof_segment * i) sizeof_segment,
        .copy ⟨destOf p s, uns 64 (srcOf p s), r, n⟩], false⟩ := by
  have hw : WSIZE = 32768 := rfl
  have hpr : uns 64 ((p + r : Nat) : Int) = p + r := uns64_natCast (by omega)
  rw [flushPlan, copyOf, to_copy_eq h1 h2, if_neg (by omega)]
  by_cases h3 : s.stop - p < r
  · have hmin : min (s.stop - p) r = s.stop - p := by omega
    have e1 : (p : Int) + ((s.stop - p : Nat) : Int) = (s.stop : Nat) := by omega
    have e2 : (r : Int) - ((s.stop - p : Nat) : Int) = (r - (s.stop - p) : Nat) := by omega
    have e3 : ¬ ((s.stop - p : Nat) : Int) < 0 := by omega
    have e4 : ((s.stop - p : Nat) : Int) < (r : Int) := by omega
    simp only [hmin, if_neg e3, if_pos e4, if_pos h3, e1, e2]
    rw [uns64_natCast (by omega), uns64_natCast (by omega), uns32_natCast_le (by omega)]
  · have hmin : min (s.stop - p) r = r := by omega
    have e1 : (p : Int) + (r : Int) = (p + r : Nat) := by omega
    have e3 : ¬ (r : Int) < 0 := by omega
    simp only [hmin, if_neg e3, lt_irrefl, if_false, if_neg h3, e1, hpr]
    rw [uns64_natCast (by omega)]

/-- one that begins in the window, or before it -/
theorem flushPlan_in (hp : p + r < 9223372036854775808) (h0 : 0 < r) (hr : r ≤ WSIZE)
    (ha : s.addr < 18446744073709551616) (ho : s.offset < p + r) (h1 : p ≤ s.stop)
    (h2 : s.stop < p + 9223372036854775808) :
    flushPlan n i (s :: segs) p r =
      if s.stop - p < r then
        (flushPlan n (i + 1) segs s.stop (r - (s.stop - p))).after
          [.table (sizeof_segment * i) sizeof_segment,
            .copy ⟨(s.addr + (p - s.offset)) % 18446744073709551616, s.offset - p, s.stop - p, n⟩]
      else ⟨n, i, s :: segs, p + r, [.table (sizeof_segment * i) sizeof_segment,
        .copy ⟨(s.addr + (p - s.offset)) % 18446744073709551616, s.offset - p, r, n⟩], false⟩ := by
  have ho' : s.offset < p + 9223372036854775808 := by omega
  have hsrc : uns 64 ((s.offset - p : Nat) : Int) = s.offset - p := uns64_natCast (by omega)
  rw [flushPlan_copy hp hr (by rw [srcOf_eq (by omega) ho']; omega) h1 h2, srcOf_eq (by omega) ho',
    destOf_eq (by omega) ho' ha, hsrc]

/-- a segment that does not lead to a copy of negative length -/
theorem flushPlan_free (hp : p < 9223372036854775808) (hr : 0 < r) (hs : s.offset < 18446744073709551616)
    (h : (flushPlan n i (s :: segs) p r).stuck = false) :
    (p + r ≤ s.offset ∧ s.offset < p + 9223372036854775808) ∨
      (p ≤ s.stop ∧ s.stop < p + 9223372036854775808) := by
  have hend : s.stop = (s.offset + s.size) % 18446744073709551616 := rfl
  rw [flushPlan] at h
  by_cases hskip : (r : Int) ≤ srcOf p s
  · left
    by_cases ho : s.offset < p + 9223372036854775808
    · rw [srcOf_eq hp ho] at hskip
      omega
    · have := srcOf_far (p := p) (s := s) (by omega) hs
      omega
  · right
    rw [if_neg hskip] at h
    simp only at h
    have hpos : ¬ to_copy p r s < 0 := by
      intro hneg
      rw [if_pos hneg] at h
      cases h
    obtain ⟨q, hq, h1, h2⟩ := sgn64_cases ((s.offset : Int) + s.size - p)
    unfold to_copy at hpos
    simp only at hpos
    split at hpos <;> omega

end

/-! ## one window -/

/-- a copy that stays in its window -/
def InWindow (c : Copy) : Prop := c.src + c.len ≤ c.outcnt

instance (c : Copy) : Decidable (InWindow c) := inferInstanceAs (Decidable (_ ≤ _))

/-- copies from the start of a window into a segment are good; with an offset of 2^63 or more, from
anywhere -/
def Inside (P : Copy → Prop) (s : Segment) : Prop :=
  ∀ k src n l, src = 0 ∨ 9223372036854775808 ≤ s.offset → k + n ≤ s.size → n ≤ l →
    P ⟨(s.addr + k) % 18446744073709551616, src, n, l⟩

theorem inside_inWindow {s : Segment} (hs : s.offset < 9223372036854775808) : Inside InWindow s := by
  intro k src n l hsrc _ h
  show src + n ≤ l
  omega

/-- the copies out of a window that holds the stream from `w` on -/
def putCopies (F : Nat → UInt8) (w : Nat) (cs : List Copy) (m : Mem) : Mem :=
  cs.foldl (fun m c => m.put c.dest (slice F (w + c.src) c.len)) m

/-- a segment in the file, at a range of addresses -/
structure Fine (N : Nat) (s : Segment) : Prop where
  file : s.fileEnd ≤ N
  addr : s.addr + s.size < 18446744073709551616

section
variable {F : Nat → UInt8} {P : Copy → Prop} {N w p : Nat} {s : Segment}

/-- a segment that starts past the window is met as before -/
theorem base_skip (hw : w % WSIZE = 0) (h1 : w ≤ p) (h2 : p < w + WSIZE)
    (hs : w + WSIZE ≤ s.offset) : base p s = base (w + WSIZE) s := by
  have hge : w + WSIZE ≤ windowStart s.offset := by
    unfold windowStart WSIZE at *
    omega
  have hle := windowStart_le s.offset
  unfold base
  rw [if_neg (by omega), max_eq_right (by omega)]
  split <;> omega

/-- the end of a window is the start of the next one, or of the stream -/
theorem windowLen_eq (hws : windowStart w = w) : windowLen N w = WSIZE ∨ N ≤ w + windowLen N w := by
  rw [windowLen, hws]
  omega

/-- nothing changes for a segment that starts past the window -/
theorem seg_skip {m : Mem} (hw : w % WSIZE = 0) (h1 : w ≤ p) (h2 : p < w + WSIZE)
    (hs : w + windowLen N w ≤ s.offset) (hws : windowStart w = w) :
    loadSeg F N p s m = loadSeg F N (w + windowLen N w) s m ∧
      (s.offset < N → (Good P N p s ↔ Good P N (w + windowLen N w) s)) := by
  by_cases hN : N ≤ s.offset
  · exact ⟨by rw [loadSeg, loadSeg, if_pos hN, if_pos hN], fun h => absurd h (by omega)⟩
  · have hlen : windowLen N w = WSIZE := by
      have := windowLen_eq (N := N) hws
      omega
    rw [hlen] at hs ⊢
    have hb := base_skip hw h1 h2 hs
    have hfirst : firstCopy N p s = firstCopy N (w + WSIZE) s := by simp only [firstCopy, gap, hb]
    refine ⟨by simp only [loadSeg, gap, here, hb], fun _ => ⟨fun h => ⟨?_, ?_, ?_⟩,
      fun h => ⟨?_, ?_, ?_⟩⟩⟩
    · rw [← hb]; exact h.start
    · rw [← hb]; exact h.size
    · rw [← hfirst]; exact h.first
    · rw [hb]; exact h.start
    · rw [hb]; exact h.size
    · rw [hfirst]; exact h.first

/-- a segment that was begun goes on with the next window, in a copy into the segment -/
theorem first_begun (hw : p % WSIZE = 0 ∨ N ≤ p) (hs : s.offset ≤ p) (hp : p ≤ s.stop)
    (hP : Inside P s) : P (firstCopy N p s) := by
  have hb : base p s = p := by rw [base, if_pos hs]
  have hgap : gap p s = 0 := by rw [gap, hb]; omega
  have hstop := stop_le s
  have hfe : s.fileEnd = s.offset + s.size := rfl
  rw [firstCopy, hgap, hb]
  refine hP _ _ _ _ (Or.inl rfl) (by omega) ?_
  have hle := windowStart_le p
  rw [windowLen]
  unfold windowStart WSIZE at *
  omega

/-- a segment that is met in the window at `w`, from the position `p` on -/
theorem base_here (hw : w % WSIZE = 0) (h1 : w ≤ p) (h2 : p < w + windowLen N w)
    (hs : s.offset < w + windowLen N w) (hws : windowStart w = w) :
    base p s = p ∧ windowStart p = w ∧ windowLen N p = windowLen N w ∧ p % WSIZE = p - w := by
  have hle : windowLen N w ≤ WSIZE := Nat.min_le_left _ _
  have hp := windowStart_of hw h1 (by omega)
  refine ⟨?_, hp, ?_, mod_of hw h1 (by omega)⟩
  · unfold base
    split
    · rfl
    · rw [windowStart_of hw (by omega) (by omega), max_eq_left h1]
  · rw [windowLen, hp, windowLen, hws]

/-- its first copy -/
theorem first_here (hw : w % WSIZE = 0) (h1 : w ≤ p) (h2 : p < w + windowLen N w)
    (hs : s.offset < w + windowLen N w) (hws : windowStart w = w) :
    firstCopy N p s = ⟨(s.addr + (p - s.offset)) % 18446744073709551616, s.offset - p,
      min s.stop (w + windowLen N w) - p, windowLen N w⟩ := by
  obtain ⟨hb, hst, hlen, -⟩ := base_here hw h1 h2 hs hws
  unfold firstCopy gap
  rw [hb, hst, hlen]

/-- its first copy in memory, and what is left of it -/
theorem loadSeg_here {m : Mem} (hw : w % WSIZE = 0) (h1 : w ≤ p) (h2 : p < w + windowLen N w)
    (hs : s.offset < w + windowLen N w) (hws : windowStart w = w) (hp : p ≤ s.fileEnd) :
    loadSeg F N p s m
      = (m.put (s.addr + (p - s.offset))
          (slice F (w + (s.offset - p)) (min s.fileEnd (w + windowLen N w) - p))).put
          (s.addr + (p - s.offset) + (min s.fileEnd (w + windowLen N w) - max p s.offset))
          (slice F (min s.fileEnd (w + windowLen N w))
            (s.fileEnd - min s.fileEnd (w + windowLen N w))) := by
  obtain ⟨hb, hst, hlen, hmod⟩ := base_here hw h1 h2 hs hws
  have hlt : ¬ N ≤ s.offset := by
    have := windowLen_bound (N := N) hws (by omega)
    omega
  have hfe : s.offset ≤ s.fileEnd := Nat.le_add_right _ _
  have e1 : max p s.offset - (p - w) = w + (s.offset - p) := by omega
  have e2 : s.offset - p + (min s.fileEnd (w + windowLen N w) - max p s.offset)
      = min s.fileEnd (w + windowLen N w) - p := by omega
  have e3 : max p s.offset + (min s.fileEnd (w + windowLen N w) - max p s.offset)
      = min s.fileEnd (w + windowLen N w) := by omega
  unfold loadSeg gap here
  rw [if_neg hlt, hb, hst, hlen, hmod, e1, e2, e3]

/-- at the end of the stream nothing of a segment is left -/
theorem loadSeg_end {m : Mem} (hfe : s.fileEnd = N) : loadSeg F N N s m = m := by
  have hoff : s.offset ≤ N := hfe ▸ Nat.le_add_right _ _
  have hb : base N s = N := by rw [base, if_pos hoff]
  have hmax : max N s.offset = N := by omega
  have hhere : here N N s = 0 := by
    rw [here, hb, hfe, hmax]
    omega
  have hgap : gap N s = 0 := by rw [gap, hb]; omega
  rw [loadSeg, hhere, hgap, hb, hmax, hfe]
  simp

/-- a segment that was begun goes on at the end of the window, or ends there -/
theorem loadSeg_next {m : Mem} (hw : w % WSIZE = 0) (hws : windowStart w = w) (hwN : w < N)
    (hs : s.offset < w + windowLen N w) (hend : w + windowLen N w ≤ s.fileEnd)
    (hN : s.fileEnd ≤ N) :
    loadSeg F N (w + windowLen N w) s m
      = m.put (s.addr + (w + windowLen N w - s.offset))
          (slice F (w + windowLen N w) (s.fileEnd - (w + windowLen N w))) := by
  -- the next window starts here, or the stream ends
  rcases Nat.lt_or_ge (w + windowLen N w) N with hmore | hdone
  · have hlen : windowLen N w = WSIZE := by
      have := windowLen_eq (N := N) hws
      omega
    rw [hlen] at hs hend hmore ⊢
    have hw' : (w + WSIZE) % WSIZE = 0 := by rw [Nat.add_mod_right]; exact hw
    have hws' : windowStart (w + WSIZE) = w + WSIZE :=
      windowStart_of hw' (le_refl _) (Nat.lt_add_of_pos_right (by decide))
    have hpos := windowLen_pos hws' hmore
    have hin : s.offset < w + WSIZE + windowLen N (w + WSIZE) := by omega
    rw [loadSeg_here hw' (le_refl _) (by omega) hin hws' hend]
    generalize hq : min s.fileEnd (w + WSIZE + windowLen N (w + WSIZE)) = q
    have e1 : s.offset - (w + WSIZE) = 0 := by omega
    have e2 : max (w + WSIZE) s.offset = w + WSIZE := by omega
    have e3 : w + WSIZE + (q - (w + WSIZE)) = q := by omega
    have e4 : q - (w + WSIZE) + (s.fileEnd - q) = s.fileEnd - (w + WSIZE) := by omega
    have hput := put_put_next m (s.addr + (w + WSIZE - s.offset))
      (slice F (w + WSIZE) (q - (w + WSIZE))) (slice F q (s.fileEnd - q))
    have happ := slice_append F (w + WSIZE) (q - (w + WSIZE)) (s.fileEnd - q)
    rw [length_slice] at hput
    rw [e3, e4] at happ
    rw [e1, e2, Nat.add_zero, hput, happ]
  · have hqN : w + windowLen N w = N := by omega
    have hfe : s.fileEnd = N := by omega
    rw [hqN, hfe, Nat.sub_self, slice_zero, Mem.put_nil]
    exact loadSeg_end hfe

end

/-- the loop has come to the end of the window at `w` -/
def Reached (N w : Nat) (r : Flush) : Prop := r.todo = [] ∨ r.file_offset = w + windowLen N w

/-- what the plan of one window is, from the position `p` on: its copies are the first copies that are
made in the window and copies into segments, and take the place of the part of `loadAll` that lies in
the window -/
structure Flushed (F : Nat → UInt8) (N w : Nat) (todo : List Segment) (p : Nat) (r : Flush) : Prop where
  rest : r.todo <:+ todo
  good : ∀ P, (∀ s ∈ todo, Inside P s) → AllGood P N todo p → r.stuck = false ∧ Reached N w r ∧
    (∀ c ∈ copiesOf r.events, P c) ∧ AllGood P N r.todo (w + windowLen N w)
  reached : r.stuck = false → Reached N w r
  head : r.stuck = false → ∀ s, r.todo.head? = some s → w + windowLen N w ≤ s.fileEnd
  only : r.stuck = false → ∀ P, (∀ c ∈ copiesOf r.events, P c) →
    AllGood P N r.todo (w + windowLen N w) → AllGood P N todo p
  effect : r.stuck = false → (∀ s ∈ todo, Fine N s) → (∀ c ∈ copiesOf r.events, InWindow c) → ∀ m,
    loadAll F N todo p m
      = loadAll F N r.todo (w + windowLen N w) (putCopies F w (copiesOf r.events) m)

/-- at the end of the stream no segment is met -/
theorem allGood_past {P : Copy → Prop} {N p : Nat} (todo : List Segment) (h : N ≤ p) :
    AllGood P N todo p := by
  cases todo with
  | nil => trivial
  | cons s segs => exact fun hlt => absurd hlt (by omega)

/-- a segment whose offset is less than 2^63 past the position -/
theorem allGood_near {P : Copy → Prop} {N p : Nat} {s : Segment} {segs : List Segment} (hp : p < N)
    (ho : s.offset < p + 9223372036854775808) :
    AllGood P N (s :: segs) p ↔ (s.offset < N → Good P N p s ∧ AllGood P N segs s.stop) :=
  ⟨fun h => (h hp).1 ho, fun h _ => ⟨fun _ => h, fun hfar => absurd ho (by omega)⟩⟩

/-- a segment whose offset is not -/
theorem allGood_far {P : Copy → Prop} {N p : Nat} {s : Segment} {segs : List Segment} (hp : p < N)
    (ho : p + 9223372036854775808 ≤ s.offset) :
    AllGood P N (s :: segs) p ↔ p ≤ s.stop ∧ s.stop < p + 9223372036854775808 ∧
      (max p (windowStart s.stop) + 9223372036854775808 ≤ s.offset → AllGood P N segs s.stop) :=
  ⟨fun h => (h hp).2 ho, fun h _ => ⟨fun hnear => absurd ho (by omega), fun _ => h⟩⟩

section
variable {F : Nat → UInt8} {N w p i n : Nat} {s : Segment} {segs : List Segment} {es : List Event}

theorem Flushed.nil {f : Nat} : Flushed F N w [] p ⟨n, i, [], f, [], false⟩ where
  rest := List.suffix_refl _
  good _ _ _ := ⟨rfl, Or.inl rfl, by simp [copiesOf], trivial⟩
  reached _ := Or.inl rfl
  head _ s h := by cases h
  only _ _ _ _ := trivial
  effect _ _ _ _ := rfl

/-- the segment starts in a later window -/
theorem Flushed.skip (hN : N < 9223372036854775808) (hw : w % WSIZE = 0) (hws : windowStart w = w)
    (h1 : w ≤ p) (h2 : p < w + windowLen N w) (ho : s.offset < p + 9223372036854775808)
    (hs : w + windowLen N w ≤ s.offset) :
    Flushed F N w (s :: segs) p
      ⟨n, i, s :: segs, w + windowLen N w, [.table (sizeof_segment * i + 8) 8], false⟩ := by
  have hend := windowLen_bound (N := N) hws (by omega)
  have hm := fun P m => seg_skip (F := F) (P := P) (m := m) hw h1 (by
    have : windowLen N w ≤ WSIZE := Nat.min_le_left _ _
    omega) hs hws
  have hgood (P : Copy → Prop) (hlt : w + windowLen N w < N) :
      AllGood P N (s :: segs) p ↔ AllGood P N (s :: segs) (w + windowLen N w) := by
    rw [allGood_near (by omega) ho, allGood_near hlt (by omega)]
    exact forall_congr' fun hN' => and_congr_left fun _ => (hm P fun _ => 0).2 hN'
  refine ⟨List.suffix_refl _, fun P _ h => ⟨rfl, Or.inr rfl, by simp [copiesOf], ?_⟩, fun _ => Or.inr rfl,
    fun _ t ht => ?_, fun _ P _ h => ?_, fun _ _ _ m => ?_⟩
  · exact fun hlt => (hgood P hlt).mp h hlt
  · rw [← Option.some.inj ht]
    exact le_trans hs (Nat.le_add_right _ _)
  · by_cases hlt : w + windowLen N w < N
    · exact (hgood P hlt).mpr h
    · exact (allGood_near (by omega) ho).mpr fun hN' => absurd hN' (by omega)
  · simp only [loadAll, (hm InWindow m).1, copiesOf, putCopies, List.foldl_nil]

/-- the segment ends in the window, and the next one follows -/
theorem Flushed.done (hN : N < 9223372036854775808) (hw : w % WSIZE = 0) (hws : windowStart w = w)
    (h1 : w ≤ p) (h2 : p < w + windowLen N w) (hin : s.offset < w + windowLen N w) (hp : p ≤ s.stop)
    (hsize : s.stop < p + 9223372036854775808) (hdone : s.stop < w + windowLen N w) {off k : Nat}
    {r : Flush} (hr : Flushed F N w segs s.stop r) :
    Flushed F N w (s :: segs) p (r.after [.table off k,
      .copy ⟨(s.addr + (p - s.offset)) % 18446744073709551616, s.offset - p, s.stop - p,
        windowLen N w⟩]) := by
  have hend := windowLen_bound (N := N) hws (by omega)
  have hb := (base_here hw h1 h2 hin hws).1
  have hfirst := first_here hw h1 h2 hin hws
  have hmin : min s.stop (w + windowLen N w) = s.stop := by omega
  rw [hmin] at hfirst
  have hnear (P : Copy → Prop) := @allGood_near P N p s segs (show p < N by omega) (by omega)
  refine ⟨hr.rest.trans (List.suffix_cons _ _), fun P hP h => ?_, fun hst => hr.reached hst,
    fun hst => hr.head hst, fun hst P hc h => ?_, fun hst hf hc m => ?_⟩
  · obtain ⟨hgood, h⟩ := (hnear P).mp h (by omega)
    obtain ⟨g1, g2, g3, g4⟩ := hr.good P (fun t ht => hP t (List.mem_cons_of_mem _ ht)) h
    refine ⟨g1, g2, List.forall_mem_cons.mpr ⟨?_, g3⟩, g4⟩
    rw [← hfirst]
    exact hgood.first
  · obtain ⟨hc1, hc2⟩ := List.forall_mem_cons.mp hc
    refine (hnear P).mpr fun _ => ⟨⟨by rw [hb]; exact hp, by rw [hb]; exact hsize, ?_⟩,
      hr.only hst P hc2 h⟩
    rw [hfirst]
    exact hc1
  · obtain ⟨hc1, hc2⟩ := List.forall_mem_cons.mp hc
    obtain ⟨hfile, haddr⟩ := hf s List.mem_cons_self
    have hse : s.stop = s.fileEnd := stop_eq (by omega)
    rw [hse] at hp hmin hr
    have hfe : s.fileEnd = s.offset + s.size := rfl
    have hdest : (s.addr + (p - s.offset)) % 18446744073709551616 = s.addr + (p - s.offset) :=
      Nat.mod_eq_of_lt (by omega)
    rw [loadAll, loadSeg_here hw h1 h2 hin hws hp, hmin, Nat.sub_self, slice_zero, Mem.put_nil,
      hr.effect hst (fun t ht => hf t (List.mem_cons_of_mem _ ht)) hc2]
    show _ = loadAll F N r.todo _ (putCopies F w (copiesOf r.events) (m.put _ _))
    rw [hdest, hse]

/-- the segment goes on to the end of the window -/
theorem Flushed.going (hN : N < 9223372036854775808) (hw : w % WSIZE = 0) (hws : windowStart w = w)
    (h1 : w ≤ p) (h2 : p < w + windowLen N w) (hin : s.offset < w + windowLen N w)
    (hsize : s.stop < p + 9223372036854775808) (hend : w + windowLen N w ≤ s.stop) {off k : Nat} :
    Flushed F N w (s :: segs) p ⟨n, i, s :: segs, w + windowLen N w, [.table off k,
      .copy ⟨(s.addr + (p - s.offset)) % 18446744073709551616, s.offset - p, w + windowLen N w - p,
        windowLen N w⟩], false⟩ := by
  have hlen := windowLen_bound (N := N) hws (by omega)
  have hp : p ≤ s.stop := by omega
  have hb := (base_here hw h1 h2 hin hws).1
  have hfirst := first_here hw h1 h2 hin hws
  have hmin : min s.stop (w + windowLen N w) = w + windowLen N w := by omega
  have hal : (w + windowLen N w) % WSIZE = 0 ∨ N ≤ w + windowLen N w := by
    rcases windowLen_eq (N := N) hws with h | h
    · rw [h, Nat.add_mod_right]
      exact Or.inl hw
    · exact Or.inr h
  have hnext : base (w + windowLen N w) s = w + windowLen N w := by rw [base, if_pos (by omega)]
  rw [hmin] at hfirst
  have hnear (P : Copy → Prop) (q : Nat) (h1 : p ≤ q) (h2 : q < N) :=
    @allGood_near P N q s segs h2 (by omega)
  refine ⟨List.suffix_refl _, fun P hP h => ⟨rfl, Or.inr rfl, ?_, ?_⟩, fun _ => Or.inr rfl,
    fun _ t ht => ?_, fun _ P hc h => ?_, fun _ hf hc m => ?_⟩
  · have hgood := ((hnear P p (le_refl _) (by omega)).mp h (by omega)).1
    refine List.forall_mem_singleton.mpr ?_
    rw [← hfirst]
    exact hgood.first
  · by_cases hlt : w + windowLen N w < N
    · refine (hnear P _ (by omega) hlt).mpr fun _ => ⟨⟨by rw [hnext]; exact hend, by rw [hnext]; omega,
        ?_⟩, ((hnear P p (le_refl _) (by omega)).mp h (by omega)).2⟩
      exact first_begun hal (by omega) hend (hP s List.mem_cons_self)
    · exact allGood_past _ (by omega)
  · rw [← Option.some.inj ht]
    exact le_trans hend (stop_le s)
  · refine (hnear P p (le_refl _) (by omega)).mpr fun _ => ⟨⟨by rw [hb]; exact hp,
      by rw [hb]; exact hsize, ?_⟩, ?_⟩
    · rw [hfirst]
      exact hc _ (List.mem_singleton_self _)
    · by_cases hlt : w + windowLen N w < N
      · exact ((hnear P _ (by omega) hlt).mp h (by omega)).2
      · exact allGood_past _ (by omega)
  · obtain ⟨hfile, haddr⟩ := hf s List.mem_cons_self
    have hse : s.stop = s.fileEnd := stop_eq (by omega)
    rw [hse] at hp hmin hend
    have hfe : s.fileEnd = s.offset + s.size := rfl
    have hdest : (s.addr + (p - s.offset)) % 18446744073709551616 = s.addr + (p - s.offset) :=
      Nat.mod_eq_of_lt (by omega)
    have hplace : s.addr + (p - s.offset) + (w + windowLen N w - max p s.offset)
        = s.addr + (w + windowLen N w - s.offset) := by omega
    rw [loadAll, loadAll, loadSeg_here hw h1 h2 hin hws hp, hmin, hplace,
      loadSeg_next hw hws (by omega) hin hend hfile]
    show _ = loadAll F N segs _ ((m.put _ _).put _ _)
    rw [hdest]

/-- an offset of 2^63 or more past the position, and an end in the window -/
theorem Flushed.farDone (hN : N < 9223372036854775808) (hw : w % WSIZE = 0) (hws : windowStart w = w)
    (h1 : w ≤ p) (h2 : p < w + windowLen N w) (ho : p + 9223372036854775808 ≤ s.offset) (hs : s.Fits)
    (hp : p ≤ s.stop) (hsize : s.stop < p + 9223372036854775808) (hdone : s.stop < w + windowLen N w)
    {off k src : Nat} {r : Flush} (hr : Flushed F N w segs s.stop r) :
    Flushed F N w (s :: segs) p
      (r.after [.table off k, .copy ⟨destOf p s, src, s.stop - p, windowLen N w⟩]) := by
  have hend := windowLen_bound (N := N) hws (by omega)
  have hle : windowLen N w ≤ WSIZE := Nat.min_le_left _ _
  have hfar (P : Copy → Prop) := @allGood_far P N p s segs (show p < N by omega) ho
  have hstart : max p (windowStart s.stop) + 9223372036854775808 ≤ s.offset := by
    rw [windowStart_of hw (by omega) (by omega), max_eq_left h1]
    exact ho
  obtain ⟨j, hdest, hj⟩ := destOf_far ho hs hp hsize
  refine ⟨hr.rest.trans (List.suffix_cons _ _), fun P hP h => ?_, fun hst => hr.reached hst,
    fun hst => hr.head hst, fun hst P hc h => ?_, fun hst hf => ?_⟩
  · obtain ⟨g1, g2, g3, g4⟩ := hr.good P (fun t ht => hP t (List.mem_cons_of_mem _ ht))
      (((hfar P).mp h).2.2 hstart)
    refine ⟨g1, g2, List.forall_mem_cons.mpr ⟨?_, g3⟩, g4⟩
    rw [hdest]
    exact hP s List.mem_cons_self j src _ _ (Or.inr (by omega)) hj (by omega)
  · exact (hfar P).mpr ⟨hp, hsize, fun _ => hr.only hst P (List.forall_mem_cons.mp hc).2 h⟩
  · have hfile := (hf s List.mem_cons_self).file
    unfold Segment.fileEnd at hfile
    omega

/-- an offset of 2^63 or more past the position, and an end behind the window -/
theorem Flushed.farGoing (hN : N < 9223372036854775808) (hw : w % WSIZE = 0) (hws : windowStart w = w)
    (h1 : w ≤ p) (h2 : p < w + windowLen N w) (ho : p + 9223372036854775808 ≤ s.offset) (hs : s.Fits)
    (hsize : s.stop < p + 9223372036854775808) (hend : w + windowLen N w ≤ s.stop) {off k src : Nat} :
    Flushed F N w (s :: segs) p ⟨n, i, s :: segs, w + windowLen N w, [.table off k,
      .copy ⟨destOf p s, src, w + windowLen N w - p, windowLen N w⟩], false⟩ := by
  have hlen := windowLen_bound (N := N) hws (by omega)
  have hp : p ≤ s.stop := by omega
  have hfar (P : Copy → Prop) := @allGood_far P N p s segs (show p < N by omega) ho
  obtain ⟨j, hdest, hj⟩ := destOf_far ho hs hp hsize
  -- the window that the segment ends in is a later one
  have hlater (hlt : w + windowLen N w < N) : w + windowLen N w ≤ windowStart s.stop := by
    have hfull : windowLen N w = WSIZE := by
      have := windowLen_eq (N := N) hws
      omega
    rw [hfull] at hend ⊢
    unfold windowStart WSIZE at *
    omega
  refine ⟨List.suffix_refl _, fun P hP h => ⟨rfl, Or.inr rfl, ?_, ?_⟩, fun _ => Or.inr rfl,
    fun _ t ht => ?_, fun _ P hc h => ?_, fun _ hf => ?_⟩
  · refine List.forall_mem_singleton.mpr ?_
    rw [hdest]
    exact hP s List.mem_cons_self j src _ _ (Or.inr (by omega)) (by omega) (by omega)
  · by_cases hlt : w + windowLen N w < N
    · have hle := hlater hlt
      have hrest := ((hfar P).mp h).2.2
      rw [max_eq_right (by omega)] at hrest
      by_cases hnear : s.offset < w + windowLen N w + 9223372036854775808
      · exact (allGood_near hlt hnear).mpr fun hN' => absurd hN' (by omega)
      · refine (allGood_far hlt (by omega)).mpr ⟨hend, by omega, ?_⟩
        rw [max_eq_right hle]
        exact hrest
    · exact allGood_past _ (by omega)
  · rw [← Option.some.inj ht]
    exact le_trans hend (stop_le s)
  · refine (hfar P).mpr ⟨hp, hsize, fun hstart => ?_⟩
    by_cases hlt : w + windowLen N w < N
    · have hle := hlater hlt
      rw [max_eq_right (by omega)] at hstart
      have hrest := ((allGood_far hlt (by omega)).mp h).2.2
      rw [max_eq_right hle] at hrest
      exact hrest hstart
    · exact allGood_past _ (by omega)
  · have hfile := (hf s List.mem_cons_self).file
    unfold Segment.fileEnd at hfile
    omega

/-- **one window**, by the plan -/
theorem flushPlan_spec {N w : Nat} (hw : w % WSIZE = 0) (hws : windowStart w = w) (hwN : w < N)
    (hN : N < 9223372036854775808) (todo : List Segment) :
    ∀ i p, w ≤ p → p < w + windowLen N w → (∀ s ∈ todo, s.Fits) →
      Flushed F N w todo p (flushPlan (windowLen N w) i todo p (w + windowLen N w - p)) := by
  induction todo with
  | nil => intro i p _ _ _; exact Flushed.nil
  | cons s segs ih =>
    intro i p h1 h2 hfits
    have hs := hfits s List.mem_cons_self
    have hle : windowLen N w ≤ WSIZE := Nat.min_le_left _ _
    have hend := windowLen_bound (N := N) hws (by omega)
    have hr : p + (w + windowLen N w - p) = w + windowLen N w := by omega
    have hnext (h1' : p ≤ s.stop) (h2' : s.stop < w + windowLen N w) :
        Flushed F N w segs s.stop (flushPlan (windowLen N w) (i + 1) segs s.stop
          (w + windowLen N w - p - (s.stop - p))) := by
      have hleft : w + windowLen N w - p - (s.stop - p) = w + windowLen N w - s.stop := by omega
      rw [hleft]
      exact ih (i + 1) s.stop (by omega) h2' fun t ht => hfits t (List.mem_cons_of_mem _ ht)
    by_cases hreg : p ≤ s.stop ∧ s.stop < p + 9223372036854775808
    · obtain ⟨hp, hsize⟩ := hreg
      by_cases hfar : p + 9223372036854775808 ≤ s.offset
      · have hsrc := srcOf_far hfar hs.offset
        rw [flushPlan_copy (by omega) (by omega) (by omega) hp hsize]
        by_cases hdone : s.stop - p < w + windowLen N w - p
        · rw [if_pos hdone]
          exact Flushed.farDone hN hw hws h1 h2 hfar hs hp hsize (by omega) (hnext hp (by omega))
        · rw [if_neg hdone, hr]
          exact Flushed.farGoing hN hw hws h1 h2 hfar hs hsize (by omega)
      · by_cases hskip : w + windowLen N w ≤ s.offset
        · rw [flushPlan_skip (by omega) (by omega) (by omega), hr]
          exact Flushed.skip hN hw hws h1 h2 (by omega) hskip
        · rw [flushPlan_in (by omega) (by omega) (by omega) hs.addr (by omega) hp hsize]
          by_cases hdone : s.stop - p < w + windowLen N w - p
          · rw [if_pos hdone]
            exact Flushed.done hN hw hws h1 h2 (by omega) hp hsize (by omega) (hnext hp (by omega))
          · rw [if_neg hdone, hr]
            exact Flushed.going hN hw hws h1 h2 (by omega) hsize (by omega)
    · by_cases hskip : w + windowLen N w ≤ s.offset ∧ s.offset < p + 9223372036854775808
      · rw [flushPlan_skip (by omega) hskip.2 (by omega), hr]
        exact Flushed.skip hN hw hws h1 h2 hskip.2 hskip.1
      · -- a copy of negative length
        have hfree : (flushPlan (windowLen N w) i (s :: segs) p (w + windowLen N w - p)).stuck = false →
            False := by
          intro hst
          have h := flushPlan_free (by omega) (by omega) hs.offset hst
          rw [hr] at h
          exact h.elim hskip hreg
        refine ⟨flushPlan_suffix _ _ _ _ _, fun P _ h => ?_, fun hst => (hfree hst).elim,
          fun hst => (hfree hst).elim, fun hst => (hfree hst).elim, fun hst => (hfree hst).elim⟩
        exfalso
        by_cases hfar : p + 9223372036854775808 ≤ s.offset
        · obtain ⟨g1, g2, -⟩ := (allGood_far (by omega) hfar).mp h
          exact hreg ⟨g1, g2⟩
        · have hin : s.offset < w + windowLen N w := by omega
          have hgood := ((allGood_near (by omega) (by omega)).mp h (by omega)).1
          have hb := (base_here hw h1 h2 hin hws).1
          have g1 := hgood.start
          have g2 := hgood.size
          rw [hb] at g1 g2
          exact hreg ⟨g1, g2⟩

end

/-! ## all windows -/

theorem loadAll_end {F : Nat → UInt8} {N : Nat} (todo : List Segment) :
    (∀ s ∈ todo, s.fileEnd = N) → ∀ m, loadAll F N todo N m = m := by
  induction todo with
  | nil => intro _ m; rfl
  | cons s segs ih =>
    intro h m
    have hs := h s List.mem_cons_self
    rw [loadAll, hs, loadSeg_end hs, ih fun t ht => h t (List.mem_cons_of_mem _ ht)]

/-- the copies of a plan, in the memory that the windows were filled in -/
theorem runCopies_eq {F : Nat → UInt8} {window w n : Nat} {bytes : Mem} (hb : ∀ k < n, bytes k = F (w + k))
    (cs : List Copy) :
    ∀ m : Mem, (∀ c ∈ cs, c.outcnt = n ∧ InWindow c) →
      (∀ c ∈ cs, c.dest ≤ window + c.src ∨ window + c.src + c.len ≤ c.dest) →
      cs.Pairwise (fun c d => ApartFrom c.range (window + d.src, d.len)) →
      (∀ c ∈ cs, m.get (window + c.src) c.len = slice F (w + c.src) c.len) →
      runCopies window cs m = putCopies F w cs m := by
  induction cs with
  | nil => intro m _ _ _ _; rfl
  | cons c cs ih =>
    intro m hin hf hs hm
    obtain ⟨hf1, hf2⟩ := List.forall_mem_cons.mp hf
    obtain ⟨hs1, hs2⟩ := List.pairwise_cons.mp hs
    obtain ⟨hm1, hm2⟩ := List.forall_mem_cons.mp hm
    have hcopy : m.copy c.dest (window + c.src) c.len = m.put c.dest (slice F (w + c.src) c.len) := by
      rw [Mem.copy_eq m hf1, hm1]
    show runCopies window cs (m.copy c.dest (window + c.src) c.len)
      = putCopies F w cs (m.put c.dest (slice F (w + c.src) c.len))
    rw [hcopy]
    refine ih _ (fun d hd => hin d (List.mem_cons_of_mem _ hd)) hf2 hs2 fun d hd => ?_
    rw [← hm2 d hd]
    refine Mem.get_eq_of_forall _ _ _ _ fun k hk => Mem.put_out _ _ _ _ ?_
    rw [length_slice]
    exact (hs1 d hd).out (Nat.le_add_right _ _) (by simp only; omega)

/-- the copies of a window that was filled -/
theorem runCopies_paste {F : Nat → UInt8} {window w n : Nat} {bytes m : Mem}
    (hb : ∀ k < n, bytes k = F (w + k)) {cs : List Copy} (hin : ∀ c ∈ cs, c.outcnt = n ∧ InWindow c)
    (hf : ∀ c ∈ cs, c.dest ≤ window + c.src ∨ window + c.src + c.len ≤ c.dest)
    (hs : cs.Pairwise fun c d => ApartFrom c.range (window + d.src, d.len)) :
    runCopies window cs (m.paste window n bytes) = putCopies F w cs (m.paste window n bytes) := by
  refine runCopies_eq hb cs _ hin hf hs fun c hc => List.map_congr_left fun k hk => ?_
  obtain ⟨h1, h2⟩ := hin c hc
  have hk' := List.mem_range.mp hk
  unfold InWindow at h2
  rw [Nat.add_assoc, Mem.paste_in _ _ _ _ (by omega), hb _ (by omega), Nat.add_assoc]

/-- copies and the filling of a window that they spare -/
theorem putCopies_paste {F : Nat → UInt8} {window w n : Nat} {bytes : Mem} (cs : List Copy) :
    ∀ m : Mem, (∀ c ∈ cs, ApartFrom c.range (window, n)) →
      (putCopies F w cs m).paste window n bytes = putCopies F w cs (m.paste window n bytes) := by
  induction cs with
  | nil => intro m _; rfl
  | cons c cs ih =>
    intro m h
    obtain ⟨h1, h2⟩ := List.forall_mem_cons.mp h
    have hput : (m.put c.dest (slice F (w + c.src) c.len)).paste window n bytes
        = (m.paste window n bytes).put c.dest (slice F (w + c.src) c.len) := by
      unfold ApartFrom Copy.range at h1
      simp only at h1
      by_cases h0 : n = 0
      · rw [h0]
        have e (m : Mem) : m.paste window 0 bytes = m := by
          funext x
          exact Mem.paste_out m window 0 bytes (by omega)
        rw [e, e]
      · by_cases hl : c.len = 0
        · rw [hl, slice_zero, Mem.put_nil, Mem.put_nil]
        · exact Mem.paste_put _ _ (by rw [length_slice]; omega)
    show (putCopies F w cs _).paste window n bytes = putCopies F w cs _
    rw [ih _ h2, hput]

section
variable {σ : Type}

/-- the memory with all windows filled in, one after the other -/
def fills (window : Nat) (ws : List (Window σ)) (m : Mem) : Mem :=
  ws.foldl (fun m w => m.paste window w.outcnt w.bytes) m

theorem fills_putCopies {F : Nat → UInt8} {window w : Nat} {cs : List Copy} (ws : List (Window σ)) :
    ∀ m : Mem, (∀ v ∈ ws, ∀ c ∈ cs, ApartFrom c.range (window, v.outcnt)) →
      fills window ws (putCopies F w cs m) = putCopies F w cs (fills window ws m) := by
  induction ws with
  | nil => intro m _; rfl
  | cons v ws ih =>
    intro m h
    obtain ⟨h1, h2⟩ := List.forall_mem_cons.mp h
    show fills window ws ((putCopies F w cs m).paste window v.outcnt v.bytes)
      = putCopies F w cs (fills window ws (m.paste window v.outcnt v.bytes))
    rw [putCopies_paste cs m h1, ih _ h2]

/-- what the plan of the windows from the position `p` on is: its copies are good when the first ones
are -/
structure Laid (N p : Nat) (todo : List Segment) (plan : List Flush) : Prop where
  good : ∀ P, (∀ s ∈ todo, Inside P s) → AllGood P N todo p →
    (∀ r ∈ plan, r.stuck = false) ∧ ∀ c ∈ planCopies plan, P c
  only : (∀ r ∈ plan, r.stuck = false) → ∀ P, (∀ c ∈ planCopies plan, P c) → AllGood P N todo p

/-- the next window -/
theorem feeds_step {F : Nat → UInt8} {N p : Nat} {w : Window σ} {ws : List (Window σ)}
    (h : Feeds F N p (w :: ws)) (hp : p ≤ N) (hal : p % WSIZE = 0 ∨ p = N) :
    (w.outcnt = 0 ∧ p = N ∧ Feeds F N p ws) ∨
      (w.outcnt ≠ 0 ∧ p < N ∧ windowStart p = p ∧ p % WSIZE = 0 ∧ w.outcnt = windowLen N p ∧
        p + w.outcnt ≤ N ∧ ((p + w.outcnt) % WSIZE = 0 ∨ p + w.outcnt = N) ∧ Feeds F N (p + w.outcnt) ws) := by
  obtain ⟨hout, -, hfeed⟩ := h
  by_cases hz : w.outcnt = 0
  · left
    rw [hz] at hfeed
    unfold WSIZE at hout
    exact ⟨hz, by omega, hfeed⟩
  · right
    have hlt : p < N := by omega
    have hp0 : p % WSIZE = 0 := by omega
    have hws : windowStart p = p := windowStart_of hp0 (le_refl _) (by unfold WSIZE; omega)
    refine ⟨hz, hlt, hws, hp0, by rw [windowLen, hws, hout], by omega, ?_, hfeed⟩
    unfold WSIZE at *
    omega

/-- **all windows**, by the plan -/
theorem planAll_laid {F : Nat → UInt8} {N : Nat} (hN : N < 9223372036854775808) (ws : List (Window σ)) :
    ∀ (p i : Nat) (todo : List Segment) (f : Nat), Feeds F N p ws → p ≤ N → p % WSIZE = 0 ∨ p = N →
      todo = [] ∨ f = p → (∀ s ∈ todo, s.Fits) →
      Laid N p todo (planAll (ws.map Window.outcnt) i todo f) := by
  induction ws with
  | nil =>
    intro p i todo f hfeed _ _ _ _
    rw [show p = N from hfeed]
    exact ⟨fun P _ _ => ⟨by simp [planAll], by simp [planAll, planCopies, copiesOf]⟩,
      fun _ P _ => allGood_past todo (le_refl _)⟩
  | cons w ws ih =>
    intro p i todo f hfeed hp hal hf hfits
    rw [List.map_cons]
    rcases feeds_step hfeed hp hal with ⟨hz, -, hfeed⟩ | ⟨hz, hlt, hws, hp0, hout, hle, hnext, hfeed⟩
    · rw [hz, planAll_zero]
      exact ih p i todo f hfeed hp hal hf hfits
    · have hspec : Flushed F N p todo p (flushPlan w.outcnt i todo f w.outcnt) := by
        rw [hout]
        rcases hf with rfl | rfl
        · exact Flushed.nil
        · have := flushPlan_spec (F := F) hp0 hws hlt hN todo i f (le_refl _)
            (by have := windowLen_pos hws hlt; omega) hfits
          rwa [Nat.add_sub_cancel_left] at this
      unfold planAll
      rw [if_neg hz]
      simp only
      generalize flushPlan w.outcnt i todo f w.outcnt = r at hspec ⊢
      have hsub := fun t h => hspec.rest.mem (a := t) h
      have hi := fun hr : Reached N p r => ih (p + w.outcnt) r.chunk r.todo r.file_offset hfeed hle hnext
        (by rw [hout]; exact hr) fun t ht => hfits t (hsub t ht)
      constructor
      · intro P hP h
        obtain ⟨h1, h2, h3, h4⟩ := hspec.good P hP h
        rw [← hout] at h4
        obtain ⟨g1, g2⟩ := (hi h2).good P (fun t ht => hP t (hsub t ht)) h4
        rw [h1]
        refine ⟨List.forall_mem_cons.mpr ⟨h1, g1⟩, ?_⟩
        rw [planCopies_cons]
        exact List.forall_mem_append.mpr ⟨h3, g2⟩
      · intro hst P h
        obtain ⟨h1, hst⟩ := List.forall_mem_cons.mp hst
        rw [h1] at hst h
        rw [planCopies_cons] at h
        obtain ⟨h3, h4⟩ := List.forall_mem_append.mp h
        have hrest := (hi (hspec.reached h1)).only hst P h4
        rw [hout] at hrest
        exact hspec.only h1 P h3 hrest

/-- every window that is not empty is in the plan -/
theorem planAll_outcnt (ns : List Nat) :
    ∀ i segs f, (∀ r ∈ planAll ns i segs f, r.stuck = false) → ∀ n ∈ ns, n ≠ 0 →
      ∃ r ∈ planAll ns i segs f, r.outcnt = n := by
  induction ns with
  | nil => intro i segs f _ n h; cases h
  | cons k ns ih =>
    intro i segs f hst n hn h0
    unfold planAll at hst ⊢
    by_cases hk : k = 0
    · rw [if_pos hk] at hst ⊢
      rcases List.mem_cons.mp hn with rfl | hn
      · exact absurd hk h0
      · exact ih i segs f hst n hn h0
    · rw [if_neg hk] at hst ⊢
      simp only at hst ⊢
      obtain ⟨h1, hst⟩ := List.forall_mem_cons.mp hst
      rcases List.mem_cons.mp hn with rfl | hn
      · exact ⟨_, List.mem_cons_self, (flushPlan_outcnt _ _ _ _ _).1⟩
      · rw [h1] at hst ⊢
        obtain ⟨r, hr, he⟩ := ih _ _ _ hst n hn h0
        exact ⟨r, List.mem_cons_of_mem _ hr, he⟩

/-- **the memory after all windows**, by the plan, if it keeps the window -/
theorem playAll_eq {F : Nat → UInt8} {N window : Nat} (hN : N < 9223372036854775808)
    (ws : List (Window σ)) :
    ∀ (p i : Nat) (todo : List Segment) (f : Nat) (m : Mem), Feeds F N p ws → p ≤ N →
      p % WSIZE = 0 ∨ p = N → todo = [] ∨ f = p → (∀ s ∈ todo, s.Fits) → (∀ s ∈ todo, Fine N s) →
      FileOrder todo → (∀ s ∈ todo, p ≤ s.fileEnd) →
      (∀ r ∈ planAll (ws.map Window.outcnt) i todo f, r.stuck = false) →
      (∀ c ∈ planCopies (planAll (ws.map Window.outcnt) i todo f), InWindow c) →
      WindowKept window (planAll (ws.map Window.outcnt) i todo f) →
      playAll window ws i todo f m = loadAll F N todo p (fills window ws m) := by
  induction ws with
  | nil =>
    intro p i todo f m hfeed _ _ _ _ hfine _ hend _ _ _
    rw [show p = N from hfeed] at hend ⊢
    exact (loadAll_end todo (fun s hs => le_antisymm (hfine s hs).file (hend s hs)) m).symm
  | cons w ws ih =>
    intro p i todo f m hfeed hp hal hf hfits hfine ho hend hst hin hk
    have hbytes := hfeed.2.1
    rw [List.map_cons] at hst hin hk
    unfold playAll
    rcases feeds_step hfeed hp hal with ⟨hz, -, hfeed⟩ | ⟨hz, hlt, hws, hp0, hout, hle, hnext, hfeed⟩
    · rw [hz, planAll_zero] at hst hin hk
      rw [if_pos hz, ih p i todo f m hfeed hp hal hf hfits hfine ho hend hst hin hk]
      show _ = loadAll F N todo p (fills window ws (m.paste window w.outcnt w.bytes))
      have e : m.paste window w.outcnt w.bytes = m := by
        funext x
        exact Mem.paste_out m window w.outcnt w.bytes (by omega)
      rw [e]
    · have hspec : Flushed F N p todo p (flushPlan w.outcnt i todo f w.outcnt) := by
        rw [hout]
        rcases hf with rfl | rfl
        · exact Flushed.nil
        · have := flushPlan_spec (F := F) hp0 hws hlt hN todo i f (le_refl _)
            (by have := windowLen_pos hws hlt; omega) hfits
          rwa [Nat.add_sub_cancel_left] at this
      have hcnt := flushPlan_outcnt w.outcnt todo i f w.outcnt
      unfold planAll at hst hin hk
      rw [if_neg hz] at hst hin hk ⊢
      simp only at hst hin hk ⊢
      generalize flushPlan w.outcnt i todo f w.outcnt = r at hspec hcnt hst hin hk ⊢
      have h1 := hst r List.mem_cons_self
      have hst := (List.forall_mem_cons.mp hst).2
      rw [h1] at hst hin hk
      simp only [Bool.false_eq_true, if_false] at hst hin hk
      rw [planCopies_cons] at hin
      obtain ⟨hin1, hin2⟩ := List.forall_mem_append.mp hin
      obtain ⟨hk1, hk2, hk3⟩ := hk
      obtain ⟨hk1, hk1'⟩ := List.forall_mem_cons.mp hk1
      obtain ⟨hk2, hk2'⟩ := List.forall_mem_cons.mp hk2
      obtain ⟨hk3, hk3'⟩ := List.pairwise_cons.mp hk3
      have hsub := fun t h => hspec.rest.mem (a := t) h
      have hreach := hspec.reached h1
      have hhead := hspec.head h1
      rw [Reached, ← hout] at hreach
      rw [← hout] at hhead
      have hfills : ∀ v ∈ ws, ∀ c ∈ copiesOf r.events, ApartFrom c.range (window, v.outcnt) := by
        intro v hv c hc
        by_cases h0 : v.outcnt = 0
        · exact Or.inr (Or.inl h0)
        · obtain ⟨r', hr', he⟩ := planAll_outcnt _ _ _ _ hst v.outcnt (List.mem_map_of_mem hv) h0
          rw [← he]
          exact hk3 r' hr' c hc
      have heff := hspec.effect h1 hfine hin1
      rw [← hout] at heff
      rw [runCopies_paste hbytes (fun c hc => ⟨hcnt.2 c hc, hin1 c hc⟩) hk2 hk1,
        ih (p + w.outcnt) r.chunk r.todo r.file_offset _ hfeed hle hnext hreach
          (fun t ht => hfits t (hsub t ht)) (fun t ht => hfine t (hsub t ht))
          (ho.sublist hspec.rest.sublist) ?_ hst hin2 ⟨hk1', hk2', hk3'⟩,
        fills_putCopies ws _ hfills, ← heff]
      · rfl
      · -- the segments that are left end behind the window
        intro t ht
        cases hr : r.todo with
        | nil => rw [hr] at ht; cases ht
        | cons u us =>
          have hu := hhead u (by rw [hr]; rfl)
          rw [hr] at ht
          rcases List.mem_cons.mp ht with rfl | ht
          · exact hu
          · have hpair := ho.sublist hspec.rest.sublist
            rw [hr] at hpair
            have hord := (List.pairwise_cons.mp hpair).1 t ht
            have hfe : t.offset ≤ t.fileEnd := Nat.le_add_right _ _
            omega

end

/-- a stream of less than a window -/
def oneWindow (F : Nat → UInt8) (N : Nat) : List (Window Unit) := [⟨F, N, [], ()⟩]

theorem oneWindow_feeds (F : Nat → UInt8) {N : Nat} (h : N ≤ WSIZE) :
    Feeds F N 0 (oneWindow F N) := by
  refine ⟨(min_eq_right h).symm, fun k _ => ?_, ?_⟩
  · simp only [Nat.zero_add]
  · simp only [Feeds, Nat.zero_add]

end Load
