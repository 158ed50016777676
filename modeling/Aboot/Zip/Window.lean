import Aboot.Zip.BitBuffer
import Aboot.Lib.Deflate

/-!
# zip/inflate.c: the window

The window holds the last `WSIZE` bytes of the output, the next one goes to the position `w`, and full windows are
flushed.

* `Win`         window and flushed windows hold the output;
* `Win.put`     one more byte, and `full_ends` a window that is full;
* `copy_ends`   a copy from the bytes before, which may run into the bytes that it makes.
-/

set_option linter.unusedVariables false

namespace Inflate
open Word Raise Deflate

/-- the window position is `w`, and what is flushed are the bytes of the output before the window -/
structure Win (base : List UInt8) (s : State) (w : Nat) (out : List UInt8) : Prop where
  le : w ≤ WSIZE
  len : WSIZE + w ≤ out.length
  ring : ∀ a < WSIZE, s.window a = out.getD (out.length - w + a - (if a < w then 0 else WSIZE)) 0
  flushed : s.windows.flatten = base ++ (out.drop WSIZE).take (out.length - WSIZE - w)

/-- nothing changes but the output -/
structure Written (s s' : State) : Prop where
  input : s'.input = s.input
  bb : s'.bb = s.bb
  bk : s'.bk = s.bk
  used : s'.used = s.used
  tables : s'.tables = s.tables

section
variable {E : Env} {i : Zip.Input} {base out : List UInt8} {s s' s'' : State} {w d e n dist : Nat}
  {J : Exit → State → Prop}

theorem Written.refl : Written s s := ⟨rfl, rfl, rfl, rfl, rfl⟩

theorem Written.trans (h : Written s s') (h' : Written s' s'') : Written s s'' :=
  ⟨h'.input.trans h.input, h'.bb.trans h.bb, h'.bk.trans h.bk, h'.used.trans h.used, h'.tables.trans h.tables⟩

theorem Ahead15.written (h : Ahead15 E i s) (hw : Written s s') : Ahead15 E i s' := by
  obtain ⟨R, hb, h15⟩ := h
  refine ⟨R, ⟨hw.input.trans hb.input, hb.readable, ?_, ?_⟩, hw.bk.trans_le h15⟩
  · rw [hw.used, hw.bk]
    exact hb.place
  · rw [hw.bb, hw.used]
    exact hb.bb

theorem Win.same (h : Win base s w out) (hs : Same s s') : Win base s' w out := by
  refine ⟨h.le, h.len, ?_, ?_⟩
  · rw [hs.window]
    exact h.ring
  · rw [hs.windows]
    exact h.flushed

/-- one more byte -/
theorem Win.put (h : Win base s w out) (hw : w < WSIZE) (v : UInt8) :
    Win base { s with window := s.window.put w [v] } (w + 1) (out ++ [v]) := by
  have hlen := h.len
  refine ⟨hw, by rw [List.length_append, List.length_singleton]; omega, fun a ha => ?_, ?_⟩
  · rw [List.length_append, List.length_singleton]
    by_cases haw : a = w
    · subst haw
      have hidx : out.length + 1 - (a + 1) + a - 0 = out.length := by omega
      rw [if_pos a.lt_succ_self, hidx, List.getD_eq_getElem?_getD, List.getElem?_concat_length]
      exact Mem.put_in s.window a 0 [v] (Nat.succ_pos 0)
    · have hput : s.window.put w [v] a = s.window a := Mem.put_out _ _ _ _ (by rw [List.length_singleton]; omega)
      have hif : (if a < w + 1 then 0 else WSIZE) = if a < w then 0 else WSIZE := by
        by_cases hlt : a < w
        · rw [if_pos hlt, if_pos (by omega)]
        · rw [if_neg hlt, if_neg (by omega)]
      show s.window.put w [v] a = _
      have hidx : out.length + 1 - (w + 1) + a = out.length - w + a := by omega
      rw [hput, h.ring a ha, hif, hidx, List.getD_eq_getElem?_getD, List.getD_eq_getElem?_getD,
        List.getElem?_append_left]
      split <;> omega
  · have hidx : out.length + 1 - WSIZE - (w + 1) = out.length - WSIZE - w := by omega
    show s.windows.flatten = _
    rw [h.flushed, List.length_append, List.length_singleton, hidx, List.drop_append_of_le_length (by omega),
      List.take_append_of_le_length]
    rw [List.length_drop]
    omega

/-- the window position at the start of the window, and the window flushed -/
theorem Win.flush (h : Win base s WSIZE out) (n : Nat) :
    Win base { s with outcnt := n, windows := s.windows ++ [s.window.get 0 WSIZE] } 0 out := by
  have hlen := h.len
  have hwin : s.window.get 0 WSIZE = out.drop (out.length - WSIZE) := by
    refine List.ext_getElem? fun a => ?_
    by_cases ha : a < WSIZE
    · rw [Mem.get_getElem? _ _ _ _ ha, Nat.zero_add, h.ring a ha, if_pos ha, List.getElem?_drop, Nat.sub_zero,
        List.getD_eq_getElem?_getD, List.getElem?_eq_getElem (by omega)]
      rfl
    · rw [List.getElem?_eq_none (by rw [Mem.length_get]; omega),
        List.getElem?_eq_none (by rw [List.length_drop]; omega)]
  refine ⟨Nat.zero_le _, by omega, fun a ha => ?_, ?_⟩
  · rw [if_neg (Nat.not_lt_zero a)]
    have hidx : out.length - WSIZE + a - 0 = out.length - 0 + a - WSIZE := by omega
    show s.window a = _
    rw [h.ring a ha, if_pos ha, hidx]
  · show (s.windows ++ [s.window.get 0 WSIZE]).flatten = _
    have htake : (out.drop WSIZE).take (out.length - WSIZE - 0) = out.drop WSIZE := by
      refine List.take_of_length_le ?_
      rw [List.length_drop]
      omega
    have hdrop : out.drop (out.length - WSIZE) = (out.drop WSIZE).drop (out.length - WSIZE - WSIZE) := by
      rw [List.drop_drop, show WSIZE + (out.length - WSIZE - WSIZE) = out.length - WSIZE by omega]
    rw [List.flatten_append, List.flatten_singleton, h.flushed, hwin, List.append_assoc, htake, hdrop,
      List.take_append_drop]

/-- a full window is flushed -/
theorem full_ends (h : Win base s w out) (hJ : ∀ t, J .flush_window t) :
    Ends (full E w) (fun w' s' => w' < WSIZE ∧ w' = w % WSIZE ∧ Win base s' w' out ∧ Written s s') J s := by
  have hle := h.le
  unfold full
  refine .ite (fun hw => ?_) fun hw => .pure ⟨by omega, (Nat.mod_eq_of_lt (by omega)).symm, h, .refl⟩
  subst hw
  unfold flush_output
  refine .bind (.bind (.modify (.ite (fun h0 => by cases h0) fun _ => ?_)))
  refine .bind (.modify (.bind (.get (.ite (fun _ => .pure (.pure ?_)) fun _ => .throw (hJ _)))))
  exact ⟨Nat.two_pow_pos 15, (Nat.mod_self _).symm, h.flush WSIZE, rfl, rfl, rfl, rfl, rfl⟩

/-! ## copies -/

/-- a copy that does not run into the bytes that it makes can be made at once -/
theorem put_get_eq (e : Nat) : ∀ (w d : Nat) (m : Mem), d + e ≤ w ∨ w < d →
    m.put w (m.get d e) = copySlow e w d m := by
  induction e with
  | zero =>
    intro w d m _
    rw [Mem.get_zero, Mem.put_nil]
    rfl
  | succ e ih =>
    intro w d m h
    have hrest : m.get (d + 1) e = (m.put w [m d]).get (d + 1) e := by
      refine Mem.get_eq_of_forall _ _ _ _ fun k hk => (Mem.put_out _ _ _ _ ?_).symm
      rw [List.length_singleton]
      omega
    rw [copySlow, ← ih (w + 1) (d + 1) _ (by omega), ← hrest, Nat.add_comm e 1, Mem.get_add]
    exact (Mem.put_append m w [m d] (m.get (d + 1) e)).symm

/-- the byte that is copied -/
theorem Win.back (h : Win base s w out) (hd : d < WSIZE) (hpos : 1 ≤ dist)
    (hdist : d + dist = w ∨ d + dist = w + WSIZE) (hmax : dist ≤ WSIZE) :
    s.window d = out.getD (out.length - dist) 0 := by
  have hlen := h.len
  have hle := h.le
  have hidx : out.length - w + d - (if d < w then 0 else WSIZE) = out.length - dist := by
    split <;> omega
  rw [h.ring d hd, hidx]

theorem copySlow_win (h : Win base s w out) (hpos : 1 ≤ dist) (hmax : dist ≤ WSIZE)
    (hdist : d + dist = w ∨ d + dist = w + WSIZE) (hw : w + e ≤ WSIZE) (hd : d + e ≤ WSIZE) :
    Win base { s with window := copySlow e w d s.window } (w + e) (copied dist e out) := by
  induction e generalizing s w d out with
  | zero => exact h
  | succ e ih =>
    have hput := h.put (by omega) (s.window d)
    rw [h.back (d := d) (by omega) hpos hdist hmax] at hput
    have hrec := ih hput (d := d + 1) (by omega) (by omega) (by omega)
    rw [copySlow, copied, Nat.add_comm e 1, ← Nat.add_assoc, h.back (d := d) (by omega) hpos hdist hmax]
    exact hrec

theorem copied_add (dist m n : Nat) (out : List UInt8) :
    copied dist (m + n) out = copied dist n (copied dist m out) := by
  induction m generalizing out with
  | zero => rw [Nat.zero_add, copied]
  | succ m ih => rw [Nat.succ_add, copied, copied, ih]

/-- the test for `memcpy` -/
theorem far_iff (hw : w < WSIZE) (hd : d < WSIZE) (he : e ≤ WSIZE) :
    e ≤ uns 32 ((w : Int) - d) ↔ d + e ≤ w ∨ w < d := by
  have hsize : WSIZE = 32768 := rfl
  obtain ⟨q, hq, hlt⟩ := uns32_cases ((w : Int) - d)
  omega

theorem and_window (d : Nat) : d &&& (WSIZE - 1) = d % WSIZE := Nat.and_two_pow_sub_one_eq_mod d 15

/-- a copy of `n` bytes, each the one `dist` bytes before it -/
theorem copy_ends {fuel : Nat} (h : Win base s w out) (hw : w < WSIZE) (hpos : 1 ≤ dist) (hmax : dist ≤ WSIZE)
    (hdist : d % WSIZE + dist = w ∨ d % WSIZE + dist = w + WSIZE) (hfuel : n < fuel)
    (hJ : ∀ t, J .flush_window t) :
    Ends (copy E fuel n w d)
      (fun w' s' => w' < WSIZE ∧ Win base s' w' (copied dist n out) ∧ Written s s') J s := by
  have hsize : WSIZE = 32768 := rfl
  induction fuel generalizing s w d n out with
  | zero => cases hfuel
  | succ fuel ih =>
    rw [copy, and_window]
    have hd : d % WSIZE < WSIZE := Nat.mod_lt _ (Nat.two_pow_pos 15)
    generalize d % WSIZE = d at hdist hd
    generalize he : min (WSIZE - max d w) n = e
    have hen : e ≤ n := by omega
    have hwe : w + e ≤ WSIZE := by omega
    have hde : d + e ≤ WSIZE := by omega
    have hmem : (if e ≤ uns 32 ((w : Int) - d) then s.window.put w (s.window.get d e)
        else copySlow e w d s.window) = copySlow e w d s.window := by
      rw [if_congr (far_iff hw hd (by omega)) rfl rfl]
      split
      · exact put_get_eq e w d _ ‹_›
      · rfl
    refine .bind (.modify ?_)
    rw [hmem]
    refine .seq (full_ends (copySlow_win h hpos hmax hdist hwe hde) hJ) ?_ fun _ _ he => he
    rintro w1 s1 ⟨hw1, hmod, hwin1, hwr1⟩
    have hw1' : w1 = w + e ∨ w + e = WSIZE ∧ w1 = 0 := by
      rcases Nat.lt_or_eq_of_le hwe with hlt | heq
      · exact .inl (hmod.trans (Nat.mod_eq_of_lt hlt))
      · exact .inr ⟨heq, by rw [hmod, heq, Nat.mod_self]⟩
    have hcopied : copied dist n out = copied dist (n - e) (copied dist e out) := by
      rw [← copied_add, Nat.add_sub_cancel' hen]
    have hwr : Written s s1 := ⟨hwr1.input, hwr1.bb, hwr1.bk, hwr1.used, hwr1.tables⟩
    rw [hcopied]
    refine .ite (fun h0 => .pure ?_) fun hne => ?_
    · rw [h0]
      exact ⟨hw1, hwin1, hwr⟩
    · refine (ih hwin1 hw1 ?_ (by omega)).mono fun w' s' ⟨hw', hwin', hwr'⟩ => ⟨hw', hwin', hwr.trans hwr'⟩
      rcases Nat.lt_or_eq_of_le hde with hlt | heq
      · rw [Nat.mod_eq_of_lt hlt]
        omega
      · rw [heq, Nat.mod_self]
        omega

end

end Inflate
