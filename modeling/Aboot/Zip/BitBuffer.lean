import Aboot.Zip.Inflate
import Aboot.Lib.BitStream

/-!
# zip/inflate.c: the bit buffer

`after E i n` is the input after `n` calls of `get_byte`, and `bytes E i` what these return.

* `Buffered`          the buffer holds the bits that were read and not taken yet;
* `Same`              nothing but the input and the bit buffer changes;
* `NEEDBITS_ends`, `DUMPBITS_buffered`, `bits_ends`   bits that are read, and taken;
* `get_byte_back`     a byte that is given back comes again;
* `Ahead15.given_back`, `Ahead15.undo`   the bytes that are given back at the end.
-/

set_option linter.unusedVariables false

namespace Inflate
open Word Raise BitStream

/-! ## the bytes of the input -/

/-- the input after `n` calls of `get_byte` -/
def after (E : Env) (i : Zip.Input) : Nat → Zip.Input
  | 0 => i
  | n + 1 => (Zip.get_byte E.blocksize E.bread (after E i n)).2

/-- what the calls return; 0 for one that fails -/
def bytes (E : Env) (i : Zip.Input) (n : Nat) : UInt8 :=
  match (Zip.get_byte E.blocksize E.bread (after E i n)).1 with
  | .ok c => c
  | .error _ => 0

/-- the first `n` calls do not fail -/
def Readable (E : Env) (i : Zip.Input) (n : Nat) : Prop :=
  ∀ j < n, (Zip.get_byte E.blocksize E.bread (after E i j)).1 = .ok (bytes E i j)

section
variable {E : Env} {i : Zip.Input} {n : Nat}

theorem get_byte_cases (E : Env) (i : Zip.Input) (n : Nat) :
    (Zip.get_byte E.blocksize E.bread (after E i n)).1 = .ok (bytes E i n) ∨
      ∃ x, (Zip.get_byte E.blocksize E.bread (after E i n)).1 = .error x := by
  unfold bytes
  cases (Zip.get_byte E.blocksize E.bread (after E i n)).1 with
  | ok c => exact .inl rfl
  | error x => exact .inr ⟨x, rfl⟩

theorem Readable.mono {m : Nat} (h : Readable E i n) (hm : m ≤ n) : Readable E i m := fun j hj =>
  h j (hj.trans_le hm)

theorem Readable.succ (h : Readable E i n)
    (hn : (Zip.get_byte E.blocksize E.bread (after E i n)).1 = .ok (bytes E i n)) : Readable E i (n + 1) := by
  intro j hj
  rcases Nat.lt_succ_iff_lt_or_eq.mp hj with hj | rfl
  · exact h j hj
  · exact hn

end

/-! ## reading and taking bits -/

/-- the bits of `R` bytes that are not taken yet are in the buffer -/
structure Buffered (E : Env) (i : Zip.Input) (R : Nat) (s : State) : Prop where
  input : s.input = after E i R
  readable : Readable E i R
  place : 8 * R = s.used + s.bk
  bb : s.bb = num (bytes E i) R / 2 ^ s.used

/-- at most 15 bits are in the buffer -/
def Ahead15 (E : Env) (i : Zip.Input) (s : State) : Prop := ∃ R, Buffered E i R s ∧ s.bk ≤ 15

/-- nothing changes but the input and the bit buffer -/
structure Same (s s' : State) : Prop where
  window : s'.window = s.window
  outcnt : s'.outcnt = s.outcnt
  tables : s'.tables = s.tables
  windows : s'.windows = s.windows

section
variable {E : Env} {i : Zip.Input} {R n : Nat} {s s' s'' : State}

theorem Same.refl : Same s s := ⟨rfl, rfl, rfl, rfl⟩

theorem Same.trans (h : Same s s') (h' : Same s' s'') : Same s s'' :=
  ⟨h'.window.trans h.window, h'.outcnt.trans h.outcnt, h'.tables.trans h.tables, h'.windows.trans h.windows⟩

/-- a call of `get_byte` -/
theorem NEXTBYTE_ends {J : Exit → State → Prop} (h : Buffered E i R s)
    (hJ : ¬ Readable E i (R + 1) → ∀ x t, J (.unzip_error x) t) :
    Ends (NEXTBYTE E)
      (fun c s' => c = bytes E i R ∧ Readable E i (R + 1) ∧ s' = { s with input := after E i (R + 1) }) J s := by
  unfold NEXTBYTE
  refine .bind (.get (.bind (.modify ?_)))
  rw [h.input]
  rcases get_byte_cases E i R with hok | ⟨x, hx⟩
  · rw [hok]
    exact .pure ⟨rfl, h.readable.succ hok, rfl⟩
  · rw [hx]
    refine .throw (hJ (fun hread => ?_) x _)
    have := hread R R.lt_succ_self
    rw [hx] at this
    cases this

/-- one round of `NEEDBITS` -/
theorem Buffered.byte (h : Buffered E i R s) (hbk : s.bk ≤ 56) (hread : Readable E i (R + 1)) :
    Buffered E i (R + 1)
      { s with
        input := after E i (R + 1), bb := s.bb ||| uns 64 ((bytes E i R).toNat <<< s.bk : Nat), bk := s.bk + 8 } := by
  have hplace := h.place
  have hlt : (bytes E i R).toNat <<< s.bk < 18446744073709551616 := by
    have hb := (bytes E i R).toNat_lt
    have hpow : 2 ^ s.bk ≤ 2 ^ 56 := Nat.pow_le_pow_right (Nat.succ_pos 1) hbk
    rw [Nat.shiftLeft_eq]
    calc (bytes E i R).toNat * 2 ^ s.bk < 256 * 2 ^ s.bk := Nat.mul_lt_mul_of_pos_right hb (Nat.two_pow_pos _)
      _ ≤ 256 * 2 ^ 56 := Nat.mul_le_mul_left _ hpow
      _ = 18446744073709551616 := by norm_num
  refine ⟨rfl, hread, by show 8 * (R + 1) = s.used + (s.bk + 8); omega, ?_⟩
  show s.bb ||| uns 64 _ = num (bytes E i) (R + 1) / 2 ^ s.used
  rw [uns64_natCast hlt, h.bb, num_or hplace]

theorem needbits_ends {J : Exit → State → Prop} {fuel : Nat} (h : Buffered E i R s) (hn : n ≤ s.bk + 8 * fuel)
    (hmax : n ≤ 56) (hJ : ¬ Readable E i ((s.used + n + 7) / 8) → ∀ x t, J (.unzip_error x) t) :
    Ends (needbits E n fuel)
      (fun _ s' => Same s s' ∧ s'.used = s.used ∧ n ≤ s'.bk ∧ s'.bk ≤ max s.bk (n + 7) ∧ ∃ R', Buffered E i R' s') J
      s := by
  induction fuel generalizing s R with
  | zero => exact .pure ⟨.refl, rfl, by omega, Nat.le_max_left _ _, R, h⟩
  | succ fuel ih =>
    rw [needbits]
    refine .bind (.get (.ite (fun hlt => ?_) fun hge => ?_))
    · have hplace := h.place
      refine .seq (NEXTBYTE_ends h fun hnot => hJ fun hread => hnot (hread.mono (by omega))) ?_ fun _ _ he => he
      rintro c s1 ⟨rfl, hread, rfl⟩
      refine .bind (.modify ?_)
      refine (ih (h.byte (by omega) hread) (by show n ≤ s.bk + 8 + 8 * fuel; omega) hJ).mono ?_
      rintro ⟨⟩ s2 ⟨hsame, hused, hle, hmax, hb⟩
      have hmax' : s2.bk ≤ max (s.bk + 8) (n + 7) := hmax
      exact ⟨⟨hsame.window, hsame.outcnt, hsame.tables, hsame.windows⟩, hused, hle, by omega, hb⟩
    · exact .pure ⟨.refl, rfl, not_lt.mp hge, Nat.le_max_left _ _, R, h⟩

/-- at least `n` bits are in the buffer -/
theorem NEEDBITS_ends {J : Exit → State → Prop} (h : Buffered E i R s) (hmax : n ≤ 56)
    (hJ : ¬ Readable E i ((s.used + n + 7) / 8) → ∀ x t, J (.unzip_error x) t) :
    Ends (NEEDBITS E n)
      (fun _ s' => Same s s' ∧ s'.used = s.used ∧ n ≤ s'.bk ∧ s'.bk ≤ max s.bk (n + 7) ∧ ∃ R', Buffered E i R' s') J
      s := needbits_ends h (by omega) hmax hJ

/-- the first bits of the buffer -/
theorem Buffered.low (h : Buffered E i R s) (hn : n ≤ s.bk) : s.bb % 2 ^ n = peek (bytes E i) s.used n := by
  have hplace := h.place
  rw [h.bb, peek_eq (by omega)]

theorem mask_bits_eq (h : n ≤ 16) : mask_bits n = 2 ^ n - 1 := by
  revert n
  decide

theorem Buffered.mask (h : Buffered E i R s) (hn : n ≤ s.bk) (h16 : n ≤ 16) :
    s.bb &&& mask_bits n = peek (bytes E i) s.used n := by
  rw [mask_bits_eq h16, Nat.and_two_pow_sub_one_eq_mod, h.low hn]

/-- `n` bits are taken -/
def dumped (s : State) (n : Nat) : State :=
  { s with bb := s.bb >>> n, bk := uns 32 ((s.bk : Int) - n), used := s.used + n }

theorem dumped_bk (hn : n ≤ s.bk) (hmax : s.bk < 4294967296) : (dumped s n).bk = s.bk - n := by
  show uns 32 ((s.bk : Int) - n) = _
  rw [← Nat.cast_sub hn, uns32_natCast (by omega)]

theorem Buffered.dumped (h : Buffered E i R s) (hn : n ≤ s.bk) (hmax : s.bk < 4294967296) :
    Buffered E i R (dumped s n) := by
  have hplace := h.place
  refine ⟨h.input, h.readable, ?_, ?_⟩
  · rw [dumped_bk hn hmax]
    show 8 * R = s.used + n + (s.bk - n)
    omega
  · show s.bb >>> n = num (bytes E i) R / 2 ^ (s.used + n)
    rw [Nat.shiftRight_eq_div_pow, h.bb, Nat.div_div_eq_div_mul, ← Nat.pow_add]

theorem same_dumped (s : State) (n : Nat) : Same s (Inflate.dumped s n) := ⟨rfl, rfl, rfl, rfl⟩

theorem DUMPBITS_ends {J : Exit → State → Prop} : Ends (DUMPBITS n) (fun _ s' => s' = dumped s n) J s :=
  .modify rfl

/-- the next `n` bits are taken -/
theorem bits_ends {J : Exit → State → Prop} (h : Ahead15 E i s) (hn : n ≤ 16)
    (hJ : ¬ Readable E i ((s.used + n + 7) / 8) → ∀ x t, J (.unzip_error x) t) :
    Ends (bits E n)
      (fun x s' => x = peek (bytes E i) s.used n ∧ Same s s' ∧ s'.used = s.used + n ∧ Ahead15 E i s') J s := by
  obtain ⟨R, h, h15⟩ := h
  unfold bits
  refine .seq (NEEDBITS_ends h (by omega) hJ) ?_ fun _ _ he => he
  rintro ⟨⟩ s1 ⟨hsame, hused, hle, hmax, R1, h1⟩
  refine .bind (.get (.seq (DUMPBITS_ends (J := J)) ?_ fun _ _ he => he))
  rintro ⟨⟩ s2 rfl
  refine .pure ⟨?_, hsame.trans (same_dumped s1 n), ?_, R1, h1.dumped hle (by omega), ?_⟩
  · rw [h1.mask hle hn, hused]
  · show s1.used + n = _
    rw [hused]
  · rw [dumped_bk hle (by omega)]
    omega

end

/-! ## bytes that are given back -/

section
variable {E : Env} {i : Zip.Input} {R n : Nat} {s : State}

/-- the buffer of the input is not larger than it can be -/
theorem get_byte_insize (blocksize : Nat) (bread : Nat → BlockRead Zip.INBUFSIZ) {t : Zip.Input}
    (h : t.insize ≤ Zip.INBUFSIZ) : (Zip.get_byte blocksize bread t).2.insize ≤ Zip.INBUFSIZ := by
  have hblocks := Nat.div_mul_le_self Zip.INBUFSIZ blocksize
  unfold Zip.get_byte Zip.fill_inbuf
  split
  · exact h
  · split
    · exact h
    · split
      · exact h
      · dsimp only
        split
        · split
          · exact hblocks
          · exact h
        · exact le_rfl

theorem after_insize (h : i.insize ≤ Zip.INBUFSIZ) (n : Nat) : (after E i n).insize ≤ Zip.INBUFSIZ := by
  induction n with
  | zero => exact h
  | succ n ih => exact get_byte_insize _ _ ih

/-- the cursor is behind a byte that was returned -/
theorem get_byte_cursor (blocksize : Nat) (bread : Nat → BlockRead Zip.INBUFSIZ) {t : Zip.Input} {c : UInt8}
    (h : t.insize ≤ Zip.INBUFSIZ) (hc : (Zip.get_byte blocksize bread t).1 = .ok c) :
    1 ≤ (Zip.get_byte blocksize bread t).2.inptr ∧ (Zip.get_byte blocksize bread t).2.inptr ≤ Zip.INBUFSIZ := by
  have hsize : Zip.INBUFSIZ = 131072 := rfl
  by_cases hlt : t.inptr < t.insize
  · have hget : Zip.get_byte blocksize bread t = (.ok (t.inbuf t.inptr), { t with inptr := t.inptr + 1 }) := by
      rw [Zip.get_byte, if_pos hlt]
    rw [hget]
    exact ⟨Nat.le_add_left 1 _, hlt.trans_le h⟩
  · have hget : Zip.get_byte blocksize bread t = Zip.fill_inbuf blocksize bread t := by
      rw [Zip.get_byte, if_neg hlt]
    rw [hget] at hc ⊢
    by_cases hdvd : Zip.INBUFSIZ % blocksize = 0
    · by_cases hblock : 0 ≤ t.block_number
      · obtain ⟨u, hu, hptr, -, -, -, -⟩ := Zip.fill_inbuf_read bread t (Nat.dvd_of_mod_eq_zero hdvd) hblock
        rw [hu]
        exact ⟨hptr.ge, by rw [hptr]; decide⟩
      · rw [Zip.fill_inbuf_eof bread t (Nat.dvd_of_mod_eq_zero hdvd) (by omega)] at hc
        cases hc
    · rw [Zip.fill_inbuf, if_pos hdvd] at hc
      cases hc

/-- the byte that was asked for last is given back: it comes again -/
theorem get_byte_back (blocksize : Nat) (bread : Nat → BlockRead Zip.INBUFSIZ) {t : Zip.Input} {c : UInt8}
    (h : t.insize ≤ Zip.INBUFSIZ)
    (hc : (Zip.get_byte blocksize bread t).1 = .ok c) :
    Zip.get_byte blocksize bread (Zip.back (Zip.get_byte blocksize bread t).2) = Zip.get_byte blocksize bread t := by
  have hsize : Zip.INBUFSIZ = 131072 := rfl
  -- the cursor is behind the byte
  have hback : ∀ u : Zip.Input, ∀ k, u.inptr = k + 1 → k < u.insize → u.insize ≤ Zip.INBUFSIZ →
      Zip.get_byte blocksize bread (Zip.back u) = (.ok (u.inbuf k), u) := fun u k hk hlt hle => by
    have hdec : uns 32 ((u.inptr : Int) - 1) = k := by
      rw [hk, show ((k + 1 : Nat) : Int) - 1 = (k : Nat) by omega, uns32_natCast (by omega)]
    have hb : Zip.back u = { u with inptr := k } := by rw [Zip.back, hdec]
    rw [hb, Zip.get_byte, if_pos hlt, ← hk]
  by_cases hlt : t.inptr < t.insize
  · have hget : Zip.get_byte blocksize bread t = (.ok (t.inbuf t.inptr), { t with inptr := t.inptr + 1 }) := by
      rw [Zip.get_byte, if_pos hlt]
    rw [hget]
    exact hback { t with inptr := t.inptr + 1 } t.inptr rfl hlt h
  · have hget : Zip.get_byte blocksize bread t = Zip.fill_inbuf blocksize bread t := by
      rw [Zip.get_byte, if_neg hlt]
    rw [hget] at hc ⊢
    by_cases hdvd : Zip.INBUFSIZ % blocksize = 0
    · by_cases hblock : 0 ≤ t.block_number
      · obtain ⟨u, hu, hptr, -, hins, -, -⟩ := Zip.fill_inbuf_read bread t (Nat.dvd_of_mod_eq_zero hdvd) hblock
        rw [hu]
        exact hback u 0 hptr (by omega) (by omega)
      · rw [Zip.fill_inbuf_eof bread t (Nat.dvd_of_mod_eq_zero hdvd) (by omega)] at hc
        cases hc
    · rw [Zip.fill_inbuf, if_pos hdvd] at hc
      cases hc

theorem undo_input (h : s.bk ≤ 15) :
    (undo s.bk s).input = if 8 ≤ s.bk then Zip.back s.input else s.input := by
  by_cases h8 : 8 ≤ s.bk
  · obtain ⟨n, hn⟩ : ∃ n, s.bk = n + 8 := ⟨s.bk - 8, by omega⟩
    rw [if_pos h8, hn, show n + 8 = n + 6 + 1 + 1 by omega, undo, if_pos h8, undo, if_neg]
    show ¬ 8 ≤ s.bk - 8
    omega
  · rw [if_neg h8]
    cases hn : s.bk with
    | zero => rw [undo]
    | succ n => rw [undo, if_neg h8]

/-- at most one byte is given back, and the cursor does not come below the start of the buffer -/
theorem Ahead15.given_back (h : Ahead15 E i s) (hi : i.insize ≤ Zip.INBUFSIZ) :
    s.bk / 8 ≤ s.input.inptr ∧
      (undo s.bk s).input = { s.input with inptr := s.input.inptr - s.bk / 8 } := by
  obtain ⟨R, h, h15⟩ := h
  have hplace := h.place
  have hsize : Zip.INBUFSIZ = 131072 := rfl
  rw [undo_input h15]
  by_cases h8 : 8 ≤ s.bk
  · obtain ⟨n, hn⟩ : ∃ n, R = n + 1 := ⟨R - 1, by omega⟩
    obtain ⟨h1, hmax⟩ := get_byte_cursor _ _ (after_insize hi n) (h.readable n (by omega))
    have hin : s.input = (Zip.get_byte E.blocksize E.bread (after E i n)).2 := by
      rw [h.input, hn, after]
    rw [← hin] at h1 hmax
    have hone : s.bk / 8 = 1 := by omega
    have hdec : uns 32 ((s.input.inptr : Int) - 1) = s.input.inptr - 1 := by
      rw [show (s.input.inptr : Int) - 1 = (s.input.inptr - 1 : Nat) by omega, uns32_natCast (by omega)]
    rw [if_pos h8, hone]
    exact ⟨h1, by rw [Zip.back, hdec]⟩
  · have hzero : s.bk / 8 = 0 := by omega
    rw [if_neg h8, hzero]
    exact ⟨Nat.zero_le _, rfl⟩

/-- where the input goes on: behind the last byte of which bits were taken -/
theorem Ahead15.undo (h : Ahead15 E i s) (hi : i.insize ≤ Zip.INBUFSIZ) :
    Zip.get_byte E.blocksize E.bread (undo s.bk s).input =
      Zip.get_byte E.blocksize E.bread (after E i ((s.used + 7) / 8)) := by
  obtain ⟨R, h, h15⟩ := h
  have hplace := h.place
  rw [undo_input h15]
  by_cases h8 : 8 ≤ s.bk
  · have hR : R = (s.used + 7) / 8 + 1 := by omega
    rw [if_pos h8, h.input, hR]
    exact get_byte_back _ _ (after_insize hi _) (h.readable _ (by omega))
  · have hR : R = (s.used + 7) / 8 := by omega
    rw [if_neg h8, h.input, hR]

end

end Inflate
