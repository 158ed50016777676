import Aboot.Divide.Text

/-!
# Unsigned division

* `half`, `subtract`, `double`   one round of the loops;
* `down`, `up`                   the loops;
* `ufunction_reaches`            the function.
-/

set_option linter.unusedVariables false

namespace Divide
open Alpha

/-! ## the state within the function -/

/-- the word of a number -/
def w (n : Nat) : Word := BitVec.ofNat 64 n

/-- the registers that the functions save -/
def temporaries : List (Reg × BitVec 16) := [(0, 0), (1, 8), (2, 16)]
def arguments : List (Reg × BitVec 16) := [(23, 0), (24, 8), (25, 16)]

theorem slots_temporaries : Slots temporaries := .intro (by decide)

theorem slots_arguments : Slots arguments := .intro (by decide)

/-- the unsigned function was entered with `c₀` -/
structure Mid (c₀ c : Core) : Prop where
  saved : Pushed 32 temporaries (slots (c₀.reg 30) 32 temporaries) c₀ c
  regs : ∀ r ∉ [0, 1, 2, 27, 28, 30], c.reg r = c₀.reg r

/-- the numbers in the registers -/
structure Regs (rem : Bool) (c : Core) (k d m q : Nat) : Prop where
  mask_eq : c.reg mask = w k
  divisor_eq : c.reg divisor = w d
  modulus_eq : c.reg (modulus rem) = w m
  quotient_eq : c.reg (quotient rem) = w q

section
variable {rem int : Bool} {base : Word} {c₀ c : Core} {k d m n q : Nat} {r : Reg} {v : Word}

theorem Mid.set (h : Mid c₀ c) (hr : r ∈ [0, 1, 2, 27, 28]) : Mid c₀ (c.set r v) := by
  refine ⟨h.saved.set ?_, fun p hp => ?_⟩
  · rintro rfl
    exact absurd hr (by decide)
  · rw [Core.reg_set_ne, h.regs p hp]
    rintro rfl
    exact hp (List.mem_append_left [30] hr)

theorem modulus_mem (rem : Bool) : modulus rem ∈ [0, 1, 2, 27, 28] := by
  cases rem <;> decide

theorem quotient_mem (rem : Bool) : quotient rem ∈ [0, 1, 2, 27, 28] := by
  cases rem <;> decide

/-- the registers are different ones -/
theorem distinct (rem : Bool) :
    (mask ≠ modulus rem ∧ mask ≠ quotient rem ∧ divisor ≠ modulus rem ∧ divisor ≠ quotient rem) ∧
      (modulus rem ≠ quotient rem ∧ compare ≠ modulus rem ∧ compare ≠ quotient rem) ∧
      modulus rem ≠ 31 ∧ quotient rem ≠ 31 := by
  cases rem <;> decide

theorem Regs.setMask (h : Regs rem c k d m q) : Regs rem (c.set mask (w n)) n d m q := by
  obtain ⟨⟨h1, h2, -, -⟩, -, -, -⟩ := distinct rem
  exact ⟨Core.reg_set_self (by decide), by rw [Core.reg_set_ne (by decide), h.divisor_eq],
    by rw [Core.reg_set_ne h1.symm, h.modulus_eq], by rw [Core.reg_set_ne h2.symm, h.quotient_eq]⟩

theorem Regs.setDivisor (h : Regs rem c k d m q) : Regs rem (c.set divisor (w n)) k n m q := by
  obtain ⟨⟨-, -, h1, h2⟩, -, -, -⟩ := distinct rem
  exact ⟨by rw [Core.reg_set_ne (by decide), h.mask_eq], Core.reg_set_self (by decide),
    by rw [Core.reg_set_ne h1.symm, h.modulus_eq], by rw [Core.reg_set_ne h2.symm, h.quotient_eq]⟩

theorem Regs.setModulus (h : Regs rem c k d m q) : Regs rem (c.set (modulus rem) (w n)) k d n q := by
  obtain ⟨⟨h1, -, h2, -⟩, ⟨h3, -, -⟩, h4, -⟩ := distinct rem
  exact ⟨by rw [Core.reg_set_ne h1, h.mask_eq], by rw [Core.reg_set_ne h2, h.divisor_eq], Core.reg_set_self h4,
    by rw [Core.reg_set_ne h3.symm, h.quotient_eq]⟩

theorem Regs.setQuotient (h : Regs rem c k d m q) : Regs rem (c.set (quotient rem) (w n)) k d m n := by
  obtain ⟨⟨-, h1, -, h2⟩, ⟨h3, -, -⟩, -, h4⟩ := distinct rem
  exact ⟨by rw [Core.reg_set_ne h1, h.mask_eq], by rw [Core.reg_set_ne h2, h.divisor_eq],
    by rw [Core.reg_set_ne h3, h.modulus_eq], Core.reg_set_self h4⟩

theorem Regs.setCompare (h : Regs rem c k d m q) : Regs rem (c.set compare v) k d m q := by
  obtain ⟨-, ⟨-, h1, h2⟩, -, -⟩ := distinct rem
  exact ⟨by rw [Core.reg_set_ne (by decide), h.mask_eq], by rw [Core.reg_set_ne (by decide), h.divisor_eq],
    by rw [Core.reg_set_ne h1.symm, h.modulus_eq], by rw [Core.reg_set_ne h2.symm, h.quotient_eq]⟩

end

/-! ## words as numbers -/

section
variable {a b n : Nat}

theorem toNat_w (h : n < 2 ^ 64) : (w n).toNat = n := Nat.mod_eq_of_lt h

theorem w_add : w a + w b = w (a + b) := (BitVec.ofNat_add a b).symm

theorem w_sub (h : b ≤ a) (ha : a < 2 ^ 64) : w a - w b = w (a - b) := by
  refine BitVec.eq_of_toNat_eq ?_
  rw [BitVec.toNat_sub, toNat_w ha, toNat_w (Nat.lt_of_le_of_lt h ha), toNat_w (by omega)]
  omega

theorem w_half (h : n < 2 ^ 64) : w n >>> 1 = w (n / 2) := by
  refine BitVec.eq_of_toNat_eq ?_
  rw [BitVec.toNat_ushiftRight, toNat_w h, toNat_w (by omega), Nat.shiftRight_eq_div_pow]

theorem w_eq_zero (h : n < 2 ^ 64) : w n = 0 ↔ n = 0 := by
  refine ⟨fun he => ?_, fun he => by rw [he]; rfl⟩
  rw [← toNat_w h, he]
  rfl

theorem w_lt (ha : a < 2 ^ 64) (hb : b < 2 ^ 64) : w a < w b ↔ a < b := by
  rw [BitVec.lt_def, toNat_w ha, toNat_w hb]

theorem w_le (ha : a < 2 ^ 64) (hb : b < 2 ^ 64) : w a ≤ w b ↔ a ≤ b := by
  rw [BitVec.le_def, toNat_w ha, toNat_w hb]

theorem w_msb (h : n < 2 ^ 64) : (w n).msb = decide (2 ^ 63 ≤ n) := by
  rw [BitVec.msb_eq_decide, toNat_w h]

end

/-! ## the loops -/

section
variable {rem int : Bool} {base : Word} {c₀ c : Core} {k d m q i : Nat}

/-- an operation -/
theorem op_reaches {o : Op} {a r : Reg} {b : Operand} {v : Word} (hi : (body rem)[i]? = some (.simple (.op o a b r)))
    (hv : o.eval (c.reg a) (c.operand b) (c.reg r) = v) :
    Reaches base (text rem int) ⟨c, addr base (at1 int i)⟩ ⟨c.set r v, addr base (at1 int (i + 1))⟩ := by
  rw [← at1_add, ← hv]
  exact .simple (length_code rem int) (code_at1 int hi) rfl

/-- a branch -/
theorem branch_reaches {x : Cond} {a : Reg} {l : Label} {p : Prop} [Decidable p]
    (hi : (body rem)[i]? = some (.branch x a l)) (hp : x.holds (c.reg a) = decide p) :
    Reaches base (text rem int) ⟨c, addr base (at1 int i)⟩
      ⟨c, addr base (if p then target l (text rem int) else at1 int (i + 1))⟩ := by
  by_cases h : p
  · rw [if_pos h]
    exact .taken (length_code rem int) (code_at1 int hi) (by rw [hp, decide_eq_true h])
  · rw [if_neg h, ← at1_add]
    exact .past (length_code rem int) (code_at1 int hi) (by rw [hp, decide_eq_false h]; exact Bool.false_ne_true)

theorem Regs.mask_zero (h : Regs rem c k d m q) (hk : k < 2 ^ 64) : Cond.eq.holds (c.reg mask) = decide (k = 0) := by
  rw [h.mask_eq, Cond.holds]
  exact decide_eq_decide.mpr (w_eq_zero hk)

variable (int base)

/-- the label 2: one step to the right -/
theorem half (h : Mid c₀ c) (hr : Regs rem c k d m q) (hk : k < 2 ^ 64) (hd : d < 2 ^ 64) :
    ∃ c', Reaches base (text rem int) ⟨c, addr base (at1 int 5)⟩
        ⟨c', addr base (if k = 0 then at1 int 14 else at1 int 8)⟩ ∧
      Mid c₀ c' ∧ Regs rem c' (k / 2) (d / 2) m q := by
  have h1 : Reaches base (text rem int) ⟨c, addr base (at1 int 5)⟩
      ⟨c.set divisor (w (d / 2)), addr base (at1 int 6)⟩ := by
    refine op_reaches (o := .srl) (a := divisor) (b := .lit 1) rfl ?_
    rw [hr.divisor_eq]
    exact w_half hd
  have hm1 : Mid c₀ (c.set divisor (w (d / 2))) := h.set (by decide)
  have hr1 : Regs rem (c.set divisor (w (d / 2))) k (d / 2) m q := hr.setDivisor
  generalize c.set divisor (w (d / 2)) = c1 at h1 hm1 hr1
  have h2 : Reaches base (text rem int) ⟨c1, addr base (at1 int 6)⟩
      ⟨c1, addr base (if k = 0 then target .u9 (text rem int) else at1 int 7)⟩ :=
    branch_reaches (x := .eq) (a := mask) rfl (hr1.mask_zero hk)
  rw [target_u9] at h2
  by_cases h0 : k = 0
  · rw [if_pos h0] at h2 ⊢
    rw [h0] at hr1 ⊢
    exact ⟨c1, h1.trans h2, hm1, hr1⟩
  · rw [if_neg h0] at h2 ⊢
    have h3 : Reaches base (text rem int) ⟨c1, addr base (at1 int 7)⟩
        ⟨c1.set mask (w (k / 2)), addr base (at1 int 8)⟩ := by
      refine op_reaches (o := .srl) (a := mask) (b := .lit 1) rfl ?_
      rw [hr1.mask_eq]
      exact w_half hk
    exact ⟨_, (h1.trans h2).trans h3, hm1.set (by decide), hr1.setMask⟩

/-- the label 3: the divisor is subtracted if it fits -/
theorem subtract (h : Mid c₀ c) (hr : Regs rem c k d m q) (hk : k < 2 ^ 64) (hd : d < 2 ^ 64) (hm : m < 2 ^ 64) :
    ∃ c', Reaches base (text rem int) ⟨c, addr base (at1 int 8)⟩
        ⟨c', addr base (if d ≤ m ∧ k = 0 then at1 int 14 else at1 int 5)⟩ ∧
      Mid c₀ c' ∧ Regs rem c' k d (if d ≤ m ∧ k ≠ 0 then m - d else m) (if d ≤ m then q + k else q) := by
  have h1 : Reaches base (text rem int) ⟨c, addr base (at1 int 8)⟩
      ⟨c.set compare (if d ≤ m then 1 else 0), addr base (at1 int 9)⟩ := by
    refine op_reaches (o := .cmpule) (a := divisor) (b := .reg (modulus rem)) rfl ?_
    show (if c.reg divisor ≤ c.reg (modulus rem) then (1 : Word) else 0) = _
    rw [hr.divisor_eq, hr.modulus_eq]
    exact if_congr (w_le hd hm) rfl rfl
  have hc : Cond.eq.holds ((c.set compare (if d ≤ m then 1 else 0)).reg compare) = decide (¬ d ≤ m) := by
    rw [Core.reg_set_self (by decide)]
    by_cases hle : d ≤ m
    · rw [if_pos hle, decide_eq_false (not_not.mpr hle)]
      rfl
    · rw [if_neg hle, decide_eq_true hle]
      rfl
  have h2 : Reaches base (text rem int) ⟨c.set compare (if d ≤ m then 1 else 0), addr base (at1 int 9)⟩
      ⟨c.set compare (if d ≤ m then 1 else 0),
        addr base (if ¬ d ≤ m then target .u2 (text rem int) else at1 int 10)⟩ :=
    branch_reaches (x := .eq) (a := compare) rfl hc
  have hm1 : Mid c₀ (c.set compare (if d ≤ m then 1 else 0)) := h.set (by decide)
  have hr1 : Regs rem (c.set compare (if d ≤ m then 1 else 0)) k d m q := hr.setCompare
  generalize c.set compare (if d ≤ m then 1 else 0) = c1 at h1 h2 hm1 hr1
  rw [target_u2] at h2
  by_cases hle : d ≤ m
  · rw [if_neg (not_not.mpr hle)] at h2
    have h3 : Reaches base (text rem int) ⟨c1, addr base (at1 int 10)⟩
        ⟨c1.set (quotient rem) (w (q + k)), addr base (at1 int 11)⟩ := by
      refine op_reaches (o := .addq) (a := quotient rem) (b := .reg mask) rfl ?_
      show c1.reg (quotient rem) + c1.reg mask = _
      rw [hr1.quotient_eq, hr1.mask_eq, w_add]
    have hm2 : Mid c₀ (c1.set (quotient rem) (w (q + k))) := hm1.set (quotient_mem rem)
    have hr2 : Regs rem (c1.set (quotient rem) (w (q + k))) k d m (q + k) := hr1.setQuotient
    generalize c1.set (quotient rem) (w (q + k)) = c2 at h3 hm2 hr2
    have h4 : Reaches base (text rem int) ⟨c2, addr base (at1 int 11)⟩
        ⟨c2, addr base (if k = 0 then target .u9 (text rem int) else at1 int 12)⟩ :=
      branch_reaches (x := .eq) (a := mask) rfl (hr2.mask_zero hk)
    rw [target_u9] at h4
    have h1234 := (h1.trans h2).trans (h3.trans h4)
    rw [if_pos hle]
    by_cases h0 : k = 0
    · rw [if_pos ⟨hle, h0⟩, if_neg fun h => h.2 h0]
      rw [if_pos h0] at h1234
      exact ⟨c2, h1234, hm2, hr2⟩
    · rw [if_neg fun h => h0 h.2, if_pos ⟨hle, h0⟩]
      rw [if_neg h0] at h1234
      have h5 : Reaches base (text rem int) ⟨c2, addr base (at1 int 12)⟩
          ⟨c2.set (modulus rem) (w (m - d)), addr base (at1 int 13)⟩ := by
        refine op_reaches (o := .subq) (a := modulus rem) (b := .reg divisor) rfl ?_
        show c2.reg (modulus rem) - c2.reg divisor = _
        rw [hr2.modulus_eq, hr2.divisor_eq, w_sub hle hm]
      have h6 : Reaches base (text rem int) ⟨c2.set (modulus rem) (w (m - d)), addr base (at1 int 13)⟩
          ⟨c2.set (modulus rem) (w (m - d)), addr base (target .u2 (text rem int))⟩ :=
        .br (length_code rem int) (a := 31) (code_at1 int rfl)
      rw [target_u2] at h6
      exact ⟨_, (h1234.trans h5).trans h6, hm2.set (modulus_mem rem), hr2.setModulus⟩
  · rw [if_pos hle] at h2
    rw [if_neg fun h => hle h.1, if_neg fun h => hle h.1, if_neg hle]
    exact ⟨c1, h1.trans h2, hm1, hr1⟩

/-- the label 1, and the branch behind it -/
theorem double (h : Mid c₀ c) (hr : Regs rem c k d m q) (hd : d < 2 ^ 64) (hm : m < 2 ^ 64) :
    ∃ c', Reaches base (text rem int) ⟨c, addr base (at1 int 0)⟩
        ⟨c', addr base (if 2 ^ 63 ≤ d then at1 int 8 else if d < m then at1 int 0 else at1 int 5)⟩ ∧
      Mid c₀ c' ∧ Regs rem c' (if 2 ^ 63 ≤ d then k else k + k) (if 2 ^ 63 ≤ d then d else d + d) m q := by
  have h1 : Reaches base (text rem int) ⟨c, addr base (at1 int 0)⟩
      ⟨c.set compare (if d < m then 1 else 0), addr base (at1 int 1)⟩ := by
    refine op_reaches (o := .cmpult) (a := divisor) (b := .reg (modulus rem)) rfl ?_
    show (if c.reg divisor < c.reg (modulus rem) then (1 : Word) else 0) = _
    rw [hr.divisor_eq, hr.modulus_eq]
    exact if_congr (w_lt hd hm) rfl rfl
  have hm1 : Mid c₀ (c.set compare (if d < m then 1 else 0)) := h.set (by decide)
  have hr1 : Regs rem (c.set compare (if d < m then 1 else 0)) k d m q := hr.setCompare
  have hc : (c.set compare (if d < m then 1 else 0)).reg compare = if d < m then 1 else 0 :=
    Core.reg_set_self (by decide)
  generalize c.set compare (if d < m then 1 else 0) = c1 at h1 hm1 hr1 hc
  have h2 : Reaches base (text rem int) ⟨c1, addr base (at1 int 1)⟩
      ⟨c1, addr base (if 2 ^ 63 ≤ d then target .u3 (text rem int) else at1 int 2)⟩ := by
    refine branch_reaches (x := .lt) (a := divisor) rfl ?_
    rw [hr1.divisor_eq]
    exact w_msb hd
  rw [target_u3] at h2
  by_cases hbig : 2 ^ 63 ≤ d
  · rw [if_pos hbig] at h2 ⊢
    rw [if_pos hbig, if_pos hbig]
    exact ⟨c1, h1.trans h2, hm1, hr1⟩
  · rw [if_neg hbig] at h2 ⊢
    rw [if_neg hbig, if_neg hbig]
    have h3 : Reaches base (text rem int) ⟨c1, addr base (at1 int 2)⟩
        ⟨c1.set divisor (w (d + d)), addr base (at1 int 3)⟩ := by
      refine op_reaches (o := .addq) (a := divisor) (b := .reg divisor) rfl ?_
      show c1.reg divisor + c1.reg divisor = _
      rw [hr1.divisor_eq, w_add]
    have hm2 : Mid c₀ (c1.set divisor (w (d + d))) := hm1.set (by decide)
    have hr2 : Regs rem (c1.set divisor (w (d + d))) k (d + d) m q := hr1.setDivisor
    have hc2 : (c1.set divisor (w (d + d))).reg compare = if d < m then 1 else 0 := by
      rw [Core.reg_set_ne (by decide), hc]
    generalize c1.set divisor (w (d + d)) = c2 at h3 hm2 hr2 hc2
    have h4 : Reaches base (text rem int) ⟨c2, addr base (at1 int 3)⟩
        ⟨c2.set mask (w (k + k)), addr base (at1 int 4)⟩ := by
      refine op_reaches (o := .addq) (a := mask) (b := .reg mask) rfl ?_
      show c2.reg mask + c2.reg mask = _
      rw [hr2.mask_eq, w_add]
    have hm3 : Mid c₀ (c2.set mask (w (k + k))) := hm2.set (by decide)
    have hr3 : Regs rem (c2.set mask (w (k + k))) (k + k) (d + d) m q := hr2.setMask
    have hc3 : Cond.ne.holds ((c2.set mask (w (k + k))).reg compare) = decide (d < m) := by
      rw [Core.reg_set_ne (by decide), hc2]
      by_cases hlt : d < m
      · rw [if_pos hlt, decide_eq_true hlt]
        rfl
      · rw [if_neg hlt, decide_eq_false hlt]
        rfl
    generalize c2.set mask (w (k + k)) = c3 at h4 hm3 hr3 hc3
    have h5 : Reaches base (text rem int) ⟨c3, addr base (at1 int 4)⟩
        ⟨c3, addr base (if d < m then target .u1 (text rem int) else at1 int 5)⟩ :=
      branch_reaches (x := .ne) (a := compare) rfl hc3
    rw [target_u1] at h5
    exact ⟨c3, ((h1.trans h2).trans (h3.trans h4)).trans h5, hm3, hr3⟩

/-! ## the division -/

/-- the numbers at the label 9 -/
structure Answer (rem : Bool) (c₀ c : Core) (m q : Nat) : Prop where
  mid : Mid c₀ c
  modulus_eq : c.reg (modulus rem) = w m
  quotient_eq : c.reg (quotient rem) = w q

theorem sub_mul_mod_div {b e : Nat} (hb : 0 < b) (h : b * e ≤ m) :
    (m - b * e) % b = m % b ∧ q + e + (m - b * e) / b = q + m / b := by
  obtain ⟨r, rfl⟩ := Nat.exists_eq_add_of_le h
  rw [Nat.add_sub_cancel_left, Nat.mul_add_mod, Nat.mul_add_div hb]
  exact ⟨rfl, Nat.add_assoc q e _⟩

/-- nothing more happens without a bit -/
theorem no_bit (h : Mid c₀ c) (hr : Regs rem c 0 d m q) (hd : d < 2 ^ 64) (hm : m < 2 ^ 64) :
    ∃ c', Reaches base (text rem int) ⟨c, addr base (at1 int 8)⟩ ⟨c', addr base (at1 int 14)⟩ ∧
      Answer rem c₀ c' m q := by
  obtain ⟨c1, h1, hm1, hr1⟩ := subtract int base h hr (by omega) hd hm
  have hmod : (if d ≤ m ∧ 0 ≠ 0 then m - d else m) = m := if_neg fun h => h.2 rfl
  have hquo : (if d ≤ m then q + 0 else q) = q := ite_self q
  rw [hmod, hquo] at hr1
  by_cases hle : d ≤ m
  · rw [if_pos ⟨hle, rfl⟩] at h1
    exact ⟨c1, h1, hm1, hr1.modulus_eq, hr1.quotient_eq⟩
  · rw [if_neg fun h => hle h.1] at h1
    obtain ⟨c2, h2, hm2, hr2⟩ := half int base hm1 hr1 (by omega) hd
    exact ⟨c2, h1.trans h2, hm2, hr2.modulus_eq, hr2.quotient_eq⟩

/-- the loop to the right: by induction on the bit -/
theorem down {b : Nat} (h : Mid c₀ c) (hr : Regs rem c (2 ^ k) (b * 2 ^ k) m q) (hb : 0 < b) (hd : b * 2 ^ k < 2 ^ 64)
    (hm : m < 2 * (b * 2 ^ k)) (hm' : m < 2 ^ 64) :
    ∃ c', Reaches base (text rem int) ⟨c, addr base (at1 int 8)⟩ ⟨c', addr base (at1 int 14)⟩ ∧
      Answer rem c₀ c' (m % b) (q + m / b) := by
  induction k generalizing c m q with
  | zero =>
    rw [Nat.pow_zero, Nat.mul_one] at hr hd hm
    obtain ⟨c1, h1, hm1, hr1⟩ := subtract int base h hr (by omega) hd hm'
    obtain ⟨c2, h2, hm2, hr2⟩ := half int base hm1 hr1 (by omega) hd
    rw [if_neg fun h => Nat.one_ne_zero h.2] at h1
    have hlast : (if b ≤ m ∧ 1 ≠ 0 then m - b else m) = m % b ∧ (if b ≤ m then q + 1 else q) = q + m / b := by
      by_cases hle : b ≤ m
      · obtain ⟨hmod, hdiv⟩ := sub_mul_mod_div (m := m) (q := q) (e := 1) hb (by omega)
        rw [if_pos ⟨hle, Nat.one_ne_zero⟩, if_pos hle, ← hmod, ← hdiv, Nat.mul_one, Nat.mod_eq_of_lt (by omega),
          Nat.div_eq_of_lt (by omega)]
        exact ⟨rfl, rfl⟩
      · have hlt := Nat.lt_of_not_le hle
        rw [if_neg fun h => hle h.1, if_neg hle, Nat.mod_eq_of_lt hlt, Nat.div_eq_of_lt hlt]
        exact ⟨rfl, rfl⟩
    rw [hlast.1, hlast.2] at hr2
    have hmod := Nat.mod_le m b
    obtain ⟨c3, h3, hans⟩ := no_bit int base hm2 hr2 (by omega) (by omega)
    exact ⟨c3, (h1.trans h2).trans h3, hans⟩
  | succ k ih =>
    have hk := Nat.two_pow_pos k
    have hle : 2 ^ (k + 1) ≤ b * 2 ^ (k + 1) := Nat.le_mul_of_pos_left _ hb
    have hhalf : 2 ^ (k + 1) / 2 = 2 ^ k := by
      rw [Nat.pow_succ, Nat.mul_div_cancel _ Nat.two_pos]
    have hdouble : b * 2 ^ (k + 1) = 2 * (b * 2 ^ k) := by
      rw [Nat.pow_succ, ← Nat.mul_assoc, Nat.mul_comm]
    obtain ⟨c1, h1, hm1, hr1⟩ := subtract int base h hr (by omega) hd hm'
    obtain ⟨c2, h2, hm2, hr2⟩ := half int base hm1 hr1 (by omega) hd
    rw [if_neg fun h => by omega] at h1
    rw [if_neg (by omega)] at h2
    rw [hhalf, hdouble, Nat.mul_div_cancel_left _ Nat.two_pos] at hr2
    by_cases hfit : b * 2 ^ (k + 1) ≤ m
    · obtain ⟨hmod, hdiv⟩ := sub_mul_mod_div (q := q) hb hfit
      rw [if_pos ⟨hdouble ▸ hfit, by omega⟩, if_pos (hdouble ▸ hfit), ← hdouble] at hr2
      obtain ⟨c3, h3, hans⟩ := ih hm2 hr2 (by omega) (by omega) (by omega)
      rw [hmod, hdiv] at hans
      exact ⟨c3, (h1.trans h2).trans h3, hans⟩
    · rw [hdouble] at hfit
      rw [if_neg fun h => hfit h.1, if_neg hfit] at hr2
      obtain ⟨c3, h3, hans⟩ := ih hm2 hr2 (by omega) (by omega) hm'
      exact ⟨c3, (h1.trans h2).trans h3, hans⟩

/-- the loop to the left: by induction on the number of steps that are left -/
theorem up {b : Nat} (n : Nat) (hn : k + n = 64) (h : Mid c₀ c) (hr : Regs rem c (2 ^ k) (b * 2 ^ k) m q) (hb : 0 < b)
    (hd : b * 2 ^ k < 2 ^ 64) (hm : m < 2 ^ 64) :
    ∃ c', Reaches base (text rem int) ⟨c, addr base (at1 int 0)⟩ ⟨c', addr base (at1 int 14)⟩ ∧
      Answer rem c₀ c' (m % b) (q + m / b) := by
  induction n generalizing c k with
  | zero =>
    have hle : 2 ^ k ≤ b * 2 ^ k := Nat.le_mul_of_pos_left _ hb
    rw [show k = 64 from hn] at hle hd
    exact absurd hd (by omega)
  | succ n ih =>
    have hk := Nat.two_pow_pos k
    have hle : 2 ^ k ≤ b * 2 ^ k := Nat.le_mul_of_pos_left _ hb
    obtain ⟨c1, h1, hm1, hr1⟩ := double int base h hr hd hm
    by_cases hbig : 2 ^ 63 ≤ b * 2 ^ k
    · rw [if_pos hbig] at h1
      rw [if_pos hbig, if_pos hbig] at hr1
      obtain ⟨c2, h2, hans⟩ := down int base hm1 hr1 hb hd (by omega) hm
      exact ⟨c2, h1.trans h2, hans⟩
    · rw [if_neg hbig] at h1
      rw [if_neg hbig, if_neg hbig] at hr1
      by_cases hlt : b * 2 ^ k < m
      · rw [if_pos hlt] at h1
        rw [← Nat.two_mul, ← Nat.two_mul, ← Nat.pow_succ', Nat.mul_left_comm, ← Nat.pow_succ'] at hr1
        have hd' : b * 2 ^ k.succ < 2 ^ 64 := by
          rw [Nat.pow_succ', Nat.mul_left_comm]
          omega
        obtain ⟨c2, h2, hans⟩ := ih (by omega) hm1 hr1 hd'
        exact ⟨c2, h1.trans h2, hans⟩
      · rw [if_neg hlt] at h1
        obtain ⟨c2, h2, hm2, hr2⟩ := half int base hm1 hr1 (by omega) (by omega)
        rw [if_neg (by omega)] at h2
        rw [← Nat.two_mul, ← Nat.two_mul, Nat.mul_div_cancel_left _ Nat.two_pos,
          Nat.mul_div_cancel_left _ Nat.two_pos] at hr2
        obtain ⟨c3, h3, hans⟩ := down int base hm2 hr2 hb hd (by omega) hm
        exact ⟨c3, (h1.trans h2).trans h3, hans⟩

end

/-! ## the unsigned functions -/

/-- the argument of a function -/
def ext (int : Bool) (x : Word) : Word := if int then (x.setWidth 32).setWidth 64 else x

/-- a function returns with the value `v`, and has changed no more than the words `f` of the memory -/
structure Returned (v : Word) (f : List Word) (c₀ c : Core) : Prop where
  value : c.reg result = v
  regs : ∀ r ∉ [27, 28], c.reg r = c₀.reg r
  mem : ∀ x ∉ f, c.mem x = c₀.mem x

def unsigned (rem int : Bool) (a b : Word) : Word :=
  if rem then ext int a % ext int b else ext int a / ext int b

section
variable {rem int : Bool} {base : Word} {c₀ c : Core} {k d m q : Nat} {r : Reg} {l : List Simple}

theorem longify_run : run (LONGIFY int r ++ l) c = run l (c.set r (ext int (c.reg r))) := by
  cases int
  · rw [ext, if_neg Bool.false_ne_true, Core.set_reg]
    rfl
  · rw [ext, if_pos rfl, ← zapnot_low (v := c.reg r)]
    rfl

/-- the instructions before the first branch -/
def entry (rem int : Bool) : List Simple :=
  push 32 temporaries ++ (.op .bis 25 (.reg 25) divisor :: .op .bis 24 (.reg 24) (modulus rem) ::
    .op .bis 31 (.reg 31) (quotient rem) :: (LONGIFY int divisor ++ (LONGIFY int (modulus rem) ++ [])))

theorem code_entry (rem int : Bool) :
    ((code (text rem int)).drop 0).take (entry rem int).length = (entry rem int).map .simple := by
  cases rem <;> cases int <;> rfl

theorem code_zero (rem int : Bool) :
    (code (text rem int))[0 + (entry rem int).length]? = some (.branch .eq divisor .u9) := by
  cases rem <;> cases int <;> rfl

theorem code_one (rem int : Bool) : ((code (text rem int)).drop (0 + (entry rem int).length + 1)).take 1 =
    [.op .bis 31 (.lit 1) mask].map .simple := by
  cases rem <;> cases int <;> rfl

theorem entry_length (rem int : Bool) : 0 + (entry rem int).length + 1 + 1 = at1 int 0 := by
  cases rem <;> cases int <;> rfl

theorem w_toNat (x : Word) : w x.toNat = x := by
  rw [w, BitVec.ofNat_toNat, BitVec.setWidth_eq]

theorem Regs.start (rem : Bool) (c : Core) : Regs rem c (c.reg mask).toNat (c.reg divisor).toNat
    (c.reg (modulus rem)).toNat (c.reg (quotient rem)).toNat :=
  ⟨(w_toNat _).symm, (w_toNat _).symm, (w_toNat _).symm, (w_toNat _).symm⟩

theorem entry_run (rem int : Bool) (h : Aligned (c.reg 30)) : ∃ c' k, run (entry rem int) c = some c' ∧ Mid c c' ∧
    Regs rem c' k (ext int (c.reg 25)).toNat (ext int (c.reg 24)).toNat 0 := by
  obtain ⟨c1, hrun, hsaved, hregs⟩ := push_run (n := 32) (l := temporaries) (k := .op .bis 25 (.reg 25) divisor ::
    .op .bis 24 (.reg 24) (modulus rem) :: .op .bis 31 (.reg 31) (quotient rem) ::
      (LONGIFY int divisor ++ (LONGIFY int (modulus rem) ++ []))) h (by decide) slots_temporaries (by decide)
  have hm1 : Mid c c1 := ⟨hsaved, fun r hr => hregs r fun he => hr (by rw [he]; decide)⟩
  have h24 : c1.reg 24 = c.reg 24 := hm1.regs 24 (by decide)
  have h25 : c1.reg 25 = c.reg 25 := hm1.regs 25 (by decide)
  -- the arguments are copied
  have hm2 := (hm1.set (v := w (c.reg 25).toNat) (r := divisor) (by decide)).set (v := w (c.reg 24).toNat)
    (modulus_mem rem)
  have hr2 := ((Regs.start rem c1).setDivisor (n := (c.reg 25).toNat)).setModulus (n := (c.reg 24).toNat)
  have hm3 := hm2.set (v := w 0) (quotient_mem rem)
  have hr3 := hr2.setQuotient (n := 0)
  have hcopy : run (.op .bis 25 (.reg 25) divisor :: .op .bis 24 (.reg 24) (modulus rem) ::
      .op .bis 31 (.reg 31) (quotient rem) :: (LONGIFY int divisor ++ (LONGIFY int (modulus rem) ++ []))) c1 =
      run (LONGIFY int divisor ++ (LONGIFY int (modulus rem) ++ [])) (((c1.set divisor (w (c.reg 25).toNat)).set
        (modulus rem) (w (c.reg 24).toNat)).set (quotient rem) (w 0)) := by
    rw [run_op, run_op, run_op]
    show run _ (((c1.set divisor (c1.reg 25 ||| c1.reg 25)).set (modulus rem) (Core.reg _ 24 ||| Core.reg _ 24)).set
      (quotient rem) (0 ||| 0)) = _
    rw [BitVec.or_self, BitVec.or_self, BitVec.or_self, Core.reg_set_ne (by decide), h24, h25, w_toNat, w_toNat]
    rfl
  generalize ((c1.set divisor (w (c.reg 25).toNat)).set (modulus rem) (w (c.reg 24).toNat)).set (quotient rem) (w 0) =
    c3 at hm3 hr3 hcopy
  rw [hcopy, longify_run, longify_run, hr3.divisor_eq, w_toNat, Core.reg_set_ne (by cases rem <;> decide),
    hr3.modulus_eq, w_toNat, ← w_toNat (ext int (c.reg 25)), ← w_toNat (ext int (c.reg 24))] at hrun
  exact ⟨_, _, hrun, (hm3.set (by decide)).set (modulus_mem rem), hr3.setDivisor.setModulus⟩

theorem code_return (rem int : Bool) :
    ((code (text rem int)).drop (at1 int 14)).take 4 = (pop 32 temporaries).map .simple := by
  cases rem <;> cases int <;> rfl

/-- the label 9 -/
theorem return_reaches (rem int : Bool) (base : Word) (h : Mid c₀ c) (hs : Aligned (c₀.reg 30)) :
    ∃ c', Reaches base (text rem int) ⟨c, addr base (at1 int 14)⟩ ⟨c', c₀.reg 23 &&& ~~~3⟩ ∧
      Returned (c.reg result) (slots (c₀.reg 30) 32 temporaries) c₀ c' := by
  obtain ⟨c', hrun, hback, hother, hmem⟩ := pop_run (k := []) h.saved.toInFrame hs (by decide)
    slots_temporaries (by decide)
  rw [List.append_nil] at hrun
  have hreach := Reaches.block (B := base) (length_code rem int) (l := pop 32 temporaries) (code_return rem int) hrun
  have hret : Reaches base (text rem int) ⟨c', addr base (at1 int 18)⟩ ⟨c'.set 31 _, c'.reg 23 &&& ~~~3⟩ :=
    Reaches.jump (length_code rem int) (code_at1 int rfl)
  have hregs : ∀ r ∉ [27, 28], c'.reg r = c₀.reg r := fun r hr => by
    by_cases hin : r ∈ [30, 0, 1, 2]
    · exact hback r hin
    · rw [hother r hin]
      refine h.regs r fun hmem => ?_
      revert r
      decide
  rw [at1_add] at hreach
  rw [hregs 23 (by decide), Core.set_zero] at hret
  refine ⟨c', hreach.trans hret, hother 27 (by decide), hregs, fun x hx => ?_⟩
  rw [hmem, h.saved.mem x hx]

/-- the value is that of the division of the registers -/
theorem answer_unsigned {a b : Word} (h : Answer rem c₀ c ((ext int a).toNat % (ext int b).toNat)
    (0 + (ext int a).toNat / (ext int b).toNat)) : c.reg result = unsigned rem int a b := by
  rw [Nat.zero_add] at h
  cases rem
  · refine h.quotient_eq.trans ?_
    rw [← BitVec.toNat_udiv, w_toNat]
    rfl
  · refine h.modulus_eq.trans ?_
    rw [← BitVec.toNat_umod, w_toNat]
    rfl

theorem ufunction_reaches (rem int : Bool) (base : Word) (hs : Aligned (c.reg 30)) :
    ∃ c', Reaches base (text rem int) ⟨c, addr base 0⟩ ⟨c', c.reg 23 &&& ~~~3⟩ ∧
      Returned (unsigned rem int (c.reg 24) (c.reg 25)) (slots (c.reg 30) 32 temporaries) c c' := by
  have hlen := length_code rem int
  obtain ⟨c1, k, hrun, hm1, hr1⟩ := entry_run rem int hs
  have hlt : ∀ x : Word, x.toNat < 2 ^ 64 := fun x => x.isLt
  have h1 := Reaches.block (B := base) hlen (code_entry rem int) hrun
  -- the state at the label 9
  suffices h : ∃ c2, Reaches base (text rem int) ⟨c1, addr base (0 + (entry rem int).length)⟩
      ⟨c2, addr base (at1 int 14)⟩ ∧ Answer rem c c2 ((ext int (c.reg 24)).toNat % (ext int (c.reg 25)).toNat)
        (0 + (ext int (c.reg 24)).toNat / (ext int (c.reg 25)).toNat) by
    obtain ⟨c2, h2, hans⟩ := h
    obtain ⟨c3, h3, hret⟩ := return_reaches rem int base hans.mid hs
    rw [answer_unsigned hans] at hret
    exact ⟨c3, (h1.trans h2).trans h3, hret⟩
  by_cases h0 : (ext int (c.reg 25)).toNat = 0
  · -- division by zero
    rw [h0] at hr1 ⊢
    have h2 := Reaches.taken (B := base) hlen (code_zero rem int) (c := c1) (by
      rw [hr1.divisor_eq]
      rfl)
    rw [target_u9] at h2
    rw [Nat.mod_zero, Nat.div_zero]
    exact ⟨c1, h2, hm1, hr1.modulus_eq, hr1.quotient_eq⟩
  · have h2 := Reaches.past (B := base) hlen (code_zero rem int) (c := c1) (by
      rw [hr1.divisor_eq, Cond.holds, decide_eq_true_iff, w_eq_zero (hlt _)]
      exact h0)
    have hbit : run [.op .bis 31 (.lit 1) mask] c1 = some (c1.set mask (w (2 ^ 0))) :=
      congrArg (fun v => some (c1.set mask v)) (show (0 : Word) ||| (1 : BitVec 8).setWidth 64 = w (2 ^ 0) by decide)
    have h3 := Reaches.block (B := base) hlen (l := [.op .bis 31 (.lit 1) mask]) (code_one rem int) hbit
    rw [List.length_singleton, entry_length] at h3
    obtain ⟨c2, h4, hans⟩ := up int base (k := 0) 64 rfl (hm1.set (r := mask) (by decide))
      (by rw [Nat.pow_zero, Nat.mul_one]; exact hr1.setMask) (Nat.pos_of_ne_zero h0)
      (by rw [Nat.pow_zero, Nat.mul_one]; exact hlt _) (hlt _)
    exact ⟨c2, (h2.trans h3).trans h4, hans⟩

end

end Divide
