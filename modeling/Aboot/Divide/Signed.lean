import Aboot.Divide.Unsigned

/-!
# Signed division

The unsigned function is called with the numbers without their signs, and the sign is put back.

* `sfunction_reaches`                    the function;
* `divide_unsigned`, `divide_signed`     the results of the functions;
* `divide_law`                           quotient and remainder belong together.
-/

set_option linter.unusedVariables false

namespace Divide
open Alpha

/-! ## signs -/

/-- a number of 32 bits, as the compiler keeps it in a register -/
def Long (x : Word) : Prop := (x.setWidth 32).signExtend 64 = x

instance (x : Word) : Decidable (Long x) := inferInstanceAs (Decidable (_ = _))

def signed (rem : Bool) (a b : Word) : Word := if rem then a.srem b else a.sdiv b

/-- the value that has the sign of the result -/
def sign (rem : Bool) (a b : Word) : Word := if rem then a else a ^^^ b

section
variable {rem int : Bool} {a b : Word}

theorem Long.or (ha : Long a) (hb : Long b) : Long (a ||| b) := by
  unfold Long at *
  rw [BitVec.setWidth_or, BitVec.signExtend_or, ha, hb]

theorem Long.sign (ha : Long a) (hb : Long b) : Long (sign rem a b) := by
  cases rem
  · unfold Long Divide.sign at *
    rw [if_neg Bool.false_ne_true, BitVec.setWidth_xor, BitVec.signExtend_xor, ha, hb]
  · exact ha

theorem Long.abs_lt (h : Long a) : a.abs.toNat < 2 ^ 32 := by
  rw [← h, BitVec.toNat_abs, BitVec.msb_signExtend, BitVec.toNat_signExtend]
  generalize a.setWidth 32 = x
  have hx := x.isLt
  rw [BitVec.toNat_setWidth, Nat.mod_eq_of_lt (Nat.lt_trans hx (by decide))]
  cases hm : x.msb
  · simp
    omega
  · have := BitVec.le_toNat_of_msb_true hm
    simp
    omega

theorem ext_abs (h : int → Long a) : ext int a.abs = a.abs := by
  cases int
  · rfl
  · refine BitVec.eq_of_toNat_eq ?_
    rw [ext, if_pos rfl, BitVec.toNat_setWidth, BitVec.toNat_setWidth, Nat.mod_eq_of_lt (h rfl).abs_lt,
      Nat.mod_eq_of_lt (BitVec.isLt _)]

/-- the numbers are divided without their signs -/
theorem signed_eq (ha : int → Long a) (hb : int → Long b) : signed rem a b =
    if (sign rem a b).msb then -unsigned rem int a.abs b.abs else unsigned rem int a.abs b.abs := by
  unfold unsigned
  rw [ext_abs ha, ext_abs hb, BitVec.abs_eq, BitVec.abs_eq]
  cases rem
  · show a.sdiv b = if (a ^^^ b).msb then -(_ / _) else _ / _
    rw [BitVec.sdiv_eq, BitVec.msb_xor]
    cases a.msb <;> cases b.msb <;> rfl
  · show a.srem b = if a.msb then -(_ % _) else _ % _
    rw [BitVec.srem_eq]
    cases a.msb <;> cases b.msb <;> rfl

/-- no number is negative -/
theorem signed_of_or (ha : int → Long a) (hb : int → Long b) (h : (a ||| b).msb = false) :
    signed rem a b = unsigned rem int a b := by
  rw [BitVec.msb_or, Bool.or_eq_false_iff] at h
  have hsign : (sign rem a b).msb = false := by
    cases rem
    · show (a ^^^ b).msb = false
      rw [BitVec.msb_xor, h.1, h.2]
      rfl
    · exact h.1
  rw [signed_eq ha hb, hsign, if_neg Bool.false_ne_true, BitVec.abs_eq, BitVec.abs_eq, h.1, h.2]
  rfl

theorem div_mul_add_mod (a b : Word) : a / b * b + a % b = a := by
  refine BitVec.eq_of_toNat_eq ?_
  rw [BitVec.toNat_add, BitVec.toNat_mul, BitVec.toNat_udiv, BitVec.toNat_umod, Nat.mod_add_mod, Nat.mul_comm,
    Nat.div_add_mod, Nat.mod_eq_of_lt a.isLt]

theorem sdiv_mul_add_srem (a b : Word) : a.sdiv b * b + a.srem b = a := by
  have hneg : ∀ x y : Word, x + y = -a → -x + -y = a := fun x y h => by
    rw [← BitVec.neg_neg (x := a), ← h, BitVec.neg_add, BitVec.sub_eq_add_neg]
  rw [BitVec.sdiv_eq, BitVec.srem_eq]
  cases a.msb <;> cases b.msb
  · exact div_mul_add_mod a b
  · show -(a / -b) * b + a % -b = a
    rw [BitVec.neg_mul_comm]
    exact div_mul_add_mod a (-b)
  · show -(-a / b) * b + -(-a % b) = a
    rw [BitVec.neg_mul]
    exact hneg _ _ (div_mul_add_mod (-a) b)
  · show (-a / -b) * b + -(-a % -b) = a
    rw [← BitVec.neg_mul_neg, BitVec.neg_mul]
    exact hneg _ _ (div_mul_add_mod (-a) (-b))

end

/-! ## the signed functions -/

section
variable {rem int : Bool} {base : Word} {c : Core} {i : Nat} {r : Reg} {l : List Simple}

theorem slongify_run (int : Bool) (h : int → Long (c.reg r)) : run (SLONGIFY int r ++ l) c = run l c := by
  cases int
  · rfl
  · show run l (c.set r (((c.reg r + 0#64).setWidth 32).signExtend 64)) = _
    rw [BitVec.add_zero, h rfl, Core.set_reg]

/-- the numbers of the instructions of the signed function: of its branch, and of the branch on the sign -/
def at2 (int : Bool) (i : Nat) : Nat := i + if int then 32 else 29
def at3 (int : Bool) (i : Nat) : Nat := i + if int then 48 else 44

theorem at2_add (int : Bool) (i j : Nat) : at2 int i + j = at2 int (i + j) := Nat.add_right_comm i _ j

theorem at3_add (int : Bool) (i j : Nat) : at3 int i + j = at3 int (i + j) := Nat.add_right_comm i _ j

/-- the code between the branches -/
def signs (int : Bool) : List Simple := .op .bis 24 (.reg 25) 28 :: (SLONGIFY int 28 ++ [])

def magnitudes : List Simple := push 32 arguments ++ [
  .op .subq 31 (.reg 24) 28,
  .op .cmovlt 24 (.reg 28) 24,
  .op .subq 31 (.reg 25) 28,
  .op .cmovlt 25 (.reg 28) 25]

def back (rem int : Bool) : List Simple := pop 32 arguments ++ (GETSIGN rem 28 :: (SLONGIFY int 28 ++ []))

theorem target_sfunction (rem int : Bool) : target .sfunction (text rem int) = at1 int 19 := by
  cases rem <;> cases int <;> rfl

theorem target_s1 (rem int : Bool) : target .s1 (text rem int) = at3 int 2 := by
  cases rem <;> cases int <;> rfl

theorem code_signs (rem int : Bool) :
    ((code (text rem int)).drop (at1 int 19)).take (signs int).length = (signs int).map .simple := by
  cases rem <;> cases int <;> rfl

theorem signs_length (int : Bool) : at1 int 19 + (signs int).length = at2 int 0 := by
  cases int <;> rfl

theorem code_bge (rem int : Bool) : (code (text rem int))[at2 int 0]? = some (.branch .ge 28 .ufunction) := by
  cases rem <;> cases int <;> rfl

theorem code_magnitudes (rem int : Bool) :
    ((code (text rem int)).drop (at2 int 1)).take magnitudes.length = magnitudes.map .simple := by
  cases rem <;> cases int <;> rfl

theorem magnitudes_length (int : Bool) : at2 int 1 + magnitudes.length = at2 int 9 := by
  cases int <;> rfl

theorem code_bsr (rem int : Bool) : (code (text rem int))[at2 int 9]? = some (.br 23 .ufunction) := by
  cases rem <;> cases int <;> rfl

theorem code_back (rem int : Bool) :
    ((code (text rem int)).drop (at2 int 10)).take (back rem int).length = (back rem int).map .simple := by
  cases rem <;> cases int <;> rfl

theorem back_length (rem int : Bool) : at2 int 10 + (back rem int).length = at3 int 0 := by
  cases rem <;> cases int <;> rfl

theorem code_positive (rem int : Bool) : (code (text rem int))[at3 int 0]? = some (.branch .ge 28 .s1) := by
  cases rem <;> cases int <;> rfl

theorem code_negate (rem int : Bool) :
    (code (text rem int))[at3 int 1]? = some (.simple (.op .subq 31 (.reg 27) 27)) := by
  cases rem <;> cases int <;> rfl

theorem code_ret (rem int : Bool) : (code (text rem int))[at3 int 2]? = some (.jump 31 23) := by
  cases rem <;> cases int <;> rfl

theorem signs_run (ha : int → Long (c.reg 24)) (hb : int → Long (c.reg 25)) :
    run (signs int) c = some (c.set 28 (c.reg 24 ||| c.reg 25)) := by
  show run (SLONGIFY int 28 ++ []) (c.set 28 (c.reg 24 ||| c.reg 25)) = _
  rw [slongify_run]
  · rfl
  · rw [Core.reg_set_self (by decide)]
    exact fun h => (ha h).or (hb h)

theorem magnitudes_run (hs : Aligned (c.reg 30)) : ∃ c', run magnitudes c = some c' ∧
    Pushed 32 arguments (slots (c.reg 30) 32 arguments) c c' ∧
      c'.reg 24 = (c.reg 24).abs ∧ c'.reg 25 = (c.reg 25).abs ∧ ∀ r ∉ [24, 25, 28, 30], c'.reg r = c.reg r := by
  obtain ⟨c1, hrun, hsaved, hregs⟩ := push_run (c := c) (n := 32) (l := arguments) (k := [
    .op .subq 31 (.reg 24) 28, .op .cmovlt 24 (.reg 28) 24, .op .subq 31 (.reg 25) 28, .op .cmovlt 25 (.reg 28) 25])
    hs (by decide) slots_arguments (by decide)
  rw [← hregs 24 (by decide), ← hregs 25 (by decide)]
  have hrest : run [.op .subq 31 (.reg 24) 28, .op .cmovlt 24 (.reg 28) 24, .op .subq 31 (.reg 25) 28,
      .op .cmovlt 25 (.reg 28) 25] c1 = some ((((c1.set 28 (-c1.reg 24)).set 24 (c1.reg 24).abs).set 28
        (-c1.reg 25)).set 25 (c1.reg 25).abs) := by
    rfl
  refine ⟨_, hrun.trans hrest, (((hsaved.set ?_).set ?_).set ?_).set ?_, ?_, ?_, fun r hr => ?_⟩
  · decide
  · decide
  · decide
  · decide
  · rw [Core.reg_set_ne (by decide), Core.reg_set_ne (by decide), Core.reg_set_self (by decide)]
  · exact Core.reg_set_self (by decide)
  · simp only [List.mem_cons, List.not_mem_nil, or_false, not_or] at hr
    rw [Core.reg_set_ne hr.2.1, Core.reg_set_ne hr.2.2.1, Core.reg_set_ne hr.1, Core.reg_set_ne hr.2.2.1,
      hregs r hr.2.2.2]

theorem back_run (rem : Bool) {c₀ : Core} (h : InFrame 32 arguments c₀ c) (hs : Aligned (c₀.reg 30))
    (ha : int → Long (c₀.reg 24)) (hb : int → Long (c₀.reg 25)) : ∃ c', run (back rem int) c = some c' ∧
      c'.reg 28 = sign rem (c₀.reg 24) (c₀.reg 25) ∧ (∀ r ∈ [30, 23, 24, 25], c'.reg r = c₀.reg r) ∧
        (∀ r ∉ [30, 23, 24, 25, 28], c'.reg r = c.reg r) ∧ c'.mem = c.mem := by
  obtain ⟨c1, hrun, hback, hother, hmem⟩ := pop_run (k := GETSIGN rem 28 :: (SLONGIFY int 28 ++ [])) h hs
    (by decide) slots_arguments (by decide)
  have h24 := hback 24 (by decide)
  have h25 := hback 25 (by decide)
  have hsign : run (GETSIGN rem 28 :: (SLONGIFY int 28 ++ [])) c1 =
      run (SLONGIFY int 28 ++ []) (c1.set 28 (sign rem (c₀.reg 24) (c₀.reg 25))) := by
    cases rem
    · rw [← h24, ← h25]
      rfl
    · show run _ (c1.set 28 (c1.reg 24 ||| c1.reg 24)) = _
      rw [BitVec.or_self, h24]
      rfl
  have hself : (c1.set 28 (sign rem (c₀.reg 24) (c₀.reg 25))).reg 28 = sign rem (c₀.reg 24) (c₀.reg 25) :=
    Core.reg_set_self (by decide)
  have hlong := slongify_run int (c := c1.set 28 (sign rem (c₀.reg 24) (c₀.reg 25))) (r := 28) (l := []) (by
    rw [hself]
    exact fun h => (ha h).sign (hb h))
  refine ⟨_, (hrun.trans hsign).trans hlong, hself, fun r hr => ?_, fun r hr => ?_, Core.mem_set.trans hmem⟩
  · rw [Core.reg_set_ne (by rintro rfl; exact absurd hr (by decide)), hback r hr]
  · simp only [List.mem_cons, List.not_mem_nil, or_false, not_or] at hr
    rw [Core.reg_set_ne hr.2.2.2.2, hother r (by simp [hr, arguments])]

/-- the address behind the `bsr` survives the return -/
theorem addr_aligned (hb : base.toNat % 4 = 0) : addr base i &&& ~~~3 = addr base i := by
  refine and_not_three ?_
  unfold addr
  bv_omega

/-- the end of the function, where `x` has the sign of the result -/
theorem sign_reaches (rem int : Bool) (base : Word) {x q : Word} (hx : c.reg 28 = x) (hq : c.reg result = q) :
    ∃ c', Reaches base (text rem int) ⟨c, addr base (at3 int 0)⟩ ⟨c', c.reg 23 &&& ~~~3⟩ ∧
      c'.reg result = (if x.msb then -q else q) ∧ (∀ r ∉ [27, 28], c'.reg r = c.reg r) ∧ c'.mem = c.mem := by
  have hlen := length_code rem int
  have hret : ∀ c' : Core, Reaches base (text rem int) ⟨c', addr base (at3 int 2)⟩ ⟨c', c'.reg 23 &&& ~~~3⟩ :=
    fun c' => Reaches.jump hlen (a := 31) (code_ret rem int)
  by_cases hm : x.msb
  · have h1 := Reaches.past (B := base) hlen (code_positive rem int) (c := c) (by
      rw [hx, Cond.holds, hm]
      decide)
    have h2 : Reaches base (text rem int) ⟨c, addr base (at3 int 1)⟩
        ⟨c.set 27 (-c.reg 27), addr base (at3 int 1 + 1)⟩ :=
      .simple hlen (code_negate rem int) rfl
    rw [at3_add] at h1 h2
    have h3 := hret (c.set 27 (-c.reg 27))
    rw [Core.reg_set_ne (by decide)] at h3
    refine ⟨c.set 27 (-c.reg 27), (h1.trans h2).trans h3, ?_, fun r hr => ?_, Core.mem_set⟩
    · rw [if_pos hm, ← hq]
      exact Core.reg_set_self (by decide)
    · exact Core.reg_set_ne fun he => hr (by rw [he]; decide)
  · have h1 := Reaches.taken (B := base) hlen (code_positive rem int) (c := c) (by
      rw [hx, Cond.holds]
      exact decide_eq_true hm)
    rw [target_s1] at h1
    rw [if_neg hm]
    exact ⟨c, h1.trans (hret c), hq, fun r hr => rfl, rfl⟩

/-- the words of the stack: those of the two frames -/
def frames (sp : Word) : List Word := slots sp 32 arguments ++ slots (sp - 32) 32 temporaries

/-- the two frames are different words -/
theorem outer_frame (x : Word) : ∀ p ∈ arguments,
    x - (32 : BitVec 8).setWidth 64 + p.2.signExtend 64 ∉ slots (x - (32 : BitVec 8).setWidth 64) 32 temporaries := by
  have h0 : (0 : BitVec 16).signExtend 64 = (0 : Word) := by decide
  have h8 : (8 : BitVec 16).signExtend 64 = (8 : Word) := by decide
  have h16 : (16 : BitVec 16).signExtend 64 = (16 : Word) := by decide
  have h32 : (32 : BitVec 8).setWidth 64 = (32 : Word) := by decide
  unfold arguments slots temporaries
  simp only [List.mem_cons, List.not_mem_nil, or_false, List.map_cons, List.map_nil, not_or, h32]
  rintro p (rfl | rfl | rfl)
  all_goals
    simp only [h0, h8, h16]
    refine ⟨?_, ?_, ?_⟩ <;> bv_omega

theorem sfunction_reaches (rem : Bool) (hb4 : base.toNat % 4 = 0) (hs : Aligned (c.reg 30))
    (ha : int → Long (c.reg 24)) (hb : int → Long (c.reg 25)) :
    ∃ c', Reaches base (text rem int) ⟨c, addr base (at1 int 19)⟩ ⟨c', c.reg 23 &&& ~~~3⟩ ∧
      Returned (signed rem (c.reg 24) (c.reg 25)) (frames (c.reg 30)) c c' := by
  have hlen := length_code rem int
  have h1 := Reaches.block (B := base) hlen (code_signs rem int) (signs_run ha hb)
  have hregs : ∀ r ≠ 28, (c.set 28 (c.reg 24 ||| c.reg 25)).reg r = c.reg r := fun r hr => Core.reg_set_ne hr
  have hself : (c.set 28 (c.reg 24 ||| c.reg 25)).reg 28 = c.reg 24 ||| c.reg 25 := Core.reg_set_self (by decide)
  have hmem : (c.set 28 (c.reg 24 ||| c.reg 25)).mem = c.mem := Core.mem_set
  generalize c.set 28 (c.reg 24 ||| c.reg 25) = c1 at h1 hregs hself hmem
  rw [signs_length] at h1
  have h23 := hregs 23 (by decide)
  have h24 := hregs 24 (by decide)
  have h25 := hregs 25 (by decide)
  have h30 := hregs 30 (by decide)
  by_cases hm : (c.reg 24 ||| c.reg 25).msb
  · have h2 := Reaches.past (B := base) hlen (code_bge rem int) (c := c1) (by
      rw [hself, Cond.holds, hm]
      decide)
    rw [at2_add] at h2
    -- the function is called with the numbers without their signs
    obtain ⟨c2, hrun2, hsaved, ha2, hb2, hregs2⟩ := magnitudes_run (c := c1) (by rw [h30]; exact hs)
    have h3 := Reaches.block (B := base) hlen (code_magnitudes rem int) hrun2
    rw [magnitudes_length] at h3
    have h4 := Reaches.br (B := base) hlen (code_bsr rem int) (c := c2)
    rw [at2_add] at h4
    have hsaved' : Pushed 32 arguments (slots (c1.reg 30) 32 arguments) c1
        (c2.set 23 (addr base (at2 int 10))) := hsaved.set (by decide)
    have hregs3 : ∀ r ≠ 23, (c2.set 23 (addr base (at2 int 10))).reg r = c2.reg r := fun r hr => Core.reg_set_ne hr
    have hself3 : (c2.set 23 (addr base (at2 int 10))).reg 23 = addr base (at2 int 10) :=
      Core.reg_set_self (by decide)
    generalize c2.set 23 (addr base (at2 int 10)) = c3 at h4 hsaved' hregs3 hself3
    have hsp : c3.reg 30 = c.reg 30 - 32 := by
      rw [hsaved'.sp, h30]
      rfl
    obtain ⟨c4, h5, hret⟩ := ufunction_reaches rem int base (c := c3) (by
      rw [hsp]
      exact aligned_sub (n := 32) hs (by decide))
    rw [hself3, addr_aligned hb4] at h5
    rw [hregs3 24 (by decide), ha2, h24, hregs3 25 (by decide), hb2, h25, hsp] at hret
    have hsaved4 : Pushed 32 arguments (frames (c.reg 30)) c c4 := by
      rw [h30] at hsaved'
      refine ⟨⟨?_, fun p hp => ?_⟩, fun x hx => ?_⟩
      · rw [hret.regs 30 (by decide), hsp]
        rfl
      · rw [hret.mem _ (outer_frame _ p hp), ← h30, hsaved'.saved p hp, hregs p.1]
        exact (forall_of_all (by decide) : ∀ p ∈ arguments, p.1 ≠ 28) p hp
      · rw [hret.mem x fun h => hx (List.mem_append_right _ h), hsaved'.mem x fun h => hx (List.mem_append_left _ h),
          hmem]
    obtain ⟨c5, hrun5, hsign, hback, hother, hmem5⟩ := back_run rem hsaved4.toInFrame hs ha hb
    have h6 := Reaches.block (B := base) hlen (code_back rem int) hrun5
    rw [back_length] at h6
    obtain ⟨c6, h7, hval, hregs6, hmem6⟩ := sign_reaches rem int base hsign
      ((hother 27 (by decide)).trans hret.value)
    rw [hback 23 (by decide)] at h7
    refine ⟨c6, (((h1.trans h2).trans (h3.trans h4)).trans h5).trans (h6.trans h7), ?_, fun r hr => ?_,
      fun x hx => ?_⟩
    · rw [hval, signed_eq ha hb]
    · rw [hregs6 r hr]
      by_cases hin : r ∈ [30, 23, 24, 25]
      · exact hback r hin
      · simp only [List.mem_cons, List.not_mem_nil, or_false, not_or] at hr hin
        rw [hother r (by simp [hr, hin]), hret.regs r (by simp [hr]), hregs3 r hin.2.1, hregs2 r (by simp [hr, hin]),
          hregs r hr.2]
    · rw [hmem6, hmem5, hsaved4.mem x hx]
  · have h2 := Reaches.taken (B := base) hlen (code_bge rem int) (c := c1) (by
      rw [hself, Cond.holds]
      exact decide_eq_true hm)
    rw [show target .ufunction (text rem int) = 0 from rfl] at h2
    obtain ⟨c2, h3, hret⟩ := ufunction_reaches rem int base (c := c1) (by rw [h30]; exact hs)
    rw [h24, h25, h30, ← signed_of_or ha hb (Bool.eq_false_iff.mpr hm)] at hret
    rw [h23] at h3
    refine ⟨c2, (h1.trans h2).trans h3, hret.value, fun r hr => ?_, fun x hx => ?_⟩
    · rw [hret.regs r hr, hregs r fun he => hr (by rw [he]; decide)]
    · rw [hret.mem x fun h => hx (List.mem_append_left _ h), hmem]

end

/-! ## the results -/

/-- `__divqu`, `__remqu`, `__divlu` and `__remlu` return the quotient or remainder -/
theorem divide_unsigned (rem int : Bool) (base : Word) (c : Core) (hs : Aligned (c.reg 30)) :
    ∃ c', Reaches base (text rem int) ⟨c, addr base (target .ufunction (text rem int))⟩ ⟨c', c.reg 23 &&& ~~~3⟩ ∧
      Returned (unsigned rem int (c.reg 24) (c.reg 25)) (slots (c.reg 30) 32 temporaries) c c' :=
  ufunction_reaches rem int base hs

/-- the registers of a call -/
def called (a b : Word) : Core := ⟨fun r => if r = 24 then a else if r = 25 then b else 0, fun _ => 0⟩

theorem divide_unsigned_seven :
    ∃ c', Reaches 0 (text true true) ⟨called 7 2, addr 0 (target .ufunction (text true true))⟩ ⟨c', 0⟩ ∧
      Returned 1 (slots 0 32 temporaries) (called 7 2) c' :=
  divide_unsigned true true 0 (called 7 2) (by decide)

/-- `__divq`, `__remq`, `__divl` and `__reml` return the rounded quotient, or the remainder with the sign of the
dividend -/
theorem divide_signed (rem int : Bool) (base : Word) (c : Core) (hb4 : base.toNat % 4 = 0) (hs : Aligned (c.reg 30))
    (ha : int → Long (c.reg 24)) (hb : int → Long (c.reg 25)) :
    ∃ c', Reaches base (text rem int) ⟨c, addr base (target .sfunction (text rem int))⟩ ⟨c', c.reg 23 &&& ~~~3⟩ ∧
      Returned (signed rem (c.reg 24) (c.reg 25)) (frames (c.reg 30)) c c' := by
  rw [target_sfunction]
  exact sfunction_reaches rem hb4 hs ha hb

theorem divide_signed_seven :
    ∃ c', Reaches 0 (text false true) ⟨called (-7) 2, addr 0 (target .sfunction (text false true))⟩ ⟨c', 0⟩ ∧
      Returned (-3) (frames 0) (called (-7) 2) c' :=
  divide_signed false true 0 (called (-7) 2) (by decide) (by decide) (by decide) (by decide)

/-- the property of the two signed functions -/
theorem divide_law (int : Bool) (divBase remBase : Word) (c : Core) (hdiv : divBase.toNat % 4 = 0)
    (hrem : remBase.toNat % 4 = 0) (hs : Aligned (c.reg 30)) (ha : int → Long (c.reg 24))
    (hb : int → Long (c.reg 25)) :
    ∃ q r, Reaches divBase (text false int) ⟨c, addr divBase (target .sfunction (text false int))⟩
        ⟨q, c.reg 23 &&& ~~~3⟩ ∧
      Reaches remBase (text true int) ⟨c, addr remBase (target .sfunction (text true int))⟩ ⟨r, c.reg 23 &&& ~~~3⟩ ∧
        q.reg result * c.reg 25 + r.reg result = c.reg 24 := by
  rw [target_sfunction, target_sfunction]
  obtain ⟨q, hq, hq'⟩ := sfunction_reaches false hdiv hs ha hb
  obtain ⟨r, hr, hr'⟩ := sfunction_reaches true hrem hs ha hb
  refine ⟨q, r, hq, hr, ?_⟩
  rw [hq'.value, hr'.value]
  exact sdiv_mul_add_srem _ _

theorem divide_law_zero : ∃ q r, Reaches 0 (text false false)
        ⟨called (-7) 0, addr 0 (target .sfunction (text false false))⟩ ⟨q, 0⟩ ∧
      Reaches 0 (text true false) ⟨called (-7) 0, addr 0 (target .sfunction (text true false))⟩ ⟨r, 0⟩ ∧
        q.reg result * 0 + r.reg result = -7 :=
  divide_law false 0 0 (called (-7) 0) (by decide) (by decide) (by decide) (by decide) (by decide)

end Divide
