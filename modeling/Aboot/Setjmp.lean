import Aboot.Lib.Alpha

/-!
# lib/_setjmp.S and lib/_longjmp.S

The jump out of the unzip code when it finds an error.  The address of the buffer is in the register 16, the value
of `_longjmp` in 17, the result in 0.

* `setjmp_longjmp`         `_longjmp` returns from the `_setjmp` that wrote the buffer;
* `longjmp_magic`          it does so only for a buffer with the magic number.
-/

set_option linter.unusedVariables false

namespace Setjmp
open Alpha

inductive Label
  | _setjmp
  | _longjmp
  | bad_magic
deriving DecidableEq

def JB_GP : BitVec 16 := 0x00
def JB_SP : BitVec 16 := 0x08
def JB_RA : BitVec 16 := 0x10
def JB_S0 : BitVec 16 := 0x18
def JB_S1 : BitVec 16 := 0x20
def JB_S2 : BitVec 16 := 0x28
def JB_S3 : BitVec 16 := 0x30
def JB_S4 : BitVec 16 := 0x38
def JB_S5 : BitVec 16 := 0x40
def JB_S6 : BitVec 16 := 0x48
def JB_MAGIC : BitVec 16 := 0x50
def JBMAGIC : BitVec 32 := 0x2ceb1ade

def simple (l : List Simple) : List (Line Label) := l.map fun i => .instr (.simple i)

/-- the magic number is put together in the register 1 -/
def magic : List Simple := [
  .lda 1 (JBMAGIC.setWidth 16) 31,
  .ldah 1 ((JBMAGIC >>> 16).setWidth 16) 1]

def _setjmp : List (Line Label) :=
  List.flatten [
    [.label ._setjmp],
    simple [
      .stq 29 JB_GP 16,
      .stq 30 JB_SP 16,
      .stq 9 JB_S0 16,
      .stq 10 JB_S1 16,
      .stq 11 JB_S2 16,
      .stq 12 JB_S3 16,
      .stq 13 JB_S4 16,
      .stq 14 JB_S5 16,
      .stq 15 JB_S6 16,
      .stq 26 JB_RA 16],
    simple magic,
    simple [
      .stq 1 JB_MAGIC 16,
      .op .bis 31 (.reg 31) 0],
    [.instr (.jump 31 26)]]

/-- `hi` and `lo` are the distance of the global pointer -/
def _longjmp (hi lo : BitVec 16) : List (Line Label) :=
  List.flatten [
    [.label ._longjmp],
    simple [
      .ldah 29 hi 27,
      .lda 29 lo 29,
      .op .bis 31 (.reg 17) 0],
    simple magic,
    simple [
      .op .cmoveq 0 (.lit 1) 0,
      .ldq 2 JB_MAGIC 16,
      .op .subq 1 (.reg 2) 1,
      .ldq 30 JB_SP 16],
    [.instr (.branch .ne 1 .bad_magic)],
    simple [
      .ldq 9 JB_S0 16,
      .ldq 10 JB_S1 16,
      .ldq 11 JB_S2 16,
      .ldq 12 JB_S3 16,
      .ldq 13 JB_S4 16,
      .ldq 14 JB_S5 16,
      .ldq 15 JB_S6 16,
      .ldq 29 JB_GP 16,
      .ldq 26 JB_RA 16],
    [.instr (.jump 31 26)],
    [.label .bad_magic]]

/-! ## the buffer -/

/-- the registers that `_setjmp` saves -/
def kept : List (Reg × BitVec 16) := [(29, JB_GP), (30, JB_SP), (9, JB_S0), (10, JB_S1), (11, JB_S2), (12, JB_S3),
  (13, JB_S4), (14, JB_S5), (15, JB_S6), (26, JB_RA)]

/-- those that `_longjmp` takes after it has looked at the magic number -/
def taken : List (Reg × BitVec 16) := [(9, JB_S0), (10, JB_S1), (11, JB_S2), (12, JB_S3), (13, JB_S4), (14, JB_S5),
  (15, JB_S6), (29, JB_GP), (26, JB_RA)]

/-- the addresses of the words of a buffer -/
def words (x : Word) : List Word := ((1, JB_MAGIC) :: kept).map fun p => x + p.2.signExtend 64

/-- the buffer at `x` holds the registers of `c₀` -/
structure Holds (x : Word) (c₀ : Core) (mem : Word → Word) : Prop where
  saved : ∀ p ∈ kept, mem (x + p.2.signExtend 64) = c₀.reg p.1
  magic_eq : mem (x + JB_MAGIC.signExtend 64) = JBMAGIC.setWidth 64

section
variable {base : Word} {hi lo : BitVec 16} {c c₀ d : Core} {x : Word} {k : List Simple}

theorem Holds.congr {m m' : Word → Word} (h : Holds x c₀ m) (he : ∀ y ∈ words x, m' y = m y) : Holds x c₀ m' := by
  refine ⟨fun p hp => ?_, ?_⟩
  · rw [he _ (List.mem_map.mpr ⟨p, List.mem_cons_of_mem _ hp, rfl⟩), h.saved p hp]
  · rw [he _ (List.mem_map.mpr ⟨(1, JB_MAGIC), List.mem_cons_self, rfl⟩), h.magic_eq]

theorem slots_kept : Slots ((1, JB_MAGIC) :: kept) := .intro (by decide)

theorem aligned_kept (h : Aligned x) : ∀ p ∈ (1, JB_MAGIC) :: kept, Aligned (x + p.2.signExtend 64) := fun p hp =>
  aligned_add h (slots_kept.aligned p hp)

theorem magic_run : run (magic ++ k) c = run k (c.set 1 (JBMAGIC.setWidth 64)) := by
  have hmagic : (0 : Word) + (JBMAGIC.setWidth 16).signExtend 64 +
      ((JBMAGIC >>> 16).setWidth 16).signExtend 64 <<< 16 = JBMAGIC.setWidth 64 := by decide
  have hlow : c.address (JBMAGIC.setWidth 16) 31 = 0 + (JBMAGIC.setWidth 16).signExtend 64 := rfl
  show run (.lda 1 (JBMAGIC.setWidth 16) 31 :: .ldah 1 ((JBMAGIC >>> 16).setWidth 16) 1 :: k) c = _
  rw [run_lda, run_ldah, Core.set_set, Core.reg_set_self (by decide), hlow, hmagic]

/-! ## _setjmp -/

def saving : List Simple := stores 16 kept ++ (magic ++ [.stq 1 JB_MAGIC 16, .op .bis 31 (.reg 31) 0])

theorem code_saving : ((code _setjmp).drop 0).take saving.length = saving.map .simple := rfl

theorem code_return : (code _setjmp)[0 + saving.length]? = some (.jump 31 26) := rfl

theorem saving_run (h : Aligned (c.reg 16)) : ∃ c', run saving c = some c' ∧ c'.reg 0 = 0 ∧
    (∀ r ∉ [0, 1], c'.reg r = c.reg r) ∧ Holds (c.reg 16) c c'.mem ∧ ∀ x ∉ words (c.reg 16), c'.mem x = c.mem x := by
  have hal := List.forall_mem_cons.mp (aligned_kept h)
  have hnodup : (((1, JB_MAGIC) :: kept).map fun p => c.reg 16 + p.2.signExtend 64).Nodup :=
    nodup_disps _ slots_kept.disps
  obtain ⟨hfresh, hdisps⟩ := List.nodup_cons.mp hnodup
  obtain ⟨c1, hrun, hregs, hsaved, hmem⟩ := run_stores (k := magic ++ [.stq 1 JB_MAGIC 16, .op .bis 31 (.reg 31) 0])
    (c := c) (b := 16) hal.2 hdisps
  rw [magic_run, run_stq _ (by
    show Aligned (c1.reg 16 + _)
    rw [hregs]
    exact hal.1)] at hrun
  -- the magic number is stored behind the registers
  have hlast : ∀ y, y ≠ c.reg 16 + JB_MAGIC.signExtend 64 →
      ((c1.set 1 (JBMAGIC.setWidth 64)).store (c.reg 16 + JB_MAGIC.signExtend 64) (JBMAGIC.setWidth 64)).mem y =
        c1.mem y := fun y hy => by
    rw [Core.mem_store_ne hy, Core.mem_set]
  have hself : ((c1.set 1 (JBMAGIC.setWidth 64)).store (c.reg 16 + JB_MAGIC.signExtend 64)
      (JBMAGIC.setWidth 64)).mem (c.reg 16 + JB_MAGIC.signExtend 64) = JBMAGIC.setWidth 64 := Core.mem_store_self
  have hother : ∀ r ∉ [0, 1], (c1.set 1 (JBMAGIC.setWidth 64)).reg r = c.reg r := fun r hr => by
    rw [Core.reg_set_ne fun he => hr (by rw [he]; decide), hregs]
  have hone : (c1.set 1 (JBMAGIC.setWidth 64)).reg 1 = JBMAGIC.setWidth 64 := Core.reg_set_self (by decide)
  have haddr : (c1.set 1 (JBMAGIC.setWidth 64)).address JB_MAGIC 16 = c.reg 16 + JB_MAGIC.signExtend 64 :=
    congrArg (· + _) (hother 16 (by decide))
  rw [haddr, hone] at hrun
  generalize c1.set 1 (JBMAGIC.setWidth 64) = c2 at hrun hlast hself hother
  refine ⟨_, hrun, ?_, fun r hr => ?_, ⟨fun p hp => ?_, ?_⟩, fun x hx => ?_⟩
  · rw [Core.reg_set_self (by decide)]
    exact BitVec.or_self
  · rw [Core.reg_set_ne fun he => hr (by rw [he]; decide), Core.reg_store, hother r hr]
  · rw [Core.mem_set, hlast, ← hsaved p hp]
    · rfl
    · exact fun he => hfresh (List.mem_map.mpr ⟨p, hp, he⟩)
  · exact (congrFun Core.mem_set _).trans hself
  · obtain ⟨hx1, hx2⟩ := not_or.mp fun h => hx (List.mem_cons.mpr h)
    rw [Core.mem_set, hlast x hx1]
    exact hmem x hx2

theorem setjmp_reaches (base : Word) (h : Aligned (c.reg 16)) :
    ∃ c', Reaches base _setjmp ⟨c, addr base 0⟩ ⟨c', c.reg 26 &&& ~~~3⟩ ∧ c'.reg 0 = 0 ∧
      (∀ r ∉ [0, 1], c'.reg r = c.reg r) ∧ Holds (c.reg 16) c c'.mem ∧ ∀ x ∉ words (c.reg 16), c'.mem x = c.mem x := by
  have hlen : (code _setjmp).length ≤ 2 ^ 62 := by decide
  obtain ⟨c', hrun, hzero, hregs, hbuf⟩ := saving_run h
  have h1 := Reaches.block (B := base) hlen code_saving hrun
  have h2 := Reaches.jump (B := base) (c := c') hlen code_return
  rw [hregs 26 (by decide), Core.set_zero] at h2
  exact ⟨c', h1.trans h2, hzero, hregs, hbuf⟩

/-! ## _longjmp -/

/-- the instructions before the branch -/
def checking : List Simple := [
  .op .cmoveq 0 (.lit 1) 0,
  .ldq 2 JB_MAGIC 16,
  .op .subq 1 (.reg 2) 1,
  .ldq 30 JB_SP 16]

def testing (hi lo : BitVec 16) : List Simple :=
  .ldah 29 hi 27 :: .lda 29 lo 29 :: .op .bis 31 (.reg 17) 0 :: (magic ++ checking)

theorem code_testing (hi lo : BitVec 16) : ((code (_longjmp hi lo)).drop 0).take (testing hi lo).length =
    (testing hi lo).map .simple := rfl

theorem code_branch (hi lo : BitVec 16) : (code (_longjmp hi lo))[0 + (testing hi lo).length]? =
    some (.branch .ne 1 .bad_magic) := rfl

theorem code_taken (hi lo : BitVec 16) :
    ((code (_longjmp hi lo)).drop (0 + (testing hi lo).length + 1)).take (loads 16 taken).length =
      (loads 16 taken).map .simple := rfl

theorem code_jump (hi lo : BitVec 16) :
    (code (_longjmp hi lo))[0 + (testing hi lo).length + 1 + (loads 16 taken).length]? = some (.jump 31 26) := rfl

theorem checking_run (h : Aligned (d.reg 16)) : run checking d =
    some ((((d.set 0 (if d.reg 0 = 0 then 1 else d.reg 0)).set 2 (d.mem (d.reg 16 + JB_MAGIC.signExtend 64))).set 1
      (d.reg 1 - d.mem (d.reg 16 + JB_MAGIC.signExtend 64))).set 30 (d.mem (d.reg 16 + JB_SP.signExtend 64))) := by
  obtain ⟨hmagic, hal⟩ := List.forall_mem_cons.mp (aligned_kept h)
  have hsp : Aligned (d.reg 16 + JB_SP.signExtend 64) := hal (30, JB_SP) (by decide)
  have hone : Op.cmoveq.eval (d.reg 0) ((1 : BitVec 8).setWidth 64) (d.reg 0) =
      if d.reg 0 = 0 then 1 else d.reg 0 := if_congr Iff.rfl (by decide) rfl
  have hbuf : ∀ (v : Word) (i : BitVec 16), (d.set 0 v).address i 16 = d.reg 16 + i.signExtend 64 := fun v i =>
    congrArg (· + _) (Core.reg_set_ne (by decide))
  rw [checking, run_op, Core.operand, hone]
  generalize (if d.reg 0 = 0 then (1 : Word) else d.reg 0) = v
  have h2 : ∀ u i, ((d.set 0 v).set 2 u).address i 16 = d.reg 16 + i.signExtend 64 := fun u i =>
    (congrArg (· + _) (Core.reg_set_ne (by decide))).trans (hbuf v i)
  have h1 : ∀ u t i, (((d.set 0 v).set 2 u).set 1 t).address i 16 = d.reg 16 + i.signExtend 64 := fun u t i =>
    (congrArg (· + _) (Core.reg_set_ne (by decide))).trans (h2 u i)
  rw [run_ldq _ (by rw [hbuf]; exact hmagic), hbuf, run_op, run_ldq _ (by rw [h1]; exact hsp), h1, Core.mem_set,
    Core.mem_set, Core.mem_set]
  simp (disch := decide) only [Op.eval, Core.operand, Core.reg_set_ne, Core.reg_set_self, Core.mem_set, run]

theorem testing_run (hi lo : BitVec 16) (h : Aligned (d.reg 16)) : ∃ d', run (testing hi lo) d = some d' ∧
    d'.reg 0 = (if d.reg 17 = 0 then 1 else d.reg 17) ∧
    d'.reg 1 = JBMAGIC.setWidth 64 - d.mem (d.reg 16 + JB_MAGIC.signExtend 64) ∧
    d'.reg 30 = d.mem (d.reg 16 + JB_SP.signExtend 64) ∧ (∀ r ∉ [0, 1, 2, 29, 30], d'.reg r = d.reg r) ∧
      d'.mem = d.mem := by
  have hvalue : ∃ v, run (testing hi lo) d = run (magic ++ checking) ((d.set 29 v).set 0 (d.reg 17)) := by
    refine ⟨(d.set 29 (d.reg 27 + hi.signExtend 64 <<< 16)).address lo 29, ?_⟩
    rw [testing, run_ldah, run_lda, Core.set_set, run_op]
    show run _ (Core.set _ 0 (0#64 ||| Core.reg _ 17)) = _
    rw [BitVec.zero_or, Core.reg_set_ne (by decide)]
  obtain ⟨v, hrun⟩ := hvalue
  have h16 : (((d.set 29 v).set 0 (d.reg 17)).set 1 (JBMAGIC.setWidth 64)).reg 16 = d.reg 16 := by
    rw [Core.reg_set_ne (by decide), Core.reg_set_ne (by decide), Core.reg_set_ne (by decide)]
  rw [magic_run, checking_run (by rw [h16]; exact h), h16] at hrun
  refine ⟨_, hrun, ?_, ?_, ?_, fun r hr => ?_, ?_⟩
  · simp (disch := decide) only [Core.reg_set_ne, Core.reg_set_self]
  · simp (disch := decide) only [Core.reg_set_ne, Core.reg_set_self, Core.mem_set]
  · simp (disch := decide) only [Core.reg_set_self, Core.mem_set]
  · simp only [List.mem_cons, List.not_mem_nil, or_false, not_or] at hr
    simp (disch := tauto) only [Core.reg_set_ne]
  · simp only [Core.mem_set]

/-- a buffer of `c₀` -/
theorem longjmp_reaches (h : Aligned (d.reg 16)) (hb : Holds (d.reg 16) c₀ d.mem) :
    ∃ d', Reaches base (_longjmp hi lo) ⟨d, addr base 0⟩ ⟨d', c₀.reg 26 &&& ~~~3⟩ ∧
      d'.reg 0 = (if d.reg 17 = 0 then 1 else d.reg 17) ∧ (∀ p ∈ kept, d'.reg p.1 = c₀.reg p.1) ∧
        (∀ r ∉ 0 :: 1 :: 2 :: kept.map Prod.fst, d'.reg r = d.reg r) ∧ d'.mem = d.mem := by
  have hlen : (code (_longjmp hi lo)).length ≤ 2 ^ 62 := (by decide : 20 ≤ 2 ^ 62)
  obtain ⟨d1, hrun, hvalue, hone, hsp, hregs, hmem⟩ := testing_run hi lo h
  have h1 := Reaches.block (B := base) hlen (code_testing hi lo) hrun
  have h2 := Reaches.past (B := base) (c := d1) hlen (code_branch hi lo) (by
    rw [hone, hb.magic_eq, BitVec.sub_self]
    decide)
  have haddr : ∀ i : BitVec 16, d1.address i 16 = d.reg 16 + i.signExtend 64 := fun i =>
    congrArg (· + _) (hregs 16 (by decide))
  have hin : ∀ p ∈ taken, p ∈ kept := forall_of_all (by decide)
  have hsplit : ∀ p ∈ kept, p = (30, JB_SP) ∨ p ∈ taken := forall_of_all (by decide)
  obtain ⟨d2, hrun', htaken, hother, hmem'⟩ := run_loads (b := 16) (k := []) (c := d1) (l := taken)
    (fun p hp => by
      rw [haddr]
      exact aligned_kept h p (List.mem_cons_of_mem _ (hin p hp)))
    (by decide) (by decide) (by decide)
  rw [List.append_nil] at hrun'
  have h3 := Reaches.block (B := base) hlen (code_taken hi lo) hrun'
  have h4 := Reaches.jump (B := base) (c := d2) hlen (code_jump hi lo)
  have hloaded : ∀ p ∈ taken, d2.reg p.1 = c₀.reg p.1 := fun p hp => by
    rw [htaken p hp, haddr, hmem, hb.saved p (hin p hp)]
  rw [hloaded (26, JB_RA) (by decide), Core.set_zero] at h4
  refine ⟨d2, ((h1.trans h2).trans h3).trans h4, ?_, fun p hp => ?_, fun r hr => ?_, hmem'.trans hmem⟩
  · rw [hother 0 (by decide), hvalue]
  · obtain rfl | hp' := hsplit p hp
    · rw [hother 30 (by decide), hsp]
      exact hb.saved (30, JB_SP) hp
    · exact hloaded p hp'
  · rw [hother r, hregs r]
    · revert r
      decide
    · revert r
      decide

/-- any other buffer -/
theorem bad_magic_reaches (h : Aligned (d.reg 16))
    (hm : d.mem (d.reg 16 + JB_MAGIC.signExtend 64) ≠ JBMAGIC.setWidth 64) :
    ∃ d', Reaches base (_longjmp hi lo) ⟨d, addr base 0⟩ ⟨d', addr base (target .bad_magic (_longjmp hi lo))⟩ ∧
      (∀ r ∉ [0, 1, 2, 29, 30], d'.reg r = d.reg r) ∧ d'.mem = d.mem := by
  have hlen : (code (_longjmp hi lo)).length ≤ 2 ^ 62 := (by decide : 20 ≤ 2 ^ 62)
  obtain ⟨d1, hrun, -, hone, -, hregs, hmem⟩ := testing_run hi lo h
  have h1 := Reaches.block (B := base) hlen (code_testing hi lo) hrun
  have h2 := Reaches.taken (B := base) (c := d1) hlen (code_branch hi lo) (by
    rw [hone, Cond.holds]
    exact decide_eq_true fun he => hm (by bv_omega))
  exact ⟨d1, h1.trans h2, hregs, hmem⟩

/-! ## the results -/

/-- `_setjmp` returns zero; while its buffer is left alone, `_longjmp` returns from it once more with another value,
and with the registers as they were -/
theorem setjmp_longjmp (base base' : Word) (hi lo : BitVec 16) (c : Core) (h : Aligned (c.reg 16)) :
    ∃ c', Reaches base _setjmp ⟨c, addr base (target ._setjmp _setjmp)⟩ ⟨c', c.reg 26 &&& ~~~3⟩ ∧ c'.reg 0 = 0 ∧
      (∀ r ∉ [0, 1], c'.reg r = c.reg r) ∧ (∀ x ∉ words (c.reg 16), c'.mem x = c.mem x) ∧
        ∀ d : Core, d.reg 16 = c.reg 16 → (∀ x ∈ words (c.reg 16), d.mem x = c'.mem x) →
          ∃ d', Reaches base' (_longjmp hi lo) ⟨d, addr base' (target ._longjmp (_longjmp hi lo))⟩
              ⟨d', c.reg 26 &&& ~~~3⟩ ∧
            d'.reg 0 = (if d.reg 17 = 0 then 1 else d.reg 17) ∧ (∀ p ∈ kept, d'.reg p.1 = c.reg p.1) ∧
              (∀ r ∉ 0 :: 1 :: 2 :: kept.map Prod.fst, d'.reg r = d.reg r) ∧ d'.mem = d.mem := by
  obtain ⟨c', hreach, hzero, hregs, hbuf, hmem⟩ := setjmp_reaches base h
  refine ⟨c', hreach, hzero, hregs, hmem, fun d hd hsame => ?_⟩
  refine longjmp_reaches (by rw [hd]; exact h) ?_
  rw [hd]
  exact hbuf.congr hsame

def blank : Core := ⟨fun _ => 0, fun _ => 0⟩

theorem setjmp_longjmp_blank :
    ∃ c', Reaches 0 _setjmp ⟨blank, addr 0 (target ._setjmp _setjmp)⟩ ⟨c', blank.reg 26 &&& ~~~3⟩ ∧ c'.reg 0 = 0 ∧
      (∀ r ∉ [0, 1], c'.reg r = blank.reg r) ∧ (∀ x ∉ words (blank.reg 16), c'.mem x = blank.mem x) ∧
        ∀ d : Core, d.reg 16 = blank.reg 16 → (∀ x ∈ words (blank.reg 16), d.mem x = c'.mem x) →
          ∃ d', Reaches 0x1000 (_longjmp 0 0) ⟨d, addr 0x1000 (target ._longjmp (_longjmp 0 0))⟩
              ⟨d', blank.reg 26 &&& ~~~3⟩ ∧
            d'.reg 0 = (if d.reg 17 = 0 then 1 else d.reg 17) ∧ (∀ p ∈ kept, d'.reg p.1 = blank.reg p.1) ∧
              (∀ r ∉ 0 :: 1 :: 2 :: kept.map Prod.fst, d'.reg r = d.reg r) ∧ d'.mem = d.mem :=
  setjmp_longjmp 0 0x1000 0 0 blank (by decide)

/-- without the magic number `_longjmp` does not return: memory, and the registers of the caller but the stack pointer
and the global pointer, are as before -/
theorem longjmp_magic (base : Word) (hi lo : BitVec 16) (d : Core) (h : Aligned (d.reg 16))
    (hm : d.mem (d.reg 16 + JB_MAGIC.signExtend 64) ≠ JBMAGIC.setWidth 64) :
    ∃ d', Reaches base (_longjmp hi lo) ⟨d, addr base (target ._longjmp (_longjmp hi lo))⟩
        ⟨d', addr base (target .bad_magic (_longjmp hi lo))⟩ ∧
      (∀ r ∉ [0, 1, 2, 29, 30], d'.reg r = d.reg r) ∧ d'.mem = d.mem :=
  bad_magic_reaches h hm

theorem longjmp_magic_blank :
    ∃ d', Reaches 0 (_longjmp 0 0) ⟨blank, addr 0 (target ._longjmp (_longjmp 0 0))⟩
        ⟨d', addr 0 (target .bad_magic (_longjmp 0 0))⟩ ∧
      (∀ r ∉ [0, 1, 2, 29, 30], d'.reg r = blank.reg r) ∧ d'.mem = blank.mem :=
  longjmp_magic 0 0 0 blank (by decide) (by decide)

end

end Setjmp
