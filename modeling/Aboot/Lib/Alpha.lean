import Mathlib.Algebra.Order.Ring.Nat
import Mathlib.Data.List.Nodup
import Mathlib.Logic.Function.Basic
import Mathlib.Logic.Relation

/-!
# Alpha machine code

A part of the integer instructions of the Alpha.  Register 31 reads as zero, memory is accessed in aligned
quadwords, and the code does not change.

* `Line`, `code`, `target`     the text of a program with labels;
* `Simple.exec`, `step`        one instruction;
* `Reaches`                    any number of steps: `Reaches.block` a sequence without branches, and one lemma for
  each kind of branch.
-/

set_option linter.unusedVariables false
set_option linter.unusedSectionVars false

namespace Alpha

abbrev Word := BitVec 64
abbrev Reg := Fin 32

scoped instance neZero_regs : NeZero 32 := ⟨by decide⟩

/-! ## instructions -/

/-- the second operand -/
inductive Operand
  | reg (r : Reg)
  | lit (n : BitVec 8)

inductive Op
  | addq
  | subq
  | addl
  | bis
  | xor
  | srl
  | cmpult
  | cmpule
  | zapnot
  | cmovlt
  | cmoveq

inductive Cond
  | eq
  | ne
  | lt
  | ge

/-- an instruction that is followed by the next one -/
inductive Simple
  | op (o : Op) (a : Reg) (b : Operand) (c : Reg)
  | lda (a : Reg) (disp : BitVec 16) (b : Reg)
  | ldah (a : Reg) (disp : BitVec 16) (b : Reg)
  | ldq (a : Reg) (disp : BitVec 16) (b : Reg)
  | stq (a : Reg) (disp : BitVec 16) (b : Reg)

/-- `br` is also `bsr`, and `jump` is `jmp`, `jsr` and `ret` -/
inductive Instr (L : Type)
  | simple (i : Simple)
  | br (a : Reg) (l : L)
  | branch (c : Cond) (a : Reg) (l : L)
  | jump (a b : Reg)
  | call_pal (n : Nat)

/-- a line of the text -/
inductive Line (L : Type)
  | label (l : L)
  | instr (i : Instr L)

structure Core where
  regs : Reg → Word
  /-- the quadword at an address -/
  mem : Word → Word

structure State where
  core : Core
  pc : Word

/-! ## registers -/

namespace Core

def reg (c : Core) (r : Reg) : Word := if r = 31 then 0 else c.regs r

def set (c : Core) (r : Reg) (v : Word) : Core :=
  if r = 31 then c else { c with regs := Function.update c.regs r v }

def operand (c : Core) : Operand → Word
  | .reg r => c.reg r
  | .lit n => n.setWidth 64

def store (c : Core) (x v : Word) : Core := { c with mem := Function.update c.mem x v }

variable {c : Core} {r q : Reg} {v x y : Word}

@[simp] theorem reg_zero : c.reg 31 = 0 := rfl

@[simp] theorem reg_set_self (h : r ≠ 31) : (c.set r v).reg r = v := by
  unfold set reg
  rw [if_neg h, if_neg h]
  exact Function.update_self r v c.regs

@[simp] theorem reg_set_ne (h : q ≠ r) : (c.set r v).reg q = c.reg q := by
  unfold reg
  split
  · rfl
  · unfold set
    split
    · rfl
    · exact Function.update_of_ne h v c.regs

@[simp] theorem mem_set : (c.set r v).mem = c.mem := by
  unfold set
  split <;> rfl

@[simp] theorem set_zero : c.set 31 v = c := rfl

@[simp] theorem set_reg : c.set r (c.reg r) = c := by
  unfold set reg
  split
  · rfl
  · rw [Function.update_eq_self]

@[simp] theorem set_set {u : Word} : (c.set r u).set r v = c.set r v := by
  unfold set
  split
  · rfl
  · rw [Function.update_idem]

@[simp] theorem reg_store : (c.store x v).reg r = c.reg r := rfl

@[simp] theorem mem_store_self : (c.store x v).mem x = v := Function.update_self _ _ _

@[simp] theorem mem_store_ne (h : y ≠ x) : (c.store x v).mem y = c.mem y := Function.update_of_ne h _ _

end Core

/-! ## one instruction -/

/-- the bytes that `zapnot` keeps -/
def byteMask (b : Word) : Word :=
  ((List.range 8).map fun i => if b.getLsbD i then (0xff : Word) <<< (8 * i) else 0).foldr (· ||| ·) 0

/-- the value of an operation; `c` is the old value of its register -/
def Op.eval (a b c : Word) : Op → Word
  | .addq => a + b
  | .subq => a - b
  | .addl => ((a + b).setWidth 32).signExtend 64
  | .bis => a ||| b
  | .xor => a ^^^ b
  | .srl => a >>> (b.toNat % 64)
  | .cmpult => if a < b then 1 else 0
  | .cmpule => if a ≤ b then 1 else 0
  | .zapnot => a &&& byteMask b
  | .cmovlt => if a.msb then b else c
  | .cmoveq => if a = 0 then b else c

def Cond.holds (a : Word) : Cond → Bool
  | .eq => a = 0
  | .ne => a ≠ 0
  | .lt => a.msb
  | .ge => ¬ a.msb

/-- the address of a load or store -/
def Core.address (c : Core) (disp : BitVec 16) (b : Reg) : Word := c.reg b + disp.signExtend 64

def Aligned (x : Word) : Prop := x.toNat % 8 = 0

instance (x : Word) : Decidable (Aligned x) := inferInstanceAs (Decidable (_ = _))

/-- no result where an address is not aligned -/
def Simple.exec (c : Core) : Simple → Option Core
  | .op o a b d => some (c.set d (o.eval (c.reg a) (c.operand b) (c.reg d)))
  | .lda a disp b => some (c.set a (c.address disp b))
  | .ldah a disp b => some (c.set a (c.reg b + disp.signExtend 64 <<< 16))
  | .ldq a disp b => if Aligned (c.address disp b) then some (c.set a (c.mem (c.address disp b))) else none
  | .stq a disp b => if Aligned (c.address disp b) then some (c.store (c.address disp b) (c.reg a)) else none

/-- a sequence of instructions -/
def run : List Simple → Core → Option Core
  | [], c => some c
  | i :: l, c => (i.exec c).bind (run l)

section
variable {L : Type} [DecidableEq L]

def code (P : List (Line L)) : List (Instr L) :=
  P.filterMap fun
    | .label _ => none
    | .instr i => some i

/-- the number of the instruction behind a label -/
def target (l : L) : List (Line L) → Nat
  | [] => 0
  | .label l' :: P => if l' = l then 0 else target l P
  | .instr _ :: P => target l P + 1

variable (base : Word) (P : List (Line L))

/-- the address of an instruction -/
def addr (i : Nat) : Word := base + BitVec.ofNat 64 (4 * i)

def fetch (pc : Word) : Option (Instr L) :=
  if (pc - base).toNat % 4 = 0 then (code P)[(pc - base).toNat / 4]? else none

/-- one step of the program at `base`; none behind its end, at a `call_pal`, or where an address is not aligned -/
def step (s : State) : Option State :=
  match fetch base P s.pc with
  | none => none
  | some (.simple i) => (i.exec s.core).map fun c => ⟨c, s.pc + 4⟩
  | some (.br a l) => some ⟨s.core.set a (s.pc + 4), addr base (target l P)⟩
  | some (.branch c a l) =>
    some ⟨s.core, if c.holds (s.core.reg a) then addr base (target l P) else s.pc + 4⟩
  | some (.jump a b) => some ⟨s.core.set a (s.pc + 4), s.core.reg b &&& ~~~3⟩
  | some (.call_pal _) => none

/-- any number of steps -/
def Reaches : State → State → Prop := Relation.ReflTransGen fun s t => step base P s = some t

end

/-! ## runs -/

section
variable {L : Type} [DecidableEq L] {B : Word} {P : List (Line L)} {i j : Nat} {c d : Core} {s t u : State} {v : Word}

theorem run_op (o : Op) (a : Reg) (b : Operand) (r : Reg) (l : List Simple) :
    run (.op o a b r :: l) c = run l (c.set r (o.eval (c.reg a) (c.operand b) (c.reg r))) := rfl

theorem run_lda (a : Reg) (disp : BitVec 16) (b : Reg) (l : List Simple) :
    run (.lda a disp b :: l) c = run l (c.set a (c.address disp b)) := rfl

theorem run_ldah (a : Reg) (disp : BitVec 16) (b : Reg) (l : List Simple) :
    run (.ldah a disp b :: l) c = run l (c.set a (c.reg b + disp.signExtend 64 <<< 16)) := rfl

theorem run_ldq {a b : Reg} {disp : BitVec 16} (l : List Simple) (h : Aligned (c.address disp b)) :
    run (.ldq a disp b :: l) c = run l (c.set a (c.mem (c.address disp b))) := by
  rw [run, Simple.exec, if_pos h]
  rfl

theorem run_stq {a b : Reg} {disp : BitVec 16} (l : List Simple) (h : Aligned (c.address disp b)) :
    run (.stq a disp b :: l) c = run l (c.store (c.address disp b) (c.reg a)) := by
  rw [run, Simple.exec, if_pos h]
  rfl

/-- the low four bytes -/
theorem zapnot_low (x : Word) : Op.zapnot.eval x 15 v = (x.setWidth 32).setWidth 64 := by
  refine BitVec.eq_of_toNat_eq ?_
  rw [Op.eval, BitVec.toNat_and, show (byteMask 15).toNat = 2 ^ 32 - 1 from by decide, Nat.and_two_pow_sub_one_eq_mod,
    BitVec.toNat_setWidth, BitVec.toNat_setWidth,
    Nat.mod_eq_of_lt (Nat.lt_trans (Nat.mod_lt _ (by decide)) (by decide))]

/-- a jump to an address of an instruction -/
theorem and_not_three {x : Word} (h : x.toNat % 4 = 0) : x &&& ~~~3 = x := by
  refine BitVec.eq_of_getLsbD_eq fun i hi => ?_
  rw [BitVec.getLsbD_and, BitVec.getLsbD_not, decide_eq_true hi, Bool.true_and]
  match i with
  | 0 =>
    have h0 : x.getLsbD 0 = false := by
      rw [BitVec.getLsbD, Nat.testBit_zero]
      exact decide_eq_false (by omega)
    rw [h0]
    rfl
  | 1 =>
    have h1 : x.getLsbD 1 = false := by
      rw [BitVec.getLsbD, Nat.testBit_succ, Nat.testBit_zero]
      exact decide_eq_false (by omega)
    rw [h1]
    rfl
  | i + 2 =>
    have h3 : (3 : Word).getLsbD (i + 2) = false := Nat.testBit_lt_two_pow (Nat.lt_of_lt_of_le (by decide : 3 < 2 ^ 2)
      (Nat.pow_le_pow_right (by decide) (Nat.le_add_left 2 i)))
    rw [h3, Bool.not_false, Bool.and_true]

theorem Reaches.refl : Reaches B P s s := Relation.ReflTransGen.refl

theorem Reaches.trans (h : Reaches B P s t) (h' : Reaches B P t u) : Reaches B P s u :=
  Relation.ReflTransGen.trans h h'

theorem Reaches.step (h : step B P s = some t) : Reaches B P s t := Relation.ReflTransGen.single h

theorem addr_succ : addr B i + 4 = addr B (i + 1) := by
  unfold addr
  rw [Nat.mul_succ, BitVec.ofNat_add, BitVec.add_assoc]
  rfl

variable (hP : (code P).length ≤ 2 ^ 62)
include hP

theorem fetch_addr {x : Instr L} (hi : (code P)[i]? = some x) : fetch B P (addr B i) = some x := by
  obtain ⟨hlt, -⟩ := List.getElem?_eq_some_iff.mp hi
  have hsub : (addr B i - B).toNat = 4 * i := by
    unfold addr
    rw [BitVec.add_comm, BitVec.add_sub_cancel, BitVec.toNat_ofNat]
    exact Nat.mod_eq_of_lt (by omega)
  rw [fetch, hsub, if_pos (Nat.mul_mod_right 4 i), Nat.mul_div_cancel_left i (by omega)]
  exact hi

/-- an instruction that is no branch -/
theorem Reaches.simple {x : Simple} (hi : (code P)[i]? = some (.simple x)) (hx : x.exec c = some d) :
    Reaches B P ⟨c, addr B i⟩ ⟨d, addr B (i + 1)⟩ := by
  refine .step ?_
  unfold Alpha.step
  rw [fetch_addr hP hi]
  show (x.exec c).map _ = _
  rw [hx, ← addr_succ]
  rfl

/-- a sequence of them -/
theorem Reaches.block {l : List Simple} (hi : ((code P).drop i).take l.length = l.map .simple)
    (hx : run l c = some d) :
    Reaches B P ⟨c, addr B i⟩ ⟨d, addr B (i + l.length)⟩ := by
  induction l generalizing i c with
  | nil =>
    cases hx
    exact .refl
  | cons x l ih =>
    obtain ⟨e, he, hl⟩ := Option.bind_eq_some_iff.mp hx
    have hlt : i < (code P).length := by
      by_contra hge
      rw [List.drop_of_length_le (Nat.le_of_not_lt hge), List.take_nil] at hi
      cases hi
    rw [List.drop_eq_getElem_cons hlt, List.length_cons, List.take_succ_cons, List.map_cons, List.cons.injEq] at hi
    have hfirst : (code P)[i]? = some (.simple x) := by
      rw [List.getElem?_eq_getElem hlt, hi.1]
    have hrun := ih hi.2 hl
    rw [Nat.add_assoc, Nat.add_comm 1] at hrun
    rw [List.length_cons]
    exact (Reaches.simple hP hfirst he).trans hrun

theorem Reaches.br {a : Reg} {l : L} (hi : (code P)[i]? = some (.br a l)) :
    Reaches B P ⟨c, addr B i⟩ ⟨c.set a (addr B (i + 1)), addr B (target l P)⟩ := by
  refine .step ?_
  unfold Alpha.step
  rw [fetch_addr hP hi, ← addr_succ]

/-- a branch that is taken -/
theorem Reaches.taken {x : Cond} {a : Reg} {l : L} (hi : (code P)[i]? = some (.branch x a l))
    (hx : x.holds (c.reg a)) :
    Reaches B P ⟨c, addr B i⟩ ⟨c, addr B (target l P)⟩ := by
  refine .step ?_
  unfold Alpha.step
  rw [fetch_addr hP hi]
  dsimp only
  rw [if_pos hx]

/-- a branch that is not taken -/
theorem Reaches.past {x : Cond} {a : Reg} {l : L} (hi : (code P)[i]? = some (.branch x a l))
    (hx : ¬ x.holds (c.reg a)) : Reaches B P ⟨c, addr B i⟩ ⟨c, addr B (i + 1)⟩ := by
  refine .step ?_
  unfold Alpha.step
  rw [fetch_addr hP hi]
  dsimp only
  rw [if_neg hx, addr_succ]

theorem Reaches.jump {a b : Reg} (hi : (code P)[i]? = some (.jump a b)) :
    Reaches B P ⟨c, addr B i⟩ ⟨c.set a (addr B (i + 1)), c.reg b &&& ~~~3⟩ := by
  refine .step ?_
  unfold Alpha.step
  rw [fetch_addr hP hi, ← addr_succ]

end

/-! ## stack frames -/

section
variable {b r : Reg} {l : List (Reg × BitVec 16)} {k : List Simple} {n : BitVec 8} {f : List Word} {c₀ c : Core}

/-- registers are written to, or read from, the words at some distances from an address -/
def stores (b : Reg) (l : List (Reg × BitVec 16)) : List Simple := l.map fun p => .stq p.1 p.2 b
def loads (b : Reg) (l : List (Reg × BitVec 16)) : List Simple := l.map fun p => .ldq p.1 p.2 b

/-- aligned distances, and no register or distance twice -/
structure Slots (l : List (Reg × BitVec 16)) : Prop where
  aligned : ∀ p ∈ l, p.2.toNat % 8 = 0
  regs : (l.map Prod.fst).Nodup
  disps : (l.map Prod.snd).Nodup
  no_zero : 31 ∉ l.map Prod.fst

theorem forall_of_all {α : Type} {p : α → Prop} [DecidablePred p] {l : List α} (h : l.all fun x => decide (p x)) :
    ∀ x ∈ l, p x := fun x hx => of_decide_eq_true (List.all_eq_true.mp h x hx)

theorem Slots.intro (h : (l.all fun p => decide (p.2.toNat % 8 = 0)) ∧ (l.map Prod.fst).Nodup ∧
    (l.map Prod.snd).Nodup ∧ 31 ∉ l.map Prod.fst) : Slots l :=
  ⟨forall_of_all h.1, h.2.1, h.2.2.1, h.2.2.2⟩

theorem aligned_add {x : Word} {d : BitVec 16} (hx : Aligned x) (hd : d.toNat % 8 = 0) :
    Aligned (x + d.signExtend 64) := by
  unfold Aligned at *
  rw [BitVec.toNat_add, BitVec.toNat_signExtend, BitVec.toNat_setWidth]
  split <;> omega

theorem add_signExtend_injective (x : Word) : Function.Injective fun d : BitVec 16 => x + d.signExtend 64 := by
  intro d e h
  have h' : d.signExtend 64 = e.signExtend 64 := (BitVec.add_right_inj x).mp h
  refine BitVec.eq_of_toInt_eq ?_
  rw [← BitVec.toInt_signExtend_of_le (x := d) (by decide : 16 ≤ 64), h', BitVec.toInt_signExtend_of_le (by decide)]

theorem nodup_disps (x : Word) (h : (l.map Prod.snd).Nodup) : (l.map fun p => x + p.2.signExtend 64).Nodup := by
  have := h.map (add_signExtend_injective x)
  rwa [List.map_map] at this

theorem run_stores (h : ∀ p ∈ l, Aligned (c.address p.2 b)) (hd : (l.map fun p => c.address p.2 b).Nodup) :
    ∃ c', run (stores b l ++ k) c = run k c' ∧ (∀ r, c'.reg r = c.reg r) ∧
      (∀ p ∈ l, c'.mem (c.address p.2 b) = c.reg p.1) ∧ ∀ x ∉ l.map fun p => c.address p.2 b, c'.mem x = c.mem x := by
  induction l generalizing c with
  | nil => exact ⟨c, rfl, fun r => rfl, fun p hp => absurd hp List.not_mem_nil, fun x hx => rfl⟩
  | cons p l ih =>
    obtain ⟨hp, hl⟩ := List.forall_mem_cons.mp h
    obtain ⟨hpd, hld⟩ := List.nodup_cons.mp hd
    obtain ⟨c', hrun, hregs, hsaved, hmem⟩ := ih (c := c.store (c.address p.2 b) (c.reg p.1)) hl hld
    refine ⟨c', (run_stq _ hp).trans hrun, hregs, List.forall_mem_cons.mpr ⟨?_, hsaved⟩, fun x hx => ?_⟩
    · rw [hmem _ hpd, Core.mem_store_self]
    · obtain ⟨hxp, hxl⟩ := not_or.mp (fun h => hx (List.mem_cons.mpr h))
      rw [hmem x hxl, Core.mem_store_ne hxp]

theorem run_loads (h : ∀ p ∈ l, Aligned (c.address p.2 b)) (hb : b ∉ l.map Prod.fst) (hz : 31 ∉ l.map Prod.fst)
    (hd : (l.map Prod.fst).Nodup) :
    ∃ c', run (loads b l ++ k) c = run k c' ∧ (∀ p ∈ l, c'.reg p.1 = c.mem (c.address p.2 b)) ∧
      (∀ r ∉ l.map Prod.fst, c'.reg r = c.reg r) ∧ c'.mem = c.mem := by
  induction l generalizing c with
  | nil => exact ⟨c, rfl, fun p hp => absurd hp List.not_mem_nil, fun r hr => rfl, rfl⟩
  | cons p l ih =>
    obtain ⟨hp, hl⟩ := List.forall_mem_cons.mp h
    obtain ⟨hpd, hld⟩ := List.nodup_cons.mp hd
    obtain ⟨hbp, hbl⟩ := not_or.mp (fun h => hb (List.mem_cons.mpr h))
    obtain ⟨hzp, hzl⟩ := not_or.mp (fun h => hz (List.mem_cons.mpr h))
    have haddr : ∀ d, (c.set p.1 (c.mem (c.address p.2 b))).address d b = c.address d b := fun d =>
      congrArg (· + _) (Core.reg_set_ne hbp)
    obtain ⟨c', hrun, hloaded, hother, hmem⟩ := ih (c := c.set p.1 (c.mem (c.address p.2 b)))
      (fun q hq => by rw [haddr]; exact hl q hq) hbl hzl hld
    refine ⟨c', (run_ldq _ hp).trans hrun, List.forall_mem_cons.mpr ⟨?_, fun q hq => ?_⟩, fun r hr => ?_, ?_⟩
    · rw [hother _ hpd, Core.reg_set_self (Ne.symm hzp)]
    · rw [hloaded q hq, haddr, Core.mem_set]
    · obtain ⟨hrp, hrl⟩ := not_or.mp (fun h => hr (List.mem_cons.mpr h))
      rw [hother r hrl, Core.reg_set_ne hrp]
    · rw [hmem, Core.mem_set]

/-- registers are saved in a frame of `n` bytes, and taken from it -/
def push (n : BitVec 8) (l : List (Reg × BitVec 16)) : List Simple := .op .subq 30 (.lit n) 30 :: stores 30 l
def pop (n : BitVec 8) (l : List (Reg × BitVec 16)) : List Simple := loads 30 l ++ [.op .addq 30 (.lit n) 30]

/-- the words of the frame that are used -/
def slots (sp : Word) (n : BitVec 8) (l : List (Reg × BitVec 16)) : List Word :=
  l.map fun p => sp - n.setWidth 64 + p.2.signExtend 64

/-- the registers of `c₀` are in the frame -/
structure InFrame (n : BitVec 8) (l : List (Reg × BitVec 16)) (c₀ c : Core) : Prop where
  sp : c.reg 30 = c₀.reg 30 - n.setWidth 64
  saved : ∀ p ∈ l, c.mem (c₀.reg 30 - n.setWidth 64 + p.2.signExtend 64) = c₀.reg p.1

/-- and only the words `f` were written -/
structure Pushed (n : BitVec 8) (l : List (Reg × BitVec 16)) (f : List Word) (c₀ c : Core) : Prop
    extends InFrame n l c₀ c where
  mem : ∀ x ∉ f, c.mem x = c₀.mem x

theorem InFrame.congr {d : Core} (h : InFrame n l c₀ c) (hsp : d.reg 30 = c.reg 30)
    (hm : ∀ x ∈ slots (c₀.reg 30) n l, d.mem x = c.mem x) : InFrame n l c₀ d := by
  refine ⟨hsp.trans h.sp, fun p hp => ?_⟩
  rw [hm _ (List.mem_map.mpr ⟨p, hp, rfl⟩), h.saved p hp]

theorem Pushed.set {v : Word} (h : Pushed n l f c₀ c) (hr : r ≠ 30) : Pushed n l f c₀ (c.set r v) := by
  refine ⟨⟨?_, fun p hp => ?_⟩, fun x hx => ?_⟩
  · rw [Core.reg_set_ne hr.symm, h.sp]
  · rw [Core.mem_set, h.saved p hp]
  · rw [Core.mem_set, h.mem x hx]

theorem aligned_sub {x : Word} (hx : Aligned x) (hn : n.toNat % 8 = 0) : Aligned (x - n.setWidth 64) := by
  unfold Aligned at *
  rw [BitVec.toNat_sub, BitVec.toNat_setWidth]
  omega

theorem push_run (hs : Aligned (c.reg 30)) (hn : n.toNat % 8 = 0) (hl : Slots l) (h30 : 30 ∉ l.map Prod.fst) :
    ∃ c', run (push n l ++ k) c = run k c' ∧ Pushed n l (slots (c.reg 30) n l) c c' ∧
      ∀ r ≠ 30, c'.reg r = c.reg r := by
  have hsp : (c.set 30 (c.reg 30 - n.setWidth 64)).reg 30 = c.reg 30 - n.setWidth 64 := Core.reg_set_self (by decide)
  have hother : ∀ r ≠ 30, (c.set 30 (c.reg 30 - n.setWidth 64)).reg r = c.reg r := fun r hr => Core.reg_set_ne hr
  have hmem : (c.set 30 (c.reg 30 - n.setWidth 64)).mem = c.mem := Core.mem_set
  have hrun : run (push n l ++ k) c = run (stores 30 l ++ k) (c.set 30 (c.reg 30 - n.setWidth 64)) := rfl
  generalize c.set 30 (c.reg 30 - n.setWidth 64) = c1 at hsp hother hmem hrun
  have haddr : ∀ d, c1.address d 30 = c.reg 30 - n.setWidth 64 + d.signExtend 64 := fun d => congrArg (· + _) hsp
  obtain ⟨c', hrun', hregs, hsaved, hkept⟩ := run_stores (b := 30) (k := k) (c := c1) (l := l)
    (fun p hp => by
      rw [haddr]
      exact aligned_add (aligned_sub hs hn) (hl.aligned p hp))
    (nodup_disps _ hl.disps)
  refine ⟨c', hrun.trans hrun', ⟨⟨(hregs 30).trans hsp, fun p hp => ?_⟩, fun x hx => ?_⟩, fun r hr =>
    (hregs r).trans (hother r hr)⟩
  · rw [← haddr, hsaved p hp, hother]
    rintro h
    exact h30 (List.mem_map.mpr ⟨p, hp, h⟩)
  · rw [hkept x, hmem]
    intro h
    refine hx ?_
    rwa [slots, ← hsp]

theorem pop_run (h : InFrame n l c₀ c) (hs : Aligned (c₀.reg 30)) (hn : n.toNat % 8 = 0) (hl : Slots l)
    (h30 : 30 ∉ l.map Prod.fst) :
    ∃ c', run (pop n l ++ k) c = run k c' ∧ (∀ r ∈ 30 :: l.map Prod.fst, c'.reg r = c₀.reg r) ∧
      (∀ r ∉ 30 :: l.map Prod.fst, c'.reg r = c.reg r) ∧ c'.mem = c.mem := by
  have haddr : ∀ d, c.address d 30 = c₀.reg 30 - n.setWidth 64 + d.signExtend 64 := fun d => congrArg (· + _) h.sp
  obtain ⟨c', hrun, hloaded, hother, hmem⟩ := run_loads (b := 30) (c := c) (l := l)
    (k := .op .addq 30 (.lit n) 30 :: k)
    (fun p hp => by
      rw [haddr]
      exact aligned_add (aligned_sub hs hn) (hl.aligned p hp))
    h30 hl.no_zero hl.regs
  have hsp : c'.reg 30 + n.setWidth 64 = c₀.reg 30 := by
    rw [hother 30 h30, h.sp, BitVec.sub_add_cancel]
  have hpop : run (pop n l ++ k) c = run k (c'.set 30 (c₀.reg 30)) := by
    rw [pop, List.append_assoc]
    refine hrun.trans ?_
    rw [run_op, ← hsp]
    rfl
  refine ⟨_, hpop, fun r hr => ?_, fun r hr => ?_, by rw [Core.mem_set, hmem]⟩
  · obtain rfl | hr := List.mem_cons.mp hr
    · exact Core.reg_set_self (by decide)
    · obtain ⟨p, hp, rfl⟩ := List.mem_map.mp hr
      have hne : p.1 ≠ 30 := fun he => h30 (by rwa [he] at hr)
      rw [Core.reg_set_ne hne, hloaded p hp, haddr, h.saved p hp]
  · obtain ⟨hne, hr⟩ := not_or.mp (fun h => hr (List.mem_cons.mpr h))
    rw [Core.reg_set_ne hne, hother r hr]

end

end Alpha
