import Aboot.Lib.Alpha

/-!
# lib/divide.S

Division of 64-bit and 32-bit numbers, with the arguments in the registers 24 and 25, the result in 27 and
the return address in 23.  A text is made for each of the functions `__divqu`, `__remqu`, `__divlu`, `__remlu` and
the signed ones behind them: `rem` is the macro `REM`, and `int` the macro `INTSIZE`.
-/

set_option linter.unusedVariables false

namespace Divide
open Alpha

inductive Label
  | ufunction
  | sfunction
  | u1
  | u2
  | u3
  | u9
  | s1
deriving DecidableEq

def mask : Reg := 0
def divisor : Reg := 1
def compare : Reg := 28
def modulus (rem : Bool) : Reg := if rem then 27 else 2
def quotient (rem : Bool) : Reg := if rem then 2 else 27

/-- the register of the result -/
def result : Reg := 27

def GETSIGN (rem : Bool) (x : Reg) : Simple := if rem then .op .bis 24 (.reg 24) x else .op .xor 24 (.reg 25) x
def LONGIFY (int : Bool) (x : Reg) : List Simple := if int then [.op .zapnot x (.lit 15) x] else []
def SLONGIFY (int : Bool) (x : Reg) : List Simple := if int then [.op .addl x (.lit 0) x] else []

def simple (l : List Simple) : List (Line Label) := l.map fun i => .instr (.simple i)

/-- the text -/
def text (rem int : Bool) : List (Line Label) :=
  List.flatten [
    [.label .ufunction],
    simple [
      .op .subq 30 (.lit 32) 30,
      .stq 0 0 30,
      .stq 1 8 30,
      .stq 2 16 30,
      .op .bis 25 (.reg 25) divisor,
      .op .bis 24 (.reg 24) (modulus rem),
      .op .bis 31 (.reg 31) (quotient rem)],
    simple (LONGIFY int divisor),
    simple (LONGIFY int (modulus rem)),
    -- division by zero
    [.instr (.branch .eq divisor .u9)],
    simple [.op .bis 31 (.lit 1) mask],
    -- shift the divisor left
    [.label .u1],
    simple [.op .cmpult divisor (.reg (modulus rem)) compare],
    [.instr (.branch .lt divisor .u3)],
    simple [
      .op .addq divisor (.reg divisor) divisor,
      .op .addq mask (.reg mask) mask],
    [.instr (.branch .ne compare .u1)],
    -- go to the right again
    [.label .u2],
    simple [.op .srl divisor (.lit 1) divisor],
    [.instr (.branch .eq mask .u9)],
    simple [.op .srl mask (.lit 1) mask],
    [.label .u3],
    simple [.op .cmpule divisor (.reg (modulus rem)) compare],
    [.instr (.branch .eq compare .u2)],
    simple [.op .addq (quotient rem) (.reg mask) (quotient rem)],
    [.instr (.branch .eq mask .u9)],
    simple [.op .subq (modulus rem) (.reg divisor) (modulus rem)],
    [.instr (.br 31 .u2)],
    [.label .u9],
    simple [
      .ldq 0 0 30,
      .ldq 1 8 30,
      .ldq 2 16 30,
      .op .addq 30 (.lit 32) 30],
    [.instr (.jump 31 23)],
    [.label .sfunction],
    simple [.op .bis 24 (.reg 25) 28],
    simple (SLONGIFY int 28),
    [.instr (.branch .ge 28 .ufunction)],
    simple [
      .op .subq 30 (.lit 32) 30,
      .stq 23 0 30,
      .stq 24 8 30,
      .stq 25 16 30,
      .op .subq 31 (.reg 24) 28,
      .op .cmovlt 24 (.reg 28) 24,
      .op .subq 31 (.reg 25) 28,
      .op .cmovlt 25 (.reg 28) 25],
    [.instr (.br 23 .ufunction)],
    simple [
      .ldq 23 0 30,
      .ldq 24 8 30,
      .ldq 25 16 30,
      .op .addq 30 (.lit 32) 30,
      GETSIGN rem 28],
    simple (SLONGIFY int 28),
    [.instr (.branch .ge 28 .s1)],
    simple [.op .subq 31 (.reg 27) 27],
    [.label .s1],
    [.instr (.jump 31 23)]]

/-! ## the text as a list of instructions -/

theorem length_code (rem int : Bool) : (code (text rem int)).length ≤ 2 ^ 62 := by
  cases rem <;> cases int <;> decide

/-- the number of an instruction that is the `i`th from the label 1 on -/
def at1 (int : Bool) (i : Nat) : Nat := i + if int then 11 else 9

/-- the instructions from the label 1 on, to the return -/
def body (rem : Bool) : List (Instr Label) := [
  .simple (.op .cmpult divisor (.reg (modulus rem)) compare),
  .branch .lt divisor .u3,
  .simple (.op .addq divisor (.reg divisor) divisor),
  .simple (.op .addq mask (.reg mask) mask),
  .branch .ne compare .u1,
  .simple (.op .srl divisor (.lit 1) divisor),
  .branch .eq mask .u9,
  .simple (.op .srl mask (.lit 1) mask),
  .simple (.op .cmpule divisor (.reg (modulus rem)) compare),
  .branch .eq compare .u2,
  .simple (.op .addq (quotient rem) (.reg mask) (quotient rem)),
  .branch .eq mask .u9,
  .simple (.op .subq (modulus rem) (.reg divisor) (modulus rem)),
  .br 31 .u2,
  .simple (.ldq 0 0 30),
  .simple (.ldq 1 8 30),
  .simple (.ldq 2 16 30),
  .simple (.op .addq 30 (.lit 32) 30),
  .jump 31 23]

theorem at1_add (int : Bool) (i j : Nat) : at1 int i + j = at1 int (i + j) := Nat.add_right_comm i _ j

theorem drop_at1 (rem int : Bool) : ((code (text rem int)).drop (at1 int 0)).take 19 = body rem := by
  cases rem <;> cases int <;> rfl

theorem getElem?_of_take_drop {α : Type} {l b : List α} {n k i : Nat} {x : α} (h : (l.drop n).take k = b)
    (hx : b[i]? = some x) : l[n + i]? = some x := by
  have hi : i < k := by
    rw [← h] at hx
    exact Nat.lt_of_lt_of_le (List.getElem?_eq_some_iff.mp hx).1 (List.length_take_le k _)
  rwa [← h, List.getElem?_take_of_lt hi, List.getElem?_drop] at hx

theorem code_at1 {rem : Bool} (int : Bool) {i : Nat} {x : Instr Label} (h : (body rem)[i]? = some x) :
    (code (text rem int))[at1 int i]? = some x := by
  have hi : at1 int i = at1 int 0 + i := by
    unfold at1
    omega
  rw [hi]
  exact getElem?_of_take_drop (drop_at1 rem int) h

theorem target_u1 (rem int : Bool) : target .u1 (text rem int) = at1 int 0 := by
  cases rem <;> cases int <;> rfl

theorem target_u2 (rem int : Bool) : target .u2 (text rem int) = at1 int 5 := by
  cases rem <;> cases int <;> rfl

theorem target_u3 (rem int : Bool) : target .u3 (text rem int) = at1 int 8 := by
  cases rem <;> cases int <;> rfl

theorem target_u9 (rem int : Bool) : target .u9 (text rem int) = at1 int 14 := by
  cases rem <;> cases int <;> rfl

end Divide
