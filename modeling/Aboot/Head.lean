import Aboot.Lib.Alpha

/-!
# head.S

The two functions that call code of the console: `dispatch` calls its dispatch procedure, and
`switch_to_osf_pal` replaces its PALcode.  What is called may change every register, as it does when it was written
for OpenVMS.

* `dispatch_returns`          the caller of `dispatch` finds its registers as they were;
* `switch_to_osf_pal_returns` so does that of `switch_to_osf_pal`.
-/

set_option linter.unusedVariables false

namespace Head
open Alpha

inductive Label
  | dispatch
  | switch_to_osf_pal
  | __do_swppal
deriving DecidableEq

def simple (l : List Simple) : List (Line Label) := l.map fun i => .instr (.simple i)

def PAL_swppal : Nat := 10

/-- `lda $1,0x10000000` is the `ldah` -/
def dispatch : List (Line Label) :=
  List.flatten [
    [.label .dispatch],
    simple [
      .op .subq 30 (.lit 80) 30,
      .stq 26 0 30,
      .stq 29 8 30,
      .stq 8 16 30,
      .stq 9 24 30,
      .stq 10 32 30,
      .stq 11 40 30,
      .stq 12 48 30,
      .stq 13 56 30,
      .stq 14 64 30,
      .stq 15 72 30,
      .ldah 1 0x1000 31,
      .ldq 2 0xc0 1,
      .op .addq 2 (.reg 1) 2,
      .ldq 27 0 2,
      .ldq 2 8 27],
    [.instr (.jump 26 2)],
    simple [
      .ldq 26 0 30,
      .ldq 29 8 30,
      .ldq 8 16 30,
      .ldq 9 24 30,
      .ldq 10 32 30,
      .ldq 11 40 30,
      .ldq 12 48 30,
      .ldq 13 56 30,
      .ldq 14 64 30,
      .ldq 15 72 30,
      .op .addq 30 (.lit 80) 30],
    [.instr (.jump 31 26)]]

def switch_to_osf_pal : List (Line Label) :=
  List.flatten [
    [.label .switch_to_osf_pal],
    simple [
      .op .subq 30 (.lit 128) 30,
      .stq 26 0 30,
      .stq 1 8 30,
      .stq 2 16 30,
      .stq 3 24 30,
      .stq 4 32 30,
      .stq 5 40 30,
      .stq 6 48 30,
      .stq 7 56 30,
      .stq 8 64 30,
      .stq 9 72 30,
      .stq 10 80 30,
      .stq 11 88 30,
      .stq 12 96 30,
      .stq 13 104 30,
      .stq 14 112 30,
      .stq 15 120 30,
      -- the stack pointer is saved in the PCB
      .stq 30 0 17,
      .op .bis 30 (.reg 30) 20],
    [.instr (.br 17 .__do_swppal)],
    simple [
      .ldq 26 0 30,
      .ldq 1 8 30,
      .ldq 2 16 30,
      .ldq 3 24 30,
      .ldq 4 32 30,
      .ldq 5 40 30,
      .ldq 6 48 30,
      .ldq 7 56 30,
      .ldq 8 64 30,
      .ldq 9 72 30,
      .ldq 10 80 30,
      .ldq 11 88 30,
      .ldq 12 96 30,
      .ldq 13 104 30,
      .ldq 14 112 30,
      .ldq 15 120 30,
      .op .addq 30 (.lit 128) 30],
    [.instr (.jump 31 26)],
    [.label .__do_swppal],
    [.instr (.call_pal PAL_swppal)]]

/-! ## the frames -/

/-- the registers of the frame of `dispatch` -/
def saved : List (Reg × BitVec 16) := [(26, 0), (29, 8), (8, 16), (9, 24), (10, 32), (11, 40), (12, 48), (13, 56),
  (14, 64), (15, 72)]

/-- the registers of the frame of `switch_to_osf_pal` -/
def savedAll : List (Reg × BitVec 16) := [(26, 0), (1, 8), (2, 16), (3, 24), (4, 32), (5, 40), (6, 48), (7, 56),
  (8, 64), (9, 72), (10, 80), (11, 88), (12, 96), (13, 104), (14, 112), (15, 120)]

def frame (c : Core) : List Word := slots (c.reg 30) 80 saved
def frameAll (c : Core) : List Word := slots (c.reg 30) 128 savedAll

/-! ## the HWRPB -/

/-- where the console puts it -/
def hwrpb : Word := 0x10000000

/-- the address of the console routine block -/
def crb (c : Core) : Word := c.mem (hwrpb + 0xc0) + hwrpb

/-- the procedure value of the dispatch procedure -/
def procedure (c : Core) : Word := c.mem (crb c)

/-- and its code -/
def routine (c : Core) : Word := c.mem (procedure c + 8)

section
variable {base : Word} {c d c₀ : Core} {k : List Simple}

/-- the words that are read are not those of the frame -/
structure Readable (c : Core) : Prop where
  crb_aligned : Aligned (crb c)
  procedure_aligned : Aligned (procedure c)
  hwrpb_out : hwrpb + 0xc0 ∉ frame c
  crb_out : crb c ∉ frame c
  procedure_out : procedure c + 8 ∉ frame c

/-- the address of the procedure is read -/
def reading : List Simple := [
  .ldah 1 0x1000 31,
  .ldq 2 0xc0 1,
  .op .addq 2 (.reg 1) 2,
  .ldq 27 0 2,
  .ldq 2 8 27]

theorem aligned_eight {x : Word} (h : Aligned x) : Aligned (x + 8) := by
  unfold Aligned at *
  bv_omega

theorem reading_run (h1 : Aligned (crb c)) (h2 : Aligned (procedure c)) : ∃ c', run reading c = some c' ∧
    c'.reg 27 = procedure c ∧ c'.reg 2 = routine c ∧ (∀ r ∉ [1, 2, 27], c'.reg r = c.reg r) ∧ c'.mem = c.mem := by
  have hbase : (0 : Word) + (0x1000 : BitVec 16).signExtend 64 <<< 16 = hwrpb := by decide
  have hoff : (0xc0 : BitVec 16).signExtend 64 = (0xc0 : Word) := by decide
  have hzero : (0 : BitVec 16).signExtend 64 = 0#64 := by decide
  have height : (8 : BitVec 16).signExtend 64 = (8 : Word) := by decide
  -- the registers before each load
  have e1 : (c.set 1 hwrpb).address 0xc0 1 = hwrpb + 0xc0 := by
    rw [Core.address, Core.reg_set_self (by decide), hoff]
  have e2 : (((c.set 1 hwrpb).set 2 (c.mem (hwrpb + 0xc0))).set 2 (crb c)).address 0 2 = crb c := by
    rw [Core.address, Core.reg_set_self (by decide), hzero, BitVec.add_zero]
  have e3 : ((((c.set 1 hwrpb).set 2 (c.mem (hwrpb + 0xc0))).set 2 (crb c)).set 27 (procedure c)).address 8 27 =
      procedure c + 8 := by
    rw [Core.address, Core.reg_set_self (by decide), height]
  have hadd : Op.addq.eval (((c.set 1 hwrpb).set 2 (c.mem (hwrpb + 0xc0))).reg 2)
      (((c.set 1 hwrpb).set 2 (c.mem (hwrpb + 0xc0))).operand (.reg 1))
        (((c.set 1 hwrpb).set 2 (c.mem (hwrpb + 0xc0))).reg 2) = crb c := by
    show Core.reg _ 2 + Core.reg _ 1 = _
    rw [Core.reg_set_self (by decide), Core.reg_set_ne (by decide), Core.reg_set_self (by decide), crb]
  have hrun : run reading c = some (((((c.set 1 hwrpb).set 2 (c.mem (hwrpb + 0xc0))).set 2 (crb c)).set 27
      (procedure c)).set 2 (routine c)) := by
    have hstart : run reading c = run reading.tail (c.set 1 hwrpb) := by
      rw [reading, run_ldah, Core.reg_zero, hbase]
      rfl
    rw [hstart]
    show run (.ldq 2 0xc0 1 :: _) _ = _
    rw [run_ldq _ (by rw [e1]; decide), e1, Core.mem_set, run_op, hadd, run_ldq _ (by rw [e2]; exact h1), e2,
      Core.mem_set, Core.mem_set, Core.mem_set, ← procedure, run_ldq _ (by rw [e3]; exact aligned_eight h2), e3,
      Core.mem_set, Core.mem_set, Core.mem_set, Core.mem_set, ← routine, run]
  refine ⟨_, hrun, ?_, ?_, fun r hr => ?_, ?_⟩
  · rw [Core.reg_set_ne (by decide), Core.reg_set_self (by decide)]
  · exact Core.reg_set_self (by decide)
  · simp only [List.mem_cons, List.not_mem_nil, or_false, not_or] at hr
    rw [Core.reg_set_ne hr.2.1, Core.reg_set_ne hr.2.2, Core.reg_set_ne hr.2.1, Core.reg_set_ne hr.2.1,
      Core.reg_set_ne hr.1]
  · simp only [Core.mem_set]

/-! ## dispatch -/

theorem slots_saved : Slots saved := .intro (by decide)

theorem code_calling : ((code dispatch).drop 0).take (push 80 saved ++ reading).length =
    (push 80 saved ++ reading).map .simple := rfl

theorem code_jsr : (code dispatch)[16]? = some (.jump 26 2) := rfl

theorem code_restore : ((code dispatch).drop 17).take (pop 80 saved).length = (pop 80 saved).map .simple := rfl

theorem code_ret : (code dispatch)[28]? = some (.jump 31 26) := rfl

/-- the registers are in the frame, and the routine of the console is reached -/
theorem calling_reaches (base : Word) (hs : Aligned (c.reg 30)) (hr : Readable c) :
    ∃ c', Reaches base dispatch ⟨c, addr base 0⟩ ⟨c', routine c &&& ~~~3⟩ ∧ c'.reg 26 = addr base 17 ∧
      c'.reg 27 = procedure c ∧ (∀ r ∉ [1, 2, 26, 27, 30], c'.reg r = c.reg r) ∧
        Pushed 80 saved (frame c) c c' := by
  have hlen : (code dispatch).length ≤ 2 ^ 62 := by decide
  obtain ⟨c1, hrun, hpushed, hregs⟩ := push_run (k := reading) hs (by decide : (80 : BitVec 8).toNat % 8 = 0)
    slots_saved (by decide : 30 ∉ saved.map Prod.fst)
  have hcrb : crb c1 = crb c := by
    unfold crb
    rw [hpushed.mem _ hr.hwrpb_out]
  have hproc : procedure c1 = procedure c := by
    unfold procedure
    rw [hcrb, hpushed.mem _ hr.crb_out]
  have hrout : routine c1 = routine c := by
    unfold routine
    rw [hproc, hpushed.mem _ hr.procedure_out]
  obtain ⟨c2, hrun', h27, h2, hregs', hmem⟩ := reading_run (c := c1) (by rw [hcrb]; exact hr.crb_aligned)
    (by rw [hproc]; exact hr.procedure_aligned)
  have h1 := Reaches.block (B := base) hlen code_calling (hrun.trans hrun')
  have hjsr := Reaches.jump (B := base) (c := c2) hlen code_jsr
  rw [h2, hrout] at hjsr
  refine ⟨_, h1.trans hjsr, Core.reg_set_self (by decide), ?_, fun r hr' => ?_, ?_⟩
  · rw [Core.reg_set_ne (by decide), h27, hproc]
  · simp only [List.mem_cons, List.not_mem_nil, or_false, not_or] at hr'
    rw [Core.reg_set_ne hr'.2.2.1, hregs' r (by simp [hr']), hregs r hr'.2.2.2.2]
  · refine Pushed.set ⟨⟨?_, fun p hp => ?_⟩, fun x hx => ?_⟩ (by decide)
    · rw [hregs' 30 (by decide), hpushed.sp]
    · rw [hmem, hpushed.saved p hp]
    · rw [hmem, hpushed.mem x hx]

/-- from any state in which the frame is left -/
theorem restore_reaches (hs : Aligned (c.reg 30)) (h : InFrame 80 saved c d) :
    ∃ d', Reaches base dispatch ⟨d, addr base 17⟩ ⟨d', c.reg 26 &&& ~~~3⟩ ∧
      (∀ r ∈ 30 :: saved.map Prod.fst, d'.reg r = c.reg r) ∧ (∀ r ∉ 30 :: saved.map Prod.fst, d'.reg r = d.reg r) ∧
        d'.mem = d.mem := by
  have hlen : (code dispatch).length ≤ 2 ^ 62 := by decide
  obtain ⟨d', hrun, hback, hother, hmem⟩ := pop_run (k := []) h hs (by decide) slots_saved (by decide)
  rw [List.append_nil] at hrun
  have h1 := Reaches.block (B := base) hlen code_restore hrun
  have h2 := Reaches.jump (B := base) (c := d') hlen code_ret
  rw [hback 26 (by decide), Core.set_zero] at h2
  exact ⟨d', h1.trans h2, hback, hother, hmem⟩

/-! ## switch_to_osf_pal -/

def leaving : List Simple := [.stq 30 0 17, .op .bis 30 (.reg 30) 20]

theorem slots_savedAll : Slots savedAll := .intro (by decide)

theorem code_leaving : ((code switch_to_osf_pal).drop 0).take (push 128 savedAll ++ leaving).length =
    (push 128 savedAll ++ leaving).map .simple := rfl

theorem code_br : (code switch_to_osf_pal)[19]? = some (.br 17 .__do_swppal) := rfl

theorem code_again : ((code switch_to_osf_pal).drop 20).take (pop 128 savedAll).length =
    (pop 128 savedAll).map .simple := rfl

theorem code_last : (code switch_to_osf_pal)[37]? = some (.jump 31 26) := rfl

theorem leaving_reaches (base : Word) (hs : Aligned (c.reg 30)) (h17 : Aligned (c.reg 17))
    (hout : c.reg 17 ∉ frameAll c) :
    ∃ c', Reaches base switch_to_osf_pal ⟨c, addr base 0⟩
        ⟨c', addr base (target .__do_swppal switch_to_osf_pal)⟩ ∧
      c'.reg 17 = addr base 20 ∧ c'.reg 20 = c'.reg 30 ∧ c'.mem (c.reg 17) = c'.reg 30 ∧
        (∀ r ∉ [17, 20, 30], c'.reg r = c.reg r) ∧ Pushed 128 savedAll (c.reg 17 :: frameAll c) c c' := by
  have hlen : (code switch_to_osf_pal).length ≤ 2 ^ 62 := by decide
  obtain ⟨c1, hrun, hpushed, hregs⟩ := push_run (k := leaving) hs (by decide : (128 : BitVec 8).toNat % 8 = 0)
    slots_savedAll (by decide : 30 ∉ savedAll.map Prod.fst)
  have hzero : (0 : BitVec 16).signExtend 64 = 0#64 := by decide
  have haddr : c1.address 0 17 = c.reg 17 := by
    rw [Core.address, hregs 17 (by decide), hzero, BitVec.add_zero]
  have hrun' : run leaving c1 = some ((c1.store (c.reg 17) (c1.reg 30)).set 20 (c1.reg 30)) := by
    rw [leaving, run_stq _ (by rw [haddr]; exact h17), haddr, run_op]
    show some (Core.set _ 20 (c1.reg 30 ||| c1.reg 30)) = _
    rw [BitVec.or_self]
  have h1 := Reaches.block (B := base) hlen code_leaving (hrun.trans hrun')
  have h2 := Reaches.br (B := base) (c := (c1.store (c.reg 17) (c1.reg 30)).set 20 (c1.reg 30)) hlen code_br
  -- the slots are not the PCB
  have hne : ∀ x ∈ frameAll c, x ≠ c.reg 17 := fun x hx he => hout (he ▸ hx)
  refine ⟨_, h1.trans h2, Core.reg_set_self (by decide), ?_, ?_, fun r hr => ?_, ?_⟩
  · rw [Core.reg_set_ne (by decide), Core.reg_set_self (by decide), Core.reg_set_ne (by decide),
      Core.reg_set_ne (by decide), Core.reg_store]
  · rw [Core.mem_set, Core.mem_set, Core.mem_store_self, Core.reg_set_ne (by decide), Core.reg_set_ne (by decide),
      Core.reg_store]
  · simp only [List.mem_cons, List.not_mem_nil, or_false, not_or] at hr
    rw [Core.reg_set_ne hr.1, Core.reg_set_ne hr.2.1, Core.reg_store, hregs r hr.2.2]
  · refine Pushed.set (Pushed.set ⟨⟨hpushed.sp, fun p hp => ?_⟩, fun x hx => ?_⟩ (by decide)) (by decide)
    · rw [Core.mem_store_ne (hne _ (List.mem_map.mpr ⟨p, hp, rfl⟩)), hpushed.saved p hp]
    · obtain ⟨hx1, hx2⟩ := not_or.mp fun h => hx (List.mem_cons.mpr h)
      rw [Core.mem_store_ne hx1, hpushed.mem x hx2]

theorem again_reaches (hs : Aligned (c.reg 30)) (h : InFrame 128 savedAll c d) :
    ∃ d', Reaches base switch_to_osf_pal ⟨d, addr base 20⟩ ⟨d', c.reg 26 &&& ~~~3⟩ ∧
      (∀ r ∈ 30 :: savedAll.map Prod.fst, d'.reg r = c.reg r) ∧
        (∀ r ∉ 30 :: savedAll.map Prod.fst, d'.reg r = d.reg r) ∧ d'.mem = d.mem := by
  have hlen : (code switch_to_osf_pal).length ≤ 2 ^ 62 := by decide
  obtain ⟨d', hrun, hback, hother, hmem⟩ := pop_run (k := []) h hs (by decide) slots_savedAll (by decide)
  rw [List.append_nil] at hrun
  have h1 := Reaches.block (B := base) hlen code_again hrun
  have h2 := Reaches.jump (B := base) (c := d') hlen code_last
  rw [hback 26 (by decide), Core.set_zero] at h2
  exact ⟨d', h1.trans h2, hback, hother, hmem⟩

/-! ## the results -/

/-- `dispatch` calls the routine that the HWRPB names, and when that returns to the address it was given, with the
frame left alone, the registers are those of the call but for the scratch registers, which are the routine's -/
theorem dispatch_returns (base : Word) (c : Core) (hs : Aligned (c.reg 30)) (hr : Readable c) :
    ∃ c', Reaches base dispatch ⟨c, addr base (target .dispatch dispatch)⟩ ⟨c', routine c &&& ~~~3⟩ ∧
      c'.reg 27 = procedure c ∧ (∀ r ∉ [1, 2, 26, 27, 30], c'.reg r = c.reg r) ∧
      (∀ x ∉ frame c, c'.mem x = c.mem x) ∧
        ∀ d : Core, d.reg 30 = c'.reg 30 → (∀ x ∈ frame c, d.mem x = c'.mem x) →
          ∃ d', Reaches base dispatch ⟨d, c'.reg 26⟩ ⟨d', c.reg 26 &&& ~~~3⟩ ∧
            (∀ r ∈ 30 :: saved.map Prod.fst, d'.reg r = c.reg r) ∧
              (∀ r ∉ 30 :: saved.map Prod.fst, d'.reg r = d.reg r) ∧ d'.mem = d.mem := by
  obtain ⟨c', hreach, h26, h27, hregs, hpushed⟩ := calling_reaches base hs hr
  refine ⟨c', hreach, h27, hregs, hpushed.mem, fun d hsp hmem => ?_⟩
  rw [h26]
  exact restore_reaches hs (hpushed.toInFrame.congr hsp hmem)

/-- the HWRPB with a console routine block at 0x10002000 and a routine at 0x4000 -/
def console : Core :=
  ⟨fun _ => 0, fun x => if x = 0x100000c0 then 0x2000 else if x = 0x10002000 then 0x3000 else
    if x = 0x3008 then 0x4000 else 0⟩

theorem dispatch_returns_console :
    ∃ c', Reaches 0x5000 dispatch ⟨console, addr 0x5000 (target .dispatch dispatch)⟩ ⟨c', routine console &&& ~~~3⟩ ∧
      c'.reg 27 = procedure console ∧ (∀ r ∉ [1, 2, 26, 27, 30], c'.reg r = console.reg r) ∧
      (∀ x ∉ frame console, c'.mem x = console.mem x) ∧
        ∀ d : Core, d.reg 30 = c'.reg 30 → (∀ x ∈ frame console, d.mem x = c'.mem x) →
          ∃ d', Reaches 0x5000 dispatch ⟨d, c'.reg 26⟩ ⟨d', console.reg 26 &&& ~~~3⟩ ∧
            (∀ r ∈ 30 :: saved.map Prod.fst, d'.reg r = console.reg r) ∧
              (∀ r ∉ 30 :: saved.map Prod.fst, d'.reg r = d.reg r) ∧ d'.mem = d.mem :=
  dispatch_returns 0x5000 console (by decide)
    ⟨by decide, by decide, by decide, by decide, by decide⟩

/-- the PALcode starts with the stack pointer in the PCB and in register 20, and goes on behind the branch -/
theorem switch_to_osf_pal_returns (base : Word) (c : Core) (hs : Aligned (c.reg 30)) (h17 : Aligned (c.reg 17))
    (hout : c.reg 17 ∉ frameAll c) :
    ∃ c', Reaches base switch_to_osf_pal ⟨c, addr base (target .switch_to_osf_pal switch_to_osf_pal)⟩
        ⟨c', addr base (target .__do_swppal switch_to_osf_pal)⟩ ∧
      c'.reg 20 = c'.reg 30 ∧ c'.mem (c.reg 17) = c'.reg 30 ∧ (∀ r ∉ [17, 20, 30], c'.reg r = c.reg r) ∧
        ∀ d : Core, d.reg 30 = c'.reg 30 → (∀ x ∈ frameAll c, d.mem x = c'.mem x) →
          ∃ d', Reaches base switch_to_osf_pal ⟨d, c'.reg 17⟩ ⟨d', c.reg 26 &&& ~~~3⟩ ∧
            (∀ r ∈ 30 :: savedAll.map Prod.fst, d'.reg r = c.reg r) ∧
              (∀ r ∉ 30 :: savedAll.map Prod.fst, d'.reg r = d.reg r) ∧ d'.mem = d.mem := by
  obtain ⟨c', hreach, hcode, h20, hpcb, hregs, hpushed⟩ := leaving_reaches base hs h17 hout
  refine ⟨c', hreach, h20, hpcb, hregs, fun d hsp hmem => ?_⟩
  rw [hcode]
  exact again_reaches hs (hpushed.toInFrame.congr hsp hmem)

theorem switch_to_osf_pal_returns_console :
    ∃ c', Reaches 0x5000 switch_to_osf_pal
        ⟨console, addr 0x5000 (target .switch_to_osf_pal switch_to_osf_pal)⟩
        ⟨c', addr 0x5000 (target .__do_swppal switch_to_osf_pal)⟩ ∧
      c'.reg 20 = c'.reg 30 ∧ c'.mem (console.reg 17) = c'.reg 30 ∧
        (∀ r ∉ [17, 20, 30], c'.reg r = console.reg r) ∧
        ∀ d : Core, d.reg 30 = c'.reg 30 → (∀ x ∈ frameAll console, d.mem x = c'.mem x) →
          ∃ d', Reaches 0x5000 switch_to_osf_pal ⟨d, c'.reg 17⟩ ⟨d', console.reg 26 &&& ~~~3⟩ ∧
            (∀ r ∈ 30 :: savedAll.map Prod.fst, d'.reg r = console.reg r) ∧
              (∀ r ∉ 30 :: savedAll.map Prod.fst, d'.reg r = d.reg r) ∧ d'.mem = d.mem :=
  switch_to_osf_pal_returns 0x5000 console (by decide) (by decide) (by decide)

end

end Head
