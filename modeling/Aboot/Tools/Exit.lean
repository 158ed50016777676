import Aboot.Tools.Swriteboot

/-!
# How sdisklabel ends, and sector 0 then

`sdisklabel` of Disklabel.lean has no result when the program exits with an error.  Here the device is
kept at every end, and a null pointer that is followed is an end of its own.

* `mainExit`         the program with all its ends; `mainExit_ok`: it is `sdisklabel` where it succeeds;
* `round`            one round of the loop as a function of the arguments and the variables;
* `Reach`            the rounds, with the label at the last `sum`;
* `AllOrNothing`     what an end should leave in sector 0;
* `all_or_nothing_iff`   when it does.
-/

set_option linter.unusedVariables false

namespace Disklabel
open Word Bytes Prog BootBlock
open Swriteboot (labelOf read_disklabel_run read_disklabel_some)

/-! ## the ends -/

/-- the end of a program: exit status 0, another exit status, or a null pointer -/
inductive Exit (α : Type) where
  | ok (a : α)
  | error
  | null

/-- the loop over the arguments; `argv[argc]` is the null pointer, and `size` can lead there -/
def commandsExit : Nat → List (List UInt8) → Vars → Device → Exit Vars × Device
  | _, [], v, s => (.ok v, s)
  | 0, _ :: _, _, s => (.error, s)
  | fuel + 1, a :: args, v, s =>
    let r := sizeOption (a :: args) v
    if r.1 = [] then (.null, s)
    else
      match command r.1 r.2 s with
      | none => (.error, s)
      | some (r, t) => commandsExit fuel r.1 r.2 t

/-- the label that was modified is written at the end -/
def finish (v : Vars) (s : Device) : Exit Vars × Device :=
  if v.label_modified then
    match write_disklabel v.d s with
    | some (true, t) => (.ok v, t)
    | some (false, t) => (.error, t)
    | none => (.error, s)
  else (.ok v, s)

/-- `main` with the arguments after the device; a label that cannot be read is an error -/
def mainExit (stack : Mem) (geometry : Option (Nat × Nat × Nat)) (blocks : Option Nat)
    (args : List (List UInt8)) (s : Device) : Exit Vars × Device :=
  if args = [] then (.error, s)
  else
    match firstLabel args ⟨stack, false, false, set_disk_size geometry blocks⟩ s with
    | none => (.error, s)
    | some (v, t) =>
      match commandsExit args.length args v t with
      | (.ok v, t) => finish v t
      | (.error, t) => (.error, t)
      | (.null, t) => (.null, t)

/-! ## one round -/

/-- the arguments after a command, the variables, and whether it was `sum` -/
structure Round where
  args : List (List UInt8)
  vars : Vars
  sum : Bool

/-- the four arguments of a partition -/
def partitionOf (a : List UInt8) (args : List (List UInt8)) (v : Vars) : Option Round :=
  match args with
  | b :: c :: e :: args => (partition v a b c e).map fun v => ⟨args, v, false⟩
  | _ => none

/-- a command as a function: what is left of the arguments, and the variables -/
def commandOf : List (List UInt8) → Vars → Option Round
  | [], _ => none
  | a :: args, v =>
    if a = ascii "sum" then some ⟨args, v, true⟩
    else if a = ascii "zero" then some ⟨args, zero_disklabel v, false⟩
    else if a = ascii "print" then some ⟨args, v, false⟩
    else if a = ascii "force" then some ⟨args, { v with force := true }, false⟩
    else partitionOf a args v

/-- a round of the loop: `size` with its argument, and a command -/
def round (args : List (List UInt8)) (v : Vars) : Option Round :=
  commandOf (sizeOption args v).1 (sizeOption args v).2

/-- the device after a round -/
def summed (r : Round) (s : Device) : Device :=
  if r.sum then ⟨s.bytes.put 504 (labelSum s.bytes r.vars.d), 512,
    (504, labelSum s.bytes r.vars.d) :: s.writes⟩ else s

theorem partition_run (a : List UInt8) (args : List (List UInt8)) (v : Vars) (s : Device) :
    (match args with
      | b :: c :: e :: args =>
        match partition v a b c e with
        | none => failure
        | some v => pure (args, v)
      | _ => failure : Prog Device (List (List UInt8) × Vars)) s
      = (partitionOf a args v).map fun r => ((r.args, r.vars), summed r s) := by
  match args with
  | [] => rfl
  | [_] => rfl
  | [_, _] => rfl
  | b :: c :: e :: args =>
    unfold partitionOf
    dsimp only
    cases hp : partition v a b c e with
    | none => rfl
    | some v => rfl

theorem command_run (args : List (List UInt8)) (v : Vars) (s : Device) :
    command args v s = (commandOf args v).map fun r => ((r.args, r.vars), summed r s) := by
  cases args with
  | nil => rfl
  | cons a args =>
    unfold command commandOf
    dsimp only
    by_cases h1 : a = ascii "sum"
    · rw [if_pos h1, if_pos h1, bind_run (dosumlabel_run v.d s)]
      rfl
    rw [if_neg h1, if_neg h1]
    by_cases h2 : a = ascii "zero"
    · rw [if_pos h2, if_pos h2]
      rfl
    rw [if_neg h2, if_neg h2]
    by_cases h3 : a = ascii "print"
    · rw [if_pos h3, if_pos h3]
      rfl
    rw [if_neg h3, if_neg h3]
    by_cases h4 : a = ascii "force"
    · rw [if_pos h4, if_pos h4]
      rfl
    rw [if_neg h4, if_neg h4]
    exact partition_run a args v s

/-- a round takes an argument at least -/
theorem commandOf_length {args : List (List UInt8)} {v : Vars} {r : Round}
    (h : commandOf args v = some r) : r.args.length < args.length := by
  cases args with
  | nil => cases h
  | cons a args =>
    unfold commandOf at h
    dsimp only at h
    split at h
    · rw [← Option.some.inj h]
      exact Nat.lt_succ_self _
    split at h
    · rw [← Option.some.inj h]
      exact Nat.lt_succ_self _
    split at h
    · rw [← Option.some.inj h]
      exact Nat.lt_succ_self _
    split at h
    · rw [← Option.some.inj h]
      exact Nat.lt_succ_self _
    match args, h with
    | b :: c :: e :: args, h =>
      obtain ⟨v, -, rfl⟩ := Option.map_eq_some_iff.mp h
      simp only [List.length_cons]
      omega

theorem sizeOption_length (args : List (List UInt8)) (v : Vars) :
    (sizeOption args v).1.length ≤ args.length := by
  match args with
  | [] => exact Nat.le_refl _
  | [a] => exact Nat.le_refl _
  | a :: b :: args =>
    rw [sizeOption]
    split
    · simp only [List.length_cons]
      omega
    · exact Nat.le_refl _

theorem round_length {args : List (List UInt8)} {v : Vars} {r : Round} (h : round args v = some r) :
    r.args.length < args.length :=
  Nat.lt_of_lt_of_le (commandOf_length h) (sizeOption_length args v)

section
variable {fuel : Nat} {args : List (List UInt8)} {v : Vars} {s : Device}

theorem commandsExit_next {r : Round} (hne : args ≠ []) (h : round args v = some r) :
    commandsExit (fuel + 1) args v s = commandsExit fuel r.args r.vars (summed r s) := by
  cases args with
  | nil => exact absurd rfl hne
  | cons a args =>
    have hsome : (sizeOption (a :: args) v).1 ≠ [] := by
      intro he
      rw [round, he] at h
      cases h
    have hcommand := command_run (sizeOption (a :: args) v).1 (sizeOption (a :: args) v).2 s
    rw [show commandOf _ _ = some r from h, Option.map_some] at hcommand
    rw [commandsExit, if_neg hsome]
    simp only [hcommand]

theorem commandsExit_stuck (hne : args ≠ []) (h : round args v = none) :
    commandsExit (fuel + 1) args v s = (if (sizeOption args v).1 = [] then .null else .error, s) := by
  cases args with
  | nil => exact absurd rfl hne
  | cons a args =>
    have hcommand := command_run (sizeOption (a :: args) v).1 (sizeOption (a :: args) v).2 s
    rw [show commandOf _ _ = none from h, Option.map_none] at hcommand
    rw [commandsExit]
    by_cases he : (sizeOption (a :: args) v).1 = []
    · rw [if_pos he, if_pos he]
    · rw [if_neg he, if_neg he]
      simp only [hcommand]

end

/-! ## the program without its failures -/

theorem commands_ok (fuel : Nat) : ∀ (args : List (List UInt8)) (v : Vars) (s : Device) (w : Vars)
    (t : Device), commands fuel args v s = some (w, t) ↔ commandsExit fuel args v s = (.ok w, t) := by
  induction fuel with
  | zero =>
    intro args v s w t
    cases args with
    | nil => simp [commands, commandsExit]
    | cons a args => simp [commands, commandsExit]
  | succ fuel ih =>
    intro args v s w t
    cases args with
    | nil => simp [commands, commandsExit]
    | cons a args =>
      have hc := command_run (sizeOption (a :: args) v).1 (sizeOption (a :: args) v).2 s
      show (command (sizeOption (a :: args) v).1 (sizeOption (a :: args) v).2 >>= _) s = _ ↔ _
      cases hr : commandOf (sizeOption (a :: args) v).1 (sizeOption (a :: args) v).2 with
      | none =>
        rw [hr, Option.map_none] at hc
        rw [bind_eq, hc, commandsExit_stuck (List.cons_ne_nil a args) hr]
        constructor
        · intro h
          cases h
        · intro h
          split at h <;> cases h
      | some r =>
        rw [hr, Option.map_some] at hc
        rw [bind_run hc, commandsExit_next (List.cons_ne_nil a args) hr]
        exact ih r.args r.vars (summed r s) w t

theorem finish_ok (v : Vars) (s : Device) (w : Vars) (t : Device) :
    (if v.label_modified then do
      if ← write_disklabel v.d then pure v else failure
    else pure v : Prog Device Vars) s = some (w, t) ↔ finish v s = (.ok w, t) := by
  unfold finish
  by_cases hm : v.label_modified = true
  · obtain ⟨u, hrun, -⟩ := write_disklabel_run v.d s
    rw [if_pos hm, if_pos hm, bind_run hrun]
    simp only [hrun]
    simp
  · rw [if_neg hm, if_neg hm]
    simp

/-- `sdisklabel` is the program where it succeeds -/
theorem mainExit_ok (stack : Mem) (geometry : Option (Nat × Nat × Nat)) (blocks : Option Nat)
    (args : List (List UInt8)) (s : Device) (w : Vars) (t : Device) :
    sdisklabel stack geometry blocks args s = some (w, t) ↔
      mainExit stack geometry blocks args s = (.ok w, t) := by
  unfold sdisklabel mainExit
  by_cases hne : args = []
  · rw [if_pos hne, if_pos hne]
    simp
  rw [if_neg hne, if_neg hne]
  cases hf : firstLabel args ⟨stack, false, false, set_disk_size geometry blocks⟩ s with
  | none =>
    rw [bind_eq, hf]
    simp
  | some r =>
    obtain ⟨v, u⟩ := r
    rw [bind_run hf]
    dsimp only
    cases he : commandsExit args.length args v u with
    | mk e u' =>
      cases e with
      | ok v' =>
        rw [bind_run ((commands_ok _ _ _ _ _ _).mpr he)]
        exact finish_ok v' u' w t
      | error =>
        have hno : commands args.length args v u = none := by
          by_contra hsome
          obtain ⟨r, hr⟩ := Option.ne_none_iff_exists'.mp hsome
          rw [(commands_ok _ _ _ _ r.1 r.2).mp hr] at he
          cases he
        rw [bind_eq, hno]
        simp
      | null =>
        have hno : commands args.length args v u = none := by
          by_contra hsome
          obtain ⟨r, hr⟩ := Option.ne_none_iff_exists'.mp hsome
          rw [(commands_ok _ _ _ _ r.1 r.2).mp hr] at he
          cases he
        rw [bind_eq, hno]
        simp

/-! ## the rounds of a run -/

/-- the arguments and variables that the loop comes to, and the label at the last `sum` -/
inductive Reach (args₀ : List (List UInt8)) (v₀ : Vars) :
    List (List UInt8) → Vars → Option Mem → Prop where
  | start : Reach args₀ v₀ args₀ v₀ none
  | next {args : List (List UInt8)} {v : Vars} {l : Option Mem} {r : Round} : Reach args₀ v₀ args v l →
      args ≠ [] → round args v = some r →
      Reach args₀ v₀ r.args r.vars (if r.sum then some r.vars.d else l)

/-- the device after some rounds: the sum of the last `sum` -/
def afterSum (m : Mem) : Option Mem → Mem
  | none => m
  | some d => m.put 504 (labelSum m d)

/-- the sum does not depend on the sum that is there -/
theorem labelSum_put (m d : Mem) (bs : List UInt8) (h : bs.length = 8) :
    labelSum (m.put 504 bs) d = labelSum m d := by
  unfold labelSum
  apply congrArg (ofNum · 8)
  unfold checksum
  apply List.foldl_ext
  intro sum x hx
  have hx := List.mem_range.mp hx
  have hword : word ((sectorOf ((m.put 504 bs).get 0 512)).put LABELOFFSET (d.get 0 sizeof_disklabel)) x
      = word ((sectorOf (m.get 0 512)).put LABELOFFSET (d.get 0 sizeof_disklabel)) x := by
    refine le_congr fun j hj => Mem.put_congr _ _ ?_
    rw [sectorOf_get _ (by omega), sectorOf_get _ (by omega)]
    exact Mem.put_out _ _ _ _ (Or.inl (by omega))
  rw [hword]

theorem length_labelSum (m d : Mem) : (labelSum m d).length = 8 := length_ofNum _ _

theorem put_put (m : Mem) {a : Nat} {bs cs : List UInt8} (h : bs.length = cs.length) :
    (m.put a bs).put a cs = m.put a cs := by
  funext x
  by_cases hx : x < a ∨ a + cs.length ≤ x
  · rw [Mem.put_out _ _ _ _ hx, Mem.put_out _ _ _ _ hx, Mem.put_out _ _ _ _ (by omega)]
  · obtain ⟨k, rfl⟩ : ∃ k, x = a + k := ⟨x - a, by omega⟩
    rw [Mem.put_in _ _ _ _ (by omega), Mem.put_in _ _ _ _ (by omega)]

theorem summed_bytes {m : Mem} {l : Option Mem} {s : Device} (r : Round) (h : s.bytes = afterSum m l) :
    (summed r s).bytes = afterSum m (if r.sum then some r.vars.d else l) := by
  unfold summed
  by_cases hs : r.sum = true
  · rw [if_pos hs, if_pos hs]
    show s.bytes.put 504 (labelSum s.bytes r.vars.d) = m.put 504 (labelSum m r.vars.d)
    rw [h]
    cases l with
    | none => rfl
    | some d =>
      show (m.put 504 _).put 504 (labelSum (m.put 504 _) _) = _
      rw [labelSum_put _ _ _ (length_labelSum m d), put_put _ (by rw [length_labelSum, length_labelSum])]
  · rw [if_neg hs, if_neg hs]
    exact h

/-- the loop goes through what is reached -/
theorem commandsExit_reach {m : Mem} {args₀ args : List (List UInt8)} {v₀ v : Vars} {l : Option Mem}
    {s₀ : Device} (hm : s₀.bytes = m) (h : Reach args₀ v₀ args v l) : ∃ fuel s,
    args.length ≤ fuel ∧ s.bytes = afterSum m l ∧
      commandsExit args₀.length args₀ v₀ s₀ = commandsExit fuel args v s := by
  induction h with
  | start => exact ⟨args₀.length, s₀, Nat.le_refl _, hm, rfl⟩
  | next hreach hne hr ih =>
    rename_i r
    obtain ⟨fuel, s, hfuel, hbytes, heq⟩ := ih
    have hlt := round_length hr
    obtain ⟨n, rfl⟩ : ∃ n, fuel = n + 1 := ⟨fuel - 1, by omega⟩
    refine ⟨n, summed r s, by omega, summed_bytes r hbytes, ?_⟩
    rw [heq, commandsExit_next hne hr]

/-- where the loop ends: after the last argument, or at one that is no command -/
theorem commandsExit_end {m : Mem} {args₀ : List (List UInt8)} {v₀ : Vars} {fuel : Nat} :
    ∀ {args : List (List UInt8)} {v : Vars} {l : Option Mem} {s : Device}, args.length ≤ fuel →
      Reach args₀ v₀ args v l → s.bytes = afterSum m l → ∃ args' v' l' t, Reach args₀ v₀ args' v' l' ∧
        t.bytes = afterSum m l' ∧
        ((args' = [] ∧ commandsExit fuel args v s = (.ok v', t)) ∨
        (args' ≠ [] ∧ round args' v' = none ∧ commandsExit fuel args v s
          = (if (sizeOption args' v').1 = [] then .null else .error, t))) := by
  induction fuel with
  | zero =>
    intro args v l s hlen hreach hbytes
    obtain rfl : args = [] := List.length_eq_zero_iff.mp (by omega)
    exact ⟨[], v, l, s, hreach, hbytes, Or.inl ⟨rfl, rfl⟩⟩
  | succ fuel ih =>
    intro args v l s hlen hreach hbytes
    by_cases hne : args = []
    · subst hne
      exact ⟨[], v, l, s, hreach, hbytes, Or.inl ⟨rfl, rfl⟩⟩
    cases hr : round args v with
    | none => exact ⟨args, v, l, s, hreach, hbytes, Or.inr ⟨hne, hr, commandsExit_stuck hne hr⟩⟩
    | some r =>
      have hlt := round_length hr
      rw [commandsExit_next hne hr]
      exact ih (by omega) (hreach.next hne hr) (summed_bytes r hbytes)

/-! ## sector 0 -/

/-- no null pointer is followed; after an error sector 0 is as before, and otherwise it differs in the
label and the sum only -/
structure AllOrNothing (m : Mem) (r : Exit Vars × Device) : Prop where
  not_null : r.1 ≠ .null
  error : r.1 = .error → ∀ k < 512, r.2.bytes k = m k
  ok : ∀ v, r.1 = .ok v → ∀ k < 512, r.2.bytes k ≠ m k → (64 ≤ k ∧ k < 340) ∨ 504 ≤ k

/-- where the arguments go on with no command, they are not at their end behind `size`, and the sum of
the last `sum` is what the sector had -/
def Clean (m : Mem) (args₀ : List (List UInt8)) (v₀ : Vars) : Prop :=
  ∀ args v l, Reach args₀ v₀ args v l → args ≠ [] → round args v = none →
    (sizeOption args v).1 ≠ [] ∧ ∀ d, l = some d → labelSum m d = m.get 504 8

/-- the variables at the start of the loop -/
def startVars (stack : Mem) (geometry : Option (Nat × Nat × Nat)) (blocks : Option Nat)
    (args : List (List UInt8)) (m : Mem) : Option Vars :=
  let v : Vars := ⟨stack, false, false, set_disk_size geometry blocks⟩
  if args = [] then none
  else if args.head? = some (ascii "zero") then some (zero_disklabel v)
  else if d_magic (labelOf stack m) = DISKLABELMAGIC ∧ d_magic2 (labelOf stack m) = DISKLABELMAGIC then
    some { v with d := labelOf stack m }
  else none

theorem afterSum_other {m : Mem} (l : Option Mem) {k : Nat} (h : k < 504) : afterSum m l k = m k := by
  cases l with
  | none => rfl
  | some d => exact Mem.put_out _ _ _ _ (Or.inl h)

/-- the sum is what the sector had, if the sector has not changed -/
theorem afterSum_same {m : Mem} {l : Option Mem} :
    (∀ k < 512, afterSum m l k = m k) ↔ ∀ d, l = some d → labelSum m d = m.get 504 8 := by
  constructor
  · rintro h d rfl
    have hget := Mem.get_put_self m 504 (labelSum m d)
    rw [length_labelSum] at hget
    rw [← hget]
    exact Mem.get_eq_of_forall _ _ 504 8 fun k hk => h (504 + k) (by omega)
  · intro h k hk
    cases l with
    | none => rfl
    | some d =>
      show m.put 504 (labelSum m d) k = m k
      rw [h d rfl, Mem.put_get_self]

/-- a successful end changes the label and the sum only -/
theorem finish_run {m : Mem} {l : Option Mem} (v : Vars) {s : Device} (h : s.bytes = afterSum m l) :
    ∃ t, finish v s = (.ok v, t) ∧ ∀ k < 512, t.bytes k ≠ m k → (64 ≤ k ∧ k < 340) ∨ 504 ≤ k := by
  unfold finish
  by_cases hm : v.label_modified = true
  · obtain ⟨t, hrun, hbytes⟩ := write_disklabel_run v.d s
    rw [if_pos hm]
    simp only [hrun]
    refine ⟨t, rfl, fun k hk hne => ?_⟩
    by_contra hno
    apply hne
    rw [hbytes, labelled, Mem.put_out _ _ _ _ (by rw [Mem.length_get]; show k < 64 ∨ 64 + 276 ≤ k; omega),
      Mem.put_out _ _ _ _ (Or.inl (by omega)), h]
    exact afterSum_other l (by omega)
  · rw [if_neg hm]
    refine ⟨s, rfl, fun k hk hne => ?_⟩
    by_contra hno
    exact hne (h ▸ afterSum_other l (by omega))

/-- the label at the start is read, or zeroed -/
theorem firstLabel_run (stack : Mem) (geometry : Option (Nat × Nat × Nat)) (blocks : Option Nat)
    {args : List (List UInt8)} (hne : args ≠ []) (s : Device) :
    (startVars stack geometry blocks args s.bytes = none ∧
      firstLabel args ⟨stack, false, false, set_disk_size geometry blocks⟩ s = none) ∨
    ∃ v n, startVars stack geometry blocks args s.bytes = some v ∧
      firstLabel args ⟨stack, false, false, set_disk_size geometry blocks⟩ s
        = some (v, { s with pos := n }) := by
  unfold startVars firstLabel
  dsimp only
  rw [if_neg hne]
  by_cases hz : args.head? = some (ascii "zero")
  · rw [if_pos hz, if_pos hz]
    exact Or.inr ⟨_, s.pos, rfl, rfl⟩
  rw [if_neg hz, if_neg hz]
  by_cases hmagic : d_magic (labelOf stack s.bytes) = DISKLABELMAGIC ∧
      d_magic2 (labelOf stack s.bytes) = DISKLABELMAGIC
  · rw [if_pos hmagic, bind_run (read_disklabel_run hmagic)]
    exact Or.inr ⟨_, 340, rfl, rfl⟩
  · rw [if_neg hmagic]
    refine Or.inl ⟨rfl, ?_⟩
    cases hr : read_disklabel stack s with
    | none =>
      rw [bind_eq, hr]
      rfl
    | some r => exact absurd (read_disklabel_some (show _ = some (r.1, r.2) from hr)) hmagic

/-- what is done when the loop has ended -/
def afterLoop : Exit Vars × Device → Exit Vars × Device
  | (.ok v, t) => finish v t
  | (.error, t) => (.error, t)
  | (.null, t) => (.null, t)

section
variable {stack disk : Mem} {geometry : Option (Nat × Nat × Nat)} {blocks : Option Nat}
  {args : List (List UInt8)}

/-- without a label the program ends at once -/
theorem mainExit_none (h : startVars stack geometry blocks args disk = none) :
    mainExit stack geometry blocks args (Device.opened disk) = (.error, Device.opened disk) := by
  unfold mainExit
  by_cases hne : args = []
  · rw [if_pos hne]
  · rw [if_neg hne]
    rcases firstLabel_run stack geometry blocks hne (Device.opened disk) with ⟨-, hf⟩ | ⟨v, n, hs, -⟩
    · simp only [hf]
    · rw [show startVars stack geometry blocks args (Device.opened disk).bytes = none from h] at hs
      cases hs

theorem mainExit_some {v : Vars} (h : startVars stack geometry blocks args disk = some v) :
    ∃ n, mainExit stack geometry blocks args (Device.opened disk)
      = afterLoop (commandsExit args.length args v { Device.opened disk with pos := n }) := by
  have hne : args ≠ [] := by
    rintro rfl
    cases h
  rcases firstLabel_run stack geometry blocks hne (Device.opened disk) with ⟨hs, -⟩ | ⟨w, n, hs, hf⟩
  · rw [show startVars stack geometry blocks args (Device.opened disk).bytes = some v from h] at hs
    cases hs
  · rw [show startVars stack geometry blocks args (Device.opened disk).bytes = some v from h] at hs
    obtain rfl := Option.some.inj hs
    refine ⟨n, ?_⟩
    unfold mainExit
    rw [if_neg hne]
    simp only [hf]
    generalize commandsExit args.length args v { Device.opened disk with pos := n } = r
    obtain ⟨e, t⟩ := r
    cases e with
    | ok v => rfl
    | error => rfl
    | null => rfl

/-- an end at an argument that is no command -/
theorem AllOrNothing.of_stuck {m : Mem} {l : Option Mem} {t : Device} {rest : List (List UInt8)}
    (hrest : rest ≠ []) (hbytes : t.bytes = afterSum m l) (hl : ∀ d, l = some d → labelSum m d = m.get 504 8) :
    AllOrNothing m (afterLoop (if rest = [] then .null else .error, t)) := by
  rw [if_neg hrest]
  refine ⟨fun h => (by cases h), fun _ k hk => ?_, fun v h => (by cases h)⟩
  show t.bytes k = m k
  rw [hbytes]
  exact afterSum_same.mpr hl k hk

/-- where the program is all or nothing its arguments are clean -/
theorem AllOrNothing.clean {stack disk : Mem} {geometry : Option (Nat × Nat × Nat)} {blocks : Option Nat}
    {args : List (List UInt8)} {v : Vars} (hstart : startVars stack geometry blocks args disk = some v)
    (h : AllOrNothing disk (mainExit stack geometry blocks args (Device.opened disk))) :
    Clean disk args v := by
  obtain ⟨n, hmain⟩ := mainExit_some hstart
  rw [hmain] at h
  intro args' w l hreach hne hround
  obtain ⟨fuel, s, hfuel, hbytes, heq⟩ := commandsExit_reach
    (show ({ Device.opened disk with pos := n } : Device).bytes = disk from rfl) hreach
  have hpos := List.length_pos_iff.mpr hne
  obtain ⟨k, rfl⟩ : ∃ k, fuel = k + 1 := ⟨fuel - 1, by omega⟩
  rw [heq, commandsExit_stuck hne hround] at h
  have hrest : (sizeOption args' w).1 ≠ [] := by
    intro he
    rw [if_pos he] at h
    exact h.not_null rfl
  rw [if_neg hrest] at h
  refine ⟨hrest, afterSum_same.mp fun k hk => ?_⟩
  rw [← hbytes]
  exact h.error rfl k hk

/-- **all or nothing.**  The program follows no null pointer, leaves sector 0 as it was when it exits
with an error, and otherwise changes only the label and the sum there, exactly if its arguments are
clean. -/
theorem all_or_nothing_iff (stack disk : Mem) (geometry : Option (Nat × Nat × Nat))
    (blocks : Option Nat) (args : List (List UInt8)) :
    AllOrNothing disk (mainExit stack geometry blocks args (Device.opened disk)) ↔
      ∀ v, startVars stack geometry blocks args disk = some v → Clean disk args v := by
  cases hstart : startVars stack geometry blocks args disk with
  | none =>
    rw [mainExit_none hstart]
    refine iff_of_true ⟨fun h => (by cases h), fun _ k hk => rfl, fun v h => (by cases h)⟩ ?_
    intro v h
    cases h
  | some v =>
    constructor
    · intro h v' hv'
      obtain rfl := Option.some.inj hv'
      exact h.clean hstart
    · intro h
      obtain ⟨n, hmain⟩ := mainExit_some hstart
      rw [hmain]
      have hclean := h v rfl
      obtain ⟨args', w, l, t, hreach, hbytes, hend⟩ := commandsExit_end (Nat.le_refl args.length)
        Reach.start (show ({ Device.opened disk with pos := n } : Device).bytes = afterSum disk none from rfl)
      rcases hend with ⟨-, heq⟩ | ⟨hne, hround, heq⟩
      · obtain ⟨u, hfin, hu⟩ := finish_run w hbytes
        rw [heq]
        show AllOrNothing disk (finish w t)
        rw [hfin]
        exact ⟨fun h => (by cases h), fun h => (by cases h), fun _ _ => hu⟩
      · obtain ⟨hrest, hl⟩ := hclean args' w l hreach hne hround
        rw [heq]
        exact AllOrNothing.of_stuck hrest hbytes hl

end

/-! ## the two ways to fail -/

theorem foldl_low (m : Mem) (xs : List Nat) (a b : Nat) (h : a % 256 = b % 256) :
    xs.foldl (fun sum x => (sum + word m x) % 2 ^ 64) a % 256
      = xs.foldl (fun sum x => sum + (m (8 * x)).toNat) b % 256 := by
  induction xs generalizing a b with
  | nil => exact h
  | cons x xs ih =>
    have hword : word m x = (m (8 * x)).toNat + 256 * m.le (8 * x + 1) 7 := rfl
    rw [List.foldl_cons, List.foldl_cons]
    apply ih
    rw [hword]
    omega

/-- the low byte of the sum is made of the low bytes of the words -/
theorem checksum_low (m : Mem) :
    checksum m % 256 = (List.range 63).foldl (fun sum x => sum + (m (8 * x)).toNat) 0 % 256 :=
  foldl_low m _ 0 0 rfl

theorem labelSum_low {m d : Mem} {a : Nat} (h : labelSum m d = m.get a 8) :
    (List.range 63).foldl (fun sum x => sum + ((sectorOf (m.get 0 512)).put LABELOFFSET
      (d.get 0 sizeof_disklabel) (8 * x)).toNat) 0 % 256 = (m a).toNat := by
  have hlow : UInt8.ofNat (checksum ((sectorOf (m.get 0 512)).put LABELOFFSET (d.get 0 sizeof_disklabel)))
      = m a := (List.cons.inj h).1
  rw [← checksum_low, ← hlow, UInt8.toNat_ofNat']

/-- the rounds of `zero` and `sum` -/
theorem reach_sum (a : List UInt8) (v : Vars) : Reach [ascii "zero", ascii "sum", a] v [a] (zero_disklabel v)
    (some (zero_disklabel v).d) := by
  have hzero : round [ascii "zero", ascii "sum", a] v = some ⟨[ascii "sum", a], zero_disklabel v, false⟩ := rfl
  have hsum : round [ascii "sum", a] (zero_disklabel v) = some ⟨[a], zero_disklabel v, true⟩ := rfl
  exact (Reach.start.next (List.cons_ne_nil _ _) hzero).next (List.cons_ne_nil _ _) hsum

/-- `size` at the end: the null pointer behind the arguments is followed; `sum` and an argument that is
no command: the sum of sector 0 has changed -/
theorem not_all_or_nothing :
    ¬ AllOrNothing (fun _ => 0) (mainExit (fun _ => 0) none none
      [ascii "zero", ascii "size", ascii "5"] (Device.opened fun _ => 0)) ∧
    ¬ AllOrNothing (fun _ => 0) (mainExit (fun _ => 0) none none
      [ascii "zero", ascii "sum", ascii "x"] (Device.opened fun _ => 0)) := by
  constructor
  · intro h
    exact h.not_null rfl
  · intro h
    have hround : ∀ v, round [ascii "x"] v = none := fun v => rfl
    have hstart : startVars (fun _ => 0) none none [ascii "zero", ascii "sum", ascii "x"] (fun _ => 0)
        = some (zero_disklabel ⟨fun _ => 0, false, false, set_disk_size none none⟩) := rfl
    have hsum := (h.clean hstart _ _ _ (reach_sum _ _) (List.cons_ne_nil _ _) (hround _)).2 _ rfl
    have hlow := labelSum_low hsum
    revert hlow
    decide +kernel

end Disklabel
