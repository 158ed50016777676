import Aboot.Options.Impl

/-!
# What is booted

The boot line, from what was typed: `bootLine`.  The loop keeps, from round to round, which file
system and which preset belong to the lines typed so far (`Round`), and what `extra_args` points at
(`Args`): the extra arguments of the flags until a preset is typed with its own, and then
`kernel_args` itself, which the next prompt clears.

* `command_args`, `command_round`   one line;
* `optionLoop_chosen`   the loop ends with the chosen text;
* `boot_line_iff`       when the boot line is what ends up in `boot_file` and `kernel_args`;
* `flags_in_args`       the flags end up in `kernel_args`.
-/

set_option linter.unusedVariables false

namespace Options
open CString

/-! ## the boot line -/

/-- the extra arguments given with a preset in the flags -/
def flagExtra (v : Vars) : Option (List UInt8) := (parseFlags v).extra_args.map v.args

/-- the extra arguments given with a preset on a line -/
def ownExtra (line : List UInt8) : Option (List UInt8) :=
  match line.head? with
  | some c => if digit c then after line else none
  | none => none

/-- a preset of the configuration file on a partition -/
def presetText (D : Disk) (part : Int) (c : UInt8) : Option (List UInt8) :=
  match D part with
  | some fs => get_default_args fs c
  | none => none

/-- the partition after a line -/
def partLine (part : Int) (line : List UInt8) : Int :=
  if line.head? = some 'p'.toUInt8 then (partArg line).getD part else part

/-- the partition that the lines select -/
def partAfter (v : Vars) (typed : List (List UInt8)) : Int :=
  typed.foldl partLine (parseFlags v).config_file_partition

/-- the preset that a line asks for, 0 for none -/
def presetLine (line : List UInt8) : UInt8 :=
  match line.head? with
  | some c => if digit c then c else 0
  | none => 0

/-- the preset that is asked for last -/
def presetOf (v : Vars) (typed : List (List UInt8)) : UInt8 :=
  match typed.getLast? with
  | none => (parseFlags v).preset
  | some line => presetLine line

/-- the text typed after `b`, or the text of the preset -/
def chosenText (D : Disk) (v : Vars) (typed : List (List UInt8)) : Option (List UInt8) :=
  match typed.getLast? with
  | some line =>
    if line.head? = some 'b'.toUInt8 then after line
    else presetText D (partAfter v typed) (presetOf v typed)
  | none => presetText D (partAfter v typed) (presetOf v typed)

/-- the extra arguments given together with the choice -/
def given (v : Vars) (typed : List (List UInt8)) : Option (List UInt8) :=
  match typed.getLast? with
  | none => flagExtra v
  | some line => ownExtra line

/-- a text, and a blank and the extra arguments if there are any -/
def joinExtra (text : List UInt8) (extra : Option (List UInt8)) : List UInt8 :=
  match extra with
  | none => text
  | some e => text ++ blank :: e

/-- the boot line: what was chosen, with the arguments given together with it -/
def bootLine (D : Disk) (v : Vars) (typed : List (List UInt8)) : Option (List UInt8) :=
  (chosenText D v typed).map fun text => joinExtra text (given v typed)

/-- `boot_file` is the line up to its first blank and `kernel_args` the rest without leading
blanks -/
def Exact (line : List UInt8) (w : Vars) : Prop :=
  w.boot_file = word line ∧ w.args 0 = (after line).getD []

instance (line : List UInt8) (w : Vars) : Decidable (Exact line w) :=
  inferInstanceAs (Decidable (_ ∧ _))

/-- extra arguments were typed with a preset -/
def Typed (lines : List (List UInt8)) : Prop := ∃ l ∈ lines, (ownExtra l).isSome = true

instance (lines : List (List UInt8)) : Decidable (Typed lines) :=
  inferInstanceAs (Decidable (∃ l ∈ lines, _))

/-- nothing but the boot line is left for `kernel_args`: a choice by the flags brings a blank with
it; a choice at the prompt has extra arguments of its own, or none were given before (those typed
before it are cleared and leave a blank, which only a line with arguments shows) -/
def Clean (v : Vars) (typed : List (List UInt8)) (line : List UInt8) : Prop :=
  match typed.getLast? with
  | none => blank ∈ line
  | some l => (ownExtra l).isSome = true ∨
      if Typed typed.dropLast then (after line).getD [] = [] else flagExtra v = none

instance (v : Vars) (typed : List (List UInt8)) (line : List UInt8) :
    Decidable (Clean v typed line) := by
  unfold Clean
  cases typed.getLast? with
  | none => exact inferInstanceAs (Decidable (_ ∈ _))
  | some l => exact inferInstanceAs (Decidable (_ ∨ _))

/-! ## the configuration file -/

theorem confChar_str {num c : UInt8} {s : Conf} (hc : c ≠ 0) (h : 0 ∉ s.str) :
    0 ∉ (confChar num c s).str := by
  unfold confChar
  repeat' split
  all_goals first
    | exact h
    | simp only [List.mem_append, List.mem_singleton, not_or]
      exact ⟨h, hc.symm⟩

theorem confBlock_str (num : UInt8) (b : List UInt8) :
    ∀ s : Conf, 0 ∉ s.str → 0 ∉ (confBlock num b s).str := by
  induction b with
  | nil => intro s h; exact h
  | cons c cs ih =>
    intro s h
    unfold confBlock
    split
    · exact h
    · rename_i hc
      exact ih _ (confChar_str (fun h => hc (Or.inl h)) h)

theorem confBlocks_str {num : UInt8} (bs : List (List UInt8)) :
    ∀ s : Conf, 0 ∉ s.str → 0 ∉ (confBlocks num bs s).str := by
  induction bs with
  | nil => intro s h; exact h
  | cons b bs ih =>
    intro s h
    have hb := confBlock_str num b s h
    unfold confBlocks
    split
    · exact hb
    · exact ih _ hb

theorem get_default_args_str {fs : Config} {num : UInt8} {text : List UInt8}
    (h : get_default_args fs num = some text) : 0 ∉ text := by
  unfold get_default_args at h
  split at h
  · cases h
  · split at h
    · rw [← Option.some.inj h]
      exact confBlocks_str _ _ (by simp)
    · cases h

/-! ## rounds -/

/-- the file system and the preset after the lines `typed` -/
structure Round (D : Disk) (v : Vars) (typed : List (List UInt8)) (s : Opts) : Prop where
  part : s.config_file_partition = partAfter v typed
  fs : s.fs = none ∨ s.fs = D s.config_file_partition
  preset : s.preset = presetOf v typed

/-- `kernel_args` and `extra_args` after the lines `typed` -/
structure Args (v : Vars) (typed : List (List UInt8)) (s : Opts) : Prop where
  start : typed = [] → s.kernel_args = v.kernel_args ∧ s.extra_args = (parseFlags v).extra_args
  flags : typed ≠ [] → ¬ Typed typed →
    s.kernel_args = v.kernel_args.put 0 [0] ∧ s.extra_args = (parseFlags v).extra_args
  typed : Typed typed → s.extra_args = some 0 ∧ s.args 0 = ((given v typed).getD [])

theorem parseFlags_args (v : Vars) : (parseFlags v).kernel_args = v.kernel_args := by
  unfold parseFlags
  simp only
  repeat' split
  all_goals rfl

theorem parseFlags_fs (v : Vars) : (parseFlags v).fs = none := by
  unfold parseFlags
  simp only
  repeat' split
  all_goals rfl

theorem args_start (v : Vars) : Args v [] (parseFlags v) :=
  ⟨fun _ => ⟨parseFlags_args v, rfl⟩, fun h => absurd rfl h, fun ⟨l, h, _⟩ => nomatch h⟩

theorem round_start (D : Disk) (v : Vars) : Round D v [] (parseFlags v) :=
  ⟨rfl, Or.inl (parseFlags_fs v), rfl⟩

/-! ## one line -/

/-- what a line that does not end the loop changes -/
structure Next (D : Disk) (line : List UInt8) (s t : Opts) : Prop where
  part : t.config_file_partition = partLine s.config_file_partition line
  fs : s.fs = none ∨ s.fs = D s.config_file_partition →
    t.fs = none ∨ t.fs = D t.config_file_partition
  preset : s.preset = 0 → t.preset = presetLine line
  kept : ownExtra line = none → t.kernel_args = s.kernel_args ∧ t.extra_args = s.extra_args
  own : ∀ p, ownExtra line = some p →
    t.kernel_args = strcpy s.kernel_args 0 p ∧ t.extra_args = some 0

theorem mountConf_fs {D : Disk} {s : Opts} (h : s.fs = none ∨ s.fs = D s.config_file_partition) :
    (mountConf D s).fs = D s.config_file_partition := by
  unfold mountConf
  split
  · rename_i fs he
    exact h.resolve_left (by rw [he]; simp)
  · rfl

theorem mountConf_same (D : Disk) (s : Opts) :
    (mountConf D s).config_file_partition = s.config_file_partition ∧
      (mountConf D s).preset = s.preset ∧ (mountConf D s).kernel_args = s.kernel_args ∧
      (mountConf D s).extra_args = s.extra_args := by
  unfold mountConf
  split <;> exact ⟨rfl, rfl, rfl, rfl⟩

/-- a line that is no preset and selects no partition -/
theorem Next.of_plain {D : Disk} {line : List UInt8} {s t : Opts} {c : UInt8}
    (hc : line.head? = some c) (hd : digit c = false) (hp : c ≠ 'p'.toUInt8)
    (h1 : t.config_file_partition = s.config_file_partition) (h2 : t.preset = s.preset)
    (h3 : t.kernel_args = s.kernel_args) (h4 : t.extra_args = s.extra_args)
    (h5 : s.fs = none ∨ s.fs = D s.config_file_partition →
      t.fs = none ∨ t.fs = D s.config_file_partition) : Next D line s t where
  part := by rw [h1, partLine, hc, if_neg (fun h => hp (Option.some.inj h))]
  fs := by rw [h1]; exact h5
  preset h0 := by simp only [h2, h0, presetLine, hc, hd, Bool.false_eq_true, if_false]
  kept _ := ⟨h3, h4⟩
  own p h := by simp only [ownExtra, hc, hd, Bool.false_eq_true, if_false, reduceCtorEq] at h

/-- a line that selects a partition, or none -/
theorem Next.of_part {D : Disk} {line : List UInt8} {s : Opts} (hc : line.head? = some 'p'.toUInt8) :
    Next D line s (match partArg line with
      | some n => { s with config_file_partition := n, fs := none }
      | none => s) := by
  have hd : digit 'p'.toUInt8 = false := by decide
  have hpart : ∀ n, partLine n line = (partArg line).getD n := fun n => by rw [partLine, if_pos hc]
  have hpre : presetLine line = 0 := by simp [presetLine, hc, hd]
  have hown : ownExtra line = none := by simp [ownExtra, hc, hd]
  cases ha : partArg line with
  | some n =>
    refine ⟨by rw [hpart, ha]; rfl, fun _ => Or.inl rfl, fun h0 => h0.trans hpre.symm, fun _ => ⟨rfl, rfl⟩,
      fun p hp => ?_⟩
    rw [hown] at hp
    cases hp
  | none =>
    refine ⟨by rw [hpart, ha]; rfl, id, fun h0 => h0.trans hpre.symm, fun _ => ⟨rfl, rfl⟩, fun p hp => ?_⟩
    rw [hown] at hp
    cases hp

/-- a line that selects a preset, with arguments of its own or without -/
theorem Next.of_preset {D : Disk} {line : List UInt8} {s : Opts} {c : UInt8} (hc : line.head? = some c)
    (hd : digit c = true) (hp : c ≠ 'p'.toUInt8) :
    Next D line s (match after line with
      | some p => { s with preset := c, kernel_args := strcpy s.kernel_args 0 p, extra_args := some 0 }
      | none => { s with preset := c }) := by
  have hown : ownExtra line = after line := by simp [ownExtra, hc, hd]
  have hpre : presetLine line = c := by simp [presetLine, hc, hd]
  have hpart : ∀ n, partLine n line = n := fun n => by
    rw [partLine, hc, if_neg (fun h => hp (Option.some.inj h))]
  cases ha : after line with
  | some p =>
    refine ⟨(hpart _).symm, id, fun _ => hpre.symm, fun hn => ?_, fun q hq => ?_⟩
    · rw [hown, ha] at hn
      cases hn
    · rw [hown, ha] at hq
      rw [← Option.some.inj hq]
      exact ⟨rfl, rfl⟩
  | none =>
    refine ⟨(hpart _).symm, id, fun _ => hpre.symm, fun _ => ⟨rfl, rfl⟩, fun q hq => ?_⟩
    rw [hown, ha] at hq
    cases hq

theorem command_next {D : Disk} {line : List UInt8} {s t : Opts}
    (h : command D line s = .next t) : Next D line s t := by
  unfold command at h
  cases hc : line.head? with
  | none =>
    simp only [hc, Cmd.next.injEq] at h
    subst h
    refine ⟨by simp [partLine, hc], id, fun h0 => by simp [presetLine, hc, h0], fun _ => ⟨rfl, rfl⟩,
      fun p hp => by simp [ownExtra, hc] at hp⟩
  | some c =>
    simp only [hc] at h
    by_cases hq : c = 'q'.toUInt8
    · rw [if_pos hq] at h; cases h
    rw [if_neg hq] at h
    by_cases hp : c = 'p'.toUInt8
    · have hnext := Next.of_part (D := D) (s := s) (hc.trans (congrArg some hp))
      rw [if_pos hp] at h
      cases ha : partArg line <;>
      · simp only [ha, Cmd.next.injEq] at h hnext
        subst h
        exact hnext
    rw [if_neg hp] at h
    by_cases hl : c = 'l'.toUInt8 ∨ c = 'd'.toUInt8
    · have hd : digit c = false := by rcases hl with h | h <;> rw [h] <;> decide
      rw [if_pos hl] at h
      simp only [Cmd.next.injEq] at h
      subst h
      obtain ⟨m1, m2, m3, m4⟩ := mountConf_same D s
      exact Next.of_plain hc hd hp m1 m2 m3 m4 fun hf => Or.inr (mountConf_fs hf)
    rw [if_neg hl] at h
    by_cases hb : c = 'b'.toUInt8
    · have hd : digit c = false := by rw [hb]; decide
      rw [if_pos hb] at h
      cases ha : after line with
      | some p => simp only [ha, reduceCtorEq] at h
      | none =>
        simp only [ha, Cmd.next.injEq] at h
        subst h
        exact Next.of_plain hc hd hp rfl rfl rfl rfl id
    rw [if_neg hb] at h
    by_cases hi : c = 'i'.toUInt8
    · have hd : digit c = false := by rw [hi]; decide
      rw [if_pos hi] at h
      cases ha : after line <;>
      · simp only [ha, Cmd.next.injEq] at h
        subst h
        exact Next.of_plain hc hd hp rfl rfl rfl rfl id
    rw [if_neg hi] at h
    by_cases hd : digit c = true
    · have hnext := Next.of_preset (D := D) (s := s) hc hd hp
      rw [if_pos hd] at h
      cases ha : after line <;>
      · simp only [ha, Cmd.next.injEq] at h hnext
        subst h
        exact hnext
    · rw [if_neg hd] at h
      simp only [Cmd.next.injEq] at h
      subst h
      exact Next.of_plain hc (by simpa using hd) hp rfl rfl rfl rfl id

theorem command_boot {D : Disk} {line buf : List UInt8} {s t : Opts}
    (h : command D line s = .boot buf t) :
    line.head? = some 'b'.toUInt8 ∧ after line = some buf ∧ t = s := by
  unfold command at h
  split at h
  · cases h
  · rename_i c hc
    by_cases hb : c = 'b'.toUInt8
    · subst hb
      have h1 : ¬ ('b'.toUInt8 = 'q'.toUInt8) := by decide
      have h2 : ¬ ('b'.toUInt8 = 'p'.toUInt8) := by decide
      have h3 : ¬ ('b'.toUInt8 = 'l'.toUInt8 ∨ 'b'.toUInt8 = 'd'.toUInt8) := by decide
      rw [if_neg h1, if_neg h2, if_neg h3, if_pos rfl] at h
      split at h
      · rename_i p ha
        simp only [Cmd.boot.injEq] at h
        exact ⟨hc, by rw [ha, h.1], h.2.symm⟩
      · cases h
    · repeat' split at h
      all_goals cases h

theorem typed_concat {pre : List (List UInt8)} {line : List UInt8} :
    Typed (pre ++ [line]) ↔ Typed pre ∨ (ownExtra line).isSome = true := by
  simp only [Typed, List.mem_append, List.mem_singleton, or_and_right, exists_or, exists_eq_left]

theorem given_concat (v : Vars) (pre : List (List UInt8)) (line : List UInt8) :
    given v (pre ++ [line]) = ownExtra line := by
  simp [given]

theorem put_put_self (m : Mem) : (m.put 0 [0]).put 0 [0] = m.put 0 [0] := by
  funext x
  cases x with
  | zero => rfl
  | succ x =>
    rw [Mem.put_out _ _ _ _ (Or.inr (by simp))]

/-- the prompt clears `kernel_args`; a line without extra arguments leaves it so -/
theorem args_cleared {v : Vars} {pre : List (List UInt8)} {line : List UInt8} {s t : Opts}
    (h : Args v pre s) (ho : ownExtra line = none)
    (h1 : t.kernel_args = (clearArgs s).kernel_args) (h2 : t.extra_args = s.extra_args) :
    Args v (pre ++ [line]) t := by
  constructor
  · intro he
    simp at he
  · intro _ ht
    have hpre : ¬ Typed pre := fun hp => ht (typed_concat.mpr (Or.inl hp))
    rw [h1, h2]
    by_cases he : pre = []
    · obtain ⟨a1, a2⟩ := h.start he
      exact ⟨by rw [← a1]; rfl, a2⟩
    · obtain ⟨a1, a2⟩ := h.flags he hpre
      refine ⟨?_, a2⟩
      show s.kernel_args.put 0 [0] = _
      rw [a1, put_put_self]
  · intro ht
    have hpre : Typed pre := by
      rcases typed_concat.mp ht with hp | hp
      · exact hp
      · rw [ho] at hp; cases hp
    rw [given_concat, ho, h2]
    refine ⟨(h.typed hpre).1, ?_⟩
    show str SIZE t.kernel_args 0 = []
    rw [h1]
    exact str_nil rfl

theorem args_next {D : Disk} {v : Vars} {pre : List (List UInt8)} {line : List UInt8} {s t : Opts}
    (hlen : line.length < SIZE) (hz : 0 ∉ line) (h : Args v pre s)
    (hn : Next D line (clearArgs s) t) : Args v (pre ++ [line]) t := by
  cases ho : ownExtra line with
  | none => exact args_cleared h ho (hn.kept ho).1 (hn.kept ho).2
  | some p =>
    obtain ⟨h1, h2⟩ := hn.own p ho
    have ha : after line = some p := by
      unfold ownExtra at ho
      split at ho
      · split at ho
        · exact ho
        · cases ho
      · cases ho
    refine ⟨fun he => by simp at he, fun _ ht => ?_, fun _ => ⟨h2, ?_⟩⟩
    · exact absurd (typed_concat.mpr (Or.inr (by rw [ho]; rfl))) ht
    · show str SIZE t.kernel_args 0 = _
      rw [h1, given_concat, ho, str_strcpy (lt_of_le_of_lt (length_after_le ha) hlen)
        (fun hm => hz (mem_of_mem_after ha hm))]
      rfl

/-! ## the loop -/

theorem tryPreset_none {D : Disk} {v : Vars} {typed : List (List UInt8)} {s t : Opts}
    (hr : Round D v typed s) (h : tryPreset D s = (none, t)) :
    t.config_file_partition = partAfter v typed ∧ t.preset = 0 ∧
      (t.fs = none ∨ t.fs = D t.config_file_partition) ∧ t.kernel_args = s.kernel_args ∧
      t.extra_args = s.extra_args := by
  obtain ⟨m1, m2, m3, m4⟩ := mountConf_same D s
  have hfs : (mountConf D s).fs = D (mountConf D s).config_file_partition := by
    rw [m1]; exact mountConf_fs hr.fs
  unfold tryPreset at h
  split at h
  · rename_i h0
    obtain rfl := (Prod.mk.inj h).2
    exact ⟨hr.part, h0, hr.fs, rfl, rfl⟩
  · repeat' split at h
    · obtain rfl := (Prod.mk.inj h).2
      exact ⟨m1.trans hr.part, rfl, Or.inr hfs, m3, m4⟩
    · cases h
    · obtain rfl := (Prod.mk.inj h).2
      exact ⟨m1.trans hr.part, rfl, Or.inr hfs, m3, m4⟩

theorem tryPreset_some {D : Disk} {v : Vars} {typed : List (List UInt8)} {s t : Opts}
    {text : List UInt8} (hr : Round D v typed s) (h : tryPreset D s = (some text, t)) :
    presetText D (partAfter v typed) (presetOf v typed) = some text ∧ presetOf v typed ≠ 0 ∧
      t.kernel_args = s.kernel_args ∧ t.extra_args = s.extra_args := by
  obtain ⟨m1, m2, m3, m4⟩ := mountConf_same D s
  have hfs := mountConf_fs hr.fs
  unfold tryPreset at h
  split at h
  · cases h
  · rename_i h0
    rw [hfs, hr.part] at h
    split at h
    · cases h
    · rename_i fs he
      split at h
      · rename_i text' ht
        obtain ⟨h1, rfl⟩ := Prod.mk.inj h
        rw [hr.preset] at ht h0
        refine ⟨?_, h0, m3, m4⟩
        rw [presetText, he]
        exact ht.trans h1
      · cases h

/-- the preset of a line is the chosen text -/
theorem chosenText_preset {D : Disk} {v : Vars} {typed : List (List UInt8)} {text : List UInt8}
    (h : presetText D (partAfter v typed) (presetOf v typed) = some text)
    (h0 : presetOf v typed ≠ 0) : chosenText D v typed = some text := by
  unfold chosenText
  split
  · rename_i line hl
    rw [if_neg ?_, h]
    intro hb
    apply h0
    simp only [presetOf, hl, presetLine, hb]
    decide
  · exact h

theorem presetText_str {D : Disk} {n : Int} {c : UInt8} {text : List UInt8}
    (h : presetText D n c = some text) : 0 ∉ text := by
  unfold presetText at h
  split at h
  · exact get_default_args_str h
  · cases h

/-- what is known when the loop has ended -/
structure Ended (D : Disk) (v : Vars) (typed : List (List UInt8)) (buf : List UInt8) (s : Opts) :
    Prop where
  chosen : chosenText D v typed = some buf
  nonzero : 0 ∉ buf
  args : Args v typed s
  preset : typed = [] → (parseFlags v).preset ≠ 0

theorem ended_preset {D : Disk} {v : Vars} {typed : List (List UInt8)} {s t : Opts}
    {text : List UInt8} (hr : Round D v typed s) (ha : Args v typed s)
    (h : tryPreset D s = (some text, t)) : Ended D v typed text t := by
  obtain ⟨h1, h0, h2, h3⟩ := tryPreset_some hr h
  refine ⟨chosenText_preset h1 h0, presetText_str h1, ?_, fun he => ?_⟩
  · constructor
    · rw [h2, h3]; exact ha.start
    · rw [h2, h3]; exact ha.flags
    · have : t.args 0 = s.args 0 := by rw [Vars.args, Vars.args, h2]
      rw [h3, this]; exact ha.typed
  · subst he
    exact h0

/-- the loop ends with the chosen text -/
theorem optionLoop_chosen {D : Disk} {v : Vars} {buf : List UInt8} {t : Opts}
    (lines : List (List UInt8)) :
    ∀ (pre : List (List UInt8)) (s : Opts), Round D v pre s → Args v pre s →
      (∀ l ∈ lines, l.length < SIZE ∧ 0 ∉ l) → optionLoop D lines s = .done buf t [] →
      Ended D v (pre ++ lines) buf t := by
  induction lines with
  | nil =>
    intro pre s hr ha _ h
    unfold optionLoop at h
    split at h
    · rename_i text s₁ hp
      simp only [Outcome.done.injEq, and_true] at h
      rw [List.append_nil, ← h.1, ← h.2]
      exact ended_preset hr ha hp
    · cases h
  | cons line lines ih =>
    intro pre s hr ha hl h
    obtain ⟨hlen, hz⟩ := hl line List.mem_cons_self
    unfold optionLoop at h
    split at h
    · simp at h
    · rename_i s₁ hp
      obtain ⟨p1, p2, p3, p4, p5⟩ := tryPreset_none hr hp
      have ha₁ : Args v pre s₁ := by
        constructor
        · rw [p4, p5]; exact ha.start
        · rw [p4, p5]; exact ha.flags
        · have : s₁.args 0 = s.args 0 := by rw [Vars.args, Vars.args, p4]
          rw [p5, this]; exact ha.typed
      split at h
      · cases h
      · rename_i buf' s₂ hc
        obtain ⟨hb, haf, rfl⟩ := command_boot hc
        simp only [Outcome.done.injEq] at h
        obtain ⟨rfl, rfl, rfl⟩ := h
        refine ⟨?_, fun hm => hz (mem_of_mem_after haf hm), ?_, fun he => by simp at he⟩
        · simp [chosenText, hb, haf]
        · refine args_cleared ha₁ ?_ rfl rfl
          simp only [ownExtra, hb]
          rfl
      · rename_i s₂ hc
        have hn := command_next hc
        have hr₂ : Round D v (pre ++ [line]) s₂ := by
          constructor
          · rw [hn.part, partAfter, List.foldl_append, List.foldl_cons, List.foldl_nil,
              ← partAfter, ← p1]
            rfl
          · exact hn.fs p3
          · rw [hn.preset p2, presetOf, List.getLast?_concat]
        have := ih (pre ++ [line]) s₂ hr₂ (args_next hlen hz ha₁ hn)
          (fun l h => hl l (List.mem_cons_of_mem _ h)) h
        rwa [List.append_assoc, List.singleton_append] at this

/-! ## the end -/

theorem extraAt_spec {v : Vars} {a b : Nat} (h : extraAt v a = some b) :
    a ≤ b ∧ v.args b ≠ [] ∧ (v.args b).dropWhile (· = blank) = v.args b := by
  unfold extraAt at h
  split at h
  · cases h
  · rename_i hne
    rw [← Option.some.inj h]
    refine ⟨Nat.le_add_right _ _, ?_⟩
    obtain ⟨hz, hc⟩ := str_skip hne
    obtain ⟨e, he⟩ := str_cons 255 hz
    have he' : v.args (a + ((v.args a).takeWhile (· = blank)).length) = _ := he
    rw [he']
    refine ⟨by simp, ?_⟩
    rw [List.dropWhile_cons_of_neg (by simpa using hc)]

theorem flags_extra {v : Vars} {a : Nat} (h : (parseFlags v).extra_args = some a) :
    1 ≤ a ∧ v.args a ≠ [] ∧ (v.args a).dropWhile (· = blank) = v.args a := by
  unfold parseFlags at h
  simp only at h
  repeat' split at h
  all_goals first
    | cases h
    | obtain ⟨h1, h2⟩ := extraAt_spec h
      exact ⟨by omega, h2⟩

theorem flags_nonempty {v : Vars} (h : (parseFlags v).preset ≠ 0) : v.args 0 ≠ [] := by
  have h0 : v.kernel_args 0 ≠ 0 := by
    unfold parseFlags at h
    simp only at h
    split at h
    · rename_i hc
      intro hz
      rw [hz] at hc
      exact absurd hc.1 (by decide)
    · split at h
      · rename_i hc
        exact hc.1
      · exact absurd rfl h
  obtain ⟨e, he⟩ := str_cons 255 h0
  rw [Vars.args, he]
  simp

/-- a line that is split -/
theorem splitLine_spec {buf : List UInt8} {v : Vars} (hz : 0 ∉ buf) (hlen : buf.length < SIZE) :
    (splitLine buf v).boot_file = word buf ∧
      (splitLine buf v).args 0 = (after buf).getD (v.args 0) := by
  unfold splitLine
  cases ha : after buf with
  | some p =>
    have hs := str_strcpy (m := v.kernel_args) (a := 0)
      (lt_of_le_of_lt (length_after_le ha) hlen) fun h => hz (mem_of_mem_after ha h)
    exact ⟨rfl, hs⟩
  | none =>
    refine ⟨?_, rfl⟩
    have hb : blank ∉ buf := by
      intro hm
      rw [after, if_pos hm] at ha
      cases ha
    exact (word_of_not_mem hb).symm

/-- a line that is split as it is -/
theorem exact_self {line : List UInt8} {v : Vars} (hz : 0 ∉ line) (hlen : line.length < SIZE) :
    Exact line (splitLine line v) ↔ blank ∈ line ∨ v.args 0 = [] := by
  obtain ⟨h1, h2⟩ := splitLine_spec (v := v) hz hlen
  rw [Exact, h1, h2]
  by_cases hb : blank ∈ line
  · simp [after, hb]
  · simp [after, hb]

/-- a line that is split with text appended that does not belong to it -/
theorem exact_append {line e : List UInt8} {v : Vars} (hz : 0 ∉ line ++ blank :: e)
    (hlen : (line ++ blank :: e).length < SIZE) (he : e.dropWhile (· = blank) = e) :
    Exact line (splitLine (line ++ blank :: e) v) ↔ e = [] ∧ (after line).getD [] = [] := by
  obtain ⟨h1, h2⟩ := splitLine_spec (v := v) hz hlen
  rw [Exact, h1, h2, word_append_blank, after_append_blank, he]
  rcases after line with _ | p
  · simp
  · rcases p with _ | ⟨x, p⟩
    · simp
    · simp

/-! ## what is appended to `buf` -/

/-- a preset of the flags gets the extra arguments of the flags -/
theorem withExtra_flags {v : Vars} {s : Opts} (ha : Args v [] s) (buf : List UInt8) :
    withExtra buf s = joinExtra buf (flagExtra v) ∧ s.args 0 = v.args 0 := by
  obtain ⟨a1, a2⟩ := ha.start rfl
  have hargs : ∀ a, s.args a = v.args a := fun a => by rw [Vars.args, Vars.args, a1]
  refine ⟨?_, hargs 0⟩
  rw [withExtra, a2, flagExtra]
  cases (parseFlags v).extra_args with
  | none => rfl
  | some a => simp only [Option.map_some, joinExtra, hargs]

/-- at the prompt, the arguments typed with a preset are appended: those of the last line, or
nothing of an earlier one -/
theorem withExtra_typed {v : Vars} {typed : List (List UInt8)} {s : Opts} (ha : Args v typed s)
    (ht : Typed typed) (buf : List UInt8) :
    withExtra buf s = buf ++ blank :: (given v typed).getD [] := by
  obtain ⟨e1, e2⟩ := ha.typed ht
  rw [withExtra, e1]
  simp only
  rw [e2]

/-- otherwise the extra arguments of the flags are, whatever was chosen -/
theorem withExtra_stale {v : Vars} {typed : List (List UInt8)} {s : Opts} (ha : Args v typed s)
    (hne : typed ≠ []) (ht : ¬ Typed typed) (buf : List UInt8) :
    withExtra buf s = joinExtra buf (flagExtra v) ∧ s.args 0 = [] := by
  obtain ⟨e1, e2⟩ := ha.flags hne ht
  refine ⟨?_, by rw [Vars.args, e1]; exact str_nil rfl⟩
  rw [withExtra, e2, flagExtra]
  cases hx : (parseFlags v).extra_args with
  | none => rfl
  | some a =>
    have hsa : s.args a = v.args a := by
      rw [Vars.args, e1]
      exact str_strcpy_out (s := []) (by rw [List.length_nil]; exact (flags_extra hx).1)
    simp only [Option.map_some, joinExtra, hsa]

/-- **When the chosen boot line is what is booted.**  The loop has ended with the boot line `line`;
`boot_file` is its first word and `kernel_args` the rest exactly when nothing else was left over
for `kernel_args`. -/
theorem boot_line_iff (D : Disk) (v : Vars) (typed : List (List UInt8))
    (htyped : ∀ l ∈ typed, l.length < SIZE ∧ 0 ∉ l) (buf : List UInt8) (s : Opts)
    (h : optionLoop D typed (parseFlags v) = .done buf s [])
    (hfit : (withExtra buf s).length < SIZE) :
    ∃ line, bootLine D v typed = some line ∧
      (Exact line (splitLine (withExtra buf s) s.toVars) ↔ Clean v typed line) := by
  have hend := optionLoop_chosen typed [] _ (round_start D v) (args_start v) htyped h
  rw [List.nil_append] at hend
  obtain ⟨hch, hz, ha, hp⟩ := hend
  refine ⟨joinExtra buf (given v typed), by rw [bootLine, hch]; rfl, ?_⟩
  have hz' : 0 ∉ withExtra buf s := by
    unfold withExtra
    split
    · exact hz
    · simp only [List.mem_append, List.mem_cons, not_or]
      exact ⟨hz, by decide, zero_not_mem_str _ _ _⟩
  unfold Clean
  cases hl : typed.getLast? with
  | none =>
    obtain rfl := List.getLast?_eq_none_iff.mp hl
    obtain ⟨hw, h0⟩ := withExtra_flags ha buf
    have hg : given v [] = flagExtra v := rfl
    rw [hg, ← hw, exact_self hz' hfit, h0]
    exact or_iff_left (flags_nonempty (hp rfl))
  | some l =>
    obtain ⟨pre, rfl⟩ := List.getLast?_eq_some_iff.mp hl
    rw [given_concat, List.dropLast_concat]
    simp only
    by_cases hown : (ownExtra l).isSome = true
    · obtain ⟨p, hp⟩ := Option.isSome_iff_exists.mp hown
      have hw := withExtra_typed ha (typed_concat.mpr (Or.inr hown)) buf
      rw [given_concat, hp, Option.getD_some] at hw
      rw [hw] at hz' hfit ⊢
      rw [hp, joinExtra, exact_self hz' hfit]
      simp
    · have hno : ownExtra l = none := by simpa using hown
      have ht : Typed (pre ++ [l]) ↔ Typed pre := by rw [typed_concat, or_iff_left hown]
      rw [or_iff_right hown, hno, joinExtra]
      by_cases hT : Typed pre
      · have hw := withExtra_typed ha (ht.mpr hT) buf
        rw [given_concat, hno, Option.getD_none] at hw
        rw [hw] at hz' hfit ⊢
        rw [if_pos hT, exact_append hz' hfit rfl, eq_self_iff_true, true_and]
      · obtain ⟨hw, h0⟩ := withExtra_stale ha (by simp) (fun h => hT (ht.mp h)) buf
        rw [if_neg hT]
        rw [hw] at hz' hfit ⊢
        cases hx : (parseFlags v).extra_args with
        | none =>
          have hf : flagExtra v = none := by rw [flagExtra, hx, Option.map_none]
          rw [hf, joinExtra] at hz' hfit ⊢
          rw [exact_self hz' hfit, h0]
          simp
        | some a =>
          obtain ⟨-, f2, f3⟩ := flags_extra hx
          have hf : flagExtra v = some (v.args a) := by rw [flagExtra, hx, Option.map_some]
          rw [hf, joinExtra] at hz' hfit ⊢
          rw [exact_append hz' hfit f3]
          simp [f2]

/-! ## the flags -/

/-- the variables with the flags `flags` -/
def withFlags (flags : List UInt8) : Vars :=
  ⟨strcpy (fun _ => 0) 0 flags, [], [], -1, 1⟩

/-- a disk whose first partition has one line in its configuration file: `0:/vmlinux` -/
def oneLine : Disk := fun n =>
  if n = 1 then some (some ["0:/vmlinux\n".toList.map Char.toUInt8]) else none

/-- what the loop leaves -/
def endState (D : Disk) (v : Vars) (typed : List (List UInt8)) : List UInt8 × Opts :=
  match optionLoop D typed (parseFlags v) with
  | .done buf s _ => (buf, s)
  | _ => ([], parseFlags v)

/-- the loop ends with all lines read -/
def endsRead (D : Disk) (v : Vars) (typed : List (List UInt8)) : Bool :=
  match optionLoop D typed (parseFlags v) with
  | .done _ _ [] => true
  | _ => false

theorem endState_eq {D : Disk} {v : Vars} {typed : List (List UInt8)} (h : endsRead D v typed = true) :
    optionLoop D typed (parseFlags v) = .done (endState D v typed).1 (endState D v typed).2 [] := by
  unfold endsRead at h
  unfold endState
  split at h
  · rename_i he
    rw [he]
  · cases h

/-- `b /k a` at the prompt -/
theorem boot_line_prompt :
    bootLine oneLine (withFlags [105]) [[98, 32, 47, 107, 32, 97]] = some [47, 107, 32, 97] ∧
      Exact [47, 107, 32, 97]
        (splitLine (withExtra (endState oneLine (withFlags [105]) [[98, 32, 47, 107, 32, 97]]).1
          (endState oneLine (withFlags [105]) [[98, 32, 47, 107, 32, 97]]).2)
          (endState oneLine (withFlags [105]) [[98, 32, 47, 107, 32, 97]]).2.toVars) := by
  obtain ⟨line, h1, h2⟩ := boot_line_iff oneLine (withFlags [105]) [[98, 32, 47, 107, 32, 97]]
    (by decide) _ _ (endState_eq (by decide +kernel)) (by decide +kernel)
  have h3 : bootLine oneLine (withFlags [105]) [[98, 32, 47, 107, 32, 97]]
      = some [47, 107, 32, 97] := by decide +kernel
  refine ⟨h3, ?_⟩
  rw [h3] at h1
  obtain rfl := Option.some.inj h1
  exact h2.mpr (by decide +kernel)

/-- with the flags `0` and the line `0:/vmlinux` the kernel is booted with the argument `0` -/
theorem flags_in_args : ¬ ∀ (D : Disk) (v : Vars) (typed : List (List UInt8)),
    (∀ l ∈ typed, l.length < SIZE ∧ 0 ∉ l) → ∀ (buf : List UInt8) (s : Opts),
      optionLoop D typed (parseFlags v) = .done buf s [] → (withExtra buf s).length < SIZE →
      ∀ line, bootLine D v typed = some line → Exact line (splitLine (withExtra buf s) s.toVars) := by
  intro hall
  have h := hall oneLine (withFlags [48]) [] (by simp) _ _ (endState_eq (by decide +kernel))
    (by decide +kernel) [47, 118, 109, 108, 105, 110, 117, 120] (by decide +kernel)
  have hne : (splitLine (withExtra (endState oneLine (withFlags [48]) []).1
      (endState oneLine (withFlags [48]) []).2)
      (endState oneLine (withFlags [48]) []).2.toVars).args 0 = [48] := by decide +kernel
  rw [Exact, hne] at h
  exact absurd h.2 (by decide)

end Options
