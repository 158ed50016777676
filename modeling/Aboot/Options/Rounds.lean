import Aboot.Options.Stores

/-!
# The rounds of the option loop

From round to round `kernel_args` is what the lines typed have left in it (`argsLeft`), so that the
rounds that are come to (`Comes`) and the sizes of the texts follow from the lines alone.

* `comes_next`, `comes_stop`   one round;
* `loop_end_iff`      when the end of the loop has room;
* `loop_stores_iff`   when all rounds have;
* `stores_fit_iff`    when all stores stay inside the buffers.
-/

set_option linter.unusedVariables false

namespace Options
open CString

/-! ## the loop -/

/-- the text of the preset that is tried after the lines `typed` -/
def found (D : Disk) (v : Vars) (typed : List (List UInt8)) : Option (List UInt8) :=
  if presetOf v typed = 0 then none else presetText D (partAfter v typed) (presetOf v typed)

/-- the text typed after `b` -/
def bootText (line : List UInt8) : Option (List UInt8) :=
  if line.head? = some 'b'.toUInt8 then after line else none

/-- from the lines `typed` with the lines `rest` to come, the loop comes round to `typed'` and
`rest'` -/
inductive Comes (D : Disk) (v : Vars) (typed' rest' : List (List UInt8)) :
    List (List UInt8) → List (List UInt8) → Prop
  | here : Comes D v typed' rest' typed' rest'
  | next {typed rest : List (List UInt8)} {line : List UInt8} (hfound : found D v typed = none)
      (hq : line.head? ≠ some 'q'.toUInt8) (hb : bootText line = none)
      (h : Comes D v typed' rest' (typed ++ [line]) rest) : Comes D v typed' rest' typed (line :: rest)

/-- the extra arguments that are appended to a text -/
def extraOf (v : Vars) (typed : List (List UInt8)) : Option (List UInt8) :=
  if Typed typed then some ((given v typed).getD []) else flagExtra v

/-- the prompt clears `kernel_args`, and a preset may come with arguments -/
def typedArgs (m : Mem) (line : List UInt8) : Mem :=
  match ownExtra line with
  | some p => strcpy (m.put 0 [0]) 0 p
  | none => m.put 0 [0]

/-- `kernel_args` after the lines `typed`, with all that is left behind its NUL -/
def argsLeft (v : Vars) (typed : List (List UInt8)) : Mem := typed.foldl typedArgs v.kernel_args

/-- `kernel_args` with the arguments of the boot line -/
def argsOf (v : Vars) (typed : List (List UInt8)) (line : List UInt8) : Mem :=
  match after line with
  | some p => strcpy (argsLeft v typed) 0 p
  | none => argsLeft v typed

/-- a boot line has room in `buf` with the extra arguments, and its arguments with what is left in
`kernel_args` have room for the initrd option -/
def EndFits (v : Vars) (typed : List (List UInt8)) (text : List UInt8) : Prop :=
  (joinExtra text (extraOf v typed)).length < SIZE ∧
    InitrdFits (argsOf v typed (joinExtra text (extraOf v typed)))

/-- the text of the preset that is tried has room, and if the loop ends in this round, the boot
line has -/
structure RoundFits (D : Disk) (v : Vars) (typed rest : List (List UInt8)) : Prop where
  text : presetOf v typed ≠ 0 → ∀ blocks, D (partAfter v typed) = some (some blocks) →
    TextFits (presetOf v typed) blocks
  preset : ∀ text, found D v typed = some text → EndFits v typed text
  boot : found D v typed = none → ∀ line more, rest = line :: more →
    ∀ text, bootText line = some text → EndFits v (typed ++ [line]) text

/-- every round that is come to has room; without a preset and a prompt, what is left in
`kernel_args` has -/
def StepsFit (D : Disk) (v : Vars) (lines : List (List UInt8)) : Prop :=
  if (parseFlags v).preset ≠ 0 ∨ (parseFlags v).interactive then
    ∀ typed rest, Comes D v typed rest [] lines → RoundFits D v typed rest
  else InitrdFits v.kernel_args

theorem comes_next {D : Disk} {v : Vars} {typed rest : List (List UInt8)} {line : List UInt8}
    (hfound : found D v typed = none) (hq : line.head? ≠ some 'q'.toUInt8)
    (hb : bootText line = none) {P : List (List UInt8) → List (List UInt8) → Prop} :
    (∀ t r, Comes D v t r typed (line :: rest) → P t r) ↔
      P typed (line :: rest) ∧ ∀ t r, Comes D v t r (typed ++ [line]) rest → P t r := by
  constructor
  · intro h
    exact ⟨h _ _ .here, fun t r ht => h t r (.next hfound hq hb ht)⟩
  · rintro ⟨h1, h2⟩ t r ht
    cases ht with
    | here => exact h1
    | next _ _ _ ht => exact h2 t r ht

theorem comes_stop {D : Disk} {v : Vars} {typed rest : List (List UInt8)}
    (hstop : ∀ line more, rest = line :: more → found D v typed = none →
      line.head? ≠ some 'q'.toUInt8 → (bootText line).isSome)
    {P : List (List UInt8) → List (List UInt8) → Prop} :
    (∀ t r, Comes D v t r typed rest → P t r) ↔ P typed rest := by
  constructor
  · intro h
    exact h _ _ .here
  · intro h t r ht
    cases ht with
    | here => exact h
    | next hfound hq hb ht =>
      have hsome := hstop _ _ rfl hfound hq
      rw [hb] at hsome
      cases hsome

theorem command_halt {D : Disk} {line : List UInt8} {s : Opts} (h : command D line s = .halt) :
    line.head? = some 'q'.toUInt8 := by
  unfold command at h
  split at h
  · cases h
  · rename_i c hc
    by_cases hq : c = 'q'.toUInt8
    · rw [hc, hq]
    · rw [if_neg hq] at h
      repeat' split at h
      all_goals cases h

theorem command_goes_on {D : Disk} {line : List UInt8} {s t : Opts}
    (h : command D line s = .next t) : line.head? ≠ some 'q'.toUInt8 ∧ bootText line = none := by
  constructor
  · intro hq
    unfold command at h
    rw [hq] at h
    cases h
  · unfold bootText
    split
    · rename_i hb
      unfold command at h
      rw [hb] at h
      cases ha : after line with
      | none => rfl
      | some p =>
        rw [ha] at h
        cases h
    · rfl

theorem command_stores_fit {line : List UInt8} (h : line.length < SIZE) :
    AllFit (commandStores line) := by
  have hfit : ∀ b p, after line = some p → AllFit [strcpyStore b 0 p] := by
    intro b p hp
    have hle := length_after_le hp
    rw [allFit_cons]
    exact ⟨show 0 + (p.length + 1) ≤ SIZE by omega, allFit_nil⟩
  unfold commandStores
  split
  · rename_i hp
    repeat' split
    all_goals first
      | exact hfit _ _ hp
      | exact allFit_nil
  · exact allFit_nil

theorem tryPreset_found {D : Disk} {v : Vars} {typed : List (List UInt8)} {s : Opts}
    (hr : Round D v typed s) : (tryPreset D s).1 = found D v typed := by
  unfold tryPreset found
  rw [hr.preset]
  by_cases h0 : presetOf v typed = 0
  · rw [if_pos h0, if_pos h0]
  · rw [if_neg h0, if_neg h0, mountConf_fs hr.fs, hr.part]
    unfold presetText
    cases D (partAfter v typed) with
    | none => rfl
    | some fs =>
      simp only
      cases get_default_args fs (presetOf v typed) <;> rfl

theorem preset_stores_iff {D : Disk} {v : Vars} {typed : List (List UInt8)} {s : Opts}
    (hr : Round D v typed s) : AllFit (tryPresetStores D s) ↔
      (presetOf v typed ≠ 0 → ∀ blocks, D (partAfter v typed) = some (some blocks) →
        TextFits (presetOf v typed) blocks) := by
  unfold tryPresetStores
  rw [hr.preset]
  by_cases h0 : presetOf v typed = 0
  · rw [if_pos h0]
    exact iff_of_true allFit_nil fun h => absurd h0 h
  · rw [if_neg h0, mountConf_fs hr.fs, hr.part]
    cases hD : D (partAfter v typed) with
    | none => exact iff_of_true allFit_nil fun _ blocks h => nomatch h
    | some fs =>
      cases fs with
      | none =>
        refine iff_of_true ?_ fun _ blocks h => nomatch h
        show AllFit [⟨.buf, 0, 1⟩]
        decide
      | some blocks =>
        rw [config_stores_iff]
        constructor
        · intro h _ blocks' he
          obtain rfl := Option.some.inj (Option.some.inj he)
          exact h
        · intro h
          exact h h0 blocks rfl

/-- a text that has room is shorter than `buf` -/
theorem TextFits.length {num : UInt8} {blocks : List (List UInt8)} (h : TextFits num blocks)
    {text : List UInt8} (ht : get_default_args (some blocks) num = some text) : text.length < SIZE := by
  obtain ⟨rest, hseen, hstands⟩ := (get_default_args_iff num blocks text).mp ht
  rcases hstands with ⟨hl, more, rfl⟩ | ⟨-, rfl, -⟩
  · have hfit := h _ hseen
    have hall : ∀ x ∈ text, decide (x ≠ newline) = true := by
      intro x hx
      have hne : x ≠ newline := fun e => hl (e ▸ hx)
      simpa using hne
    rw [List.takeWhile_append_of_pos hall, List.takeWhile_cons_of_neg (by simp), List.append_nil,
      if_pos (by simp)] at hfit
    exact hfit
  · show 0 < SIZE
    decide

theorem found_short {D : Disk} {v : Vars} {typed : List (List UInt8)}
    (hfit : presetOf v typed ≠ 0 → ∀ blocks, D (partAfter v typed) = some (some blocks) →
      TextFits (presetOf v typed) blocks) {text : List UInt8} (h : found D v typed = some text) :
    text.length < SIZE ∧ 0 ∉ text := by
  unfold found at h
  by_cases h0 : presetOf v typed = 0
  · rw [if_pos h0] at h
    cases h
  · rw [if_neg h0] at h
    refine ⟨?_, presetText_str h⟩
    unfold presetText at h
    split at h
    · rename_i fs hD
      cases fs with
      | none => cases h
      | some blocks => exact (hfit h0 blocks hD).length h
    · cases h

/-! ## what the loop leaves -/

theorem argsLeft_concat (v : Vars) (typed : List (List UInt8)) (line : List UInt8) :
    argsLeft v (typed ++ [line]) = typedArgs (argsLeft v typed) line := by
  unfold argsLeft
  rw [List.foldl_append]
  rfl

theorem ownExtra_after {line p : List UInt8} (h : ownExtra line = some p) : after line = some p := by
  unfold ownExtra at h
  split at h
  · split at h
    · exact h
    · cases h
  · cases h

theorem argsLeft_short {v : Vars} (hv : (v.args 0).length < SIZE) {typed : List (List UInt8)}
    (hl : ∀ l ∈ typed, l.length < SIZE ∧ 0 ∉ l) : (str SIZE (argsLeft v typed) 0).length < SIZE := by
  rcases List.eq_nil_or_concat typed with rfl | ⟨pre, line, rfl⟩
  · exact hv
  · rw [List.concat_eq_append] at hl ⊢
    obtain ⟨hlen, hz⟩ := hl line (by simp)
    rw [argsLeft_concat, typedArgs]
    cases ho : ownExtra line with
    | none =>
      simp only
      rw [str_nil rfl]
      decide
    | some p =>
      have ha := ownExtra_after ho
      have hp := lt_of_le_of_lt (length_after_le ha) hlen
      simp only
      rw [str_strcpy hp fun hm => hz (mem_of_mem_after ha hm)]
      exact hp

/-- the extra arguments, by what `extra_args` points at -/
theorem withExtra_eq {v : Vars} {typed : List (List UInt8)} {s : Opts} (ha : Args v typed s)
    (buf : List UInt8) : withExtra buf s = joinExtra buf (extraOf v typed) := by
  unfold extraOf
  by_cases ht : Typed typed
  · rw [if_pos ht, withExtra_typed ha ht]
    rfl
  · rw [if_neg ht]
    by_cases he : typed = []
    · subst he
      exact (withExtra_flags ha buf).1
    · exact (withExtra_stale ha he ht buf).1

/-- the boot line, with the locals as the loop leaves them -/
theorem loop_end_iff {v : Vars} (hv : (v.args 0).length < SIZE) {typed : List (List UInt8)}
    (hl : ∀ l ∈ typed, l.length < SIZE ∧ 0 ∉ l) {s : Opts} (ha : Args v typed s)
    (hm : s.kernel_args = argsLeft v typed) {buf : List UInt8} (hbuf : buf.length < SIZE)
    (hz : 0 ∉ buf) : AllFit (endStores buf s) ↔ EndFits v typed buf := by
  have hline : 0 ∉ withExtra buf s := by
    unfold withExtra
    split
    · exact hz
    · simp only [List.mem_append, List.mem_cons, not_or]
      exact ⟨hz, by decide, zero_not_mem_str _ _ _⟩
  have hargs : (s.args 0).length < SIZE := by
    show (str SIZE s.kernel_args 0).length < SIZE
    rw [hm]
    exact argsLeft_short hv hl
  have hmem : (splitLine (withExtra buf s) s.toVars).kernel_args = argsOf v typed (withExtra buf s) := by
    unfold splitLine argsOf
    rw [hm]
    cases after (withExtra buf s) <;> rfl
  rw [end_stores_iff hbuf hline hargs, hmem, withExtra_eq ha buf]
  rfl

/-- what a round keeps -/
structure Kept (D : Disk) (v : Vars) (typed : List (List UInt8)) (s : Opts) : Prop where
  round : Round D v typed s
  args : Args v typed s
  mem : s.kernel_args = argsLeft v typed

theorem Args.congr {v : Vars} {typed : List (List UInt8)} {s t : Opts} (h : Args v typed s)
    (hk : t.kernel_args = s.kernel_args) (he : t.extra_args = s.extra_args) : Args v typed t := by
  have h0 : t.args 0 = s.args 0 := by rw [Vars.args, Vars.args, hk]
  constructor
  · rw [hk, he]
    exact h.start
  · rw [hk, he]
    exact h.flags
  · rw [he, h0]
    exact h.typed

/-- a line that does not end the loop -/
theorem Kept.next {D : Disk} {v : Vars} {typed : List (List UInt8)} {s t u : Opts}
    (h : Kept D v typed s) (hp : tryPreset D s = (none, t)) {line : List UInt8}
    (hlen : line.length < SIZE) (hz : 0 ∉ line) (hc : command D line (clearArgs t) = .next u) :
    Kept D v (typed ++ [line]) u := by
  obtain ⟨p1, p2, p3, p4, p5⟩ := tryPreset_none h.round hp
  have hn := command_next hc
  refine ⟨⟨?_, hn.fs p3, ?_⟩, args_next hlen hz (h.args.congr p4 p5) hn, ?_⟩
  · rw [hn.part, partAfter, List.foldl_append, List.foldl_cons, List.foldl_nil, ← partAfter, ← p1]
    rfl
  · rw [hn.preset p2, presetOf, List.getLast?_concat]
  · rw [argsLeft_concat, ← h.mem, ← p4, typedArgs]
    cases ho : ownExtra line with
    | none => exact (hn.kept ho).1
    | some p => exact (hn.own p ho).1

/-- a round that ends the loop with the text of a preset -/
theorem found_round_iff {D : Disk} {v : Vars} (hv : (v.args 0).length < SIZE)
    {lines typed : List (List UInt8)} {s t : Opts} (hk : Kept D v typed s)
    (hl : ∀ l ∈ typed, l.length < SIZE ∧ 0 ∉ l) {text : List UInt8}
    (hp : tryPreset D s = (some text, t)) :
    AllFit (loopStores D lines s ++ loopEndStores D lines s) ↔
      ∀ t r, Comes D v t r typed lines → RoundFits D v t r := by
  have hfound : found D v typed = some text := by rw [← tryPreset_found hk.round, hp]
  have hstores : loopStores D lines s = tryPresetStores D s := by
    cases lines <;> simp only [loopStores, hp, List.append_nil]
  have hend : loopEndStores D lines s = endStores text t := by
    cases lines <;> simp only [loopEndStores, optionLoop, hp]
  obtain ⟨-, -, h1, h2⟩ := tryPreset_some hk.round hp
  have hmem : t.kernel_args = argsLeft v typed := h1.trans hk.mem
  have hstop : ∀ line more, lines = line :: more → found D v typed = none →
      line.head? ≠ some 'q'.toUInt8 → (bootText line).isSome := by
    intro line more _ h
    rw [hfound] at h
    cases h
  rw [comes_stop hstop, hstores, hend, allFit_append, preset_stores_iff hk.round]
  constructor
  · rintro ⟨htext, hfit⟩
    obtain ⟨hlen, hz⟩ := found_short htext hfound
    rw [loop_end_iff hv hl (hk.args.congr h1 h2) hmem hlen hz] at hfit
    refine ⟨htext, fun text' h => ?_, fun h => ?_⟩
    · rw [hfound] at h
      exact Option.some.inj h ▸ hfit
    · rw [hfound] at h
      cases h
  · intro h
    obtain ⟨hlen, hz⟩ := found_short h.text hfound
    rw [loop_end_iff hv hl (hk.args.congr h1 h2) hmem hlen hz]
    exact ⟨h.text, h.preset text hfound⟩

/-- a round that finds no preset and does not boot -/
theorem roundFits_none {D : Disk} {v : Vars} {typed rest : List (List UInt8)}
    (hfound : found D v typed = none) (hno : ∀ line more, rest = line :: more → bootText line = none) :
    RoundFits D v typed rest ↔ (presetOf v typed ≠ 0 → ∀ blocks,
      D (partAfter v typed) = some (some blocks) → TextFits (presetOf v typed) blocks) := by
  constructor
  · intro h
    exact h.text
  · intro htext
    refine ⟨htext, fun text h => ?_, fun _ line more he text h => ?_⟩
    · rw [hfound] at h
      cases h
    · rw [hno line more he] at h
      cases h

/-- a round that boots with the text `buf` -/
theorem roundFits_boot {D : Disk} {v : Vars} {typed lines : List (List UInt8)} {line buf : List UInt8}
    (hfound : found D v typed = none) (hboot : bootText line = some buf) :
    RoundFits D v typed (line :: lines) ↔ (presetOf v typed ≠ 0 → ∀ blocks,
      D (partAfter v typed) = some (some blocks) → TextFits (presetOf v typed) blocks) ∧
      EndFits v (typed ++ [line]) buf := by
  constructor
  · intro h
    exact ⟨h.text, h.boot hfound line lines rfl buf hboot⟩
  · rintro ⟨htext, hfit⟩
    refine ⟨htext, fun text h => ?_, fun _ l more he text h => ?_⟩
    · rw [hfound] at h
      cases h
    · obtain ⟨rfl, -⟩ := List.cons.inj he
      rw [hboot] at h
      exact Option.some.inj h ▸ hfit

/-- the stores of a round at the prompt, and those that follow -/
theorem prompt_stores_iff {D : Disk} {s : Opts} {line : List UInt8} (hlen : line.length < SIZE)
    (more : List Store) : AllFit (tryPresetStores D s ++ (⟨.kernel_args, 0, 1⟩ ::
      strcpyStore .buf 0 line :: (commandStores line ++ more))) ↔
      AllFit (tryPresetStores D s) ∧ AllFit more := by
  have hline : 0 + (line.length + 1) ≤ SIZE := by omega
  rw [allFit_append, allFit_cons, allFit_cons, allFit_append,
    and_iff_right (command_stores_fit hlen), and_iff_right hline]
  exact and_congr_right fun _ => and_iff_right (by decide)

/-- the end of the loop, when a line boots with the text `buf` -/
theorem booted_end_iff {D : Disk} {v : Vars} (hv : (v.args 0).length < SIZE)
    {typed : List (List UInt8)} {s t u : Opts} (hk : Kept D v typed s) (hp : tryPreset D s = (none, t))
    (line : List UInt8) {buf : List UInt8} (hl : ∀ l ∈ typed ++ [line], l.length < SIZE ∧ 0 ∉ l)
    (hc : command D line (clearArgs t) = .boot buf u) :
    AllFit (endStores buf u) ↔ EndFits v (typed ++ [line]) buf := by
  obtain ⟨hb, ha, rfl⟩ := command_boot hc
  have hown : ownExtra line = none := by
    simp only [ownExtra, hb]
    rfl
  obtain ⟨-, -, -, h1, h2⟩ := tryPreset_none hk.round hp
  have hargs : Args v (typed ++ [line]) (clearArgs t) :=
    args_cleared (hk.args.congr h1 h2) hown rfl rfl
  have hmem : (clearArgs t).kernel_args = argsLeft v (typed ++ [line]) := by
    rw [argsLeft_concat, typedArgs, hown, ← hk.mem, ← h1]
    rfl
  obtain ⟨hlen, hz⟩ := hl line (by simp)
  exact loop_end_iff hv hl hargs hmem (lt_of_le_of_lt (length_after_le ha) hlen)
    fun hm => hz (mem_of_mem_after ha hm)

/-- the rounds from the lines `typed` on -/
theorem loop_stores_iff {D : Disk} {v : Vars} (hv : (v.args 0).length < SIZE)
    (lines : List (List UInt8)) : ∀ (typed : List (List UInt8)) (s : Opts), Kept D v typed s →
      (∀ l ∈ typed ++ lines, l.length < SIZE ∧ 0 ∉ l) →
      (AllFit (loopStores D lines s ++ loopEndStores D lines s) ↔
        ∀ t r, Comes D v t r typed lines → RoundFits D v t r) := by
  induction lines with
  | nil =>
    intro typed s hk hl
    rw [List.append_nil] at hl
    obtain ⟨text, t, hp⟩ : ∃ text t, tryPreset D s = (text, t) := ⟨_, _, rfl⟩
    cases text with
    | some text => exact found_round_iff hv hk hl hp
    | none =>
      have hfound : found D v typed = none := by rw [← tryPreset_found hk.round, hp]
      have hclear : AllFit [⟨.kernel_args, 0, 1⟩] := by decide
      have hno : ∀ line more, [] = line :: more → bootText line = none := fun line more h => nomatch h
      have hstop : ∀ line more, [] = line :: more → found D v typed = none →
          line.head? ≠ some 'q'.toUInt8 → (bootText line).isSome := fun line more h => nomatch h
      rw [comes_stop hstop, roundFits_none hfound hno]
      simp only [loopStores, loopEndStores, optionLoop, hp]
      rw [List.append_nil, allFit_append, preset_stores_iff hk.round, and_iff_left hclear]
  | cons line lines ih =>
    intro typed s hk hl
    have htyped : ∀ l ∈ typed, l.length < SIZE ∧ 0 ∉ l := fun l h => hl l (List.mem_append_left _ h)
    obtain ⟨text, t, hp⟩ : ∃ text t, tryPreset D s = (text, t) := ⟨_, _, rfl⟩
    cases text with
    | some text => exact found_round_iff hv hk htyped hp
    | none =>
      have hfound : found D v typed = none := by rw [← tryPreset_found hk.round, hp]
      obtain ⟨hlen, hz⟩ := hl line (by simp)
      have hround := prompt_stores_iff (D := D) (s := s) hlen
      simp only [loopStores, loopEndStores, optionLoop, hp]
      cases hc : command D line (clearArgs t) with
      | halt =>
        have hq := command_halt hc
        have hno : ∀ l more, line :: lines = l :: more → bootText l = none := by
          intro l more he
          obtain ⟨rfl, -⟩ := List.cons.inj he
          rw [bootText, hq]
          rfl
        rw [comes_stop, roundFits_none hfound hno]
        · simp only
          rw [List.append_nil, hround, preset_stores_iff hk.round, and_iff_left allFit_nil]
        · intro l more he _ hne
          obtain ⟨rfl, -⟩ := List.cons.inj he
          exact absurd hq hne
      | boot buf u =>
        obtain ⟨hb, ha, -⟩ := command_boot hc
        have hboot : bootText line = some buf := by rw [bootText, if_pos hb, ha]
        have hend := booted_end_iff hv hk hp line
          (fun l h => hl l (by rw [List.append_cons]; exact List.mem_append_left _ h)) hc
        rw [comes_stop, roundFits_boot hfound hboot]
        · simp only
          rw [allFit_append, hround, preset_stores_iff hk.round, and_iff_left allFit_nil, hend]
        · intro l more he _ _
          obtain ⟨rfl, -⟩ := List.cons.inj he
          rw [hboot]
          rfl
      | next u =>
        obtain ⟨hq, hb⟩ := command_goes_on hc
        have hno : ∀ l more, line :: lines = l :: more → bootText l = none := by
          intro l more he
          obtain ⟨rfl, -⟩ := List.cons.inj he
          exact hb
        have hnext := ih (typed ++ [line]) u (hk.next hp hlen hz hc) (by rwa [← List.append_cons])
        rw [comes_next hfound hq hb, ← hnext, roundFits_none hfound hno]
        simp only
        rw [List.append_assoc, List.cons_append, List.cons_append, List.append_assoc, hround,
          preset_stores_iff hk.round]
        exact Iff.rfl

/-! ## all stores -/

theorem parseFlags_boot_file (v : Vars) : (parseFlags v).boot_file = v.boot_file := by
  unfold parseFlags
  simp only
  repeat' split
  all_goals rfl

/-- **When the option handling stays inside its buffers.**  For every configuration file on every
partition, all flags and all lines typed. -/
theorem stores_fit_iff (D : Disk) (lines : List (List UInt8)) (v : Vars)
    (hflags : (v.args 0).length < SIZE) (hfile : v.boot_file.length < SIZE)
    (hlines : ∀ l ∈ lines, l.length < SIZE ∧ 0 ∉ l) :
    AllFit (optionStores D lines v) ↔ StepsFit D v lines := by
  unfold optionStores StepsFit
  by_cases hloop : (parseFlags v).preset ≠ 0 ∨ (parseFlags v).interactive
  · rw [if_pos hloop, if_pos hloop]
    apply loop_stores_iff hflags lines [] (parseFlags v) _ (by simpa using hlines)
    exact ⟨round_start D v, args_start v, parseFlags_args v⟩
  · rw [if_neg hloop, if_neg hloop]
    have h0 : ((parseFlags v).toVars.args 0).length < SIZE := by
      show (str SIZE (parseFlags v).kernel_args 0).length < SIZE
      rw [parseFlags_args]
      exact hflags
    rw [rest_stores_iff h0 (by rwa [parseFlags_boot_file]), parseFlags_args]

/-- the line `b /k a` at the prompt -/
theorem stores_fit_iff_prompt : ((withFlags [105]).args 0).length < SIZE ∧
    (withFlags [105]).boot_file.length < SIZE ∧
    (∀ l ∈ [[98, 32, 47, 107, 32, 97]], l.length < SIZE ∧ (0 : UInt8) ∉ l) ∧
    (AllFit (optionStores oneLine [[98, 32, 47, 107, 32, 97]] (withFlags [105])) ↔
      StepsFit oneLine (withFlags [105]) [[98, 32, 47, 107, 32, 97]]) := by
  have h1 : ((withFlags [105]).args 0).length < SIZE := by decide +kernel
  have h2 : (withFlags [105]).boot_file.length < SIZE := by decide
  have h3 : ∀ l ∈ [[98, 32, 47, 107, 32, 97]], l.length < SIZE ∧ (0 : UInt8) ∉ l := by decide
  exact ⟨h1, h2, h3, stores_fit_iff oneLine _ _ h1 h2 h3⟩

/-- a disk whose first partition has one long line in its configuration file -/
def longLine : Disk := fun n =>
  if n = 1 then some (some [[48, 58] ++ List.replicate 256 97 ++ [10]]) else none

/-- the flags `0` and a preset of 256 characters: its NUL is stored behind `buf` -/
theorem long_line_overflows : ¬ ∀ (D : Disk) (lines : List (List UInt8)) (v : Vars),
    (v.args 0).length < SIZE → v.boot_file.length < SIZE →
      (∀ l ∈ lines, l.length < SIZE ∧ 0 ∉ l) → AllFit (optionStores D lines v) := by
  intro hall
  have h := hall longLine [] (withFlags [48]) (by decide +kernel) (by decide) (by simp)
  exact absurd h (by decide +kernel)

end Options
