import Aboot.Options.Impl

/-!
# The initrd option

The scan for `initrd=` stops at its place, or one character past the NUL, and the test behind it is
on the byte where it has stopped.

* `firstInitrd`     the place of the first `initrd=` of a string;
* `findInitrd_hit`, `findInitrd_miss`   where the scan stops;
* `parse_hit`, `parse_stale`   what is stored then;
* `initrd_arg_iff`  when the result depends on the string only.
-/

set_option linter.unusedVariables false

namespace Options
open CString

/-- the place of the first `initrd=` -/
def firstInitrd (s : List UInt8) : Option Nat :=
  (List.range s.length).find? fun p => (s.drop p).take 7 = initrd_opt

/-- with `initrd=` in the string, its argument is in `initrd_file` and it is taken out of
`kernel_args`; without it, both are as they were -/
def Parsed (v w : Vars) : Prop :=
  match firstInitrd (v.args 0) with
  | some p => w.initrd_file = word ((v.args 0).drop (p + 7)) ∧
      w.args 0 = (v.args 0).take p ++ ((v.args 0).drop (p + 7)).dropWhile (· ≠ blank)
  | none => w.initrd_file = v.initrd_file ∧ w.args 0 = v.args 0

theorem firstInitrd_le {s : List UInt8} {p : Nat} (h : firstInitrd s = some p) :
    p + 7 ≤ s.length := by
  have hhit : (s.drop p).take 7 = initrd_opt := by simpa using List.find?_some h
  have hlen := congrArg List.length hhit
  rw [List.length_take, List.length_drop] at hlen
  have h7 : initrd_opt.length = 7 := by decide
  omega

/-! ## the scan -/

theorem args_drop {v : Vars} (h : (v.args 0).length < SIZE) {p : Nat} (hp : p ≤ (v.args 0).length) :
    v.args p = (v.args 0).drop p := by
  have hd := str_drop (m := v.kernel_args) (a := 0) h hp
  rwa [Nat.zero_add] at hd

/-- a byte of the string -/
theorem args_ne_zero {v : Vars} {p : Nat} (hp : p < (v.args 0).length) : v.kernel_args p ≠ 0 := by
  have hget : (v.args 0)[p] = v.kernel_args (0 + p) := str_getElem hp
  rw [Nat.zero_add] at hget
  rw [← hget]
  intro h0
  exact zero_not_mem_str SIZE v.kernel_args 0 (h0 ▸ List.getElem_mem hp)

theorem args_end {v : Vars} (h : (v.args 0).length < SIZE) :
    v.kernel_args (v.args 0).length = 0 := by
  have he := str_end (m := v.kernel_args) (a := 0) h
  rwa [Nat.zero_add] at he

/-- the scan passes the places without `initrd=` -/
theorem findInitrd_skip {v : Vars} (h : (v.args 0).length < SIZE) (n : Nat) :
    ∀ fuel p, p + n ≤ (v.args 0).length → (∀ q, p ≤ q → q < p + n →
      ((v.args 0).drop q).take 7 ≠ initrd_opt) → findInitrd v (fuel + n) p = findInitrd v fuel (p + n) := by
  induction n with
  | zero =>
    intro fuel p _ _
    rfl
  | succ n ih =>
    intro fuel p hp hno
    have h1 : ¬ (v.args p).take 7 = initrd_opt := by
      rw [args_drop h (by omega)]
      exact hno p (by omega) (by omega)
    have h2 : v.kernel_args p ≠ 0 := args_ne_zero (by omega)
    rw [show fuel + (n + 1) = (fuel + n) + 1 by omega, findInitrd, if_neg h1, if_neg h2,
      ih fuel (p + 1) (by omega) fun q hq1 hq2 => hno q (by omega) (by omega)]
    congr 1
    omega

theorem findInitrd_hit {v : Vars} (h : (v.args 0).length < SIZE) {p : Nat}
    (hp : firstInitrd (v.args 0) = some p) : findInitrd v SIZE 0 = p := by
  have hmem := List.mem_range.mp (List.mem_of_find?_eq_some hp)
  have hhit : ((v.args 0).drop p).take 7 = initrd_opt := by simpa using List.find?_some hp
  have hno : ∀ q, 0 ≤ q → q < 0 + p → ((v.args 0).drop q).take 7 ≠ initrd_opt := by
    intro q _ hq
    simpa using (List.find?_range_eq_some.mp hp).2.2 q (by omega)
  obtain ⟨fuel, hfuel⟩ : ∃ fuel, SIZE = (fuel + 1) + p := ⟨SIZE - p - 1, by omega⟩
  rw [hfuel, findInitrd_skip h p (fuel + 1) 0 (by omega) hno, Nat.zero_add, findInitrd,
    args_drop h (by omega), if_pos hhit]

theorem findInitrd_miss {v : Vars} (h : (v.args 0).length < SIZE)
    (hp : firstInitrd (v.args 0) = none) : findInitrd v SIZE 0 = (v.args 0).length + 1 := by
  have hno : ∀ q, 0 ≤ q → q < 0 + (v.args 0).length → ((v.args 0).drop q).take 7 ≠ initrd_opt := by
    intro q _ hq
    simpa using List.find?_eq_none.mp hp q (List.mem_range.mpr (by omega))
  obtain ⟨fuel, hfuel⟩ : ∃ fuel, SIZE = (fuel + 1) + (v.args 0).length :=
    ⟨SIZE - (v.args 0).length - 1, by omega⟩
  have hnil : v.args (v.args 0).length = [] := by
    rw [args_drop h (le_refl _), List.drop_length]
  have hne : ¬ (v.args (v.args 0).length).take 7 = initrd_opt := by
    rw [hnil]
    decide
  rw [hfuel, findInitrd_skip h _ (fuel + 1) 0 (by omega) hno, Nat.zero_add, findInitrd, if_neg hne,
    if_pos (args_end h)]

/-! ## what is stored -/

/-- the text of the argument, with or without more behind it -/
theorem parseInitrd_file {v : Vars} {p : Nat} (hp : findInitrd v SIZE 0 = p) (h0 : v.kernel_args p ≠ 0) :
    (parseInitrd v).initrd_file = word (v.args (p + 7)) ∧
      (parseInitrd v).kernel_args
        = strcpy v.kernel_args p ((v.args (p + 7)).dropWhile (· ≠ blank)) := by
  unfold parseInitrd
  rw [hp]
  simp only [if_neg h0]
  by_cases hb : blank ∈ v.args (p + 7)
  · rw [if_pos hb]
    exact ⟨rfl, rfl⟩
  · rw [if_neg hb]
    refine ⟨(word_of_not_mem hb).symm, ?_⟩
    rw [dropWhile_of_not_mem hb]
    rfl

theorem parse_hit {v : Vars} (h : (v.args 0).length < SIZE) {p : Nat}
    (hp : firstInitrd (v.args 0) = some p) : Parsed v (parseInitrd v) := by
  have hmem := List.mem_range.mp (List.mem_of_find?_eq_some hp)
  have hlen := firstInitrd_le hp
  obtain ⟨hfile, hargs⟩ := parseInitrd_file (findInitrd_hit h hp) (args_ne_zero hmem)
  rw [args_drop h hlen] at hfile hargs
  unfold Parsed
  rw [hp]
  refine ⟨hfile, ?_⟩
  show str SIZE (parseInitrd v).kernel_args 0 = _
  rw [hargs]
  have hsub := (List.dropWhile_sublist (l := (v.args 0).drop (p + 7)) (· ≠ blank)).length_le
  rw [List.length_drop] at hsub
  have hat := str_strcpy_at (m := v.kernel_args) (a := 0) (k := p)
    (t := ((v.args 0).drop (p + 7)).dropWhile (· ≠ blank)) (Nat.le_of_lt hmem)
    (show p + _ < SIZE by omega)
    fun hm => zero_not_mem_str SIZE v.kernel_args 0
      (List.mem_of_mem_drop ((List.dropWhile_sublist _).mem hm))
  rwa [Nat.zero_add] at hat

/-- without `initrd=`, the byte past the NUL is taken for the start of one -/
theorem parse_stale {v : Vars} (h : (v.args 0).length < SIZE) (hp : firstInitrd (v.args 0) = none)
    (h0 : v.kernel_args ((v.args 0).length + 1) ≠ 0) :
    (parseInitrd v).initrd_file = word (v.args ((v.args 0).length + 8)) ∧
      (parseInitrd v).args 0 = v.args 0 := by
  obtain ⟨hfile, hargs⟩ := parseInitrd_file (findInitrd_miss h hp) h0
  refine ⟨hfile, ?_⟩
  show str SIZE (parseInitrd v).kernel_args 0 = _
  rw [hargs]
  apply str_put_out _ h
  show 0 + (v.args 0).length < (v.args 0).length + 1
  omega

/-- **When the `initrd=` option depends on the argument string only.**  For every content of
`kernel_args`: what is extracted is what the string says exactly if it has the option, or the byte
past its NUL is a NUL as well, or what stands seven bytes further on is the name that
`initrd_file` has already. -/
theorem initrd_arg_iff (v : Vars) (h : (v.args 0).length < SIZE) : Parsed v (parseInitrd v) ↔
    (firstInitrd (v.args 0)).isSome ∨ v.kernel_args ((v.args 0).length + 1) = 0 ∨
      word (v.args ((v.args 0).length + 8)) = v.initrd_file := by
  cases hp : firstInitrd (v.args 0) with
  | some p => exact iff_of_true (parse_hit h hp) (Or.inl rfl)
  | none =>
    simp only [Parsed, hp, Option.isSome_none, Bool.false_eq_true, false_or]
    by_cases h0 : v.kernel_args ((v.args 0).length + 1) = 0
    · have hsame : parseInitrd v = v := by
        unfold parseInitrd
        simp only [findInitrd_miss h hp, if_pos h0]
      rw [hsame]
      exact iff_of_true ⟨rfl, rfl⟩ (Or.inl h0)
    · obtain ⟨hfile, hargs⟩ := parse_stale h hp h0
      rw [hfile]
      constructor
      · intro hparsed
        exact Or.inr hparsed.1
      · intro hor
        exact ⟨hor.resolve_left h0, hargs⟩

/-- the arguments `a`, after longer ones that ended in `root=sda` -/
def shortened : Vars where
  kernel_args := Mem.put (fun _ => 0) 0 [97, 0, 114, 111, 111, 116, 61, 115, 100, 97]
  boot_file := []
  initrd_file := [105]
  boot_part := 0
  config_file_partition := 0

theorem initrd_arg_iff_shortened : (shortened.args 0).length < SIZE ∧
    (Parsed shortened (parseInitrd shortened) ↔
      (firstInitrd (shortened.args 0)).isSome ∨ shortened.kernel_args ((shortened.args 0).length + 1) = 0 ∨
        word (shortened.args ((shortened.args 0).length + 8)) = shortened.initrd_file) := by
  have h : (shortened.args 0).length < SIZE := by decide +kernel
  exact ⟨h, initrd_arg_iff shortened h⟩

/-- the tail of the longer arguments becomes the name of the initrd -/
theorem stale_initrd :
    (shortened.args 0).length < SIZE ∧ firstInitrd (shortened.args 0) = none ∧
      (parseInitrd shortened).initrd_file = [97] ∧ ¬ Parsed shortened (parseInitrd shortened) := by
  have hnone : firstInitrd (shortened.args 0) = none := by decide +kernel
  have hfile : (parseInitrd shortened).initrd_file = [97] := by decide +kernel
  refine ⟨by decide +kernel, hnone, hfile, fun hparsed => ?_⟩
  simp only [Parsed, hnone] at hparsed
  rw [hfile] at hparsed
  exact absurd hparsed.1 (by decide)

end Options
