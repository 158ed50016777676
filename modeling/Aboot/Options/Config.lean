import Aboot.Options.Impl

/-!
# The configuration file as a list of lines

`claimed` is what the file says: the text after `num:` in the first line that starts so, when no
line that starts with `-` comes before it.  `get_default_args` goes through the characters, and
looks for a line at the places `Seen`.

* `parse_blocks`   the text that is looked at; how it is cut into blocks does not matter;
* `get_default_args_iff`   what it finds, from what stands at the places where it looks;
* `seen_plain`     lines that are not blank and do not start with `num` do no harm;
* `config_exact_iff`   when it finds what the file says.
-/

set_option linter.unusedVariables false

namespace Options

abbrev newline : UInt8 := '\n'.toUInt8
abbrev colon : UInt8 := ':'.toUInt8
abbrev dash : UInt8 := '-'.toUInt8

/-! ## what the file says -/

/-- the lines, each with its newline -/
def textOf (lines : List (List UInt8)) : List UInt8 := lines.flatMap fun l => l ++ [newline]

/-- the text of the line for `num` -/
def claimed (num : UInt8) : List (List UInt8) → Option (List UInt8)
  | [] => none
  | l :: lines =>
    if l.take 2 = [num, colon] then some (l.drop 2)
    else if l.head? = some dash then none
    else claimed num lines

/-! ## the places where a line is looked for -/

/-- a place of the text, given by what follows it: the start; two characters on, when it is `num`
without a colon behind it; and past the next newline after its first character, when that is
neither `num` nor a dash -/
inductive Seen (num : UInt8) (text : List UInt8) : List UInt8 → Prop
  | start : Seen num text text
  | matched {c : UInt8} {rest : List UInt8} (h : Seen num text (num :: c :: rest)) (hc : c ≠ colon) :
      Seen num text rest
  | skipped {c : UInt8} {l rest : List UInt8} (h : Seen num text (c :: (l ++ newline :: rest)))
      (hnum : c ≠ num) (hdash : c ≠ dash) (hl : newline ∉ l) : Seen num text rest

/-- the line for `num` with the text `t`, or an end mark, which is taken for a line without text -/
def Stands (num : UInt8) (rest t : List UInt8) : Prop :=
  (newline ∉ t ∧ ∃ more, rest = num :: colon :: (t ++ newline :: more)) ∨
    (num ≠ dash ∧ t = [] ∧ ∃ more, rest = dash :: more)

/-! ## the characters of the text -/

/-- the characters one after the other -/
def parse (num : UInt8) (text : List UInt8) (s : Conf) : Conf :=
  text.foldl (fun s c => confChar num c s) s

theorem parse_cons (num c : UInt8) (text : List UInt8) (s : Conf) :
    parse num (c :: text) s = parse num text (confChar num c s) := rfl

theorem parse_append (num : UInt8) (l text : List UInt8) (s : Conf) :
    parse num (l ++ text) s = parse num text (parse num l s) := by
  unfold parse
  rw [List.foldl_append]

theorem parse_found (num : UInt8) (text : List UInt8) {s : Conf} (h : s.state = .found) :
    parse num text s = s := by
  induction text with
  | nil => rfl
  | cons c text ih =>
    have hc : confChar num c s = s := by
      unfold confChar
      rw [h]
    rw [parse_cons, hc, ih]

/-- the text that is looked at: each block up to a NUL -/
def shown (blocks : List (List UInt8)) : List UInt8 := blocks.flatMap fun b => b.takeWhile (· ≠ 0)

theorem shown_eq {blocks : List (List UInt8)} (h : 0 ∉ blocks.flatten) :
    shown blocks = blocks.flatten := by
  induction blocks with
  | nil => rfl
  | cons b blocks ih =>
    rw [List.flatten_cons, List.mem_append, not_or] at h
    have hb : b.takeWhile (· ≠ 0) = b := by
      rw [List.takeWhile_eq_self_iff]
      intro c hc
      exact decide_eq_true fun e => h.1 (e ▸ hc)
    show b.takeWhile (· ≠ 0) ++ shown blocks = b ++ blocks.flatten
    rw [hb, ih h.2]

theorem parse_block (num : UInt8) (b : List UInt8) :
    ∀ s, confBlock num b s = parse num (b.takeWhile (· ≠ 0)) s := by
  induction b with
  | nil =>
    intro s
    rfl
  | cons c b ih =>
    intro s
    unfold confBlock
    by_cases hc : c = 0
    · rw [if_pos (Or.inl hc), List.takeWhile_cons_of_neg (by simp [hc])]
      rfl
    · rw [List.takeWhile_cons_of_pos (by simp [hc])]
      by_cases hf : s.state = .found
      · rw [if_pos (Or.inr hf), parse_found num _ hf]
      · rw [if_neg (by simp [hf, hc]), ih]
        rfl

/-- the blocks are read as one text -/
theorem parse_blocks (num : UInt8) (bs : List (List UInt8)) :
    ∀ s, confBlocks num bs s = parse num (shown bs) s := by
  induction bs with
  | nil =>
    intro s
    rfl
  | cons b bs ih =>
    intro s
    have hcons : shown (b :: bs) = b.takeWhile (· ≠ 0) ++ shown bs := rfl
    unfold confBlocks
    rw [hcons, parse_append, parse_block num b s]
    by_cases hf : (parse num (b.takeWhile (· ≠ 0)) s).state = .found
    · rw [if_pos hf, parse_found num _ hf]
    · rw [if_neg hf, ih]

/-! ## one line -/

section
variable (num : UInt8) {l : List UInt8} (hl : newline ∉ l)
include hl

/-- the rest of a line that is ignored -/
theorem parse_ignored {s : Conf} (hs : s.state = .rest ∨ s.state = .comment) : parse num l s = s := by
  induction l with
  | nil => rfl
  | cons c l ih =>
    rw [List.mem_cons, not_or] at hl
    have hc : confChar num c s = s := by
      unfold confChar
      rcases hs with h | h <;> rw [h] <;> exact if_neg (Ne.symm hl.1)
    rw [parse_cons, hc]
    exact ih hl.2

theorem parse_skip {s : Conf} (hs : s.state = .rest ∨ s.state = .comment) (rest : List UInt8) :
    parse num (l ++ newline :: rest) s = parse num rest { s with state := .eol } := by
  have hc : confChar num newline s = { s with state := .eol } := by
    unfold confChar
    rcases hs with h | h <;> rw [h] <;> exact if_pos rfl
  rw [parse_append, parse_ignored num hl hs, parse_cons, hc]

/-- the text of a line that is copied -/
theorem parse_copied (str : List UInt8) : parse num l ⟨.copy, str⟩ = ⟨.copy, str ++ l⟩ := by
  induction l generalizing str with
  | nil => rw [List.append_nil]; rfl
  | cons c l ih =>
    rw [List.mem_cons, not_or] at hl
    have hc : confChar num c ⟨.copy, str⟩ = ⟨.copy, str ++ [c]⟩ := if_neg (Ne.symm hl.1)
    rw [parse_cons, hc, ih hl.2, List.append_assoc]
    rfl

theorem parse_copy (str rest : List UInt8) :
    parse num (l ++ newline :: rest) ⟨.copy, str⟩ = ⟨.found, str ++ l⟩ := by
  have hc : confChar num newline ⟨.copy, str ++ l⟩ = ⟨.found, str ++ l⟩ := rfl
  rw [parse_append, parse_copied num hl, parse_cons, hc, parse_found num rest rfl]

end

/-- the character after a line end, when it is neither `num` nor a dash -/
theorem confChar_other {num c : UInt8} (h1 : c ≠ num) (h2 : c ≠ dash) (str : List UInt8) :
    (confChar num c ⟨.eol, str⟩).str = str ∧ ((confChar num c ⟨.eol, str⟩).state = .rest ∨
      (confChar num c ⟨.eol, str⟩).state = .comment) := by
  unfold confChar
  simp only [if_neg h1, if_neg h2]
  split
  · exact ⟨rfl, Or.inr rfl⟩
  · exact ⟨rfl, Or.inl rfl⟩

theorem parse_matched {num c : UInt8} (hc : c ≠ colon) (rest str : List UInt8) :
    parse num (num :: c :: rest) ⟨.eol, str⟩ = parse num rest ⟨.eol, str⟩ := by
  have h1 : confChar num num ⟨.eol, str⟩ = ⟨.matched, str⟩ := if_pos rfl
  have h2 : confChar num c ⟨.matched, str⟩ = ⟨.eol, str⟩ := if_neg hc
  rw [parse_cons, parse_cons, h1, h2]

theorem parse_skipped {num c : UInt8} (h1 : c ≠ num) (h2 : c ≠ dash) {l : List UInt8}
    (hl : newline ∉ l) (rest str : List UInt8) :
    parse num (c :: (l ++ newline :: rest)) ⟨.eol, str⟩ = parse num rest ⟨.eol, str⟩ := by
  obtain ⟨hstr, hstate⟩ := confChar_other h1 h2 str
  rw [parse_cons, parse_skip num hl hstate, hstr]

/-! ## what is found -/

/-- the parser comes to every place where a line is looked for -/
theorem Seen.parse {num : UInt8} {text rest : List UInt8} (h : Seen num text rest) :
    parse num text ⟨.eol, []⟩ = parse num rest ⟨.eol, []⟩ := by
  induction h with
  | start => rfl
  | matched h hc ih => rw [ih, parse_matched hc]
  | skipped h hnum hdash hl ih => rw [ih, parse_skipped hnum hdash hl]

theorem Stands.parse {num : UInt8} {rest t : List UInt8} (h : Stands num rest t) :
    parse num rest ⟨.eol, []⟩ = ⟨.found, t⟩ := by
  rcases h with ⟨hl, more, rfl⟩ | ⟨hnum, rfl, more, rfl⟩
  · have h1 : confChar num num ⟨.eol, []⟩ = ⟨.matched, []⟩ := if_pos rfl
    have h2 : confChar num colon ⟨.matched, []⟩ = ⟨.copy, []⟩ := rfl
    rw [parse_cons, parse_cons, h1, h2, parse_copy num hl, List.nil_append]
  · have h1 : confChar num dash ⟨.eol, []⟩ = ⟨.found, []⟩ := by
      unfold confChar
      simp only [if_neg (Ne.symm hnum)]
      rfl
    rw [parse_cons, h1, parse_found num more rfl]

/-- a place after which no line is looked for: a line for `num`, an end mark, or what is left of a
text that does not end in a newline -/
inductive Last (num : UInt8) : List UInt8 → Prop
  | line (r : List UInt8) : Last num (num :: colon :: r)
  | mark (r : List UInt8) (h : num ≠ dash) : Last num (dash :: r)
  | done : Last num []
  | alone : Last num [num]
  | tail {c : UInt8} {r : List UInt8} (hnum : c ≠ num) (hdash : c ≠ dash) (hr : newline ∉ r) :
      Last num (c :: r)

/-- the parser comes to a last place -/
theorem Seen.last {num : UInt8} {text : List UInt8} (n : Nat) :
    ∀ rest, rest.length ≤ n → Seen num text rest → ∃ rest', Seen num text rest' ∧ Last num rest' := by
  induction n with
  | zero =>
    intro rest hlen hseen
    obtain rfl := List.length_eq_zero_iff.mp (Nat.le_zero.mp hlen)
    exact ⟨[], hseen, .done⟩
  | succ n ih =>
    intro rest hlen hseen
    match rest with
    | [] => exact ⟨[], hseen, .done⟩
    | c :: r =>
      rw [List.length_cons] at hlen
      by_cases hnum : c = num
      · subst hnum
        match r with
        | [] => exact ⟨[c], hseen, .alone⟩
        | c' :: r' =>
          by_cases hcolon : c' = colon
          · subst hcolon
            exact ⟨_, hseen, .line r'⟩
          · rw [List.length_cons] at hlen
            exact ih r' (by omega) (hseen.matched hcolon)
      · by_cases hdash : c = dash
        · subst hdash
          exact ⟨_, hseen, .mark r (Ne.symm hnum)⟩
        · by_cases hmem : newline ∈ r
          · obtain ⟨l, rest, rfl, hl⟩ := List.eq_append_cons_of_mem hmem
            rw [List.length_append, List.length_cons] at hlen
            exact ih rest (by omega) (hseen.skipped hnum hdash hl)
          · exact ⟨_, hseen, .tail hnum hdash hmem⟩

/-- a text on which the parser ends has a line, or an end mark, at a place where it looks -/
theorem parse_stands {num : UInt8} {text : List UInt8} (hf : (parse num text ⟨.eol, []⟩).state = .found) :
    ∃ rest t, Seen num text rest ∧ Stands num rest t := by
  obtain ⟨rest, hseen, hlast⟩ := Seen.last _ text (le_refl _) .start
  rw [hseen.parse] at hf
  have hstart : confChar num num ⟨.eol, []⟩ = ⟨.matched, []⟩ := if_pos rfl
  cases hlast with
  | line r =>
    by_cases hmem : newline ∈ r
    · obtain ⟨t, more, rfl, ht⟩ := List.eq_append_cons_of_mem hmem
      exact ⟨_, t, hseen, Or.inl ⟨ht, more, rfl⟩⟩
    · have hcolon : confChar num colon ⟨.matched, []⟩ = ⟨.copy, []⟩ := rfl
      rw [parse_cons, parse_cons, hstart, hcolon, parse_copied num hmem] at hf
      cases hf
  | mark r h => exact ⟨_, [], hseen, Or.inr ⟨h, rfl, r, rfl⟩⟩
  | done => cases hf
  | alone =>
    rw [parse_cons, hstart] at hf
    cases hf
  | tail hnum hdash hr =>
    obtain ⟨-, hstate⟩ := confChar_other hnum hdash []
    rw [parse_cons, parse_ignored num hr hstate] at hf
    rcases hstate with h | h <;> rw [h] at hf <;> cases hf

theorem get_default_args_iff (num : UInt8) (blocks : List (List UInt8)) (t : List UInt8) :
    get_default_args (some blocks) num = some t ↔
      ∃ rest, Seen num (shown blocks) rest ∧ Stands num rest t := by
  simp only [get_default_args, parse_blocks num blocks]
  constructor
  · intro h
    by_cases hf : (parse num (shown blocks) ⟨.eol, []⟩).state = .found
    · rw [if_pos hf] at h
      obtain ⟨rest, t', hseen, hstands⟩ := parse_stands hf
      rw [hseen.parse, hstands.parse] at h
      obtain rfl := Option.some.inj h
      exact ⟨rest, hseen, hstands⟩
    · rw [if_neg hf] at h
      cases h
  · rintro ⟨rest, hseen, hstands⟩
    rw [hseen.parse, hstands.parse, if_pos rfl]

/-! ## plain files -/

/-- a line of another preset, a comment, or `num` alone: not blank and no end mark -/
def Plain (num : UInt8) (l : List UInt8) : Prop :=
  newline ∉ l ∧ (l = [num] ∨ ∃ c r, l = c :: r ∧ c ≠ num ∧ c ≠ dash)

/-- plain lines are passed -/
theorem seen_plain {num : UInt8} (hn : newline ≠ colon) (pre post : List (List UInt8)) :
    ∀ text, (∀ l ∈ pre, Plain num l) → Seen num text (textOf (pre ++ post)) →
      Seen num text (textOf post) := by
  induction pre with
  | nil =>
    intro text _ h
    exact h
  | cons l pre ih =>
    intro text hpre h
    apply ih text fun l' hl' => hpre l' (List.mem_cons_of_mem l hl')
    obtain ⟨hl, rfl | ⟨c, r, rfl, hnum, hdash⟩⟩ := hpre l List.mem_cons_self
    · exact Seen.matched h hn
    · apply Seen.skipped (c := c) (l := r) _ hnum hdash fun hm => hl (List.mem_cons_of_mem c hm)
      show Seen num text (c :: (r ++ newline :: textOf (pre ++ post)))
      rw [List.append_cons]
      exact h

/-- with plain lines before it, the line for `num` is found -/
theorem plain_found {num : UInt8} (pre post : List (List UInt8)) (t : List UInt8)
    (hpre : ∀ l ∈ pre, Plain num l) (ht : newline ∉ t) {blocks : List (List UInt8)}
    (hb : blocks.flatten = textOf (pre ++ (num :: colon :: t) :: post)) (h0 : 0 ∉ blocks.flatten) :
    get_default_args (some blocks) num = some t := by
  rw [get_default_args_iff, shown_eq h0, hb]
  refine ⟨_, seen_plain (by decide) pre _ _ hpre .start, Or.inl ⟨ht, textOf post, ?_⟩⟩
  show num :: colon :: t ++ [newline] ++ textOf post = _
  rw [List.append_assoc]
  rfl

/-! ## when the file is read as it is written -/

/-- the line for `num` stands at a place where the parser looks for a line, or an end mark does and
that line has no text; if there is no such line, neither `num:` nor an end mark stands at one -/
def SeenAs (num : UInt8) (lines : List (List UInt8)) : Prop :=
  match claimed num lines with
  | some t => ∃ rest, Seen num (textOf lines) rest ∧ Stands num rest t
  | none => ∀ rest, Seen num (textOf lines) rest → ∀ t, ¬ Stands num rest t

/-- **When `get_default_args` finds what the file says.**  For every file of lines without NULs,
cut into blocks in any way, and every character. -/
theorem config_exact_iff (num : UInt8) (lines blocks : List (List UInt8))
    (hlines : ∀ l ∈ lines, newline ∉ l ∧ 0 ∉ l) (hb : blocks.flatten = textOf lines) :
    get_default_args (some blocks) num = claimed num lines ↔ SeenAs num lines := by
  have hshown : shown blocks = textOf lines := by
    rw [← hb]
    apply shown_eq
    rw [hb]
    intro h
    obtain ⟨l, hl, hm⟩ := List.mem_flatMap.mp h
    rcases List.mem_append.mp hm with hm | hm
    · exact (hlines l hl).2 hm
    · exact absurd (List.mem_singleton.mp hm) (by decide)
  unfold SeenAs
  cases claimed num lines with
  | some t => rw [get_default_args_iff, hshown]
  | none =>
    rw [Option.eq_none_iff_forall_ne_some]
    constructor
    · intro h rest hseen t hstands
      exact h t ((get_default_args_iff num blocks t).mpr ⟨rest, hshown ▸ hseen, hstands⟩)
    · intro h t ht
      obtain ⟨rest, hseen, hstands⟩ := (get_default_args_iff num blocks t).mp ht
      exact h rest (hshown ▸ hseen) t hstands

theorem config_exact_iff_two :
    (∀ l ∈ [[35, 49], [49, 58, 107, 32, 97]], newline ∉ l ∧ (0 : UInt8) ∉ l) ∧
      [[35, 49, 10, 49], [58, 107, 32, 97, 10]].flatten = textOf [[35, 49], [49, 58, 107, 32, 97]] ∧
      (get_default_args (some [[35, 49, 10, 49], [58, 107, 32, 97, 10]]) 49
          = claimed 49 [[35, 49], [49, 58, 107, 32, 97]]
        ↔ SeenAs 49 [[35, 49], [49, 58, 107, 32, 97]]) := by
  have hlines : ∀ l ∈ [[35, 49], [49, 58, 107, 32, 97]], newline ∉ l ∧ (0 : UInt8) ∉ l := by decide
  have hb : [[35, 49, 10, 49], [58, 107, 32, 97, 10]].flatten
      = textOf [[35, 49], [49, 58, 107, 32, 97]] := by decide
  exact ⟨hlines, hb, config_exact_iff 49 _ _ hlines hb⟩

/-- a blank line: the line after it is ignored -/
theorem blank_line_swallows :
    (∀ l ∈ [[], [49, 58, 107]], newline ∉ l ∧ (0 : UInt8) ∉ l) ∧
      [[10, 49, 58, 107, 10]].flatten = textOf [[], [49, 58, 107]] ∧
      claimed 49 [[], [49, 58, 107]] = some [107] ∧
      get_default_args (some [[10, 49, 58, 107, 10]]) 49 = none := by
  decide

end Options
