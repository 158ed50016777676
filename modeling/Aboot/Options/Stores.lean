import Aboot.Options.BootLine
import Aboot.Options.Config
import Aboot.Options.InitrdArg

/-!
# The stores into the option buffers

Every store of `get_default_args` and `get_aboot_options` into `buf`, `kernel_args`, `boot_file`
and `initrd_file`, in the order in which they are made: `optionStores`.

* `config_stores_iff`   when the text of a configuration file has room in `buf`;
* `end_stores_iff`      when what comes after the loop has room: the extra arguments, the split, the
  initrd option and the partition number.
-/

set_option linter.unusedVariables false

namespace Options
open CString

/-! ## the stores -/

inductive Buffer where
  | buf | kernel_args | boot_file | initrd_file
deriving DecidableEq

/-- `n` characters from an index on -/
structure Store where
  buffer : Buffer
  start : Nat
  n : Nat

/-- every index is below 256 -/
def Store.Fits (t : Store) : Prop := t.start + t.n ≤ SIZE

instance (t : Store) : Decidable t.Fits := inferInstanceAs (Decidable (_ ≤ _))

/-- `strcpy`, with its NUL -/
abbrev strcpyStore (b : Buffer) (a : Nat) (s : List UInt8) : Store := ⟨b, a, s.length + 1⟩

/-- state 4 stores the character, or a NUL -/
def confCharStores (s : Conf) : List Store :=
  if s.state = .copy then [⟨.buf, s.str.length, 1⟩] else []

def confBlockStores (num : UInt8) : List UInt8 → Conf → List Store
  | [], _ => []
  | c :: cs, s =>
    if c = 0 ∨ s.state = .found then []
    else confCharStores s ++ confBlockStores num cs (confChar num c s)

def confBlocksStores (num : UInt8) : List (List UInt8) → Conf → List Store
  | [], _ => []
  | b :: bs, s =>
    confBlockStores num b s ++
      if (confBlock num b s).state = .found then []
      else confBlocksStores num bs (confBlock num b s)

/-- `get_default_args`, with `buf` for `str` -/
def defaultArgsStores (fs : Config) (num : UInt8) : List Store :=
  ⟨.buf, 0, 1⟩ :: match fs with
    | none => []
    | some blocks => confBlocksStores num blocks ⟨.eol, []⟩

/-- the first part of a round -/
def tryPresetStores (D : Disk) (s : Opts) : List Store :=
  if s.preset = 0 then []
  else
    match (mountConf D s).fs with
    | none => []
    | some fs => defaultArgsStores fs s.preset

/-- the second part of a round -/
def commandStores (line : List UInt8) : List Store :=
  match line.head?, after line with
  | some c, some p =>
    if c = 'b'.toUInt8 then [strcpyStore .buf 0 p]
    else if c = 'i'.toUInt8 then [strcpyStore .initrd_file 0 p]
    else if digit c then [strcpyStore .kernel_args 0 p]
    else []
  | _, _ => []

/-- the loop; `getline` stores the line -/
def loopStores (D : Disk) : List (List UInt8) → Opts → List Store
  | [], s =>
    tryPresetStores D s ++ match tryPreset D s with
      | (some _, _) => []
      | (none, _) => [⟨.kernel_args, 0, 1⟩]
  | line :: lines, s =>
    tryPresetStores D s ++ match tryPreset D s with
      | (some _, _) => []
      | (none, s) =>
        ⟨.kernel_args, 0, 1⟩ :: strcpyStore .buf 0 line :: (commandStores line ++
          match command D line (clearArgs s) with
          | .next s => loopStores D lines s
          | _ => [])

/-- the extra arguments behind `buf` -/
def withExtraStores (buf : List UInt8) (s : Opts) : List Store :=
  match s.extra_args with
  | none => []
  | some a => [⟨.buf, buf.length, 1⟩, strcpyStore .buf (buf.length + 1) (s.args a)]

/-- the split into kernel and arguments -/
def splitStores (buf : List UInt8) : List Store :=
  match after buf with
  | some p =>
    [⟨.buf, (word buf).length, 1⟩, strcpyStore .kernel_args 0 p, strcpyStore .boot_file 0 (word buf)]
  | none => [strcpyStore .boot_file 0 buf]

/-- the `initrd=` option -/
def parseInitrdStores (v : Vars) : List Store :=
  let p := findInitrd v SIZE 0
  if v.kernel_args p = 0 then []
  else if blank ∈ v.args (p + 7) then
    [⟨.initrd_file, 0, (word (v.args (p + 7))).length⟩,
      ⟨.initrd_file, (word (v.args (p + 7))).length, 1⟩,
      strcpyStore .kernel_args p ((v.args (p + 7)).dropWhile (· ≠ blank))]
  else [strcpyStore .initrd_file 0 (v.args (p + 7)), ⟨.kernel_args, p, 1⟩]

/-- the partition number -/
def parsePartStores (v : Vars) : List Store :=
  match v.boot_file with
  | c :: c' :: rest => if digit c ∧ c' = '/'.toUInt8 then [strcpyStore .boot_file 0 rest] else []
  | _ => []

/-- what comes after the loop -/
def restStores (v : Vars) : List Store := parseInitrdStores v ++ parsePartStores (parseInitrd v)

def endStores (buf : List UInt8) (s : Opts) : List Store :=
  withExtraStores buf s ++ (splitStores (withExtra buf s) ++
    restStores (splitLine (withExtra buf s) s.toVars))

def loopEndStores (D : Disk) (lines : List (List UInt8)) (s : Opts) : List Store :=
  match optionLoop D lines s with
  | .done buf s _ => endStores buf s
  | _ => []

/-- `get_aboot_options` -/
def optionStores (D : Disk) (lines : List (List UInt8)) (v : Vars) : List Store :=
  if (parseFlags v).preset ≠ 0 ∨ (parseFlags v).interactive then
    loopStores D lines (parseFlags v) ++ loopEndStores D lines (parseFlags v)
  else restStores (parseFlags v).toVars

/-- all stay inside -/
def AllFit (l : List Store) : Prop := ∀ t ∈ l, t.Fits

instance (l : List Store) : Decidable (AllFit l) := inferInstanceAs (Decidable (∀ t ∈ l, _))

theorem allFit_nil : AllFit [] := fun _ h => nomatch h

theorem allFit_cons {t : Store} {l : List Store} : AllFit (t :: l) ↔ t.start + t.n ≤ SIZE ∧ AllFit l :=
  List.forall_mem_cons

theorem allFit_append {l m : List Store} : AllFit (l ++ m) ↔ AllFit l ∧ AllFit m :=
  List.forall_mem_append

/-! ## the text of a preset -/

/-- the text after `num:`, and its newline, have room in `buf` -/
def TextFits (num : UInt8) (blocks : List (List UInt8)) : Prop :=
  ∀ r, Seen num (shown blocks) (num :: colon :: r) →
    (r.takeWhile (· ≠ newline)).length + (if newline ∈ r then 1 else 0) ≤ SIZE

/-- the stores of the characters one after the other -/
def parseStores (num : UInt8) : List UInt8 → Conf → List Store
  | [], _ => []
  | c :: text, s => confCharStores s ++ parseStores num text (confChar num c s)

theorem parseStores_append (num : UInt8) (l text : List UInt8) : ∀ s, parseStores num (l ++ text) s
    = parseStores num l s ++ parseStores num text (parse num l s) := by
  induction l with
  | nil =>
    intro s
    rfl
  | cons c l ih =>
    intro s
    show confCharStores s ++ parseStores num (l ++ text) (confChar num c s) = _
    rw [ih, ← List.append_assoc]
    rfl

theorem parseStores_found (num : UInt8) (text : List UInt8) {s : Conf} (h : s.state = .found) :
    parseStores num text s = [] := by
  induction text with
  | nil => rfl
  | cons c text ih =>
    have hc : confChar num c s = s := by
      unfold confChar
      rw [h]
    have h0 : confCharStores s = [] := by
      unfold confCharStores
      rw [if_neg (by rw [h]; decide)]
    show confCharStores s ++ parseStores num text (confChar num c s) = []
    rw [hc, ih, h0, List.nil_append]

theorem parseStores_block (num : UInt8) (b : List UInt8) :
    ∀ s, confBlockStores num b s = parseStores num (b.takeWhile (· ≠ 0)) s := by
  induction b with
  | nil =>
    intro s
    rfl
  | cons c b ih =>
    intro s
    unfold confBlockStores
    by_cases hc : c = 0
    · rw [if_pos (Or.inl hc), List.takeWhile_cons_of_neg (by simp [hc])]
      rfl
    · rw [List.takeWhile_cons_of_pos (by simp [hc])]
      by_cases hf : s.state = .found
      · rw [if_pos (Or.inr hf), parseStores_found num _ hf]
      · rw [if_neg (by simp [hf, hc]), ih]
        rfl

theorem parseStores_blocks (num : UInt8) (bs : List (List UInt8)) :
    ∀ s, confBlocksStores num bs s = parseStores num (shown bs) s := by
  induction bs with
  | nil =>
    intro s
    rfl
  | cons b bs ih =>
    intro s
    have hcons : shown (b :: bs) = b.takeWhile (· ≠ 0) ++ shown bs := rfl
    unfold confBlocksStores
    rw [hcons, parseStores_append, parseStores_block, parse_block num b s]
    congr 1
    by_cases hf : (parse num (b.takeWhile (· ≠ 0)) s).state = .found
    · rw [if_pos hf, parseStores_found num _ hf]
    · rw [if_neg hf, ih]

/-- a line that is ignored is not stored -/
theorem parseStores_ignored (num : UInt8) {l : List UInt8} (hl : newline ∉ l) {s : Conf}
    (hs : s.state = .rest ∨ s.state = .comment) : parseStores num l s = [] := by
  have h0 : confCharStores s = [] := by
    unfold confCharStores
    rcases hs with h | h <;> exact if_neg (by rw [h]; decide)
  induction l with
  | nil => rfl
  | cons c l ih =>
    rw [List.mem_cons, not_or] at hl
    have hc : confChar num c s = s := by
      unfold confChar
      rcases hs with h | h <;> rw [h] <;> exact if_neg (Ne.symm hl.1)
    show confCharStores s ++ parseStores num l (confChar num c s) = []
    rw [hc, ih hl.2, h0, List.nil_append]

/-- up to a place where a line is looked for, nothing is stored -/
theorem Seen.stores {num : UInt8} {text rest : List UInt8} (h : Seen num text rest) :
    parseStores num text ⟨.eol, []⟩ = parseStores num rest ⟨.eol, []⟩ := by
  induction h with
  | start => rfl
  | @matched c rest h hc ih =>
    have h1 : confChar num num ⟨.eol, []⟩ = ⟨.matched, []⟩ := if_pos rfl
    have h2 : confChar num c ⟨.matched, []⟩ = ⟨.eol, []⟩ := if_neg hc
    rw [ih]
    show parseStores num (c :: rest) (confChar num num ⟨.eol, []⟩) = _
    rw [h1]
    show parseStores num rest (confChar num c ⟨.matched, []⟩) = _
    rw [h2]
  | @skipped c l rest h hnum hdash hl ih =>
    obtain ⟨hstr, hstate⟩ := confChar_other hnum hdash []
    have hnl : confCharStores (confChar num c ⟨.eol, []⟩) = [] := by
      unfold confCharStores
      rcases hstate with h | h <;> exact if_neg (by rw [h]; decide)
    have hend : confChar num newline (confChar num c ⟨.eol, []⟩) = ⟨.eol, []⟩ := by
      have hskip := parse_skip num (List.not_mem_nil (a := newline)) hstate []
      rw [hstr] at hskip
      exact hskip
    rw [ih]
    show parseStores num (l ++ newline :: rest) (confChar num c ⟨.eol, []⟩) = _
    rw [parseStores_append, parseStores_ignored num hl hstate, parse_ignored num hl hstate]
    show confCharStores (confChar num c ⟨.eol, []⟩) ++ parseStores num rest
      (confChar num newline (confChar num c ⟨.eol, []⟩)) = _
    rw [hnl, hend, List.nil_append]

/-- the characters of a line that is copied -/
theorem copied_stores_iff (num : UInt8) (r : List UInt8) : ∀ str : List UInt8, str.length ≤ SIZE →
    (AllFit (parseStores num r ⟨.copy, str⟩) ↔
      str.length + ((r.takeWhile (· ≠ newline)).length + if newline ∈ r then 1 else 0) ≤ SIZE) := by
  induction r with
  | nil =>
    intro str hstr
    exact iff_of_true allFit_nil hstr
  | cons c r ih =>
    intro str hstr
    show AllFit (⟨.buf, str.length, 1⟩ :: parseStores num r (confChar num c ⟨.copy, str⟩)) ↔ _
    rw [allFit_cons]
    by_cases hc : c = newline
    · subst hc
      have hfound : confChar num newline ⟨.copy, str⟩ = ⟨.found, str⟩ := rfl
      rw [hfound, parseStores_found num r rfl, List.takeWhile_cons_of_neg (by simp),
        if_pos List.mem_cons_self]
      exact and_iff_left allFit_nil
    · have hcopy : confChar num c ⟨.copy, str⟩ = ⟨.copy, str ++ [c]⟩ := if_neg hc
      have hmem : newline ∈ c :: r ↔ newline ∈ r := by
        rw [List.mem_cons, or_iff_right (Ne.symm hc)]
      have hlen : (str ++ [c]).length = str.length + 1 := by simp
      rw [hcopy, List.takeWhile_cons_of_pos (by simpa using hc), if_congr hmem rfl rfl,
        List.length_cons]
      constructor
      · rintro ⟨(h1 : str.length + 1 ≤ SIZE), h2⟩
        have h3 := (ih (str ++ [c]) (by omega)).mp h2
        omega
      · intro h
        have h1 : str.length + 1 ≤ SIZE := by omega
        refine ⟨h1, (ih (str ++ [c]) (by omega)).mpr ?_⟩
        omega

/-- the text of a configuration file -/
theorem config_stores_iff (num : UInt8) (blocks : List (List UInt8)) :
    AllFit (defaultArgsStores (some blocks) num) ↔ TextFits num blocks := by
  have hcopy : ∀ r, parseStores num (num :: colon :: r) ⟨.eol, []⟩
      = parseStores num r ⟨.copy, []⟩ := by
    intro r
    have h1 : confChar num num ⟨.eol, []⟩ = ⟨.matched, []⟩ := if_pos rfl
    show parseStores num (colon :: r) (confChar num num ⟨.eol, []⟩) = _
    rw [h1]
    rfl
  have hfirst : AllFit (defaultArgsStores (some blocks) num)
      ↔ AllFit (parseStores num (shown blocks) ⟨.eol, []⟩) := by
    show AllFit (⟨.buf, 0, 1⟩ :: confBlocksStores num blocks ⟨.eol, []⟩) ↔ _
    rw [allFit_cons, parseStores_blocks]
    exact and_iff_right (by decide)
  rw [hfirst]
  constructor
  · intro h r hseen
    rw [hseen.stores, hcopy, copied_stores_iff num r [] (by decide), List.length_nil,
      Nat.zero_add] at h
    exact h
  · intro h
    obtain ⟨rest, hseen, hlast⟩ := Seen.last _ (shown blocks) (le_refl _) .start
    rw [hseen.stores]
    cases hlast with
    | line r =>
      rw [hcopy, copied_stores_iff num r [] (by decide), List.length_nil, Nat.zero_add]
      exact h r hseen
    | mark r hnum =>
      have h1 : confChar num dash ⟨.eol, []⟩ = ⟨.found, []⟩ := by
        unfold confChar
        simp only [if_neg (Ne.symm hnum)]
        rfl
      show AllFit (parseStores num r (confChar num dash ⟨.eol, []⟩))
      rw [h1, parseStores_found num r rfl]
      exact allFit_nil
    | done => exact allFit_nil
    | alone => exact allFit_nil
    | @tail c r hnum hdash hr =>
      show AllFit (parseStores num r (confChar num c ⟨.eol, []⟩))
      rw [parseStores_ignored num hr (confChar_other hnum hdash []).2]
      exact allFit_nil

/-! ## the end -/

/-- an argument that is read past the string, where there is no `initrd=` but a stale byte, has
room in `initrd_file`, and what follows it in `kernel_args` -/
def InitrdFits (m : Mem) : Prop :=
  firstInitrd (str SIZE m 0) = none → m ((str SIZE m 0).length + 1) ≠ 0 →
    (word (str SIZE m ((str SIZE m 0).length + 8))).length < SIZE ∧
      (str SIZE m 0).length + 1 +
        ((str SIZE m ((str SIZE m 0).length + 8)).dropWhile (· ≠ blank)).length < SIZE

theorem parseInitrd_boot_file (v : Vars) : (parseInitrd v).boot_file = v.boot_file := by
  unfold parseInitrd
  simp only
  repeat' split
  all_goals rfl

/-- the stores for an argument at `p`, with or without more behind it -/
theorem argument_stores_iff {v : Vars} {p : Nat} (hp : findInitrd v SIZE 0 = p)
    (h0 : v.kernel_args p ≠ 0) : AllFit (parseInitrdStores v) ↔
      (word (v.args (p + 7))).length < SIZE ∧
        p + ((v.args (p + 7)).dropWhile (· ≠ blank)).length < SIZE := by
  unfold parseInitrdStores
  rw [hp]
  simp only [if_neg h0]
  by_cases hb : blank ∈ v.args (p + 7)
  · rw [if_pos hb, allFit_cons, allFit_cons, allFit_cons, and_iff_left allFit_nil]
    simp only
    omega
  · rw [if_neg hb, allFit_cons, allFit_cons, and_iff_left allFit_nil, word_of_not_mem hb,
      dropWhile_of_not_mem hb]
    simp only [List.length_nil]
    omega

theorem initrd_stores_iff {v : Vars} (h : (v.args 0).length < SIZE) :
    AllFit (parseInitrdStores v) ↔ InitrdFits v.kernel_args := by
  cases hp : firstInitrd (v.args 0) with
  | some p =>
    have hmem := List.mem_range.mp (List.mem_of_find?_eq_some hp)
    have hlen := firstInitrd_le hp
    have hfit : AllFit (parseInitrdStores v) := by
      rw [argument_stores_iff (findInitrd_hit h hp) (args_ne_zero hmem), args_drop h hlen]
      have h1 := length_word_le ((v.args 0).drop (p + 7))
      have h2 := (List.dropWhile_sublist (l := (v.args 0).drop (p + 7)) (· ≠ blank)).length_le
      rw [List.length_drop] at h1 h2
      omega
    refine iff_of_true hfit fun hnone => ?_
    rw [show str SIZE v.kernel_args 0 = v.args 0 from rfl, hp] at hnone
    cases hnone
  | none =>
    by_cases h0 : v.kernel_args ((v.args 0).length + 1) = 0
    · have hnil : parseInitrdStores v = [] := by
        unfold parseInitrdStores
        simp only [findInitrd_miss h hp, if_pos h0]
      rw [hnil]
      exact iff_of_true allFit_nil fun _ hne => absurd h0 hne
    · rw [argument_stores_iff (findInitrd_miss h hp) h0]
      constructor
      · intro hfit _ _
        exact hfit
      · intro hfit
        exact hfit hp h0

/-- the partition number and the `/` are cut off `boot_file` -/
theorem part_stores_fit {v : Vars} (h : v.boot_file.length < SIZE) : AllFit (parsePartStores v) := by
  unfold parsePartStores
  split
  · rename_i c c' rest hb
    rw [hb, List.length_cons, List.length_cons] at h
    split
    · rw [allFit_cons]
      exact ⟨show 0 + (rest.length + 1) ≤ SIZE by omega, allFit_nil⟩
    · exact allFit_nil
  · exact allFit_nil

theorem rest_stores_iff {v : Vars} (h : (v.args 0).length < SIZE) (hb : v.boot_file.length < SIZE) :
    AllFit (restStores v) ↔ InitrdFits v.kernel_args := by
  unfold restStores
  rw [allFit_append, initrd_stores_iff h]
  exact and_iff_left (part_stores_fit (by rwa [parseInitrd_boot_file]))

theorem split_stores_fit {line : List UInt8} (h : line.length < SIZE) : AllFit (splitStores line) := by
  unfold splitStores
  split
  · rename_i p hp
    have h1 := length_after_le hp
    have h2 := length_word_le line
    rw [allFit_cons, allFit_cons, allFit_cons]
    refine ⟨?_, ?_, ?_, allFit_nil⟩
    · show (word line).length + 1 ≤ SIZE
      omega
    · show 0 + (p.length + 1) ≤ SIZE
      omega
    · show 0 + ((word line).length + 1) ≤ SIZE
      omega
  · rw [allFit_cons]
    exact ⟨show 0 + (line.length + 1) ≤ SIZE by omega, allFit_nil⟩

theorem extra_stores_iff {buf : List UInt8} (hbuf : buf.length < SIZE) (s : Opts) :
    AllFit (withExtraStores buf s) ↔ (withExtra buf s).length < SIZE := by
  unfold withExtraStores withExtra
  cases s.extra_args with
  | none => exact iff_of_true allFit_nil hbuf
  | some a =>
    simp only
    rw [allFit_cons, allFit_cons, and_iff_left allFit_nil, List.length_append, List.length_cons]
    simp only
    omega

/-- what comes after the loop, with `buf` and the locals as the loop leaves them -/
theorem end_stores_iff {buf : List UInt8} {s : Opts} (hbuf : buf.length < SIZE)
    (hz : 0 ∉ withExtra buf s) (hargs : (s.args 0).length < SIZE) :
    AllFit (endStores buf s) ↔ (withExtra buf s).length < SIZE ∧
      InitrdFits (splitLine (withExtra buf s) s.toVars).kernel_args := by
  unfold endStores
  rw [allFit_append, allFit_append, extra_stores_iff hbuf]
  refine and_congr_right fun hlen => ?_
  obtain ⟨h1, h2⟩ := splitLine_spec (v := s.toVars) hz hlen
  rw [and_iff_right (split_stores_fit hlen)]
  apply rest_stores_iff
  · rw [h2]
    cases ha : after (withExtra buf s) with
    | some p => exact lt_of_le_of_lt (length_after_le ha) hlen
    | none => exact hargs
  · rw [h1]
    exact lt_of_le_of_lt (length_word_le _) hlen

end Options
