import Aboot.Vsprintf.Number

/-!
# lib/vsprintf.c: formats

`vsprintf` reads its format once, from the start to the end.  The format is the text of a list of pieces, and what is
written is what the pieces mean, one behind the other.

* `loop`                  `vsprintf`, character by character;
* `Piece`, `render`       a format as a tree, and its meaning: one field for each conversion;
* `InRange`               no int overflows on the way;
* `convert_eq`            the loops of a conversion then write that field;
* `directive_read`        the loop reads a directive as it was written;
* `vsprintf_pieces`       the text of the pieces is formatted as they mean.
-/

set_option linter.unusedVariables false

namespace Vsprintf
open Word

/-! ## the source -/

inductive Qualifier
  | h
  | l
  | L

/-- an argument: a word of the argument list, or the string that it points to, if it is not null -/
inductive Arg
  | word (x : Int)
  | str (s : Option (List UInt8))

/-- what a `%n` stores: the pointer, whether it is one to a long, and the value -/
structure Store where
  ip : Int
  long : Bool
  value : Int

/-- what is written up to `str`, and stored through pointers -/
structure Out where
  str : List UInt8
  stored : List Store

/-- the flags, and the character behind them -/
def flagLoop : Flags → List UInt8 → Flags × List UInt8
  | flags, 45 :: fmt => flagLoop { flags with LEFT := true } fmt
  | flags, 43 :: fmt => flagLoop { flags with PLUS := true } fmt
  | flags, 32 :: fmt => flagLoop { flags with SPACE := true } fmt
  | flags, 35 :: fmt => flagLoop { flags with SPECIAL := true } fmt
  | flags, 48 :: fmt => flagLoop { flags with ZEROPAD := true } fmt
  | flags, fmt => (flags, fmt)

/-- `va_arg(args, int)` -/
def argInt : List Arg → Option (Int × List Arg)
  | .word x :: args => some (sgn 32 x, args)
  | _ => none

/-- a negative width is a flag and a width -/
def setWidth (flags : Flags) (x : Int) : Int × Flags :=
  if x < 0 then (sgn 32 (-x), { flags with LEFT := true }) else (x, flags)

/-- the field width; no result where it is an argument that is not there -/
def fieldWidth (flags : Flags) (args : List Arg) : List UInt8 → Option ((Int × Flags) × List UInt8 × List Arg)
  | [] => some ((-1, flags), [], args)
  | c :: fmt =>
    if is_digit c then
      let r := skip_atoi 0 (c :: fmt)
      some ((r.1, flags), r.2, args)
    else if c = 42 then (argInt args).map fun r => (setWidth flags r.1, fmt, r.2)
    else some ((-1, flags), c :: fmt, args)

/-- the precision behind its point -/
def behindPoint (args : List Arg) : List UInt8 → Option (Int × List UInt8 × List Arg)
  | [] => some (-1, [], args)
  | c :: fmt =>
    if is_digit c then
      let r := skip_atoi 0 (c :: fmt)
      some (r.1, r.2, args)
    else if c = 42 then (argInt args).map fun r => (r.1, fmt, r.2)
    else some (-1, c :: fmt, args)

def getPrecision (args : List Arg) : List UInt8 → Option (Int × List UInt8 × List Arg)
  | [] => some (-1, [], args)
  | c :: fmt =>
    if c = 46 then (behindPoint args fmt).map fun r => (if r.1 < 0 then 0 else r.1, r.2)
    else some (-1, c :: fmt, args)

def getQualifier : List UInt8 → Option Qualifier × List UInt8
  | 104 :: fmt => (some .h, fmt)
  | 108 :: fmt => (some .l, fmt)
  | 76 :: fmt => (some .L, fmt)
  | fmt => (none, fmt)

/-- `while (--field_width > 0) *str++ = ' '` -/
def padChar (field_width : Int) : List UInt8 × Int :=
  let field_width := sgn 32 (field_width - 1)
  (List.replicate field_width.toNat SP, if 0 < field_width then 0 else field_width)

def charText (flags : Flags) (field_width : Int) (c : UInt8) : List UInt8 :=
  let before := if flags.LEFT then ([], field_width) else padChar field_width
  before.1 ++ [c] ++ (padChar before.2).1

/-- `while (len < field_width--) *str++ = ' '` -/
def padString (len field_width : Int) : List UInt8 × Int :=
  (List.replicate (field_width - len).toNat SP, sgn 32 (if len < field_width then len - 1 else field_width - 1))

/-- `<NULL>` -/
def nullText : List UInt8 := [60, 78, 85, 76, 76, 62]

def stringText (flags : Flags) (field_width precision : Int) (s : Option (List UInt8)) : List UInt8 :=
  let s := s.getD nullText
  let len := sgn 32 (min s.length (uns 64 precision) : Nat)
  let before := if flags.LEFT then ([], field_width) else padString len field_width
  before.1 ++ s.take len.toNat ++ (padString len before.2).1

/-- the value of an integer argument -/
def argNum (qualifier : Option Qualifier) (flags : Flags) : List Arg → Option (Int × List Arg)
  | .word x :: args =>
    match qualifier with
    | some .l => some (sgn 64 x, args)
    | _ => if flags.SIGN then some (sgn 32 x, args) else some (uns 32 x, args)
  | _ => none

/-- the conversions of an integer, behind the `switch` -/
def integer (qualifier : Option Qualifier) (flags : Flags) (field_width precision : Int) (base : Nat)
    (args : List Arg) : Option (List UInt8 × List Store × List Arg) := do
  let (num, args) ← argNum qualifier flags args
  let t ← number num base field_width precision flags
  pure (t, [], args)

/-- what a `%n` stores: an int, or a long -/
def storeCount (pos : Nat) (qualifier : Option Qualifier) (ip : Int) : Store :=
  match qualifier with
  | some .l => ⟨ip, true, sgn 64 pos⟩
  | _ => ⟨ip, false, sgn 32 pos⟩

/-- one conversion: the text, what is stored, and the arguments that are left; `pos` is `str - buf` -/
def convert (pos : Nat) (qualifier : Option Qualifier) (flags : Flags) (field_width precision : Int)
    (args : List Arg) : UInt8 → Option (List UInt8 × List Store × List Arg)
  | 99 => (argInt args).map fun r => (charText flags field_width (UInt8.ofNat (uns 8 r.1)), [], r.2)
  | 115 =>
    match args with
    | .str s :: args => some (stringText flags field_width precision s, [], args)
    | _ => none
  | 112 =>
    match args with
    | .word x :: args =>
      let w := if field_width = -1 then (16, { flags with ZEROPAD := true }) else (field_width, flags)
      (number (sgn 64 x) 16 w.1 precision w.2).map fun t => (t, [], args)
    | _ => none
  | 110 =>
    match args with
    | .word x :: args => some ([], [storeCount pos qualifier x], args)
    | _ => none
  | 111 => integer qualifier flags field_width precision 8 args
  | 88 => integer qualifier { flags with LARGE := true } field_width precision 16 args
  | 120 => integer qualifier flags field_width precision 16 args
  | 100 => integer qualifier { flags with SIGN := true } field_width precision 10 args
  | 105 => integer qualifier { flags with SIGN := true } field_width precision 10 args
  | 117 => integer qualifier flags field_width precision 10 args
  | c => some (if c ≠ 37 then [37, c] else [c], [], args)

/-- what is behind a `%`; at the end of the format the `%` is written -/
def directive (out : Out) (fmt : List UInt8) (args : List Arg) : Option (Out × List UInt8 × List Arg) := do
  let (flags, fmt) := flagLoop {} fmt
  let ((field_width, flags), fmt, args) ← fieldWidth flags args fmt
  let (precision, fmt, args) ← getPrecision args fmt
  let (qualifier, fmt) := getQualifier fmt
  match fmt with
  | [] => pure (⟨out.str ++ [37], out.stored⟩, [], args)
  | c :: fmt =>
    let (t, stored, args) ← convert out.str.length qualifier flags field_width precision args c
    pure (⟨out.str ++ t, out.stored ++ stored⟩, fmt, args)

def loop : (fuel : Nat) → (fmt : List UInt8) → List Arg → Out → Option Out
  | _, [], _, out => some out
  | 0, _ :: _, _, _ => none
  | fuel + 1, c :: fmt, args, out =>
    if c ≠ 37 then loop fuel fmt args ⟨out.str ++ [c], out.stored⟩
    else do
      let (out, fmt, args) ← directive out fmt args
      loop fuel fmt args out

/-- what is written to `buf`, without the zero at the end -/
def vsprintf (fmt : List UInt8) (args : List Arg) : Option Out := loop fmt.length fmt args ⟨[], []⟩

/-! ## a format as a tree -/

inductive Flag
  | left
  | plus
  | space
  | special
  | zeropad

def Flag.char : Flag → UInt8
  | .left => 45
  | .plus => 43
  | .space => 32
  | .special => 35
  | .zeropad => 48

def Flag.set (flags : Flags) : Flag → Flags
  | .left => { flags with LEFT := true }
  | .plus => { flags with PLUS := true }
  | .space => { flags with SPACE := true }
  | .special => { flags with SPECIAL := true }
  | .zeropad => { flags with ZEROPAD := true }

def Qualifier.char : Qualifier → UInt8
  | .h => 104
  | .l => 108
  | .L => 76

/-- a width or a precision: a number, or the next argument -/
inductive Count
  | number (n : Nat) (h : n < 2147483648)
  | star

def Count.text : Count → List UInt8
  | .number n _ => numeral false 10 n
  | .star => [42]

/-- the characters that are read in front of a conversion -/
def reserved (c : UInt8) : Bool :=
  is_digit c || c = 45 || c = 43 || c = 32 || c = 35 || c = 42 || c = 46 || c = 104 || c = 108 || c = 76

/-- a width is not the number zero, as its zero would be a flag -/
structure Directive where
  flags : List Flag
  width : Option Count
  precision : Option (Option Count)
  qualifier : Option Qualifier
  conv : UInt8
  width_ok : ∀ h, width ≠ some (.number 0 h)
  conv_ok : reserved conv = false
  conv_ne : conv ≠ 0

def Directive.text (d : Directive) : List UInt8 :=
  37 :: (d.flags.map Flag.char ++ ((d.width.map Count.text).getD [] ++
    ((d.precision.map fun p => 46 :: (p.map Count.text).getD []).getD [] ++
      ((d.qualifier.map fun q => [q.char]).getD [] ++ [d.conv]))))

inductive Piece
  | lit (c : UInt8) (h : c ≠ 37) (hc : c ≠ 0)
  | dir (d : Directive)

def Piece.text : Piece → List UInt8
  | .lit c _ _ => [c]
  | .dir d => d.text

/-- the value of a width or a precision -/
def Count.value (args : List Arg) : Count → Option (Int × List Arg)
  | .number n _ => some (n, args)
  | .star => argInt args

/-- the width, with the flags -/
def widthOf (flags : Flags) (args : List Arg) : Option Count → Option ((Int × Flags) × List Arg)
  | none => some ((-1, flags), args)
  | some w => (w.value args).map fun r => (setWidth flags r.1, r.2)

def precisionOf (args : List Arg) : Option (Option Count) → Option (Int × List Arg)
  | none => some (-1, args)
  | some none => some (0, args)
  | some (some p) => (p.value args).map fun r => (if r.1 < 0 then 0 else r.1, r.2)

/-- the field of a character or a string -/
def textField (flags : Flags) (field_width : Int) (s : List UInt8) : List UInt8 :=
  field { LEFT := flags.LEFT } field_width [] s

/-- the field of an integer -/
def numField (flags : Flags) (field_width precision : Int) (base : Nat) (num : Int) : List UInt8 :=
  field flags field_width (head flags num base) (body flags num base precision)

/-- the meaning of a conversion; a precision of -1 is no limit on a string -/
def meaning (pos : Nat) (qualifier : Option Qualifier) (flags : Flags) (field_width precision : Int)
    (args : List Arg) (conv : UInt8) : Option (List UInt8 × List Store × List Arg) :=
  let int (flags : Flags) (base : Nat) :=
    (argNum qualifier flags args).map fun r => (numField flags field_width precision base r.1, [], r.2)
  match conv, args with
  | 99, .word x :: args => some (textField flags field_width [UInt8.ofNat (uns 8 (sgn 32 x))], [], args)
  | 115, .str s :: args => some (textField flags field_width ((s.getD nullText).take (uns 64 precision)), [], args)
  | 112, .word x :: args =>
    if field_width = -1 then some (numField { flags with ZEROPAD := true } 16 precision 16 (sgn 64 x), [], args)
    else some (numField flags field_width precision 16 (sgn 64 x), [], args)
  | 110, .word x :: args => some ([], [storeCount pos qualifier x], args)
  | 99, _ | 115, _ | 112, _ | 110, _ => none
  | 111, _ => int flags 8
  | 88, _ => int { flags with LARGE := true } 16
  | 120, _ => int flags 16
  | 100, _ | 105, _ => int { flags with SIGN := true } 10
  | 117, _ => int flags 10
  | 37, _ => some ([37], [], args)
  | c, _ => some ([37, c], [], args)

/-- the meaning of a piece: what it adds to the output, and the arguments it takes -/
def Piece.render (out : Out) (args : List Arg) : Piece → Option (Out × List Arg)
  | .lit c _ _ => some (⟨out.str ++ [c], out.stored⟩, args)
  | .dir d => do
    let ((field_width, flags), args) ← widthOf (d.flags.foldl Flag.set {}) args d.width
    let (precision, args) ← precisionOf args d.precision
    let (t, stored, args) ← meaning out.str.length d.qualifier flags field_width precision args d.conv
    pure (⟨out.str ++ t, out.stored ++ stored⟩, args)

def render (out : Out) (args : List Arg) : List Piece → Option Out
  | [] => some out
  | p :: ps => do
    let (out, args) ← p.render out args
    render out args ps

/-! ## without an overflow -/

/-- the precision leaves the size of a number an int, and the length of a string is one -/
def Fits (field_width precision : Int) (args : List Arg) : (conv : UInt8) → Prop
  | 115 =>
    match args with
    | .str s :: _ => (s.getD nullText).length < 2147483648
    | _ => True
  | 111 | 88 | 120 | 100 | 105 | 117 | 112 => precision - 2147483642 ≤ field_width
  | _ => True

/-- the width of a directive is not the argument `INT_MIN`, and its conversion fits -/
def Directive.InRange (d : Directive) (args : List Arg) : Prop :=
  match widthOf (d.flags.foldl Flag.set {}) args d.width with
  | none => True
  | some ((field_width, _), args) =>
    -1 ≤ field_width ∧
      match precisionOf args d.precision with
      | none => True
      | some (precision, args) => Fits field_width precision args d.conv

/-- no int overflows in a run over the pieces -/
def InRange (out : Out) (args : List Arg) : List Piece → Prop
  | [] => True
  | p :: ps =>
    (match p with
      | .lit _ _ _ => True
      | .dir d => d.InRange args) ∧
    match p.render out args with
    | none => True
    | some (out, args) => InRange out args ps

/-! ## conversions -/

section
variable {flags : Flags} {field_width precision num : Int} {args : List Arg}

theorem padChar_eq (h1 : -2147483647 ≤ field_width) (h2 : field_width < 2147483648) :
    padChar field_width = (List.replicate (field_width.toNat - 1) SP, min (field_width - 1) 0) := by
  unfold padChar
  rw [sgn32_of_range (by omega) (by omega)]
  have hk : (field_width - 1).toNat = field_width.toNat - 1 := by omega
  dsimp only
  rw [hk]
  congr 1
  split <;> omega

theorem charText_eq (flags : Flags) (h1 : -1 ≤ field_width) (h2 : field_width < 2147483648) (c : UInt8) :
    charText flags field_width c = textField flags field_width [c] := by
  have hpad := padChar_eq (by omega : -2147483647 ≤ field_width) h2
  unfold charText textField field
  cases flags.LEFT
  · have hagain := padChar_eq (by omega : -2147483647 ≤ min (field_width - 1) 0) (by omega)
    simp [hpad, hagain]
  · simp [hpad]

theorem padString_eq {len : Nat} (hlen : len < 2147483648) (h1 : -2147483647 ≤ field_width)
    (h2 : field_width < 2147483648) :
    padString len field_width = (List.replicate (field_width.toNat - len) SP, min field_width len - 1) := by
  unfold padString
  have hk : (field_width - len).toNat = field_width.toNat - len := by omega
  rw [hk, sgn32_of_range (by split <;> omega) (by split <;> omega)]
  congr 1
  split <;> omega

theorem stringText_eq (flags : Flags) (h1 : -1 ≤ field_width) (h2 : field_width < 2147483648) (precision : Int)
    {s : Option (List UInt8)} (hs : (s.getD nullText).length < 2147483648) :
    stringText flags field_width precision s =
      textField flags field_width ((s.getD nullText).take (uns 64 precision)) := by
  unfold stringText textField field
  generalize s.getD nullText = s at hs
  have hlen : min s.length (uns 64 precision) = (s.take (uns 64 precision)).length := by
    rw [List.length_take, Nat.min_comm]
  have htake : s.take (min s.length (uns 64 precision)) = s.take (uns 64 precision) := by
    rw [List.take_eq_take_iff]
    omega
  have hlt : (s.take (uns 64 precision)).length < 2147483648 := by omega
  dsimp only
  rw [sgn32_of_range (by omega) (by omega), Int.toNat_natCast, htake, hlen]
  generalize s.take (uns 64 precision) = t at hlt
  have hpad := padString_eq hlt (by omega : -2147483647 ≤ field_width) h2
  cases flags.LEFT
  · have hagain := padString_eq hlt (by omega : -2147483647 ≤ min field_width t.length - 1) (by omega)
    simp [hpad, hagain]
  · simp [hpad]

/-- an argument fits into a long -/
theorem argNum_range {q : Option Qualifier} {r : Int × List Arg} (h : argNum q flags args = some r) :
    -9223372036854775808 ≤ r.1 ∧ r.1 < 9223372036854775808 := by
  unfold argNum at h
  split at h
  case h_2 => exact absurd h (by simp)
  case h_1 x args =>
    obtain ⟨-, -, h32⟩ := sgn32_cases x
    obtain ⟨-, -, h64⟩ := sgn64_cases x
    obtain ⟨-, -, hu⟩ := uns32_cases x
    split at h
    · obtain rfl := Option.some.inj h
      exact h64
    · split at h
      · obtain rfl := Option.some.inj h
        exact ⟨Int.le_trans (by decide) h32.1, Int.lt_trans h32.2 (by decide)⟩
      · obtain rfl := Option.some.inj h
        exact ⟨Int.le_trans (by decide) (Int.natCast_nonneg _), by show (uns 32 x : Int) < _; omega⟩

theorem noWrap_of (h1 : -1 ≤ field_width) (h2 : field_width < 2147483648)
    (hp : precision - 2147483642 ≤ field_width) : NoWrap field_width precision :=
  ⟨by omega, h2⟩

theorem integer_eq (q : Option Qualifier) (flags : Flags) (hr : NoWrap field_width precision) {base : Nat} (hb : 2 ≤ base)
    (hb' : base ≤ 36) (args : List Arg) : integer q flags field_width precision base args =
      (argNum q flags args).map fun r => (numField flags field_width precision base r.1, [], r.2) := by
  unfold integer
  cases h : argNum q flags args with
  | none => rfl
  | some r =>
    obtain ⟨h1, h2⟩ := argNum_range h
    simp only [Option.bind_eq_bind, Option.bind_some, number_eq h1 h2 hb hb' hr]
    rfl

theorem pointer_eq (x : Int) (hr : NoWrap field_width precision) (flags : Flags) :
    number (sgn 64 x) 16 field_width precision flags =
      some (numField flags field_width precision 16 (sgn 64 x)) := by
  obtain ⟨-, -, h1, h2⟩ := sgn64_cases x
  exact number_eq h1 h2 (by decide) (by decide) hr flags

/-- a conversion writes the field it means -/
theorem convert_eq (pos : Nat) (q : Option Qualifier) (flags : Flags) (h1 : -1 ≤ field_width)
    (h2 : field_width < 2147483648) (args : List Arg) (c : UInt8) (hf : Fits field_width precision args c) :
    convert pos q flags field_width precision args c = meaning pos q flags field_width precision args c := by
  have int := fun (hp : precision - 2147483642 ≤ field_width) flags (base : Nat) (hb : 2 ≤ base) hb' =>
    integer_eq q flags (noWrap_of h1 h2 hp) hb hb' args
  unfold convert
  split
  case h_1 =>
    rcases args with - | ⟨x | s, args⟩
    · rfl
    · simp only [argInt, Option.map_some, charText_eq flags h1 h2]
      rfl
    · rfl
  case h_2 =>
    rcases args with - | ⟨x | s, args⟩
    · rfl
    · rfl
    · simp only [stringText_eq flags h1 h2 precision hf]
      rfl
  case h_3 =>
    rcases args with - | ⟨x | s, args⟩
    · rfl
    · have hr := noWrap_of h1 h2 hf
      by_cases hw : field_width = -1
      · have hwide : NoWrap 16 precision := ⟨by have := hr.low; omega, by decide⟩
        simp only [if_pos hw, pointer_eq x hwide, Option.map_some, meaning]
      · simp only [if_neg hw, pointer_eq x hr, Option.map_some, meaning]
    · rfl
  case h_4 => rcases args with - | ⟨x | s, args⟩ <;> rfl
  case h_5 => exact int hf flags 8 (by decide) (by decide)
  case h_6 => exact int hf _ 16 (by decide) (by decide)
  case h_7 => exact int hf flags 16 (by decide) (by decide)
  case h_8 => exact int hf _ 10 (by decide) (by decide)
  case h_9 => exact int hf _ 10 (by decide) (by decide)
  case h_10 => exact int hf flags 10 (by decide) (by decide)
  case h_11 hc hs hp hn ho hX hx hd hi hu =>
    by_cases h37 : c = 37
    · rw [h37]
      rfl
    · rw [if_pos h37]
      unfold meaning
      split
      all_goals first
        | rfl
        | contradiction

end

/-! ## reading a directive -/

section
variable {flags : Flags} {fmt rest : List UInt8} {args : List Arg} {c : UInt8}

/-- what is behind a part of a directive does not belong to it -/
def Heads (p : UInt8 → Bool) (fmt : List UInt8) : Prop := ∀ c t, fmt = c :: t → p c = false

def isFlag (c : UInt8) : Bool := c = 45 || c = 43 || c = 32 || c = 35 || c = 48

def isQualifier (c : UInt8) : Bool := c = 104 || c = 108 || c = 76

theorem flagLoop_stop (h : Heads isFlag rest) : flagLoop flags rest = (flags, rest) := by
  unfold flagLoop
  split
  all_goals first
    | rfl
    | exact absurd (h _ _ rfl) (by decide)

theorem flagLoop_flags (l : List Flag) (h : Heads isFlag rest) :
    flagLoop flags (l.map Flag.char ++ rest) = (l.foldl Flag.set flags, rest) := by
  induction l generalizing flags with
  | nil => exact flagLoop_stop h
  | cons f l ih =>
    rw [List.foldl_cons, ← ih]
    cases f <;> rfl

theorem getQualifier_read (q : Option Qualifier) (h : q = none → Heads isQualifier rest) :
    getQualifier ((q.map fun q => [q.char]).getD [] ++ rest) = (q, rest) := by
  cases q with
  | none =>
    show getQualifier rest = _
    unfold getQualifier
    split
    all_goals first
      | rfl
      | exact absurd (h rfl _ _ rfl) (by decide)
  | some q => cases q <;> rfl

/-- the digits of a number, one after the other -/
theorem skip_atoi_map (ds : List Nat) {r : Nat} (rest : List UInt8) (hd : ∀ d ∈ ds, d < 10)
    (hr : valueOf 10 r ds < 2147483648) :
    skip_atoi r (ds.map (digits false) ++ rest) = skip_atoi (valueOf 10 r ds : Nat) rest := by
  induction ds generalizing r with
  | nil => rfl
  | cons d ds ih =>
    obtain ⟨hd0, hds⟩ := List.forall_mem_cons.mp hd
    have hdigit : ∀ d < 10, is_digit (digits false d) = true ∧ (digits false d).toNat = 48 + d := by decide
    obtain ⟨h1, h2⟩ := hdigit d hd0
    have hle : r * 10 + d < 2147483648 := Nat.lt_of_le_of_lt (valueOf_le (by decide) _ ds) hr
    have hnext : sgn 32 ((r : Int) * 10 + (48 + d : Nat) - 48) = (r * 10 + d : Nat) := by
      rw [sgn32_of_range (by omega) (by omega)]
      omega
    rw [List.map_cons, List.cons_append, skip_atoi, h1, if_pos rfl, h2, hnext]
    exact ih hds hr

theorem skip_atoi_stop {i : Int} (h : Heads is_digit rest) : skip_atoi i rest = (i, rest) := by
  cases rest with
  | nil => rfl
  | cons c rest => rw [skip_atoi, h c rest rfl, if_neg Bool.false_ne_true]

theorem skip_atoi_numeral {n : Nat} (hn : n < 2147483648) (rest : List UInt8) (h : Heads is_digit rest) :
    skip_atoi 0 (numeral false 10 n ++ rest) = ((n : Int), rest) := by
  obtain ⟨z, hz⟩ := zeros_numeral false 10 0 n
  rw [List.replicate_zero, List.nil_append] at hz
  have hval : valueOf 10 0 (List.replicate z 0 ++ (Nat.digits 10 n).reverse) = n := by
    rw [valueOf_zeros, valueOf_digits (by decide)]
  have hread := skip_atoi_map (r := 0) (List.replicate z 0 ++ (Nat.digits 10 n).reverse) rest
    (fun d hd => by
      obtain hd | hd := List.mem_append.mp hd
      · rw [List.eq_of_mem_replicate hd]
        decide
      · exact Nat.digits_lt_base (by decide) (List.mem_reverse.mp hd))
    (by rwa [hval])
  rw [hz]
  rw [hval] at hread
  exact hread.trans (skip_atoi_stop h)

theorem heads_cons {p : UInt8 → Bool} {t : List UInt8} (h : p c = false) : Heads p (c :: t) := by
  intro c' t' he
  rw [List.cons.injEq] at he
  rw [← he.1]
  exact h

/-- what may start the number of a width or a precision -/
def isCount (c : UInt8) : Bool := is_digit c || c = 42

/-- a number starts with a digit, which is not zero where the number is not -/
theorem numeral_head (n : Nat) :
    ∃ c t, numeral false 10 n = c :: t ∧ is_digit c = true ∧ (n ≠ 0 → isFlag c = false) := by
  have hdigit : ∀ d < 10, is_digit (digits false d) = true ∧ (d ≠ 0 → isFlag (digits false d) = false) := by decide
  by_cases h0 : n = 0
  · exact ⟨ZERO, [], if_pos h0, by decide, fun h => absurd h0 h⟩
  · have hne : Nat.digits 10 n ≠ [] := Nat.digits_ne_nil_iff_ne_zero.mpr h0
    have hlast : (Nat.digits 10 n).getLast hne ≠ 0 := Nat.getLast_digit_ne_zero 10 h0
    have hlt : (Nat.digits 10 n).getLast hne < 10 := Nat.digits_lt_base (by decide) (List.getLast_mem hne)
    obtain ⟨h1, h2⟩ := hdigit _ hlt
    refine ⟨digits false ((Nat.digits 10 n).getLast hne), ((Nat.digits 10 n).dropLast.map (digits false)).reverse,
      ?_, h1, fun _ => h2 hlast⟩
    rw [numeral, if_neg h0]
    conv_lhs => rw [← List.dropLast_append_getLast hne]
    rw [List.map_append, List.reverse_append]
    rfl

theorem fieldWidth_read (w : Option Count) (h : Heads isCount rest) :
    fieldWidth flags args ((w.map Count.text).getD [] ++ rest) =
      (widthOf flags args w).map fun r => (r.1, rest, r.2) := by
  rcases w with - | ⟨n, hn⟩ | -
  · show fieldWidth flags args rest = _
    cases rest with
    | nil => rfl
    | cons c rest =>
      have hc := h c rest rfl
      rw [isCount, Bool.or_eq_false_iff, decide_eq_false_iff_not] at hc
      rw [fieldWidth, hc.1, if_neg Bool.false_ne_true, if_neg hc.2]
      rfl
  · obtain ⟨c, t, hnum, hdig, -⟩ := numeral_head n
    have hread := skip_atoi_numeral hn rest fun c t he => (Bool.or_eq_false_iff.mp (h c t he)).1
    show fieldWidth flags args (numeral false 10 n ++ rest) = some (setWidth flags (n : Int), rest, args)
    rw [hnum] at hread ⊢
    rw [List.cons_append] at hread ⊢
    rw [fieldWidth, hdig, if_pos rfl, hread, setWidth, if_neg (by omega)]
  · show fieldWidth flags args (42 :: rest) = _
    rw [fieldWidth, if_neg (by decide), if_pos rfl, widthOf, Count.value, Option.map_map]
    rfl

theorem getPrecision_read (p : Option (Option Count)) (h : Heads isCount rest) (hp : Heads (fun c => c = 46) rest) :
    getPrecision args ((p.map fun p => 46 :: (p.map Count.text).getD []).getD [] ++ rest) =
      (precisionOf args p).map fun r => (r.1, rest, r.2) := by
  rcases p with - | - | ⟨n, hn⟩ | -
  · show getPrecision args rest = _
    cases rest with
    | nil => rfl
    | cons c rest =>
      have hc := of_decide_eq_false (hp c rest rfl)
      rw [getPrecision, if_neg hc]
      rfl
  · show getPrecision args (46 :: rest) = _
    rw [getPrecision, if_pos rfl]
    cases rest with
    | nil => rfl
    | cons c rest =>
      have hc := h c rest rfl
      rw [isCount, Bool.or_eq_false_iff, decide_eq_false_iff_not] at hc
      rw [behindPoint, hc.1, if_neg Bool.false_ne_true, if_neg hc.2]
      rfl
  · obtain ⟨c, t, hnum, hdig, -⟩ := numeral_head n
    have hread := skip_atoi_numeral hn rest fun c t he => (Bool.or_eq_false_iff.mp (h c t he)).1
    show getPrecision args (46 :: (numeral false 10 n ++ rest)) =
      some (if (n : Int) < 0 then 0 else (n : Int), rest, args)
    rw [hnum] at hread ⊢
    rw [List.cons_append] at hread ⊢
    rw [getPrecision, if_pos rfl, behindPoint, hdig, if_pos rfl, hread]
    rfl
  · show getPrecision args (46 :: 42 :: rest) = _
    rw [getPrecision, if_pos rfl, behindPoint, if_neg (by decide), if_pos rfl, precisionOf, Count.value,
      Option.map_map, Option.map_map]
    rfl

theorem not_reserved (h : reserved c = false) : isFlag c = false ∧ isCount c = false ∧ decide (c = 46) = false ∧
    isQualifier c = false := by
  unfold reserved at h
  simp only [Bool.or_eq_false_iff] at h
  obtain ⟨⟨⟨⟨⟨⟨⟨⟨⟨hdig, h45⟩, h43⟩, h32⟩, h35⟩, h42⟩, h46⟩, h104⟩, h108⟩, h76⟩ := h
  have h48 : decide (c = 48) = false := by
    refine decide_eq_false ?_
    rintro rfl
    exact absurd hdig (by decide)
  unfold isFlag isCount isQualifier
  rw [h45, h43, h32, h35, h48, hdig, h42, h46, h104, h108, h76]
  exact ⟨rfl, rfl, rfl, rfl⟩

/-- a width is an int -/
theorem widthOf_lt {w : Option Count} {r : (Int × Flags) × List Arg} (h : widthOf flags args w = some r) :
    r.1.1 < 2147483648 := by
  rcases w with - | w
  · obtain rfl := Option.some.inj h
    show (-1 : Int) < 2147483648
    decide
  · obtain ⟨v, hv, rfl⟩ := Option.map_eq_some_iff.mp h
    have hlt : v.1 < 2147483648 := by
      rcases w with ⟨n, hn⟩ | -
      · obtain rfl := Option.some.inj hv
        show (n : Int) < _
        omega
      · rcases args with - | ⟨x | s, args⟩
        · exact absurd hv (by simp [Count.value, argInt])
        · obtain rfl := Option.some.inj hv
          exact (sgn32_cases x).choose_spec.2.2
        · exact absurd hv (by simp [Count.value, argInt])
    unfold setWidth
    split
    · exact (sgn32_cases (-v.1)).choose_spec.2.2
    · exact hlt

/-- a directive is read as it was written -/
theorem directive_read (d : Directive) (hd : d.InRange args) (out : Out) (more : List UInt8) :
    directive out (d.text.tail ++ more) args =
      ((Piece.dir d).render out args).map fun r => (r.1, more, r.2) := by
  obtain ⟨fl, w, p, q, c, hw, hc, h0⟩ := d
  have hnot := not_reserved hc
  -- what each part of the directive is followed by
  have hqual : ∀ P : UInt8 → Bool, P 104 = false → P 108 = false → P 76 = false → P c = false →
      Heads P ((q.map fun q => [q.char]).getD [] ++ c :: more) := fun P h1 h2 h3 h4 => by
    rcases q with - | - | - | -
    · exact heads_cons h4
    · exact heads_cons h1
    · exact heads_cons h2
    · exact heads_cons h3
  have hprec : ∀ P : UInt8 → Bool, P 46 = false → P 104 = false → P 108 = false → P 76 = false → P c = false →
      Heads P ((p.map fun p => 46 :: (p.map Count.text).getD []).getD [] ++
        ((q.map fun q => [q.char]).getD [] ++ c :: more)) := fun P h0 h1 h2 h3 h4 => by
    cases p with
    | none => exact hqual P h1 h2 h3 h4
    | some p => exact heads_cons h0
  have hwidth : Heads isFlag ((w.map Count.text).getD [] ++
      ((p.map fun p => 46 :: (p.map Count.text).getD []).getD [] ++
        ((q.map fun q => [q.char]).getD [] ++ c :: more))) := by
    rcases w with - | ⟨n, hn⟩ | -
    · exact hprec isFlag rfl rfl rfl rfl hnot.1
    · obtain ⟨c', t, hnum, -, hflag⟩ := numeral_head n
      have hn0 : n ≠ 0 := by
        rintro rfl
        exact hw hn rfl
      show Heads isFlag (numeral false 10 n ++ _)
      rw [hnum]
      exact heads_cons (hflag hn0)
    · exact heads_cons rfl
  have htext : (Directive.text ⟨fl, w, p, q, c, hw, hc, h0⟩).tail ++ more =
      fl.map Flag.char ++ ((w.map Count.text).getD [] ++
        ((p.map fun p => 46 :: (p.map Count.text).getD []).getD [] ++
          ((q.map fun q => [q.char]).getD [] ++ c :: more))) := by
    show (fl.map Flag.char ++ _) ++ more = _
    simp only [List.append_assoc, List.singleton_append]
  rw [htext, directive, flagLoop_flags fl hwidth]
  dsimp only
  rw [fieldWidth_read w (hprec isCount rfl rfl rfl rfl hnot.2.1), Piece.render]
  unfold Directive.InRange at hd
  dsimp only at hd
  cases hwidthOf : widthOf (fl.foldl Flag.set {}) args w with
  | none => rfl
  | some r =>
    have hlt := widthOf_lt hwidthOf
    rw [hwidthOf] at hd
    obtain ⟨⟨field_width, flags⟩, args⟩ := r
    obtain ⟨hlow, hd⟩ := hd
    show (getPrecision args _ >>= _) = _
    rw [getPrecision_read p (hqual isCount rfl rfl rfl hnot.2.1) (hqual _ rfl rfl rfl hnot.2.2.1)]
    simp only [Option.bind_eq_bind, Option.bind_some]
    cases hprecisionOf : precisionOf args p with
    | none => rfl
    | some r =>
      rw [hprecisionOf] at hd
      obtain ⟨precision, args⟩ := r
      simp only [Option.map_some, Option.bind_some]
      rw [getQualifier_read q fun _ => heads_cons hnot.2.2.2]
      dsimp only
      rw [convert_eq _ q flags hlow hlt args c hd]
      cases meaning out.str.length q flags field_width precision args c with
      | none => rfl
      | some r => rfl

/-! ## formats -/

/-- the text of the pieces is read piece by piece: by induction on them -/
theorem loop_pieces (ps : List Piece) (args : List Arg) (out : Out) (hr : InRange out args ps) (fuel : Nat)
    (h : (ps.flatMap Piece.text).length ≤ fuel) :
    loop fuel (ps.flatMap Piece.text) args out = render out args ps := by
  induction ps generalizing args out fuel with
  | nil =>
    cases fuel <;> rfl
  | cons p ps ih =>
    rw [List.flatMap_cons] at h ⊢
    obtain ⟨hp, hps⟩ := hr
    cases p with
    | lit c hc _ =>
      rw [List.length_append] at h
      cases fuel with
      | zero => exact absurd h (by show ¬ 1 + _ ≤ 0; omega)
      | succ fuel =>
        show loop (fuel + 1) (c :: ps.flatMap Piece.text) args out = _
        rw [loop, if_pos hc]
        exact ih args _ hps fuel (by change 1 + _ ≤ _ at h; omega)
    | dir d =>
      have hd : (Piece.dir d).text = 37 :: d.text.tail := rfl
      rw [hd, List.cons_append] at h ⊢
      rw [List.length_cons, List.length_append] at h
      cases fuel with
      | zero => exact absurd h (Nat.not_succ_le_zero _)
      | succ fuel =>
        rw [loop, if_neg (by decide), directive_read d hp]
        rw [render]
        cases hrender : (Piece.dir d).render out args with
        | none => rfl
        | some r =>
          rw [hrender] at hps
          exact ih r.2 r.1 hps fuel (by omega)

end

/-! ## the result on formats -/

/-- `vsprintf` writes what the pieces of its format mean, one field for each conversion, with the arguments that the
pieces before it left, where no int overflows on the way -/
theorem vsprintf_pieces (ps : List Piece) (args : List Arg) (hr : InRange ⟨[], []⟩ args ps) :
    vsprintf (ps.flatMap Piece.text) args = render ⟨[], []⟩ args ps :=
  loop_pieces ps args ⟨[], []⟩ hr _ (Nat.le_refl _)

/-- `%+5d|%-*.2s%lx` -/
def threePieces : List Piece :=
  [.dir ⟨[.plus], some (.number 5 (by decide)), none, none, 100, by simp, by decide, by decide⟩,
    .lit 124 (by decide) (by decide),
    .dir ⟨[.left], some .star, some (some (.number 2 (by decide))), none, 115, by simp, by decide, by decide⟩,
    .dir ⟨[], none, none, some .l, 120, by simp, by decide, by decide⟩]

/-- 42, a width of 4, a text and a long -/
def threeArgs : List Arg := [.word 42, .word 4, .str (some [97, 98, 99]), .word 0xfffffc0000310000]

theorem vsprintf_pieces_three :
    vsprintf (threePieces.flatMap Piece.text) threeArgs = render ⟨[], []⟩ threeArgs threePieces := by
  have hnumber : (-1 : Int) - 2147483642 ≤ 5 := by decide
  have hlong : (-1 : Int) - 2147483642 ≤ -1 := by decide
  have htext : [97, 98, 99].length < 2147483648 := by decide
  exact vsprintf_pieces threePieces threeArgs
    ⟨⟨by decide, hnumber⟩, trivial, ⟨by decide, htext⟩, ⟨by decide, hlong⟩, trivial⟩

example : (vsprintf (threePieces.flatMap Piece.text) threeArgs).map Out.str =
    some ([SP, SP, 43, 52, 50, 124, 97, 98, SP, SP] ++ "fffffc0000310000".toList.map Char.toUInt8) := by decide

end Vsprintf
