import Aboot.Lib.CString
import Aboot.Lib.Word

/-!
# disk.c: the boot options

`get_aboot_options` and `get_default_args`.  A string that is copied as a whole is a list of bytes
without NULs.  `kernel_args` is the buffer itself: `extra_args` points into it, and it is cleared
and written while the pointer lives.

A mounted file system is what `open_config_file` and `bread` give of it: no configuration file, or
the blocks that `bread` delivers before it returns 0 or an error.  A partition that cannot be
mounted is `none`.  What is printed is left out.
-/

namespace Options
open CString

/-- the size of `kernel_args`, `boot_file`, `initrd_file` and `buf` -/
abbrev SIZE : Nat := 256

def digit (c : UInt8) : Bool := '0'.toUInt8 ≤ c ∧ c ≤ '9'.toUInt8

/-! ## get_default_args -/

/-- the states 0 to 5 of the parser -/
inductive ConfState where
  | rest | comment | eol | matched | copy | found
deriving DecidableEq

/-- the state and what was stored in `str` -/
structure Conf where
  state : ConfState
  str : List UInt8

/-- one character, in the states 0 to 4 -/
def confChar (num c : UInt8) (s : Conf) : Conf :=
  match s.state with
  | .rest | .comment => if c = '\n'.toUInt8 then { s with state := .eol } else s
  | .eol =>
    if c = num then { s with state := .matched }
    else if c = '#'.toUInt8 then { s with state := .comment }
    else if c = '-'.toUInt8 then { s with state := .found }
    else { s with state := .rest }
  | .matched => if c = ':'.toUInt8 then { s with state := .copy } else { s with state := .eol }
  | .copy => if c = '\n'.toUInt8 then { s with state := .found } else { s with str := s.str ++ [c] }
  | .found => s

/-- the characters of a block, up to a NUL -/
def confBlock (num : UInt8) : List UInt8 → Conf → Conf
  | [], s => s
  | c :: cs, s => if c = 0 ∨ s.state = .found then s else confBlock num cs (confChar num c s)

def confBlocks (num : UInt8) : List (List UInt8) → Conf → Conf
  | [], s => s
  | b :: bs, s =>
    if (confBlock num b s).state = .found then confBlock num b s
    else confBlocks num bs (confBlock num b s)

/-- a file system, as the configuration file that is found on it -/
abbrev Config := Option (List (List UInt8))

/-- `get_default_args`: the text stored in `str`, or `none` for -1 -/
def get_default_args (fs : Config) (num : UInt8) : Option (List UInt8) :=
  match fs with
  | none => none
  | some blocks =>
    if (confBlocks num blocks ⟨.eol, []⟩).state = .found then
      some (confBlocks num blocks ⟨.eol, []⟩).str
    else none

/-! ## get_aboot_options -/

/-- the variables of aboot.c and disk.c that the options are kept in -/
structure Vars where
  kernel_args : Mem
  boot_file : List UInt8
  initrd_file : List UInt8
  boot_part : Int
  config_file_partition : Int

/-- the variables, and the locals of `get_aboot_options` -/
structure Opts extends Vars where
  preset : UInt8
  interactive : Bool
  extra_args : Option Nat
  fs : Option Config

/-- the string at an offset of `kernel_args` -/
def Vars.args (v : Vars) (a : Nat) : List UInt8 := str SIZE v.kernel_args a

/-- `extra_args = &kernel_args[a]`, past blanks, or NULL when nothing follows -/
def extraAt (v : Vars) (a : Nat) : Option Nat :=
  if (v.args a).dropWhile (· = blank) = [] then none
  else some (a + ((v.args a).takeWhile (· = blank)).length)

/-- the forms of the -flags argument from SRM -/
def parseFlags (v : Vars) : Opts :=
  let c := v.kernel_args
  if '1'.toUInt8 ≤ c 0 ∧ c 0 ≤ '9'.toUInt8 ∧ c 1 = ':'.toUInt8 ∧ c 2 ≠ 0 ∧
      (c 3 = 0 ∨ c 3 = blank) then
    { v with
      config_file_partition := (c 0).toNat - 48
      preset := c 2
      interactive := false
      extra_args := if c 3 ≠ 0 then extraAt v 3 else none
      fs := none }
  else if c 0 ≠ 0 ∧ (c 1 = 0 ∨ c 1 = blank) then
    if c 0 = 'i'.toUInt8 then
      { v with preset := 0, interactive := true, extra_args := none, fs := none }
    else
      { v with
        preset := c 0
        interactive := false
        extra_args := if c 1 ≠ 0 then extraAt v 1 else none
        fs := none }
  else { v with preset := 0, interactive := c 0 = 0, extra_args := none, fs := none }

/-- `mount_fs` on each partition -/
abbrev Disk := Int → Option Config

/-- mount the configured partition, unless there is a file system already -/
def mountConf (D : Disk) (s : Opts) : Opts :=
  match s.fs with
  | some _ => s
  | none => { s with fs := D s.config_file_partition }

/-- the first part of a round: try the preset, when there is one -/
def tryPreset (D : Disk) (s : Opts) : Option (List UInt8) × Opts :=
  if s.preset = 0 then (none, s)
  else
    match (mountConf D s).fs with
    | none => (none, { mountConf D s with preset := 0 })
    | some fs =>
      match get_default_args fs s.preset with
      | some text => (some text, mountConf D s)
      | none => (none, { mountConf D s with preset := 0 })

/-- the number after `p`, between 1 and 8 -/
def partArg (buf : List UInt8) : Option Int :=
  match after buf with
  | none => none
  | some p =>
    match p with
    | [] => none
    | c :: cs =>
      if '1'.toUInt8 ≤ c ∧ c ≤ '8'.toUInt8 ∧ (cs = [] ∨ cs.head? = some blank) then
        some (c.toNat - 48)
      else none

/-- what a line does -/
inductive Cmd where
  | next (s : Opts)
  | boot (buf : List UInt8) (s : Opts)
  | halt

/-- the second part of a round: the line that was typed -/
def command (D : Disk) (buf : List UInt8) (s : Opts) : Cmd :=
  match buf.head? with
  | none => .next s
  | some c =>
    if c = 'q'.toUInt8 then .halt
    else if c = 'p'.toUInt8 then
      match partArg buf with
      | some n => .next { s with config_file_partition := n, fs := none }
      | none => .next s
    else if c = 'l'.toUInt8 ∨ c = 'd'.toUInt8 then .next (mountConf D s)
    else if c = 'b'.toUInt8 then
      match after buf with
      | some p => .boot p s
      | none => .next s
    else if c = 'i'.toUInt8 then
      match after buf with
      | some p => .next { s with initrd_file := p }
      | none => .next s
    else if digit c then
      match after buf with
      | some p =>
        .next { s with preset := c, kernel_args := strcpy s.kernel_args 0 p, extra_args := some 0 }
      | none => .next { s with preset := c }
    else .next s

/-- how the loop ends: `buf` and the lines that were not read, `halt()`, or waiting for a line -/
inductive Outcome where
  | done (buf : List UInt8) (s : Opts) (unread : List (List UInt8))
  | halted
  | waiting

/-- clear out `kernel_args` -/
def clearArgs (s : Opts) : Opts := { s with kernel_args := s.kernel_args.put 0 [0] }

/-- the loop of `get_aboot_options` -/
def optionLoop (D : Disk) : List (List UInt8) → Opts → Outcome
  | [], s =>
    match tryPreset D s with
    | (some text, s) => .done text s []
    | (none, _) => .waiting
  | line :: lines, s =>
    match tryPreset D s with
    | (some text, s) => .done text s (line :: lines)
    | (none, s) =>
      match command D line (clearArgs s) with
      | .halt => .halted
      | .boot buf s => .done buf s lines
      | .next s => optionLoop D lines s

/-- `buf` with the extra arguments, if there are any -/
def withExtra (buf : List UInt8) (s : Opts) : List UInt8 :=
  match s.extra_args with
  | none => buf
  | some a => buf ++ blank :: s.args a

/-- split on space into kernel and arguments -/
def splitLine (buf : List UInt8) (v : Vars) : Vars :=
  match after buf with
  | some p => { v with kernel_args := strcpy v.kernel_args 0 p, boot_file := word buf }
  | none => { v with boot_file := buf }

def initrd_opt : List UInt8 := "initrd=".toList.map Char.toUInt8

/-- poor man's `strstr`: the first `initrd=`, or one past the end of the string -/
def findInitrd (v : Vars) : (fuel : Nat) → (p : Nat) → Nat
  | 0, p => p
  | fuel + 1, p =>
    if (v.args p).take 7 = initrd_opt then p
    else if v.kernel_args p = 0 then p + 1
    else findInitrd v fuel (p + 1)

/-- parse off the `initrd=` option from `kernel_args` if any -/
def parseInitrd (v : Vars) : Vars :=
  let p := findInitrd v SIZE 0
  if v.kernel_args p = 0 then v
  else if blank ∈ v.args (p + 7) then
    { v with
      initrd_file := word (v.args (p + 7))
      kernel_args := strcpy v.kernel_args p ((v.args (p + 7)).dropWhile (· ≠ blank)) }
  else { v with initrd_file := v.args (p + 7), kernel_args := v.kernel_args.put p [0] }

/-- parse off the partition number from `boot_file` if any -/
def parsePart (v : Vars) : Vars :=
  match v.boot_file with
  | c :: c' :: rest =>
    if digit c ∧ c' = '/'.toUInt8 then { v with boot_part := c.toNat - 48, boot_file := rest }
    else { v with boot_part := v.config_file_partition }
  | _ => { v with boot_part := v.config_file_partition }

/-- `get_aboot_options`; `none` when it does not return -/
def get_aboot_options (D : Disk) (lines : List (List UInt8)) (v : Vars) : Option Vars :=
  if (parseFlags v).preset ≠ 0 ∨ (parseFlags v).interactive then
    match optionLoop D lines (parseFlags v) with
    | .done buf s _ => some (parsePart (parseInitrd (splitLine (withExtra buf s) s.toVars)))
    | _ => none
  else some (parsePart (parseInitrd (parseFlags v).toVars))

end Options
