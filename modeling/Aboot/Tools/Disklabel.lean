import Aboot.Lib.Device
import Aboot.Lib.Word
import Aboot.Tools.BootBlock

/-!
# sdisklabel/library.c and sdisklabel.c: the disk label

The label is the 276 bytes from offset 64 of sector 0 on.  A program of the source is a program on
the device that has no result when it exits with an error; the messages are left out.

`write_disklabel` stores the sum of the sector as it will be, and then the label.

* `write_disklabel_run`   what it leaves on the device;
* `label_summed`          that the sector is then summed.
-/

set_option linter.unusedVariables false

namespace Disklabel
open Word Bytes Prog BootBlock

abbrev LABELOFFSET : Nat := 64
def DISKLABELMAGIC : Nat := 0x82564557
abbrev sizeof_disklabel : Nat := 276
def DTYPE_SCSI : Nat := 4

/-! ## `struct disklabel` -/

def d_magic (d : Mem) : Nat := d.le32 0
def d_magic2 (d : Mem) : Nat := d.le32 132
def d_npartitions (d : Mem) : Nat := d.le16 138

def p_size (d : Mem) (x : Nat) : Nat := d.le32 (148 + 16 * x)
def p_offset (d : Mem) (x : Nat) : Nat := d.le32 (148 + 16 * x + 4)

/-! ## library.c -/

/-- a sector in memory -/
def sectorOf (d : List UInt8) : Mem := fun k => d.getD k 0

/-- the label, read over what the variable had -/
def read_disklabel (d : Mem) : Prog Device Mem := do
  Device.seek LABELOFFSET
  let l ← Device.read sizeof_disklabel
  let d := d.put 0 l
  if d_magic d ≠ DISKLABELMAGIC ∨ d_magic2 d ≠ DISKLABELMAGIC then failure else pure d

/-- store the sum of sector 0 as it is with this label -/
def dosumlabel (d : Mem) : Prog Device Bool := do
  if ← Device.lseek (0 : Nat) then
    let sector ← Device.read (64 * 8)
    let buf := (sectorOf sector).put LABELOFFSET (d.get 0 sizeof_disklabel)
    if ← Device.lseek (63 * 8 : Nat) then
      Device.write (ofNum (checksum buf) 8)
      pure true
    else pure false
  else pure false

def does_overlap (a1 a2 b1 b2 : Int) : Bool :=
  (a1 > b1 ∧ a1 < b2) ∨ (a2 > b1 ∧ a2 < b2) ∨ (b1 > a1 ∧ b1 < a2) ∨ (b2 > a1 ∧ b2 < a2)

/-- the first partition that overlaps the sectors from `offset` to `endplace`, without those in the
set `force`; the bounds are `int`s -/
def overlaplabel (d : Mem) (offset endplace : Int) (force : Nat) : Option Nat :=
  (List.range (d_npartitions d)).find? fun x =>
    force.testBit x = false ∧
      let part_offset := sgn 32 (p_offset d x)
      let part_end := sgn 32 (p_offset d x + p_size d x)
      part_end > 0 ∧ does_overlap part_offset part_end offset endplace

/-! ## strings -/

def ascii (s : String) : List UInt8 := s.toList.map Char.toUInt8

def isdigit (c : UInt8) : Bool := 48 ≤ c ∧ c ≤ 57

def isspace (c : UInt8) : Bool := c = 32 ∨ (9 ≤ c ∧ c ≤ 13)

def decimal (s : List UInt8) : Nat :=
  (s.takeWhile isdigit).foldl (fun n c => n * 10 + (c.toNat - 48)) 0

/-- the number at the start of a string, with its sign -/
def signed (s : List UInt8) : Int :=
  let s := s.dropWhile isspace
  if s.head? = some 45 then -(decimal s.tail : Int)
  else decimal (if s.head? = some 43 then s.tail else s)

/-- `strtol(s, 0, 10)`: a number out of range is the nearest `long` -/
def strtol (s : List UInt8) : Int :=
  max (-9223372036854775808) (min 9223372036854775807 (signed s))

def atoi (s : List UInt8) : Int := sgn 32 (strtol s)

/-! ## sdisklabel.c -/

structure Vars where
  d : Mem
  label_modified : Bool
  force : Bool
  total_disk_size : Int

def write_disklabel (d : Mem) : Prog Device Bool := do
  let _ ← dosumlabel d
  if ← Device.lseek LABELOFFSET then
    Device.write (d.get 0 sizeof_disklabel)
    pure true
  else pure false

def fixmagic (d : Mem) : Mem :=
  ((((d.put 0 (ofNum DISKLABELMAGIC 4)).put 132 (ofNum DISKLABELMAGIC 4)).put 4
    (ofNum DTYPE_SCSI 2)).put 40 (ofNum 512 4)).put 8 (ascii "SCSI" ++ [0])

def zero_disklabel (v : Vars) : Vars :=
  { v with d := fixmagic (v.d.put 0 (List.replicate sizeof_disklabel 0)), label_modified := true }

/-- what the two `ioctl`s make of `total_disk_size`: the geometry and the number of sectors, if the
device tells them -/
def set_disk_size (geometry : Option (Nat × Nat × Nat)) (blocks : Option Nat) : Int :=
  let product := match geometry with
    | none => 0
    | some (heads, sectors, cylinders) => sgn 32 (heads * sectors * cylinders : Nat)
  match blocks with
  | none => product
  | some blocks => if product = 0 then product else sgn 32 blocks

/-- `-1` is `none` -/
def set_partition (v : Vars) (num : Nat) (offset size fstype : Int) : Option Vars :=
  if sgn 32 (offset + size) > v.total_disk_size ∧ v.force = false then none
  else if num > d_npartitions v.d ∧ v.force = false then none
  else
    let size := if sgn 32 (offset + size) > v.total_disk_size
      then sgn 32 (v.total_disk_size - offset) else size
    let d := ((v.d.put (148 + 16 * num + 4) (ofNum (uns 32 offset) 4)).put (148 + 16 * num)
      (ofNum (uns 32 size) 4)).put (148 + 16 * num + 12) (ofNum (uns 8 fstype) 1)
    some { v with
      d := if num = d_npartitions v.d then d.put 138 (ofNum (d_npartitions v.d + 1) 2) else d
      label_modified := true }

/-- the number of a partition, and its offset, size and type -/
def partition (v : Vars) (a b c e : List UInt8) : Option Vars :=
  if [a, b, c, e].all fun s => (s.head?.map isdigit).getD false then
    if atoi a < 0 ∨ atoi a > 7 then none
    else set_partition v (atoi a).toNat (atoi b) (atoi c) (atoi e)
  else none

/-- one command of the argument list; the null pointer after the last argument is not looked at -/
def command : List (List UInt8) → Vars → Prog Device (List (List UInt8) × Vars)
  | [], _ => failure
  | a :: args, v =>
    if a = ascii "sum" then do
      let _ ← dosumlabel v.d
      pure (args, v)
    else if a = ascii "zero" then pure (args, zero_disklabel v)
    else if a = ascii "print" then pure (args, v)
    else if a = ascii "force" then pure (args, { v with force := true })
    else
      match args with
      | b :: c :: e :: args =>
        match partition v a b c e with
        | none => failure
        | some v => pure (args, v)
      | _ => failure

/-- `size` and its argument in front of a command -/
def sizeOption : List (List UInt8) → Vars → List (List UInt8) × Vars
  | a :: b :: args, v =>
    if a = ascii "size" then (args, { v with total_disk_size := atoi b }) else (a :: b :: args, v)
  | args, v => (args, v)

/-- the loop over the arguments: a round takes one of them at least -/
def commands : Nat → List (List UInt8) → Vars → Prog Device Vars
  | _, [], v => pure v
  | 0, _ :: _, _ => failure
  | fuel + 1, a :: args, v => do
    let r ← command (sizeOption (a :: args) v).1 (sizeOption (a :: args) v).2
    commands fuel r.1 r.2

/-- the label to start with -/
def firstLabel (args : List (List UInt8)) (v : Vars) : Prog Device Vars :=
  if args.head? = some (ascii "zero") then pure (zero_disklabel v)
  else do
    let d ← read_disklabel v.d
    pure { v with d := d }

/-- the program with the arguments after the device, and its variables at the end; `stack` is what
the label has before anything is stored in it -/
def sdisklabel (stack : Mem) (geometry : Option (Nat × Nat × Nat)) (blocks : Option Nat)
    (args : List (List UInt8)) : Prog Device Vars := do
  if args = [] then failure
  else
    let v ← firstLabel args ⟨stack, false, false, set_disk_size geometry blocks⟩
    let v ← commands args.length args v
    if v.label_modified then
      if ← write_disklabel v.d then pure v else failure
    else pure v

/-! ## what the writes leave -/

/-- sector 0 with this label in it -/
def labelled (m d : Mem) : Mem := m.put LABELOFFSET (d.get 0 sizeof_disklabel)

/-- the sum that `dosumlabel` stores -/
def labelSum (m d : Mem) : List UInt8 :=
  ofNum (checksum ((sectorOf (m.get 0 512)).put LABELOFFSET (d.get 0 sizeof_disklabel))) 8

theorem dosumlabel_run (d : Mem) (s : Device) :
    dosumlabel d s = some (true, ⟨s.bytes.put 504 (labelSum s.bytes d), 512,
      (504, labelSum s.bytes d) :: s.writes⟩) := by
  unfold dosumlabel
  rw [bind_run (Device.lseek_run 0)]
  rfl

theorem write_disklabel_run (d : Mem) (s : Device) :
    ∃ t, write_disklabel d s = some (true, t) ∧
      t.bytes = labelled (s.bytes.put 504 (labelSum s.bytes d)) d := by
  unfold write_disklabel
  rw [bind_run (dosumlabel_run d s)]
  exact ⟨_, rfl, rfl⟩

theorem sectorOf_get (m : Mem) {k : Nat} (hk : k < 512) : sectorOf (m.get 0 512) k = m k := by
  rw [sectorOf, List.getD_eq_getElem?_getD, Mem.get_getElem? m 0 512 k hk, Option.getD_some,
    Nat.zero_add]

/-- the sum was that of the sector with the label -/
theorem label_summed (m d : Mem) : Summed (labelled (m.put 504 (labelSum m d)) d) := by
  have h := summed_put ((sectorOf (m.get 0 512)).put LABELOFFSET (d.get 0 sizeof_disklabel))
  refine h.congr fun k hk => ?_
  unfold labelled labelSum
  rw [Mem.put_comm m (Or.inr (by rw [Mem.length_get]; decide))]
  apply Mem.put_congr
  apply Mem.put_congr
  exact (sectorOf_get m hk).symm

end Disklabel
