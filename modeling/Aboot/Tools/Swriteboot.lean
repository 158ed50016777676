import Aboot.Tools.Disklabel

/-!
# sdisklabel/swriteboot.c and tools/abootconf.c

`swriteboot` stores a boot image, and a kernel behind it, from sector 2 on, and a boot block that
points there.  The partition that the boot loader is configured for is the word after `ABOOT_MAGIC`
in the first sector of the image; `abootconf` prints or changes it.

* `swriteboot_cond`   when `swriteboot` succeeds;
* `swriteboot_run`    what it leaves on the device, and where it writes;
* `withSum_out`, `configured_out`, `stored_image`   the bytes of the device one by one.
-/

set_option linter.unusedVariables false

namespace Swriteboot
open Word Bytes Prog BootBlock Disklabel

def ABOOT_MAGIC : Nat := 0x30302d746f6f6261

/-! ## the options -/

inductive Opt where
  | f (optarg : List UInt8)
  | c (optarg : List UInt8)
  | v
  | unknown

structure Options where
  force_overlap : Nat
  bootpart : Int

def option (o : Options) : Opt → Option Options
  | .f optarg =>
    if atoi optarg < 1 ∨ atoi optarg > 8 then none
    else some { o with force_overlap := o.force_overlap ||| 2 ^ (atoi optarg - 1).toNat }
  | .c optarg =>
    if atoi optarg < 1 ∨ atoi optarg > 8 then none else some { o with bootpart := atoi optarg }
  | .v => some o
  | .unknown => none

def getopt (opts : List Opt) : Option Options := opts.foldlM option ⟨0, 0⟩

/-! ## the program -/

/-- the sectors of a file: an `off_t` sum and quotient, stored in 64 bits without a sign -/
def sectors (file : File) : Nat :=
  uns 64 (Int.tdiv (sgn 64 (file.bytes.length + SECT_SIZE - 1)) SECT_SIZE)

/-- the words after `ABOOT_MAGIC`: the last one is it -/
def bootpartIn (buf : Mem) : Nat :=
  (List.range 64).foldl
    (fun bootpart x => if word buf x = ABOOT_MAGIC then word buf (x + 1) else bootpart) 0

/-- the partition that the image on the device is configured for; `buf` is the buffer of `main` -/
def read_configured_partition (buf : Mem) : Prog Device (Int × Mem) := do
  Device.seek (60 * 8 : Nat)
  let _ ← Device.read 8
  let bootsect ← Device.read 8
  if ← Device.lseek (sgn 64 (SECT_SIZE * num bootsect : Nat)) then
    let sector ← Device.read SECT_SIZE
    pure (sgn 32 (bootpartIn (buf.put 0 sector)), buf.put 0 sector)
  else pure (0, buf)

/-- store the partition in the words after `ABOOT_MAGIC` -/
def setBootpart (bootpart : Int) (buf : Mem) : Mem :=
  (List.range 64).foldl
    (fun buf x =>
      if word buf x = ABOOT_MAGIC then buf.put (8 * (x + 1)) (ofNum (uns 64 bootpart) 8) else buf)
    buf

/-- configure the image on the device -/
def configure (bootpart : Int) (buf : Mem) : Prog Device Unit := do
  Device.seek (SECT_SIZE * BOOT_SECTOR : Nat)
  let sector ← Device.read SECT_SIZE
  let _ ← Device.lseek (SECT_SIZE * BOOT_SECTOR : Nat)
  Device.write ((setBootpart bootpart (buf.put 0 sector)).get 0 SECT_SIZE)

def kernelsize (kernel : Option File) : Nat := (kernel.map sectors).getD 0

/-- the end of the sectors that are checked against the label, as `overlaplabel` gets it -/
def endplace (bootfile : File) (kernel : Option File) : Int :=
  sgn 32 (sectors bootfile + BOOT_SECTOR + kernelsize kernel : Nat)

/-- the kernel that is copied -/
def kernelBytes (kernel : Option File) : List UInt8 :=
  match kernel with
  | some k => if 0 < sectors k then k.bytes else []
  | none => []

/-- the partition to configure: that of `-c`, or that of the image on the device -/
def bootpart (stack : Mem) (o : Options) : Prog Device (Int × Mem) :=
  if o.bootpart = 0 then read_configured_partition stack else pure (o.bootpart, stack)

/-- words 60 to 62 of the boot block -/
def writeBootWords (bootsize bootsect magicnum : Nat) : Prog Device Unit := do
  Device.seek (60 * 8 : Nat)
  Device.write (ofNum bootsize 8)
  Device.write (ofNum bootsect 8)
  Device.write (ofNum magicnum 8)

/-- the boot block, the image, the kernel and the configuration -/
def install (bootfile : File) (kernel : Option File) (part : Int) (buf : Mem) : Prog Device Unit := do
  writeBootWords (sectors bootfile) BOOT_SECTOR 0
  Device.seek (SECT_SIZE * BOOT_SECTOR : Nat)
  let buf ← Device.copy 2048 bootfile.bytes.length bootfile.bytes buf
  let buf ← Device.copy 2048 (kernelBytes kernel).length (kernelBytes kernel) buf
  Prog.when (part ≠ 0) (configure part buf)

/-- `main`: `stack` is what `buf` has at the start, and `label` what the label has -/
def swriteboot (stack label : Mem) (opts : List Opt) (bootfile : File) (kernel : Option File) :
    Prog Device Unit := do
  match getopt opts with
  | none => failure
  | some o =>
    let dlabel ← read_disklabel label
    match overlaplabel dlabel BOOT_SECTOR (endplace bootfile kernel) o.force_overlap with
    | some _ => failure
    | none =>
      let r ← bootpart stack o
      install bootfile kernel r.1 r.2
      let _ ← dosumlabel dlabel
      pure ()

/-! ## abootconf.c -/

/-- `errno == ERANGE` after `strtol` -/
def erange (s : List UInt8) : Bool := strtol s ≠ signed s

/-- the index of `ABOOT_MAGIC` -/
def magicIndex (sector : Mem) : Option Nat := (List.range 64).find? fun i => word sector i = ABOOT_MAGIC

/-- `abootconf device [partition]`, with what it prints -/
def abootconf (stack : Mem) (partition : Option (List UInt8)) : Prog Device (Option Int) := do
  let part := (partition.map strtol).getD (-1)
  if (partition.map erange).getD false then failure
  else
    let boot ← Device.read SECT_SIZE
    let aboot_pos := sgn 64 (word (stack.put 0 boot) 61 * 512 : Nat)
    Device.seek aboot_pos
    let image ← Device.read SECT_SIZE
    let sector := (stack.put 0 boot).put 0 image
    match magicIndex sector with
    | none => failure
    | some i =>
      if part < 0 then pure (some (sgn 64 (word sector (i + 1))))
      else
        Device.seek aboot_pos
        Device.write ((sector.put (8 * (i + 1))
          (ofNum (uns 64 (atoi (partition.getD []))) 8)).get 0 SECT_SIZE)
        pure none

/-! ## when `swriteboot` succeeds -/

/-- the label on a device, read over what the variable had -/
def labelOf (label m : Mem) : Mem := label.put 0 (m.get LABELOFFSET sizeof_disklabel)

/-- a valid label with no partition in the way -/
structure Accepted (label m : Mem) (o : Options) (bootfile : File) (kernel : Option File) : Prop where
  magic : d_magic (labelOf label m) = DISKLABELMAGIC ∧ d_magic2 (labelOf label m) = DISKLABELMAGIC
  apart : overlaplabel (labelOf label m) BOOT_SECTOR (endplace bootfile kernel) o.force_overlap = none

theorem read_disklabel_run {label : Mem} {s : Device}
    (h : d_magic (labelOf label s.bytes) = DISKLABELMAGIC ∧
      d_magic2 (labelOf label s.bytes) = DISKLABELMAGIC) :
    read_disklabel label s = some (labelOf label s.bytes, { s with pos := 340 }) := by
  have hn : ¬ (d_magic (labelOf label s.bytes) ≠ DISKLABELMAGIC ∨
      d_magic2 (labelOf label s.bytes) ≠ DISKLABELMAGIC) := by
    rintro (h1 | h1)
    · exact h1 h.1
    · exact h1 h.2
  unfold read_disklabel
  rw [bind_run (Device.seek_run 64), bind_run (Device.read_run 276)]
  exact (congrFun (if_neg hn) _).trans rfl

theorem read_disklabel_some {label d : Mem} {s t : Device} (h : read_disklabel label s = some (d, t)) :
    d_magic (labelOf label s.bytes) = DISKLABELMAGIC ∧
      d_magic2 (labelOf label s.bytes) = DISKLABELMAGIC := by
  unfold read_disklabel at h
  rw [bind_run (Device.seek_run 64), bind_run (Device.read_run 276)] at h
  by_contra hn
  have hc : d_magic (labelOf label s.bytes) ≠ DISKLABELMAGIC ∨
      d_magic2 (labelOf label s.bytes) ≠ DISKLABELMAGIC := not_and_or.mp hn
  change (if d_magic (labelOf label s.bytes) ≠ DISKLABELMAGIC ∨
      d_magic2 (labelOf label s.bytes) ≠ DISKLABELMAGIC then failure
    else pure (labelOf label s.bytes) : Prog Device Mem) _ = some (d, t) at h
  rw [if_pos hc] at h
  cases h

theorem swriteboot_cond {stack label : Mem} {opts : List Opt} {bootfile : File} {kernel : Option File}
    {s t : Device} (h : swriteboot stack label opts bootfile kernel s = some ((), t)) :
    ∃ o, getopt opts = some o ∧ Accepted label s.bytes o bootfile kernel := by
  unfold swriteboot at h
  cases ho : getopt opts with
  | none =>
    simp only [ho] at h
    cases h
  | some o =>
    simp only [ho] at h
    obtain ⟨d, u, hd, h⟩ := bind_some.mp h
    have hm := read_disklabel_some hd
    rw [read_disklabel_run hm, Option.some.injEq, Prod.mk.injEq] at hd
    refine ⟨o, rfl, hm, ?_⟩
    rw [hd.1]
    cases hx : overlaplabel d BOOT_SECTOR (endplace bootfile kernel) o.force_overlap with
    | none => rfl
    | some x =>
      simp only [hx] at h
      cases h

/-! ## what it leaves -/

/-- the partition that is configured -/
def partOf (stack m : Mem) (o : Options) : Int :=
  if o.bootpart = 0 then
    if 0 ≤ sgn 64 (SECT_SIZE * m.le64 488 : Nat) then
      sgn 32 (bootpartIn (stack.put 0 (m.get (sgn 64 (SECT_SIZE * m.le64 488 : Nat)).toNat SECT_SIZE)))
    else 0
  else o.bootpart

theorem bootpart_run (stack : Mem) (o : Options) (s : Device) : ∃ buf n,
    bootpart stack o s = some ((partOf stack s.bytes o, buf), { s with pos := n }) := by
  unfold bootpart partOf
  by_cases h0 : o.bootpart = 0
  · rw [if_pos h0, if_pos h0]
    have hnum : num (s.bytes.get 488 8) = s.bytes.le64 488 := (le_eq_num s.bytes 488 8).symm
    unfold read_configured_partition
    rw [bind_run (Device.seek_run 480), bind_run (Device.read_run 8), bind_run (Device.read_run 8)]
    show ∃ buf n, (Device.lseek (sgn 64 (SECT_SIZE * num (s.bytes.get 488 8) : Nat)) >>= _) _ = _
    rw [hnum]
    by_cases hneg : 0 ≤ sgn 64 (SECT_SIZE * s.bytes.le64 488 : Nat)
    · rw [if_pos hneg]
      obtain ⟨n, hn⟩ := Int.eq_ofNat_of_zero_le hneg
      rw [hn, bind_run (Device.lseek_run n)]
      exact ⟨_, _, rfl⟩
    · have hfail : ∀ u : Device, Device.lseek (sgn 64 (SECT_SIZE * s.bytes.le64 488 : Nat)) u
          = some (false, u) := fun u => by rw [Device.lseek, if_neg hneg]
      rw [if_neg hneg, bind_run (hfail _)]
      exact ⟨_, _, rfl⟩
  · rw [if_neg h0, if_neg h0]
    exact ⟨stack, s.pos, rfl⟩

/-- words 60 to 62 of the boot block -/
def bootWords (bootfile : File) : List UInt8 :=
  ofNum (sectors bootfile) 8 ++ ofNum BOOT_SECTOR 8 ++ ofNum 0 8

/-- the device with the boot block, the image and the kernel -/
def stored (m : Mem) (bootfile : File) (kernel : Option File) : Mem :=
  (m.put 480 (bootWords bootfile)).put 1024 (bootfile.bytes ++ kernelBytes kernel)

/-- the device with the image configured -/
def configured (part : Int) (buf m : Mem) : Mem :=
  if part = 0 then m
  else m.put 1024 ((setBootpart part (buf.put 0 (m.get 1024 SECT_SIZE))).get 0 SECT_SIZE)

/-- the writes of an image with its kernel, `len` bytes: in sector 0, all of the image and the
kernel, and the first sector of the image once more -/
structure Placed (w : List (Nat × List UInt8)) (len : Nat) (part : Int) : Prop where
  inside : ∀ x ∈ w, x.1 + x.2.length ≤ 512 ∨ (1024 ≤ x.1 ∧ x.1 + x.2.length ≤ 1024 + len) ∨
    (part ≠ 0 ∧ x.1 = 1024 ∧ x.2.length = 512)
  all : ∀ y, 1024 ≤ y → y < 1024 + len → ∃ x ∈ w, x.1 ≤ y ∧ y < x.1 + x.2.length

theorem seek_boot (s : Device) :
    Device.seek (SECT_SIZE * BOOT_SECTOR : Nat) s = some ((), { s with pos := 1024 }) :=
  Device.seek_run 1024

theorem configure_run (part : Int) (buf : Mem) (s : Device) : ∃ n w,
    Prog.when (part ≠ 0) (configure part buf) s
      = some ((), ⟨configured part buf s.bytes, n, w ++ s.writes⟩) ∧
    ∀ x ∈ w, part ≠ 0 ∧ x.1 = 1024 ∧ x.2.length = 512 := by
  unfold Prog.when configured
  by_cases h : part = 0
  · rw [if_neg (not_not.mpr h), if_pos h]
    exact ⟨s.pos, [], rfl, fun x hx => absurd hx List.not_mem_nil⟩
  · have hseek : ∀ u : Device, Device.lseek (SECT_SIZE * BOOT_SECTOR : Nat) u
        = some (true, { u with pos := 1024 }) := fun u => Device.lseek_run 1024
    rw [if_pos h, if_neg h]
    unfold configure
    rw [bind_run (seek_boot s), bind_run (Device.read_run _), bind_run (hseek _), Device.write_run]
    dsimp only
    have hlen : ((setBootpart part (buf.put 0 (s.bytes.get 1024 SECT_SIZE))).get 0 SECT_SIZE).length
        = 512 := Mem.length_get _ _ _
    generalize (setBootpart part (buf.put 0 (s.bytes.get 1024 SECT_SIZE))).get 0 SECT_SIZE = d at hlen
    refine ⟨1024 + d.length, [(1024, d)], rfl, fun x hx => ?_⟩
    rw [List.mem_singleton.mp hx]
    exact ⟨h, rfl, hlen⟩

theorem writeBootWords_run (a b c : Nat) (s : Device) : ∃ w,
    writeBootWords a b c s
      = some ((), ⟨s.bytes.put 480 (ofNum a 8 ++ ofNum b 8 ++ ofNum c 8), 504, w ++ s.writes⟩) ∧
    ∀ x ∈ w, x.1 + x.2.length ≤ 512 := by
  refine ⟨[(496, ofNum c 8), (488, ofNum b 8), (480, ofNum a 8)], ?_, ?_⟩
  · unfold writeBootWords
    rw [bind_run (Device.seek_run 480), bind_run (Device.write_run _), bind_run (Device.write_run _),
      Device.write_run, put_words]
    simp only [length_ofNum]
    rfl
  · intro x hx
    simp only [List.mem_cons, List.not_mem_nil, or_false] at hx
    rcases hx with rfl | rfl | rfl <;> simp

theorem install_run (bootfile : File) (kernel : Option File) (part : Int) (buf : Mem) (s : Device) :
    ∃ buf' n w, install bootfile kernel part buf s
      = some ((), ⟨configured part buf' (stored s.bytes bootfile kernel), n, w ++ s.writes⟩) ∧
    Placed w (bootfile.bytes.length + (kernelBytes kernel).length) part := by
  obtain ⟨w0, hrun0, hw0⟩ := writeBootWords_run (sectors bootfile) BOOT_SECTOR 0 s
  obtain ⟨buf1, w1, hrun1, hw1⟩ := Device.copy_run (show 0 < 2048 by decide) bootfile.bytes.length
    bootfile.bytes buf ⟨s.bytes.put 480 (bootWords bootfile), 1024, w0 ++ s.writes⟩ (le_refl _)
  obtain ⟨buf2, w2, hrun2, hw2⟩ := Device.copy_run (show 0 < 2048 by decide)
    (kernelBytes kernel).length (kernelBytes kernel) buf1
    ⟨(s.bytes.put 480 (bootWords bootfile)).put 1024 bootfile.bytes, 1024 + bootfile.bytes.length,
      w1 ++ (w0 ++ s.writes)⟩ (le_refl _)
  obtain ⟨n, w3, hrun3, hw3⟩ := configure_run part buf2
    ⟨stored s.bytes bootfile kernel, 1024 + bootfile.bytes.length + (kernelBytes kernel).length,
      w2 ++ (w1 ++ (w0 ++ s.writes))⟩
  refine ⟨buf2, n, w3 ++ (w2 ++ (w1 ++ w0)), ?_, ?_⟩
  · unfold install
    rw [bind_run hrun0, bind_run (seek_boot _)]
    refine (bind_run hrun1).trans ((bind_run hrun2).trans ?_)
    dsimp only
    rw [Mem.put_append]
    simp only [List.append_assoc]
    exact hrun3
  · have hcov := hw1.append hw2 (Nat.le_add_right _ _) (Nat.le_add_right _ _)
    dsimp only at hcov
    rw [Nat.add_assoc] at hcov
    refine ⟨fun x hx => ?_, fun y h1 h2 => ?_⟩
    · rw [← List.append_assoc w2 w1 w0] at hx
      rcases List.mem_append.mp hx with hx | hx
      · exact Or.inr (Or.inr (hw3 x hx))
      rcases List.mem_append.mp hx with hx | hx
      · exact Or.inr (Or.inl (hcov.inside x hx))
      · exact Or.inl (hw0 x hx)
    · obtain ⟨x, hx, hin⟩ := hcov.all y h1 h2
      refine ⟨x, List.mem_append_right _ ?_, hin⟩
      rw [← List.append_assoc w2 w1 w0]
      exact List.mem_append_left _ hx

/-- sector 0 with its sum, over a label that is on the device -/
def withSum (m d : Mem) : Mem := m.put 504 (labelSum m d)

/-- the device after `swriteboot`, and where it was written -/
theorem swriteboot_run (stack : Mem) {label : Mem} {opts : List Opt} {bootfile : File}
    {kernel : Option File} {o : Options} {s : Device} (ho : getopt opts = some o)
    (ha : Accepted label s.bytes o bootfile kernel) :
    ∃ buf n w, swriteboot stack label opts bootfile kernel s
      = some ((), ⟨withSum (configured (partOf stack s.bytes o) buf (stored s.bytes bootfile kernel))
          (labelOf label s.bytes), n, w ++ s.writes⟩) ∧
    Placed w (bootfile.bytes.length + (kernelBytes kernel).length) (partOf stack s.bytes o) ∧
    ∃ x ∈ w, x.1 = 504 ∧ x.2.length = 8 := by
  obtain ⟨buf, n, hpart⟩ := bootpart_run stack o { s with pos := 340 }
  obtain ⟨buf', n', w, hinst, hw⟩ := install_run bootfile kernel (partOf stack s.bytes o) buf
    { s with pos := n }
  refine ⟨buf', 512, (504, labelSum (configured (partOf stack s.bytes o) buf'
    (stored s.bytes bootfile kernel)) (labelOf label s.bytes)) :: w, ?_, ?_⟩
  · unfold swriteboot
    simp only [ho]
    rw [bind_run (read_disklabel_run ha.magic)]
    simp only [ha.apart]
    rw [bind_run hpart, bind_run hinst, bind_run (dosumlabel_run _ _)]
    rfl
  · refine ⟨⟨fun x hx => ?_, fun y h1 h2 => ?_⟩, _, List.mem_cons_self, rfl, length_ofNum _ _⟩
    · rcases List.mem_cons.mp hx with rfl | hx
      · left
        show 504 + (ofNum _ 8).length ≤ 512
        rw [length_ofNum]
      · exact hw.inside x hx
    · obtain ⟨x, hx, hin⟩ := hw.all y h1 h2
      exact ⟨x, List.mem_cons_of_mem _ hx, hin⟩

/-! ## the bytes of the device -/

/-- the size and the start in the boot block -/
theorem bootWords_le (m : Mem) (bootfile : File) :
    (m.put 480 (bootWords bootfile)).le64 480 = sectors bootfile ∧
      (m.put 480 (bootWords bootfile)).le64 488 = BOOT_SECTOR := by
  have hsplit : m.put 480 (bootWords bootfile)
      = ((m.put 480 (ofNum (sectors bootfile) 8)).put 488 (ofNum BOOT_SECTOR 8)).put 496 (ofNum 0 8) :=
    put_words m _ _ _
  have hout : ∀ (a b : Nat) (n : Nat) (m : Mem), b + 8 ≤ a → (m.put a (ofNum n 8)).le b 8 = m.le b 8 :=
    fun a b n m h => le_put_out m a b 8 _ (Or.inl h)
  have hlt : sectors bootfile < 18446744073709551616 := uns64_lt _
  constructor
  · show (m.put 480 (bootWords bootfile)).le 480 8 = _
    rw [hsplit, hout 496 480 _ _ (by decide), hout 488 480 _ _ (by decide), le_put_self]
    exact Nat.mod_eq_of_lt hlt
  · show (m.put 480 (bootWords bootfile)).le 488 8 = _
    rw [hsplit, hout 496 488 _ _ (by decide), le_put_self]
    rfl

theorem withSum_out {m d : Mem} {x : Nat} (h : x < 504 ∨ 512 ≤ x) : withSum m d x = m x := by
  refine Mem.put_out _ _ _ _ ?_
  rw [labelSum, length_ofNum]
  omega

theorem configured_out {part : Int} {buf m : Mem} {x : Nat} (h : x < 1024 ∨ 1536 ≤ x) :
    configured part buf m x = m x := by
  unfold configured
  by_cases h0 : part = 0
  · rw [if_pos h0]
  · rw [if_neg h0]
    refine Mem.put_out _ _ _ _ ?_
    rw [Mem.length_get]
    show x < 1024 ∨ 1024 + 512 ≤ x
    omega

/-- the image and the kernel are stored from sector 2 on -/
theorem stored_image {m : Mem} {bootfile : File} {kernel : Option File} {k : Nat}
    (hk : k < (bootfile.bytes ++ kernelBytes kernel).length) :
    stored m bootfile kernel (1024 + k) = (bootfile.bytes ++ kernelBytes kernel)[k] :=
  Mem.put_in _ _ _ _ hk

end Swriteboot
