import Aboot.Iso.Impl

/-!
# What the functions of isolib.c that read keep

`Reads s t`: from `s` to `t` the inode table, the root and the superblock are the same; only the
buffers, the heap and the reads of the device differ.

* `walkAreas_reads`      a walk over the areas of a record, if every step reads;
* `parse_rock_ridge_inode_reads`, `get_rock_ridge_symlink_reads`, `iso_find_entry_reads`, ..
                         one lemma for each function.
-/

set_option linter.unusedVariables false

namespace Iso
open Word Prog

structure Reads (s t : State) : Prop where
  inode_table : t.inode_table = s.inode_table
  root_inode : t.root_inode = s.root_inode
  sb : t.sb = s.sb
  cd_device : t.cd_device = s.cd_device

theorem Reads.refl (s : State) : Reads s s := ⟨rfl, rfl, rfl, rfl⟩

theorem Reads.trans (s t u : State) (h : Reads s t) (h' : Reads t u) : Reads s u :=
  ⟨h'.inode_table.trans h.inode_table, h'.root_inode.trans h.root_inode, h'.sb.trans h.sb,
    h'.cd_device.trans h.cd_device⟩

variable {α β : Type} {E : Env}

theorem reads_pure (a : α) : Steps Reads (pure a : Prog State α) := Steps.pure Reads.refl a

theorem reads_get : Steps Reads (get : Prog State State) := Steps.get Reads.refl

theorem reads_bind {x : Prog State α} {f : α → Prog State β} (hx : Steps Reads x)
    (hf : ∀ a, Steps Reads (f a)) : Steps Reads (x >>= f) := Steps.bind Reads.trans hx hf

/-! ## the device, the heap and strings -/

theorem iso_dev_read_reads (offset size : Int) : Steps Reads (iso_dev_read E offset size) :=
  Steps.modifyGet fun s => ⟨rfl, rfl, rfl, rfl⟩

/-- what a read of the device gives -/
theorem iso_dev_read_eq {offset size : Int} {s t : State} {r : ReadRes}
    (h : iso_dev_read E offset size s = some (r, t)) :
    r = E.read s.log.length s.cd_device size offset := by
  unfold iso_dev_read at h
  rw [modifyGet_run, Option.some.injEq, Prod.mk.injEq] at h
  exact h.1.symm

theorem iso_dev_read_heap {offset size : Int} {s t : State} {r : ReadRes}
    (h : iso_dev_read E offset size s = some (r, t)) : t.free_mem_ptr = s.free_mem_ptr := by
  unfold iso_dev_read at h
  rw [modifyGet_run, Option.some.injEq, Prod.mk.injEq] at h
  rw [← h.2]

theorem alloc_reads (size : Int) : Steps Reads (alloc E size) := by
  refine reads_bind reads_get fun s => Steps.ite Steps.fail ?_
  exact reads_bind (Steps.modify fun s => ⟨rfl, rfl, rfl, rfl⟩) fun _ => reads_pure _

theorem readBlock_reads (block : Int) : Steps Reads (readBlock E block) := by
  refine reads_bind reads_get fun s => reads_bind (iso_dev_read_reads _ _) fun r => ?_
  exact reads_bind (Steps.modify fun s => ⟨rfl, rfl, rfl, rfl⟩) fun _ => reads_pure _

theorem strEnd_reads (m : Mem) (fuel p : Nat) : Steps Reads (strEnd m fuel p) := by
  induction fuel generalizing p with
  | zero => exact Steps.fail
  | succ fuel ih => exact Steps.ite (reads_pure p) (ih (p + 1))

theorem ncat_reads (m : Mem) (fuel src count : Nat) : Steps Reads (ncat m fuel src count) := by
  induction fuel generalizing src count with
  | zero =>
    cases count with
    | zero => exact reads_pure _
    | succ count => exact Steps.fail
  | succ fuel ih =>
    cases count with
    | zero => exact reads_pure _
    | succ count =>
      refine Steps.ite (reads_pure _) ?_
      exact reads_bind (ih _ _) fun l => reads_pure _

theorem strncat_reads (fuel : Nat) (dest m : Mem) (src count : Nat) :
    Steps Reads (strncat fuel dest m src count) := by
  refine Steps.ite (reads_pure _) (reads_bind (strEnd_reads _ _ _) fun e => ?_)
  exact reads_bind (ncat_reads _ _ _ _) fun l => reads_pure _

theorem strcat_reads (fuel : Nat) (dest : Mem) (src : List UInt8) :
    Steps Reads (strcat fuel dest src) :=
  reads_bind (strEnd_reads _ _ _) fun e => reads_pure _

theorem cstr_reads (m : Mem) (fuel p : Nat) : Steps Reads (cstr m fuel p) :=
  reads_bind (strEnd_reads _ _ _) fun e => reads_pure _

/-! ## the areas of a record -/

theorem walkArea_reads {zero : α → Flow α} {step : Mem → Nat → α → Prog State (Flow α)}
    (hstep : ∀ m chr a, Steps Reads (step m chr a)) (m : Mem) (fuel chr : Nat) (len : Int) (a : α) :
    Steps Reads (walkArea zero step m fuel chr len a) := by
  induction fuel generalizing chr len a with
  | zero => exact reads_pure _
  | succ fuel ih =>
    refine Steps.ite (reads_pure _) (Steps.ite (reads_pure _) ?_)
    refine reads_bind (hstep m chr a) fun r => ?_
    cases r with
    | out a => exact reads_pure _
    | next a => exact ih _ _ _

theorem maybeContinue_reads (c : Cont) : Steps Reads (maybeContinue E c) := by
  refine Steps.ite (reads_pure _) (reads_bind (alloc_reads _) fun buffer => ?_)
  exact reads_bind (iso_dev_read_reads _ _) fun r => reads_pure _

theorem walkAreas_reads {cont : α → Cont} {clear : α → α}
    {step : Mem → Nat → α → Prog State (Flow α)} (hstep : ∀ m chr a, Steps Reads (step m chr a))
    (fuel : Nat) (m : Mem) (chr : Nat) (len : Int) (a : α) :
    Steps Reads (walkAreas E cont clear step fuel m chr len a) := by
  induction fuel generalizing m chr len a with
  | zero => exact Steps.fail
  | succ fuel ih =>
    refine reads_bind (walkArea_reads hstep m _ chr len a) fun r => ?_
    cases r with
    | out a => exact reads_pure _
    | next a =>
      refine reads_bind (maybeContinue_reads _) fun b => ?_
      cases b with
      | none => exact reads_pure _
      | some buffer => exact ih _ _ _ _

theorem parse_rock_ridge_inode_reads (fuel : Nat) (m : Mem) (de : Nat) (mode nlink : Int)
    (size : Nat) : Steps Reads (parse_rock_ridge_inode E fuel m de mode nlink size) := by
  refine reads_bind reads_get fun s => Steps.ite ?_ (reads_pure _)
  refine reads_bind (walkAreas_reads (fun m chr a => reads_pure _) _ _ _ _ _) fun r => ?_
  cases r with
  | out a => exact reads_pure _
  | next a => exact reads_pure _

theorem slpText_reads (fuel : Nat) (rpnt m : Mem) (slp : Nat) :
    Steps Reads (slpText fuel rpnt m slp) := by
  unfold slpText
  split
  · exact strncat_reads _ _ _ _ _
  · exact strcat_reads _ _ _
  · exact strcat_reads _ _ _
  · exact strcat_reads _ _ _
  · exact reads_pure _

theorem slash_reads (fuel : Nat) (c : Bool) (rpnt : Mem) : Steps Reads (slash fuel c rpnt) :=
  Steps.ite (strcat_reads _ _ _) (reads_pure _)

theorem linkBuffer_reads (size : Nat) (r : Option Mem) : Steps Reads (linkBuffer E size r) := by
  cases r with
  | none => exact reads_bind (alloc_reads _) fun buffer => reads_pure _
  | some rpnt => exact reads_pure _

theorem slText_reads (depth size : Nat) (m : Mem) (rr fuel : Nat) (slen : Int) (slp : Nat)
    (r : Option Mem) : Steps Reads (slText E depth size m rr fuel slen slp r) := by
  induction fuel generalizing slen slp r with
  | zero => exact reads_pure _
  | succ fuel ih =>
    refine Steps.ite (reads_pure _) (reads_bind (linkBuffer_reads _ _) fun rpnt => ?_)
    refine reads_bind (slpText_reads _ _ _ _) fun rpnt => Steps.ite ?_ ?_
    · exact reads_bind (slash_reads _ _ _) fun rpnt => reads_pure _
    · exact reads_bind (slash_reads _ _ _) fun rpnt => ih _ _ _

theorem linkStep_reads (depth size : Nat) (m : Mem) (rr : Nat) (a : Link) :
    Steps Reads (linkStep E depth size m rr a) := by
  refine Steps.ite (reads_pure _) (Steps.ite (reads_pure _) (Steps.ite ?_ ?_))
  · exact reads_bind (slText_reads _ _ _ _ _ _ _ _) fun rpnt => reads_pure _
  · exact Steps.ite (reads_pure _) (reads_pure _)

theorem get_rock_ridge_symlink_reads (fuel : Nat) (i : Slot) :
    Steps Reads (get_rock_ridge_symlink E fuel i) := by
  refine reads_bind reads_get fun s => Steps.ite ?_ (reads_pure _)
  refine reads_bind (alloc_reads _) fun buf => reads_bind (iso_dev_read_reads _ _) fun r => ?_
  refine Steps.ite (reads_pure _) (Steps.ite (reads_pure _) ?_)
  refine reads_bind (walkAreas_reads (linkStep_reads _ _) _ _ _ _ _) fun r => ?_
  cases r with
  | out a => exact reads_pure _
  | next a => exact reads_pure _

theorem nameAppend_reads (fuel : Nat) (m : Mem) (rr : Nat) (a : Name) :
    Steps Reads (nameAppend fuel m rr a) := by
  refine reads_bind (strEnd_reads _ _ _) fun strlen => Steps.ite ?_ ?_
  · exact reads_bind (strncat_reads _ _ _ _ _) fun _ => reads_pure _
  · exact reads_bind (strncat_reads _ _ _ _ _) fun _ => reads_pure _

theorem nameStep_reads (fuel : Nat) (m : Mem) (rr : Nat) (a : Name) :
    Steps Reads (nameStep fuel m rr a) := by
  refine Steps.ite (reads_pure _) (Steps.ite (reads_pure _) (Steps.ite (reads_pure _) ?_))
  refine Steps.ite (Steps.ite (reads_pure _) ?_) (Steps.ite (reads_pure _) (reads_pure _))
  exact reads_bind (nameAppend_reads _ _ _ _) fun a => reads_pure _

theorem nameAreas_reads (depth fuel : Nat) (m : Mem) (chr : Nat) (len : Int) (a : Name) :
    Steps Reads (nameAreas E depth fuel m chr len a) := by
  induction fuel generalizing m chr len a with
  | zero => exact Steps.fail
  | succ fuel ih =>
    refine reads_bind (walkArea_reads (nameStep_reads depth) m _ chr len a) fun r => ?_
    cases r with
    | out a => exact reads_pure _
    | next a =>
      refine Steps.ite (reads_pure _) (reads_bind (maybeContinue_reads _) fun b => ?_)
      cases b with
      | none => exact reads_pure _
      | some buffer => exact ih _ _ _ _

theorem get_rock_ridge_filename_reads (fuel : Nat) (m : Mem) (de : Nat) :
    Steps Reads (get_rock_ridge_filename E fuel m de) := by
  refine reads_bind reads_get fun s => Steps.ite ?_ (reads_pure _)
  refine reads_bind (nameAreas_reads _ _ _ _ _ _) fun r => ?_
  cases r with
  | out a => exact reads_pure _
  | next a => exact reads_pure _

/-! ## records and directories -/

theorem rawInode_reads (ino : Int) : Steps Reads (rawInode E ino) := by
  refine reads_bind reads_get fun s => reads_bind (readBlock_reads _) fun ok => Steps.ite ?_ (reads_pure _)
  refine reads_bind reads_get fun s => Steps.ite ?_ (reads_pure _)
  refine reads_bind (Steps.modify fun s => ⟨rfl, rfl, rfl, rfl⟩) fun _ => ?_
  refine reads_bind (readBlock_reads _) fun ok => Steps.ite ?_ (reads_pure _)
  refine reads_bind (Steps.modify fun s => ⟨rfl, rfl, rfl, rfl⟩) fun _ => ?_
  exact reads_bind reads_get fun s => reads_pure _

theorem setBuf_reads (s : State) (m : Mem) (b : Buf) : Reads s (s.setBuf m b) := by
  cases b with
  | data => exact ⟨rfl, rfl, rfl, rfl⟩
  | big => exact ⟨rfl, rfl, rfl, rfl⟩

theorem effectiveName_reads (fuel : Nat) (b : Buf) (de namelen : Nat) :
    Steps Reads (effectiveName E fuel b de namelen) := by
  refine reads_bind reads_get fun s => reads_bind (get_rock_ridge_filename_reads _ _ _) fun r => ?_
  refine Steps.ite (reads_bind (cstr_reads _ _ _) fun name => ?_) (Steps.ite ?_ (reads_pure _))
  · exact reads_bind (Steps.modify fun s => setBuf_reads _ _ _) fun _ => reads_pure _
  · exact reads_bind (Steps.modify fun s => setBuf_reads _ _ _) fun _ => reads_pure _

theorem readDirBlock_reads (dir : Slot) (f_pos : Nat) : Steps Reads (readDirBlock E dir f_pos) := by
  refine reads_bind reads_get fun s => Steps.ite (reads_pure _) ?_
  exact reads_bind (readBlock_reads _) fun ok => reads_pure _

theorem matchRecord_reads (fuel : Nat) (dir : Slot) (name : List UInt8) (b : Buf)
    (de inode_number : Nat) : Steps Reads (matchRecord E fuel dir name b de inode_number) := by
  refine reads_bind reads_get fun s => reads_bind (effectiveName_reads _ _ _ _) fun dlen => ?_
  exact reads_bind reads_get fun s => Steps.ite (reads_pure _) (reads_pure _)

theorem findLoop_reads (depth : Nat) (dir : Slot) (name : List UInt8) (fuel : Nat) (c : Cursor) :
    Steps Reads (findLoop E depth dir name fuel c) := by
  induction fuel generalizing c with
  | zero => exact Steps.fail
  | succ fuel ih =>
    refine reads_bind reads_get fun s => Steps.ite (reads_pure _) (Steps.ite ?_ (Steps.ite ?_ ?_))
    · refine reads_bind (readDirBlock_reads _ _) fun r => ?_
      obtain ⟨_ | block, _ | _⟩ := r
      · exact reads_pure _
      · exact reads_pure _
      · exact reads_pure _
      · exact ih _
    · refine reads_bind (matchRecord_reads _ _ _ _ _ _) fun r => ?_
      cases r with
      | none => exact ih _
      | some r => exact reads_pure _
    · refine reads_bind (Steps.modify fun s => ⟨rfl, rfl, rfl, rfl⟩) fun _ => ?_
      refine reads_bind (readDirBlock_reads _ _) fun r => ?_
      obtain ⟨_ | block, _ | _⟩ := r
      · exact reads_pure _
      · exact reads_pure _
      · exact reads_pure _
      · refine reads_bind (Steps.modify fun s => ⟨rfl, rfl, rfl, rfl⟩) fun _ => ?_
        refine reads_bind (matchRecord_reads _ _ _ _ _ _) fun r => ?_
        cases r with
        | none => exact ih _
        | some r => exact reads_pure _

theorem iso_find_entry_reads (fuel : Nat) (dir : Slot) (name : List UInt8) :
    Steps Reads (iso_find_entry E fuel dir name) := by
  refine reads_bind reads_get fun s => Steps.ite (reads_pure _) ?_
  refine reads_bind (readDirBlock_reads _ _) fun r => ?_
  obtain ⟨_ | block, _ | _⟩ := r
  · exact reads_pure _
  · exact reads_pure _
  · exact reads_pure _
  · exact findLoop_reads _ _ _ _ _

theorem findVolume_reads (n iso_blknum : Nat) : Steps Reads (findVolume E n iso_blknum) := by
  induction n generalizing iso_blknum with
  | zero => exact reads_pure _
  | succ n ih =>
    refine reads_bind reads_get fun s => reads_bind (iso_dev_read_reads _ _) fun r => ?_
    refine reads_bind (Steps.modify fun s => ⟨rfl, rfl, rfl, rfl⟩) fun _ => Steps.ite (reads_pure _) ?_
    refine reads_bind reads_get fun s => ?_
    cases descriptor s.data_block with
    | none => exact ih _
    | some v => exact reads_pure _

end Iso
