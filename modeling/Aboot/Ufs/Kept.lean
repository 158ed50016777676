import Aboot.Ufs.Impl

/-!
# What the UFS reader keeps

An invariant that is kept by the calls of `block_map` and by each of the few other steps that change
the variables is kept by every function of the reader.

* `Stable`        what an invariant is asked for;
* `Stable.group`, `Stable.breadi`, ..   one function after the other;
* `Stable.op`, `Stable.run`             an operation, and a run of them.
-/

set_option linter.unusedVariables false

namespace Ufs
open Raise

/-- what a program on the core keeps, and what is said of the calls -/
theorem keeps_lift {α : Type} {J : Core → Prop} {K : List (Core × Int) → Prop} {x : Run α}
    (h : Keeps J x) : Keeps (fun s : State => J s.core ∧ K s.calls) (lift x) := by
  refine ⟨fun s hs => ?_⟩
  obtain ⟨a, c, hx, hc⟩ | ⟨e, c, hx, hc⟩ := (h.ends s.core hs.1).cases
  · refine .of_ok (a := a) (t := { s with core := c }) ?_ ⟨hc, hs.2⟩
    unfold lift
    rw [hx]
  · refine .of_error (e := e) (t := { s with core := c }) ?_ ⟨hc, hs.2⟩
    unfold lift
    rw [hx]

/-- an invariant of the steps that change the variables -/
structure Stable (M : Machine) (I : State → Prop) : Prop where
  map : ∀ b, Keeps I (map M b)
  read : ∀ count offset, Keeps I (lift (cons_read M count offset))
  alloc : ∀ size, Keeps I (lift (alloc M size))
  inode : ∀ n, Keeps I (lift (read_inode M n))
  buf : ∀ s m, I s → I { s with core := s.core.setBuf m }
  name : ∀ s m p, I s → I { s with namebuf := m, strtok := p }
  levels : Keeps I setLevels

section
variable {M : Machine} {I : State → Prop} (h : Stable M I)
include h

theorem Stable.group (d : Int) : ∀ (nblks : Nat) (blkno nbytes ncontig : Int),
    Keeps I (group M d nblks blkno nbytes ncontig) := by
  intro nblks
  induction nblks with
  | zero => exact fun _ _ _ => .pure _
  | succ n ih =>
    intro blkno nbytes ncontig
    unfold Ufs.group
    refine .get fun s _ => .ite (.pure _) (.bind (h.map _) fun b => ?_)
    exact .ite (ih _ _ _) (.pure _)

theorem Stable.readGroup (d nbytes : Int) : Keeps I (readGroup M d nbytes) := by
  unfold Ufs.readGroup
  refine .ite (.pure _) (.get fun s _ => .bind (h.read _ _) fun r => ?_)
  exact .ite (.pure _) (.pure _)

theorem Stable.breadiLoop (rounds : Nat) : ∀ (nblks : Nat) (blkno tot : Int) (stored : List UInt8),
    Keeps I (breadiLoop M rounds nblks blkno tot stored) := by
  induction rounds with
  | zero => exact fun _ _ _ _ => .pure _
  | succ rounds ih =>
    intro nblks blkno tot stored
    unfold Ufs.breadiLoop
    refine .ite (.pure _) (.bind (h.map _) fun d => .bind (h.group _ _ _ _ _) fun g => ?_)
    refine .bind (h.readGroup _ _) fun r => ?_
    cases r with
    | none => exact .pure _
    | some data => exact ih _ _ _ _

theorem Stable.breadi (blkno : Int) (nblks : Nat) : Keeps I (breadi M blkno nblks) :=
  h.breadiLoop _ _ _ _ _

theorem Stable.searchDir (name : List UInt8) (fuel : Nat) : ∀ offset,
    Keeps I (searchDir M name fuel offset) := by
  induction fuel with
  | zero => exact fun _ => .throw _
  | succ fuel ih =>
    intro offset
    unfold Ufs.searchDir
    refine .get fun s _ => .ite (.bind (h.breadi _ _) fun r => ?_) (.pure _)
    apply Keeps.bind
    · apply Keeps.modify
      intro s hs
      exact h.buf s _ hs
    · intro _
      refine .ite (.pure _) (.get fun s _ => ?_)
      split
      · exact .throw _
      · exact .pure _
      · exact ih _

theorem Stable.strtok (begin : Option Nat) : Keeps I (strtok begin) := by
  refine .modifyGet fun s hs => ?_
  split
  · exact hs
  · unfold tokenAt
    dsimp only
    split
    · exact h.name s _ _ hs
    · split
      · exact h.name s _ _ hs
      · exact h.name s _ _ hs

theorem Stable.readLink (nlinks : Nat) (cp : Option Nat) : Keeps I (readLink M nlinks cp) := by
  unfold Ufs.readLink
  cases cp with
  | none => exact .throw _
  | some a =>
    refine .get fun s hs => .ite (.pure _) (.ite (.pure _) ?_)
    refine .bind (.set (h.name s _ _ hs)) fun _ => .ite ?_ ?_
    · apply Keeps.bind
      · apply Keeps.modify
        intro s hs
        exact h.name s _ _ hs
      · exact fun _ => .pure _
    · refine .bind (h.map _) fun d => .get fun s _ => .bind (h.read _ _) fun r => ?_
      apply Keeps.bind
      · apply Keeps.modify
        intro s hs
        exact h.name s _ _ hs
      · exact fun _ => .ite (.pure _) (.pure _)

theorem Stable.enter (parent inumber nlinks : Nat) (cp : Option Nat) :
    Keeps I (enter M parent inumber nlinks cp) := by
  unfold Ufs.enter
  refine .bind (h.inode _) fun r => .ite (.pure _) (.get fun s _ => .ite (.pure _) ?_)
  refine .bind (h.readLink _ _) fun e => ?_
  cases e with
  | some e => exact .pure _
  | none => exact .get fun s _ => .bind (h.inode _) fun r => .ite (.pure _) (.pure _)

theorem Stable.walk (fuel : Nat) : ∀ (inumber nlinks : Nat) (cp component : Option Nat),
    Keeps I (walk M fuel inumber nlinks cp component) := by
  induction fuel with
  | zero => exact fun _ _ _ _ => .throw _
  | succ fuel ih =>
    intro inumber nlinks cp component
    unfold Ufs.walk
    cases component with
    | none => exact .pure _
    | some a =>
      refine .get fun s _ => .ite (.pure _) (.bind (h.searchDir _ _ _) fun r => ?_)
      cases r with
      | none => exact .pure _
      | some ino =>
        refine .bind (h.enter _ _ _ _) fun e => ?_
        rcases e with e | ⟨n, l, c⟩
        · exact .pure _
        · exact .bind (h.strtok _) fun component => ih _ _ _ _

theorem Stable.ufs_open (fuel : Nat) (path : List UInt8) : Keeps I (ufs_open M fuel path) := by
  unfold Ufs.ufs_open
  refine .ite (.pure _) (.get fun s _ => .bind (h.alloc _) fun p => ?_)
  apply Keeps.bind
  · apply Keeps.modify
    intro s hs
    exact h.name _ _ _ (h.buf s _ hs)
  intro _
  refine .bind (h.inode _) fun r => .ite (.pure _) (.bind (h.strtok _) fun component => ?_)
  refine .bind (h.walk _ _ _ _ _) fun e => ?_
  cases e with
  | some e => exact .pure _
  | none => exact .bind h.levels fun _ => .pure _

theorem Stable.op (fuel : Nat) (op : Op) : Keeps I (op.prog M fuel) := by
  cases op with
  | «open» path => exact .bind (h.ufs_open _ _) fun _ => .pure _
  | bread blkno nblks => exact .bind (h.breadi _ _) fun _ => .pure _
  | close => exact .pure _

theorem Stable.step (fuel : Nat) {s : State} (op : Op) (hs : I s) : I (step M fuel s op) := by
  unfold Ufs.step
  obtain ⟨a, t, hx, ht⟩ | ⟨e, t, hx, ht⟩ := ((h.op fuel op).ends s hs).cases
  · rw [hx]
    exact ht
  · rw [hx]
    exact ht

end

end Ufs
