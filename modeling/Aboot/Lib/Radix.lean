import Mathlib.Algebra.Notation.Defs
import Mathlib.Data.List.Basic

/-!
# Forests of pointers

A forest has pointers at its roots and, in every node that a pointer leads to, entries that are
pointers again; 0 leads nowhere.  A path is read from its end: `j :: p` is entry `j` of the node at
the path `p`.  `V` says which paths there are.

* `ptr_congr`       a forest that is read alike on the way has the same pointers;
* `Links.ptr`       one pointer is linked in where there was none: no other pointer changes;
* `Links.distinct`  no pointer occurs twice afterwards.
-/

namespace Radix

structure Forest (P : Type*) where
  root : Nat → P
  entry : P → Nat → P

variable {P : Type*} [Zero P] [DecidableEq P]

/-- the pointer at a path, 0 when the way ends before -/
def Forest.ptr (t : Forest P) : List Nat → P
  | [] => 0
  | [k] => t.root k
  | j :: k :: p => if t.ptr (k :: p) = 0 then 0 else t.entry (t.ptr (k :: p)) j

/-- the way to a path goes along paths -/
def Closed (V : List Nat → Prop) : Prop := ∀ j k p, V (j :: k :: p) → V (k :: p)

/-- no pointer occurs twice -/
def Distinct (V : List Nat → Prop) (t : Forest P) : Prop :=
  ∀ p q, V p → V q → t.ptr p ≠ 0 → t.ptr p = t.ptr q → p = q

theorem ptr_root (t : Forest P) (k : Nat) : t.ptr [k] = t.root k := by
  rw [Forest.ptr]

theorem ptr_next {t : Forest P} {j k : Nat} {p : List Nat} (h : t.ptr (k :: p) ≠ 0) :
    t.ptr (j :: k :: p) = t.entry (t.ptr (k :: p)) j := by
  rw [Forest.ptr, if_neg h]

theorem ptr_end {t : Forest P} {j k : Nat} {p : List Nat} (h : t.ptr (k :: p) = 0) :
    t.ptr (j :: k :: p) = 0 := by
  rw [Forest.ptr, if_pos h]

/-- the same roots, and the same entries in the nodes on the way -/
theorem ptr_congr {V : List Nat → Prop} (hV : Closed V) {t t' : Forest P}
    (hroot : ∀ k, V [k] → t'.root k = t.root k)
    (hentry : ∀ j k p, V (j :: k :: p) → t.ptr (k :: p) ≠ 0 →
      t'.entry (t.ptr (k :: p)) j = t.entry (t.ptr (k :: p)) j) :
    ∀ p, V p → t'.ptr p = t.ptr p := by
  intro p
  induction p with
  | nil => exact fun _ => rfl
  | cons j p ih =>
    intro h
    cases p with
    | nil => exact hroot j h
    | cons k p =>
      have hp := ih (hV j k p h)
      by_cases h0 : t.ptr (k :: p) = 0
      · rw [ptr_end h0, ptr_end (hp.trans h0)]
      · rw [ptr_next h0, ptr_next (hp ▸ h0), hp]
        exact hentry j k p h h0

/-- `t'` is `t` with the pointer `b` at the path `p₀`, where there was none, and no entries in the
node that it leads to -/
structure Links (V : List Nat → Prop) (t t' : Forest P) (p₀ : List Nat) (b : P) : Prop where
  path : p₀ ≠ []
  new : b ≠ 0
  free : t.ptr p₀ = 0
  parent : ∀ j k p, p₀ = j :: k :: p → t.ptr (k :: p) ≠ 0
  root : ∀ k, V [k] → t'.root k = if [k] = p₀ then b else t.root k
  entry : ∀ j k p, V (j :: k :: p) → t.ptr (k :: p) ≠ 0 →
    t'.entry (t.ptr (k :: p)) j = if j :: k :: p = p₀ then b else t.entry (t.ptr (k :: p)) j
  leaf : ∀ j, V (j :: p₀) → t'.entry b j = 0

section
variable {V : List Nat → Prop} (hV : Closed V) {t t' : Forest P} {p₀ : List Nat} {b : P}
  (h : Links V t t' p₀ b)
include hV h

theorem Links.ptr : ∀ p, V p → t'.ptr p = if p = p₀ then b else t.ptr p := by
  intro p
  induction p with
  | nil =>
    intro _
    rw [if_neg (Ne.symm h.path)]
    rfl
  | cons j p ih =>
    intro hp
    cases p with
    | nil => exact h.root j hp
    | cons k p =>
      have hup := ih (hV j k p hp)
      by_cases e : k :: p = p₀
      · -- an entry of the new node
        have hne : j :: k :: p ≠ p₀ := by
          rw [← e]
          exact List.cons_ne_self j (k :: p)
        rw [if_pos e] at hup
        have h0 : t.ptr (k :: p) = 0 := by
          rw [e]
          exact h.free
        have hleaf : t'.entry b j = 0 := by
          apply h.leaf
          rwa [← e]
        rw [if_neg hne, ptr_end h0, ptr_next (by rw [hup]; exact h.new), hup, hleaf]
      · rw [if_neg e] at hup
        by_cases h0 : t.ptr (k :: p) = 0
        · have hne : j :: k :: p ≠ p₀ := fun e' => h.parent j k p e'.symm h0
          rw [if_neg hne, ptr_end h0, ptr_end (hup.trans h0)]
        · rw [ptr_next (hup ▸ h0), hup, ptr_next h0]
          exact h.entry j k p hp h0

theorem Links.distinct (hd : Distinct V t) (hnew : ∀ p, V p → t.ptr p ≠ b) : Distinct V t' := by
  intro p q hp hq h0 e
  rw [h.ptr hV p hp] at h0 e
  rw [h.ptr hV q hq] at e
  by_cases ep : p = p₀ <;> by_cases eq : q = p₀
  · rw [ep, eq]
  · rw [if_pos ep, if_neg eq] at e
    exact absurd e.symm (hnew q hq)
  · rw [if_neg ep, if_pos eq] at e
    exact absurd e (hnew p hp)
  · rw [if_neg ep] at h0 e
    rw [if_neg eq] at e
    exact hd p q hp hq h0 e

end

end Radix
