import Aboot.Lib.Mem
import Aboot.Lib.Word

/-!
# Programs that read a buffer

A `Reader` computes from a buffer by reading it only, and keeps what it has read.

* `val`, `log`        the result, and the reads that were made, in order;
* `Access.Within`     all bytes of a read are in the buffer;
* `allOf`             tests up to the first that fails;
* `val_bind`, `log_bind`, ..   the rules for a sequence;
* `forall_allOf_cons`   what holds of the reads of tests one after the other;
* `EndsIn`, `allOf_within_iff`   tests that each read up to an end.
-/

open Word

/-- the bytes of a buffer from `pos` on are read; a pointer may run around the address space -/
structure Access where
  pos : Nat
  len : Nat
deriving DecidableEq, Repr

/-- every byte that is read lies in a buffer of `n` bytes -/
def Access.Within (n : Nat) (a : Access) : Prop := ∀ k < a.len, uns 64 (a.pos + k : Nat) < n

instance (n : Nat) (a : Access) : Decidable (a.Within n) :=
  inferInstanceAs (Decidable (∀ k < a.len, uns 64 (a.pos + k : Nat) < n))

theorem Access.within_of_le {n : Nat} {a : Access} (hn : n ≤ 18446744073709551616)
    (h : a.pos + a.len ≤ n) : a.Within n := by
  intro k hk
  rw [uns64_natCast (by omega)]
  omega

/-- a read at a place that is an address -/
theorem Access.within_iff {n : Nat} {a : Access} (hn : n ≤ 18446744073709551616)
    (hlen : a.pos + a.len ≤ 18446744073709551616) (hpos : 0 < a.len) :
    a.Within n ↔ a.pos + a.len ≤ n := by
  constructor
  · intro h
    have h1 := h (a.len - 1) (by omega)
    rw [uns64_natCast (by omega)] at h1
    omega
  · exact Access.within_of_le hn

def Reader (α : Type) : Type := Mem → α × List Access

namespace Reader
variable {α β : Type}

/-- what is computed -/
def val (p : Reader α) (buf : Mem) : α := (p buf).1

/-- what is read -/
def log (p : Reader α) (buf : Mem) : List Access := (p buf).2

instance : Monad Reader where
  pure a := fun _ => (a, [])
  bind p f := fun buf => ((f (p.val buf)).val buf, p.log buf ++ (f (p.val buf)).log buf)

/-- a byte -/
def byte (a : Nat) : Reader UInt8 := fun buf => (buf a, [⟨a, 1⟩])

/-- a little-endian number of `n` bytes -/
def le (n a : Nat) : Reader Nat := fun buf => (buf.le a n, [⟨a, n⟩])

/-- tests, up to the first that fails -/
def allOf : List (Reader Bool) → Reader Bool
  | [] => pure true
  | t :: ts => do
    if ← t then allOf ts else pure false

section
variable (buf : Mem)

@[simp] theorem val_pure (a : α) : (pure a : Reader α).val buf = a := rfl

@[simp] theorem log_pure (a : α) : (pure a : Reader α).log buf = [] := rfl

@[simp] theorem val_bind (p : Reader α) (f : α → Reader β) :
    (p >>= f).val buf = (f (p.val buf)).val buf := rfl

@[simp] theorem log_bind (p : Reader α) (f : α → Reader β) :
    (p >>= f).log buf = p.log buf ++ (f (p.val buf)).log buf := rfl

@[simp] theorem val_byte (a : Nat) : (byte a).val buf = buf a := rfl

@[simp] theorem log_byte (a : Nat) : (byte a).log buf = [⟨a, 1⟩] := rfl

@[simp] theorem val_le (n a : Nat) : (le n a).val buf = buf.le a n := rfl

@[simp] theorem log_le (n a : Nat) : (le n a).log buf = [⟨a, n⟩] := rfl

theorem val_ite (c : Prop) [Decidable c] (p q : Reader α) :
    (if c then p else q).val buf = if c then p.val buf else q.val buf := by
  split <;> rfl

theorem log_ite (c : Prop) [Decidable c] (p q : Reader α) :
    (if c then p else q).log buf = if c then p.log buf else q.log buf := by
  split <;> rfl

theorem allOf_val (ts : List (Reader Bool)) : (allOf ts).val buf = ts.all fun t => t.val buf := by
  induction ts with
  | nil => rfl
  | cons t ts ih =>
    rw [allOf, val_bind, val_ite, List.all_cons, ih]
    cases t.val buf <;> rfl

/-- a test is come to when the tests before it have let it through -/
theorem forall_allOf_cons (P : Access → Prop) (t : Reader Bool) (ts : List (Reader Bool)) :
    (∀ a ∈ (allOf (t :: ts)).log buf, P a) ↔
      (∀ a ∈ t.log buf, P a) ∧ (t.val buf = true → ∀ a ∈ (allOf ts).log buf, P a) := by
  rw [allOf, log_bind, log_ite]
  cases t.val buf with
  | false => simp
  | true => simp only [if_true, List.forall_mem_append, true_imp_iff]

/-- the tests that are come to end in the buffer; each is where its bytes end, and whether it lets
through -/
def EndsIn (n : Nat) : List (Nat × Bool) → Prop
  | [] => True
  | (e, ok) :: ts => e ≤ n ∧ (ok = true → EndsIn n ts)

theorem EndsIn.forall {n : Nat} {es : List (Nat × Bool)} (h : EndsIn n es)
    (hall : ∀ e ∈ es, e.2 = true) : ∀ e ∈ es, e.1 ≤ n := by
  induction es with
  | nil => intro e he; cases he
  | cons e es ih =>
    obtain ⟨he, hes⟩ := List.forall_mem_cons.mp hall
    exact List.forall_mem_cons.mpr ⟨h.1, ih (h.2 he) hes⟩

/-- tests that each read up to an end -/
theorem allOf_within_iff {buf : Mem} {n : Nat} {ts : List (Reader Bool)} {es : List (Nat × Bool)}
    (h : List.Forall₂
      (fun t e => ((∀ a ∈ t.log buf, a.Within n) ↔ e.1 ≤ n) ∧ t.val buf = e.2) ts es) :
    (∀ a ∈ (allOf ts).log buf, a.Within n) ↔ EndsIn n es := by
  induction h with
  | nil => exact iff_of_true (fun a ha => by cases ha) trivial
  | cons h1 _ ih => rw [forall_allOf_cons, h1.1, h1.2, ih, EndsIn]

end

end Reader
