import Mathlib.Logic.Function.Basic
import Mathlib.Tactic.Ring
import Mathlib.Tactic.Linarith

/-!
# Byte memories

A memory (or the contents of a device) is a function from addresses to bytes.

* `get m a n`     the `n` bytes from address `a` on;
* `put m a bs`    the bytes `bs` stored from address `a` on;
* `put_in`, `put_out`   what a store changes, and that it changes nothing else;
* `put_append`, `put_comm`   two stores next to each other;
* `get_put_self`, `get_put_out`   reading back what was stored, and reading next to it;
* `le16`, `le32`, `le64`   little-endian numbers, and `le_lt`, that they fit.
-/

/-- a byte memory -/
abbrev Mem := Nat → UInt8

namespace Mem

/-- the `n` bytes from address `a` on -/
def get (m : Mem) (a n : Nat) : List UInt8 := (List.range n).map fun k => m (a + k)

/-- store the bytes `bs` from address `a` on -/
def put (m : Mem) (a : Nat) (bs : List UInt8) : Mem := fun x =>
  if a ≤ x then (bs[x - a]?).getD (m x) else m x

/-- the little-endian number of the `n` bytes at `a` -/
def le (m : Mem) (a : Nat) : Nat → Nat
  | 0 => 0
  | n + 1 => (m a).toNat + 256 * le m (a + 1) n

def le16 (m : Mem) (a : Nat) : Nat := le m a 2
def le32 (m : Mem) (a : Nat) : Nat := le m a 4
def le64 (m : Mem) (a : Nat) : Nat := le m a 8

@[simp] theorem length_get (m : Mem) (a n : Nat) : (get m a n).length = n := by simp [get]

@[simp] theorem get_zero (m : Mem) (a : Nat) : get m a 0 = [] := rfl

theorem get_add (m : Mem) (a i j : Nat) : get m a (i + j) = get m a i ++ get m (a + i) j := by
  simp [get, List.range_add, Nat.add_assoc, Function.comp_def]

theorem mem_get {m : Mem} {a n : Nat} {x : UInt8} : x ∈ get m a n ↔ ∃ k < n, m (a + k) = x := by
  simp [get]

theorem get_getElem? (m : Mem) (a n k : Nat) (hk : k < n) : (get m a n)[k]? = some (m (a + k)) := by
  simp [get, hk]

@[simp] theorem put_nil (m : Mem) (a : Nat) : put m a [] = m := by
  funext x
  simp [put]

/-- a store changes the bytes it covers -/
theorem put_in (m : Mem) (a k : Nat) (bs : List UInt8) (hk : k < bs.length) :
    put m a bs (a + k) = bs[k] := by
  simp [put, hk]

/-- a store changes nothing below it and nothing from its end on -/
theorem put_out (m : Mem) (a x : Nat) (bs : List UInt8) (h : x < a ∨ a + bs.length ≤ x) :
    put m a bs x = m x := by
  unfold put
  split
  · rename_i hx
    have hl : bs.length ≤ x - a := by omega
    rw [List.getElem?_eq_none hl]
    rfl
  · rfl

/-- two stores next to each other are one store -/
theorem put_append (m : Mem) (a : Nat) (d e : List UInt8) :
    put (put m a d) (a + d.length) e = put m a (d ++ e) := by
  funext x
  simp only [put]
  by_cases h1 : a + d.length ≤ x
  · have e1 : x - a - d.length = x - (a + d.length) := by omega
    have h3 : a ≤ x := by omega
    simp only [if_pos h1, if_pos h3]
    rw [List.getElem?_append_right (by omega), e1]
    by_cases h2 : x - (a + d.length) < e.length
    · rw [List.getElem?_eq_getElem h2, Option.getD_some, Option.getD_some]
    · rw [List.getElem?_eq_none (by omega), List.getElem?_eq_none (by omega)]
      rfl
  · rw [if_neg h1]
    by_cases h2 : a ≤ x
    · rw [if_pos h2, if_pos h2, List.getElem?_append_left (by omega)]
    · rw [if_neg h2, if_neg h2]

/-- the byte at an address after a store depends on the byte before it only -/
theorem put_congr {m m' : Mem} {x : Nat} (a : Nat) (bs : List UInt8) (h : m x = m' x) :
    put m a bs x = put m' a bs x := by
  unfold put
  rw [h]

/-- stores next to each other can be exchanged -/
theorem put_comm (m : Mem) {a b : Nat} {d e : List UInt8}
    (h : a + d.length ≤ b ∨ b + e.length ≤ a) : put (put m a d) b e = put (put m b e) a d := by
  funext x
  by_cases h1 : x < a ∨ a + d.length ≤ x
  · rw [put_out (put m b e) a x d h1]
    exact put_congr b e (put_out m a x d h1)
  · have h2 : x < b ∨ b + e.length ≤ x := by omega
    rw [put_out (put m a d) b x e h2]
    exact put_congr a d (put_out m b x e h2).symm

/-- a number of `n` bytes fits in them -/
theorem le_lt (m : Mem) (n : Nat) : ∀ a, m.le a n < 256 ^ n := by
  induction n with
  | zero => intro a; simp [le]
  | succ n ih =>
    intro a
    have h1 := ih (a + 1)
    have h2 := (m a).toNat_lt
    rw [le, pow_succ]
    omega

theorem le_congr {m m' : Mem} {a b n : Nat} (h : ∀ j < n, m (a + j) = m' (b + j)) :
    m.le a n = m'.le b n := by
  induction n generalizing a b with
  | zero => rfl
  | succ n ih =>
    have h0 := h 0 (Nat.zero_lt_succ n)
    have h1 : m.le (a + 1) n = m'.le (b + 1) n := ih fun j hj => by
      have := h (1 + j) (by omega)
      rwa [← Nat.add_assoc, ← Nat.add_assoc] at this
    rw [Nat.add_zero, Nat.add_zero] at h0
    rw [le, le, h0, h1]

theorem le16_lt (m : Mem) (a : Nat) : m.le16 a < 65536 := le_lt m 2 a

theorem le32_lt (m : Mem) (a : Nat) : m.le32 a < 4294967296 := le_lt m 4 a

theorem get_eq_of_forall (m m' : Mem) (a n : Nat) (h : ∀ k, k < n → m (a + k) = m' (a + k)) :
    get m a n = get m' a n := by
  apply List.map_congr_left
  intro k hk
  exact h k (List.mem_range.mp hk)

theorem get_put_self (m : Mem) (a : Nat) (bs : List UInt8) :
    get (put m a bs) a bs.length = bs := by
  apply List.ext_getElem
  · simp
  · intro k h1 h2
    simp only [get, List.getElem_map, List.getElem_range]
    exact put_in m a k bs h2

theorem get_put_out (m : Mem) (a n b : Nat) (bs : List UInt8)
    (h : b + n ≤ a ∨ a + bs.length ≤ b) : get (put m a bs) b n = get m b n :=
  get_eq_of_forall _ _ b n fun k hk => put_out m a (b + k) bs (by omega)

/-- storing what is there -/
theorem put_get_self (m : Mem) (a n : Nat) : put m a (get m a n) = m := by
  funext x
  by_cases h : x < a ∨ a + n ≤ x
  · exact put_out m a x _ (by rwa [length_get])
  · obtain ⟨k, rfl⟩ := Nat.exists_eq_add_of_le (show a ≤ x by omega)
    rw [put_in m a k _ (by rw [length_get]; omega)]
    simp [get]

end Mem
