import Aboot.Lib.Mem

/-!
# Copies within a memory

* `copy`       a copy from one address to another, byte after byte;
* `copy_out`   it changes its target only;
* `copy_eq`    downwards, or next to its source, it stores what the source held;
* `paste`      the first bytes of another memory at an address.
-/

namespace Mem

/-- `n` bytes are copied from `s` to `d`, the first one first -/
def copy (m : Mem) (d s : Nat) : Nat → Mem
  | 0 => m
  | n + 1 => copy (m.put d [m s]) (d + 1) (s + 1) n

/-- the first `n` bytes of `b` at the address `a` -/
def paste (m : Mem) (a n : Nat) (b : Mem) : Mem := fun x =>
  if a ≤ x ∧ x < a + n then b (x - a) else m x

theorem copy_out (m : Mem) (d s n x : Nat) (h : x < d ∨ d + n ≤ x) : copy m d s n x = m x := by
  induction n generalizing m d s with
  | zero => rfl
  | succ n ih =>
    rw [copy, ih _ _ _ (by omega)]
    exact put_out m d x [m s] (by simp only [List.length_singleton]; omega)

theorem copy_eq (m : Mem) {d s n : Nat} (h : d ≤ s ∨ s + n ≤ d) :
    copy m d s n = m.put d (m.get s n) := by
  induction n generalizing m d s with
  | zero => rw [get_zero, put_nil]; rfl
  | succ n ih =>
    have hget : m.get s (n + 1) = [m s] ++ m.get (s + 1) n := by
      rw [Nat.add_comm n 1, get_add]
      simp [get]
    have hkeep : (m.put d [m s]).get (s + 1) n = m.get (s + 1) n :=
      get_put_out m d n (s + 1) _ (by simp only [List.length_singleton]; omega)
    calc copy m d s (n + 1)
        = (m.put d [m s]).put (d + 1) ((m.put d [m s]).get (s + 1) n) := ih _ (by omega)
      _ = (m.put d [m s]).put (d + [m s].length) (m.get (s + 1) n) := by rw [hkeep]; rfl
      _ = m.put d (m.get s (n + 1)) := by rw [put_append, hget]

theorem paste_in (m : Mem) (a n : Nat) (b : Mem) {k : Nat} (hk : k < n) : paste m a n b (a + k) = b k := by
  rw [paste, if_pos (by omega), Nat.add_sub_cancel_left]

theorem paste_out (m : Mem) (a n : Nat) (b : Mem) {x : Nat} (h : x < a ∨ a + n ≤ x) :
    paste m a n b x = m x := if_neg (by omega)

/-- a store next to it can come before or after -/
theorem paste_put (m : Mem) {a n d : Nat} (b : Mem) {bs : List UInt8}
    (h : d + bs.length ≤ a ∨ a + n ≤ d) : (m.put d bs).paste a n b = (m.paste a n b).put d bs := by
  funext x
  by_cases hx : x < a ∨ a + n ≤ x
  · rw [paste_out _ a n b hx]
    exact put_congr d bs (paste_out m a n b hx).symm
  · have hout : x < d ∨ d + bs.length ≤ x := by omega
    rw [put_out _ d x bs hout]
    unfold paste
    rw [if_pos (by omega), if_pos (by omega)]

end Mem
