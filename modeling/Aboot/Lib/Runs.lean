import Mathlib.Order.Basic
import Mathlib.Order.Nat

/-!
# Runs of consecutive numbers

`Run p k n f`: the `k` numbers from `f` on are below `n` and satisfy `p`; `First` is the first run.

* `Run.gap`      a number that does not satisfy `p` is outside of every run;
* `Run.short`    a stretch that is too short, with a gap behind it, starts no run;
* `First.eq`     there is one first run;
* `exists_first` where there is a run there is a first one.
-/

namespace Runs

variable {p : Nat → Prop} {k n f : Nat}

def Run (p : Nat → Prop) (k n f : Nat) : Prop := f + k ≤ n ∧ ∀ j, f ≤ j → j < f + k → p j

def First (p : Nat → Prop) (k n f : Nat) : Prop := Run p k n f ∧ ∀ g, g < f → ¬ Run p k n g

theorem Run.gap (h : Run p k n f) {x : Nat} (hx : ¬ p x) : x < f ∨ f + k ≤ x := by
  by_contra hn
  push Not at hn
  exact hx (h.2 x hn.1 hn.2)

theorem Run.congr {q : Nat → Prop} (hpq : ∀ j, j < n → (p j ↔ q j)) : Run p k n f ↔ Run q k n f := by
  constructor
  · intro h
    exact ⟨h.1, fun j h1 h2 => (hpq j (Nat.lt_of_lt_of_le h2 h.1)).mp (h.2 j h1 h2)⟩
  · intro h
    exact ⟨h.1, fun j h1 h2 => (hpq j (Nat.lt_of_lt_of_le h2 h.1)).mpr (h.2 j h1 h2)⟩

/-- no run starts in a stretch that ends, at a gap or at the end, before it is long enough -/
theorem Run.short {l : Nat} (hl : l < f + k) (hgap : l = n ∨ ¬ p l) {g : Nat} (hf : f ≤ g)
    (hg : g ≤ l) : ¬ Run p k n g := by
  intro h
  rcases hgap with rfl | hx
  · have := h.1
    omega
  · have := h.gap hx
    omega

theorem First.eq (h : First p k n f) {g : Nat} (hg : First p k n g) : f = g := by
  rcases Nat.lt_trichotomy f g with hlt | rfl | hlt
  · exact absurd h.1 (hg.2 f hlt)
  · rfl
  · exact absurd hg.1 (h.2 g hlt)

theorem exists_first (h : ∃ f, Run p k n f) : ∃ f, First p k n f := by
  classical
  exact ⟨Nat.find h, Nat.find_spec h, fun g hg => Nat.find_min h hg⟩

end Runs
