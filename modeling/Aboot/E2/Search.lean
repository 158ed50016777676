import Aboot.Lib.Runs
import Aboot.E2.Bits

/-!
# The search for a run of clear words

* `searchRun`       the loop without a default: it has no result when the rounds run out;
* `searchRun_ends`  with a round for every word and one more it has one, `findRun`'s;
* `findRun_first`   that is the first run, or the number of words if there is none.
-/

set_option linter.unusedVariables false

namespace E2
open Bitmap Runs

def Clear (m : Mem) (j : Nat) : Prop := word m j = 0

/-- how many clear words a search looks for: one at least -/
def runLength (longs_needed : Int) : Nat := (max longs_needed 1).toNat

/-! ## one round -/

/-- the two scans of a round: `l` is the first word after the clear words from `f` on -/
theorem round_spec (m : Mem) (lpg first : Nat) (hfirst : first ≤ lpg) {f : Nat}
    (hf : skip (fun j => word m j = 0) first (lpg - first) = f) :
    first ≤ f ∧ f ≤ lpg ∧ (∀ x, first ≤ x → x < f → ¬ Clear m x) ∧ (f < lpg → Clear m f) := by
  obtain ⟨h1, h2, h3, h4⟩ := skip_spec (fun j => decide (word m j = 0)) (lpg - first) first
  rw [hf] at h1 h2 h3 h4
  refine ⟨h1, by omega, fun x hx1 hx2 => ?_, fun h => ?_⟩
  · simpa [Clear] using h4 x hx1 hx2
  · simpa [Clear] using h3 (by omega)

theorem last_spec (m : Mem) (lpg f : Nat) (hf : f < lpg) (hclear : Clear m f) {l : Nat}
    (hl : skip (fun j => word m j ≠ 0) f (lpg - f) = l) :
    f < l ∧ l ≤ lpg ∧ (∀ x, f ≤ x → x < l → Clear m x) ∧ (l = lpg ∨ ¬ Clear m l) := by
  obtain ⟨h1, h2, h3, h4⟩ := skip_spec (fun j => decide (word m j ≠ 0)) (lpg - f) f
  rw [hl] at h1 h2 h3 h4
  have hne : f ≠ l := by
    intro e
    have := h3 (by omega)
    rw [← e] at this
    simp [show word m f = 0 from hclear] at this
  refine ⟨by omega, by omega, fun x hx1 hx2 => ?_, ?_⟩
  · simpa [Clear] using h4 x hx1 hx2
  · rcases Nat.lt_or_ge l lpg with h | h
    · right
      simpa [Clear] using h3 (by omega)
    · left
      omega

/-! ## the loop -/

/-- the loop of `ext2_contiguous_balloc` over the words of a bitmap; no result when it has not ended
after so many rounds -/
def searchRun (m : Mem) (longs_needed : Int) (longs_per_group : Nat) : Nat → Nat → Option Nat
  | 0, _ => none
  | rounds + 1, firstlong =>
    let firstlong := skip (fun j => word m j = 0) firstlong (longs_per_group - firstlong)
    if firstlong = longs_per_group then some longs_per_group
    else
      let lastlong := skip (fun j => word m j ≠ 0) firstlong (longs_per_group - firstlong)
      if ((lastlong : Int) - firstlong) < longs_needed then
        searchRun m longs_needed longs_per_group rounds lastlong
      else some firstlong

theorem searchRun_ends (m : Mem) (need : Int) (lpg rounds : Nat) :
    ∀ first, first ≤ lpg → lpg - first < rounds →
      searchRun m need lpg rounds first = some (findRun m need lpg rounds first) := by
  induction rounds with
  | zero =>
    intro first h1 h2
    omega
  | succ rounds ih =>
    intro first h1 h2
    unfold searchRun findRun
    generalize hf : skip (fun j => decide (word m j = 0)) first (lpg - first) = f
    obtain ⟨a1, a2, -, a4⟩ := round_spec m lpg first h1 hf
    simp only
    by_cases hend : f = lpg
    · rw [if_pos hend, if_pos hend]
    rw [if_neg hend, if_neg hend]
    generalize hl : skip (fun j => decide (word m j ≠ 0)) f (lpg - f) = l
    obtain ⟨b1, b2, -, -⟩ := last_spec m lpg f (by omega) (a4 (by omega)) hl
    by_cases hshort : ((l : Int) - f) < need
    · rw [if_pos hshort, if_pos hshort]
      exact ih l b2 (by omega)
    · rw [if_neg hshort, if_neg hshort]

/-- what the search has for an answer -/
def Answer (m : Mem) (k lpg r : Nat) : Prop :=
  (r = lpg ∧ ∀ f, ¬ Run (Clear m) k lpg f) ∨ (r < lpg ∧ First (Clear m) k lpg r)

theorem findRun_answer (m : Mem) (need : Int) (lpg rounds : Nat) :
    ∀ first, first ≤ lpg → lpg - first < rounds →
      (∀ f, f < first → ¬ Run (Clear m) (runLength need) lpg f) →
      Answer m (runLength need) lpg (findRun m need lpg rounds first) := by
  have hk : 0 < runLength need := by
    unfold runLength
    omega
  induction rounds with
  | zero =>
    intro first h1 h2
    omega
  | succ rounds ih =>
    intro first h1 h2 hnone
    unfold findRun
    generalize hf : skip (fun j => decide (word m j = 0)) first (lpg - first) = f
    obtain ⟨a1, a2, a3, a4⟩ := round_spec m lpg first h1 hf
    simp only
    have hbefore : ∀ g, g < f → ¬ Run (Clear m) (runLength need) lpg g := by
      intro g hg hrun
      rcases Nat.lt_or_ge g first with h | h
      · exact hnone g h hrun
      · exact a3 g h hg (hrun.2 g (Nat.le_refl g) (Nat.lt_add_of_pos_right hk))
    by_cases hend : f = lpg
    · rw [if_pos hend]
      refine Or.inl ⟨rfl, fun g hrun => ?_⟩
      have := hrun.1
      exact hbefore g (by omega) hrun
    rw [if_neg hend]
    generalize hl : skip (fun j => decide (word m j ≠ 0)) f (lpg - f) = l
    obtain ⟨b1, b2, b3, b4⟩ := last_spec m lpg f (by omega) (a4 (by omega)) hl
    by_cases hshort : ((l : Int) - f) < need
    · rw [if_pos hshort]
      have hlen : l < f + runLength need := by
        unfold runLength
        omega
      apply ih l b2 (by omega)
      intro g hg
      rcases Nat.lt_or_ge g f with h | h
      · exact hbefore g h
      · exact Run.short hlen b4 h (by omega)
    · rw [if_neg hshort]
      have hlen : f + runLength need ≤ l := by
        unfold runLength
        omega
      refine Or.inr ⟨by omega, ⟨by omega, fun j hj1 hj2 => b3 j hj1 (by omega)⟩, hbefore⟩

/-- the first run of clear words, or the number of words if there is none -/
theorem findRun_first (m : Mem) (need : Int) (lpg : Nat) :
    Answer m (runLength need) lpg (findRun m need lpg (lpg + 1) 0) := by
  apply findRun_answer m need lpg (lpg + 1) 0 (by omega) (by omega)
  intro f hf
  omega

theorem bit_of_run {m : Mem} {k lpg f j : Nat} (h : Run (Clear m) k lpg f) (h1 : f * 32 ≤ j)
    (h2 : j < (f + k) * 32) : bit m j = false :=
  bit_of_word_zero (h.2 (j / 32) (by omega) (by omega))

end E2
