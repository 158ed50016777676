import Mathlib.Data.List.Induction

/-!
# Invariants over a history of steps

A state is taken through a list of inputs by `step`; `Always P` says that `P` holds of every state on
the way, and `Each M` that `M` holds of every input at the state it comes to.

* `run_keeps`        an invariant that every step keeps;
* `always_of_each`   an invariant that every step keeps under a condition on its input;
* `always_iff_each`  if the condition is exact for one step, it is exact for the history.
-/

namespace History

variable {σ ι : Type*} (step : σ → ι → σ)

/-- the state after some inputs -/
def run (s : σ) (l : List ι) : σ := l.foldl step s

theorem run_snoc (s : σ) (l : List ι) (c : ι) : run step s (l ++ [c]) = step (run step s l) c := by
  rw [run, List.foldl_append]
  rfl

/-- every state on the way -/
def Always (P : σ → Prop) (s : σ) (l : List ι) : Prop := ∀ pre post, l = pre ++ post → P (run step s pre)

/-- every input at its state -/
def Each (M : σ → ι → Prop) (s : σ) (l : List ι) : Prop :=
  ∀ pre c post, l = pre ++ c :: post → M (run step s pre) c

theorem run_keeps {step : σ → ι → σ} {I : σ → Prop} (hstep : ∀ s c, I s → I (step s c)) {s : σ} (h : I s)
    (l : List ι) : I (run step s l) := by
  induction l generalizing s with
  | nil => exact h
  | cons c l ih => exact ih (hstep s c h)

section
variable {step} {P : σ → Prop} {M : σ → ι → Prop} {s : σ} {l : List ι}

theorem each_nil : Each step M s [] := by
  intro pre c post h
  cases pre with
  | nil => cases h
  | cons a pre => cases h

theorem each_cons {c : ι} : Each step M s (c :: l) ↔ M s c ∧ Each step M (step s c) l := by
  constructor
  · intro h
    refine ⟨h [] c l rfl, fun pre c' post hl => ?_⟩
    exact h (c :: pre) c' post (by rw [hl, List.cons_append])
  · rintro ⟨hc, h⟩ pre c' post hl
    cases pre with
    | nil =>
      obtain ⟨rfl, -⟩ := List.cons.inj hl
      exact hc
    | cons a pre =>
      obtain ⟨rfl, htail⟩ := List.cons.inj hl
      exact h pre c' post htail

theorem always_of_each (hstep : ∀ s, ∀ c ∈ l, P s → M s c → P (step s c)) (h : P s)
    (hM : Each step M s l) : Always step P s l := by
  intro pre
  induction pre using List.reverseRecOn with
  | nil => exact fun post _ => h
  | append_singleton pre c ih =>
    intro post hl
    have hl' : l = pre ++ c :: post := by rw [hl, List.append_assoc, List.singleton_append]
    have hc : c ∈ l := by
      rw [hl']
      exact List.mem_append_right pre List.mem_cons_self
    rw [run_snoc]
    exact hstep _ c hc (ih (c :: post) hl') (hM pre c post hl')

theorem always_iff_each (hstep : ∀ s, ∀ c ∈ l, P s → (P (step s c) ↔ M s c)) (h : P s) :
    Always step P s l ↔ Each step M s l := by
  constructor
  · intro hP pre c post hl
    have hc : c ∈ l := by
      rw [hl]
      exact List.mem_append_right pre List.mem_cons_self
    have hnext := hP (pre ++ [c]) post (by rw [hl, List.append_assoc, List.singleton_append])
    rw [run_snoc] at hnext
    exact (hstep _ c hc (hP pre (c :: post) hl)).mp hnext
  · exact always_of_each (fun s c hc hs => (hstep s c hc hs).mpr) h

end

end History
