import Mathlib.Logic.Basic

/-!
# Programs on a state that may fail

`Prog σ α` is a program on a state `σ` that gives an `α`, or has no result.

* `bind_some`      a run of a sequence is a run of its parts;
* `Steps R x`      every run of `x` takes a state to a state related by `R`;
* `Steps.bind`, `Steps.forM`, ..   the rules for a reflexive and transitive `R`;
* `forM_spec`      a loop whose rounds each add to a list that an invariant speaks of;
* `Same x y Q s`   from `s` two programs run alike, and `Q` holds of what they come to;
* `Same.bind`, `Same.ite`, ..   its rules.
-/

abbrev Prog (σ α : Type) := StateT σ Option α

namespace Prog

variable {σ α β : Type}

/-- `x` under a condition -/
def when (c : Prop) [Decidable c] (x : Prog σ Unit) : Prog σ Unit := if c then x else pure ()

theorem bind_eq (x : Prog σ α) (f : α → Prog σ β) (s : σ) :
    (x >>= f) s = (x s).bind fun p => f p.1 p.2 := rfl

theorem bind_some {x : Prog σ α} {f : α → Prog σ β} {s : σ} {r : β × σ} :
    (x >>= f) s = some r ↔ ∃ a t, x s = some (a, t) ∧ f a t = some r := by
  rw [bind_eq, Option.bind_eq_some_iff]
  constructor
  · rintro ⟨⟨a, t⟩, h1, h2⟩
    exact ⟨a, t, h1, h2⟩
  · rintro ⟨a, t, h1, h2⟩
    exact ⟨(a, t), h1, h2⟩

/-- a sequence whose first part is known -/
theorem bind_run {x : Prog σ α} {f : α → Prog σ β} {s t : σ} {a : α} (h : x s = some (a, t)) :
    (x >>= f) s = f a t := by
  rw [bind_eq, h]
  rfl

@[simp] theorem pure_run (a : α) (s : σ) : (pure a : Prog σ α) s = some (a, s) := rfl

@[simp] theorem get_run (s : σ) : (get : Prog σ σ) s = some (s, s) := rfl

@[simp] theorem modify_run (f : σ → σ) (s : σ) : (modify f : Prog σ Unit) s = some ((), f s) := rfl

@[simp] theorem modifyGet_run (f : σ → α × σ) (s : σ) :
    (modifyGet f : Prog σ α) s = some ((f s).1, (f s).2) := rfl

@[simp] theorem failure_run (s : σ) : (failure : Prog σ α) s = none := rfl

/-! ## what every run keeps -/

/-- every run of `x` takes a state to one related by `R` -/
def Steps (R : σ → σ → Prop) (x : Prog σ α) : Prop := ∀ s a t, x s = some (a, t) → R s t

variable {R : σ → σ → Prop}

theorem Steps.mono {R' : σ → σ → Prop} {x : Prog σ α} (h : Steps R x) (hi : ∀ s t, R s t → R' s t) :
    Steps R' x :=
  fun s a t hx => hi s t (h s a t hx)

theorem Steps.fail : Steps R (failure : Prog σ α) := by
  intro s a t h
  cases h

theorem Steps.modify {f : σ → σ} (h : ∀ s, R s (f s)) : Steps R (modify f : Prog σ Unit) := by
  intro s a t hx
  rw [modify_run, Option.some.injEq, Prod.mk.injEq] at hx
  rw [← hx.2]
  exact h s

theorem Steps.modifyGet {f : σ → α × σ} (h : ∀ s, R s (f s).2) :
    Steps R (modifyGet f : Prog σ α) := by
  intro s a t hx
  rw [modifyGet_run, Option.some.injEq, Prod.mk.injEq] at hx
  rw [← hx.2]
  exact h s

theorem Steps.ite {c : Prop} [Decidable c] {x y : Prog σ α} (hx : Steps R x) (hy : Steps R y) :
    Steps R (if c then x else y) := by
  split
  · exact hx
  · exact hy

section
variable (hrefl : ∀ s, R s s)
include hrefl

theorem Steps.pure (a : α) : Steps R (pure a : Prog σ α) := by
  intro s b t hx
  rw [pure_run, Option.some.injEq, Prod.mk.injEq] at hx
  rw [← hx.2]
  exact hrefl s

theorem Steps.get : Steps R (get : Prog σ σ) := by
  intro s a t hx
  rw [get_run, Option.some.injEq, Prod.mk.injEq] at hx
  rw [← hx.2]
  exact hrefl s

end

theorem Steps.when (hrefl : ∀ s, R s s) {c : Prop} [Decidable c] {x : Prog σ Unit} (hx : Steps R x) :
    Steps R (when c x) := Steps.ite hx (Steps.pure hrefl ())

section
variable (htrans : ∀ s t u, R s t → R t u → R s u)
include htrans

theorem Steps.bind {x : Prog σ α} {f : α → Prog σ β} (hx : Steps R x) (hf : ∀ a, Steps R (f a)) :
    Steps R (x >>= f) := by
  intro s b u h
  obtain ⟨a, t, h1, h2⟩ := bind_some.mp h
  exact htrans s t u (hx s a t h1) (hf a t b u h2)

theorem Steps.forM (hrefl : ∀ s, R s s) {f : α → Prog σ Unit} (hf : ∀ a, Steps R (f a)) :
    ∀ l : List α, Steps R (l.forM f)
  | [] => Steps.pure hrefl ()
  | a :: l => Steps.bind htrans (hf a) fun _ => Steps.forM hrefl hf l

end

/-! ## what a loop adds up to -/

theorem forM_congr {f g : α → Prog σ Unit} {l : List α} (h : ∀ x ∈ l, f x = g x) :
    l.forM f = l.forM g := by
  induction l with
  | nil => rfl
  | cons x l ih =>
    show (f x >>= fun _ => l.forM f) = (g x >>= fun _ => l.forM g)
    rw [h x List.mem_cons_self, ih fun y hy => h y (List.mem_cons_of_mem x hy)]

/-- a loop of one round -/
theorem forM_singleton (f : α → Prog σ Unit) (x : α) : [x].forM f = f x := by
  show (f x >>= fun _ => pure ()) = f x
  exact bind_pure_unit

theorem forM_cons (f : α → Prog σ Unit) (x : α) (l : List α) :
    (x :: l).forM f = (do
      f x
      l.forM f) := rfl

/-- the first round of a loop -/
theorem forM_cons_run {f : α → Prog σ Unit} {x : α} {l : List α} {s t : σ} (h : f x s = some ((), t)) :
    (x :: l).forM f s = l.forM f t := by
  show (f x >>= fun _ => l.forM f) s = _
  rw [bind_run h]

/-- every round adds its part to the list that the invariant `I` speaks of -/
theorem forM_spec {I : List β → σ → Prop} {T : α → List β} {f : α → Prog σ Unit} (l : List α) :
    (∀ x ∈ l, ∀ D s, I D s → ∃ t, f x s = some ((), t) ∧ I (D ++ T x) t) →
      ∀ D s, I D s → ∃ t, l.forM f s = some ((), t) ∧ I (D ++ l.flatMap T) t := by
  induction l with
  | nil =>
    intro hf D s h
    refine ⟨s, rfl, ?_⟩
    rwa [List.flatMap_nil, List.append_nil]
  | cons x l ih =>
    intro hf D s h
    obtain ⟨t, ht, hI⟩ := hf x List.mem_cons_self D s h
    obtain ⟨u, hu, hJ⟩ := ih (fun y hy => hf y (List.mem_cons_of_mem x hy)) _ t hI
    refine ⟨u, ?_, ?_⟩
    · rw [forM_cons_run ht]
      exact hu
    · rwa [List.flatMap_cons, ← List.append_assoc]

/-! ## two programs that run alike -/

/-- from `s` the two programs run alike, and `Q` holds of what they come to -/
def Same (x y : Prog σ α) (Q : α → σ → Prop) (s : σ) : Prop :=
  x s = y s ∧ ∀ a t, x s = some (a, t) → Q a t

section
variable {x y : Prog σ α} {P Q : α → σ → Prop} {s : σ}

theorem Same.mono (h : Same x y P s) (hq : ∀ a t, P a t → Q a t) : Same x y Q s :=
  ⟨h.1, fun a t hx => hq a t (h.2 a t hx)⟩

theorem Same.bind {f g : α → Prog σ β} {Q : β → σ → Prop} (hx : Same x y P s)
    (hf : ∀ a t, x s = some (a, t) → P a t → Same (f a) (g a) Q t) :
    Same (x >>= f) (y >>= g) Q s := by
  cases h : x s with
  | none =>
    have h' : y s = none := hx.1.symm.trans h
    refine ⟨?_, fun a t ht => ?_⟩
    · rw [bind_eq, bind_eq, h, h']
      rfl
    · rw [bind_eq, h] at ht
      cases ht
  | some r =>
    have h' : y s = some r := hx.1.symm.trans h
    have hfg := hf r.1 r.2 h (hx.2 r.1 r.2 h)
    have e : (x >>= f) s = f r.1 r.2 := bind_run h
    have e' : (y >>= g) s = g r.1 r.2 := bind_run h'
    refine ⟨?_, fun a t ht => ?_⟩
    · rw [e, e', hfg.1]
    · rw [e] at ht
      exact hfg.2 a t ht

theorem Same.pure {a : α} (h : Q a s) : Same (pure a : Prog σ α) (pure a) Q s := by
  refine ⟨rfl, fun b t ht => ?_⟩
  rw [pure_run, Option.some.injEq, Prod.mk.injEq] at ht
  rw [← ht.1, ← ht.2]
  exact h

theorem Same.fail : Same (failure : Prog σ α) failure Q s := by
  refine ⟨rfl, fun b t ht => ?_⟩
  cases ht

theorem Same.modify {Q : PUnit → σ → Prop} {f : σ → σ} (h : Q ⟨⟩ (f s)) :
    Same (modify f : Prog σ PUnit) (modify f) Q s := by
  refine ⟨rfl, fun b t ht => ?_⟩
  rw [modify_run, Option.some.injEq, Prod.mk.injEq] at ht
  rw [← ht.2]
  exact h

/-- a program that takes states to states related by `R` -/
theorem Same.of_steps (h : Steps R x) : Same x x (fun _ t => R s t) s :=
  ⟨rfl, fun a t hx => h s a t hx⟩

theorem Same.ite {c : Prop} [Decidable c] {x' y' : Prog σ α} (hx : c → Same x y Q s)
    (hy : ¬ c → Same x' y' Q s) : Same (if c then x else x') (if c then y else y') Q s := by
  by_cases h : c
  · rw [if_pos h, if_pos h]
    exact hx h
  · rw [if_neg h, if_neg h]
    exact hy h

/-- a sequence that starts with the state -/
theorem Same.get_bind {f g : σ → Prog σ β} {Q : β → σ → Prop} (h : Same (f s) (g s) Q s) :
    Same (get >>= f) (get >>= g) Q s := h

end

end Prog
