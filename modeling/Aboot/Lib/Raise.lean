import Mathlib.Logic.Basic

/-!
# Programs on a state that may be left

`Ends x Q R s`: a run of `x` from `s` either returns, and `Q` holds of the value and the state, or is
left by an exception, and `R` holds of the exception and the state.

* `Ends.bind`, `Ends.pure`, `Ends.modify`, ..   the rules, one for each construct;
* `Ends.mono`, `Ends.imp`   what is said of the end may be weakened;
* `Ends.seq`     a sequence, by what is known of its parts;
* `Keeps I x`    the invariant `I` holds again however a run of `x` ends.
-/

namespace Raise

variable {ε σ α β : Type}

def Ends (x : EStateM ε σ α) (Q : α → σ → Prop) (R : ε → σ → Prop) (s : σ) : Prop :=
  match x s with
  | .ok a t => Q a t
  | .error e t => R e t

variable {x : EStateM ε σ α} {Q : α → σ → Prop} {R : ε → σ → Prop} {s : σ}

theorem Ends.cases (h : Ends x Q R s) :
    (∃ a t, x s = .ok a t ∧ Q a t) ∨ ∃ e t, x s = .error e t ∧ R e t := by
  unfold Ends at h
  cases hx : x s with
  | ok a t =>
    rw [hx] at h
    exact .inl ⟨a, t, rfl, h⟩
  | error e t =>
    rw [hx] at h
    exact .inr ⟨e, t, rfl, h⟩

theorem Ends.of_ok {a : α} {t : σ} (hx : x s = .ok a t) (h : Q a t) : Ends x Q R s := by
  unfold Ends
  rw [hx]
  exact h

theorem Ends.of_error {e : ε} {t : σ} (hx : x s = .error e t) (h : R e t) : Ends x Q R s := by
  unfold Ends
  rw [hx]
  exact h

theorem Ends.mono {Q' : α → σ → Prop} (h : Ends x Q R s) (hq : ∀ a t, Q a t → Q' a t) :
    Ends x Q' R s := by
  obtain ⟨a, t, hx, h⟩ | ⟨e, t, hx, h⟩ := h.cases
  · exact .of_ok hx (hq a t h)
  · exact .of_error hx h

theorem Ends.imp {Q' : α → σ → Prop} {R' : ε → σ → Prop} (h : Ends x Q R s) (hq : ∀ a t, Q a t → Q' a t)
    (hr : ∀ e t, R e t → R' e t) : Ends x Q' R' s := by
  obtain ⟨a, t, hx, h⟩ | ⟨e, t, hx, h⟩ := h.cases
  · exact .of_ok hx (hq a t h)
  · exact .of_error hx (hr e t h)

theorem Ends.ok {a : α} {t : σ} (h : Ends x Q R s) (hx : x s = .ok a t) : Q a t := by
  unfold Ends at h
  rw [hx] at h
  exact h

theorem Ends.error {e : ε} {t : σ} (h : Ends x Q R s) (hx : x s = .error e t) : R e t := by
  unfold Ends at h
  rw [hx] at h
  exact h

/-- a run ends somehow -/
theorem ends_true (x : EStateM ε σ α) (s : σ) : Ends x (fun _ _ => True) (fun _ _ => True) s := by
  cases hx : x s with
  | ok a t => exact .of_ok hx trivial
  | error e t => exact .of_error hx trivial

theorem bind_ok {f : α → EStateM ε σ β} {a : α} {t : σ} (hx : x s = .ok a t) :
    (x >>= f) s = f a t := by
  show EStateM.bind x f s = f a t
  rw [EStateM.bind, hx]

theorem get_ok : (get : EStateM ε σ σ) s = .ok s s := rfl

theorem set_ok {t : σ} : (set t : EStateM ε σ PUnit) s = .ok ⟨⟩ t := rfl

theorem modify_ok {f : σ → σ} : (modify f : EStateM ε σ PUnit) s = .ok ⟨⟩ (f s) := rfl

theorem bind_error {f : α → EStateM ε σ β} {e : ε} {t : σ} (hx : x s = .error e t) :
    (x >>= f) s = .error e t := by
  show EStateM.bind x f s = .error e t
  rw [EStateM.bind, hx]

theorem Ends.bind {f : α → EStateM ε σ β} {Q : β → σ → Prop}
    (h : Ends x (fun a t => Ends (f a) Q R t) R s) : Ends (x >>= f) Q R s := by
  obtain ⟨a, t, hx, h⟩ | ⟨e, t, hx, h⟩ := h.cases
  · unfold Ends
    rw [bind_ok hx]
    exact h
  · exact .of_error (bind_error hx) h

theorem Ends.seq {f : α → EStateM ε σ β} {P : α → σ → Prop} {E : ε → σ → Prop} {Q : β → σ → Prop}
    (h : Ends x P E s) (hf : ∀ a t, P a t → Ends (f a) Q R t) (he : ∀ e t, E e t → R e t) :
    Ends (x >>= f) Q R s :=
  .bind (h.imp hf he)

theorem Ends.pure {a : α} (h : Q a s) : Ends (pure a : EStateM ε σ α) Q R s := h

theorem Ends.throw {e : ε} (h : R e s) : Ends (throw e : EStateM ε σ α) Q R s := h

theorem Ends.get {Q : σ → σ → Prop} (h : Q s s) : Ends (get : EStateM ε σ σ) Q R s := h

theorem Ends.set {Q : PUnit → σ → Prop} {t : σ} (h : Q ⟨⟩ t) : Ends (set t : EStateM ε σ PUnit) Q R s := h

theorem Ends.modify {Q : PUnit → σ → Prop} {f : σ → σ} (h : Q ⟨⟩ (f s)) :
    Ends (modify f : EStateM ε σ PUnit) Q R s := h

theorem Ends.ite {c : Prop} [Decidable c] {y : EStateM ε σ α} (hx : c → Ends x Q R s)
    (hy : ¬ c → Ends y Q R s) : Ends (if c then x else y) Q R s := by
  by_cases hc : c
  · rw [if_pos hc]
    exact hx hc
  · rw [if_neg hc]
    exact hy hc

/-! ## invariants -/

/-- a run that starts where `I` holds ends where `I` holds -/
structure Keeps (I : σ → Prop) (x : EStateM ε σ α) : Prop where
  ends : ∀ s, I s → Ends x (fun _ t => I t) (fun _ t => I t) s

section
variable {I : σ → Prop}

theorem Keeps.pure (a : α) : Keeps I (pure a : EStateM ε σ α) := ⟨fun _ h => h⟩

theorem Keeps.throw (e : ε) : Keeps I (throw e : EStateM ε σ α) := ⟨fun _ h => h⟩

theorem Keeps.modify {f : σ → σ} (h : ∀ s, I s → I (f s)) : Keeps I (modify f : EStateM ε σ PUnit) :=
  ⟨h⟩

theorem Keeps.modifyGet {f : σ → α × σ} (h : ∀ s, I s → I (f s).2) :
    Keeps I (modifyGet f : EStateM ε σ α) := ⟨h⟩

theorem Keeps.set {t : σ} (h : I t) : Keeps I (set t : EStateM ε σ PUnit) := ⟨fun _ _ => h⟩

theorem Keeps.bind {f : α → EStateM ε σ β} (hx : Keeps I x) (hf : ∀ a, Keeps I (f a)) :
    Keeps I (x >>= f) :=
  ⟨fun s hs => .bind ((hx.ends s hs).mono fun a t ht => (hf a).ends t ht)⟩

/-- a program that starts with the state -/
theorem Keeps.get {f : σ → EStateM ε σ β} (h : ∀ s, I s → Keeps I (f s)) : Keeps I (get >>= f) :=
  ⟨fun s hs => (h s hs).ends s hs⟩

theorem Keeps.ite {c : Prop} [Decidable c] {y : EStateM ε σ α} (hx : Keeps I x) (hy : Keeps I y) :
    Keeps I (if c then x else y) :=
  ⟨fun s hs => .ite (fun _ => hx.ends s hs) fun _ => hy.ends s hs⟩

end

-- a goal is about the run of a program: it is not to be evaluated
attribute [irreducible] Ends

end Raise
