import Mathlib.Logic.Relation

/-!
# Loops

A loop is given by its round, which ends with a result or goes on from a new state.

* `run`                      the loop, with as many rounds as there is fuel;
* `Come.ends_iff`            a state that is come to decides whether the loop ends;
* `come_of_run`, `run_of_come`, `come_last` a loop that ends has a last state, which every other comes to;
* `ends_of_measure`          every round that goes on makes a measure smaller;
* `run_spec`                 an invariant, a measure and what holds of the result;
* `not_ends_of_invariant`    an invariant under which every round goes on;
* `come_of_check`            the states of a loop that ends, one by one.
-/

namespace Loop

variable {σ ρ : Type*}

/-- at most `fuel` rounds from `s` -/
def run (round : σ → σ ⊕ ρ) : (fuel : Nat) → (s : σ) → Option ρ
  | 0, _ => none
  | fuel + 1, s =>
    match round s with
    | .inl t => run round fuel t
    | .inr r => some r

/-- a round that goes on -/
def Next (round : σ → σ ⊕ ρ) (s t : σ) : Prop := round s = .inl t

/-- the states that the loop comes to -/
def Come (round : σ → σ ⊕ ρ) : σ → σ → Prop := Relation.ReflTransGen (Next round)

/-- there is fuel enough -/
def Ends (round : σ → σ ⊕ ρ) (s : σ) : Prop := ∃ fuel r, run round fuel s = some r

/-- a result that more fuel does not change is the only one -/
theorem unique_of_add {f : Nat → Option ρ} (hadd : ∀ fuel k r, f fuel = some r → f (fuel + k) = some r)
    {fuel fuel' : Nat} {r r' : ρ} (h : f fuel = some r) (h' : f fuel' = some r') : r = r' := by
  have h1 := hadd fuel fuel' r h
  have h2 := hadd fuel' fuel r' h'
  rw [Nat.add_comm, h2] at h1
  exact (Option.some.inj h1).symm

section
variable {round : σ → σ ⊕ ρ} {s t : σ} {r r' : ρ}

theorem run_next (h : Next round s t) (fuel : Nat) : run round (fuel + 1) s = run round fuel t := by
  rw [run, h]

theorem run_last (h : round s = .inr r) (fuel : Nat) : run round (fuel + 1) s = some r := by
  rw [run, h]

/-- more fuel does not change a result -/
theorem run_add {fuel : Nat} (k : Nat) (h : run round fuel s = some r) :
    run round (fuel + k) s = some r := by
  induction fuel generalizing s with
  | zero => cases h
  | succ fuel ih =>
    rw [Nat.add_right_comm]
    cases hr : round s with
    | inl t =>
      rw [run_next hr] at h ⊢
      exact ih h
    | inr r' =>
      rw [run_last hr] at h ⊢
      exact h

theorem run_unique {fuel fuel' : Nat} (h : run round fuel s = some r) (h' : run round fuel' s = some r') :
    r = r' :=
  unique_of_add (f := fun fuel => run round fuel s) (fun _ k _ h => run_add k h) h h'

theorem ends_last (h : round s = .inr r) : Ends round s := ⟨1, r, run_last h 0⟩

theorem Next.ends_iff (h : Next round s t) : Ends round s ↔ Ends round t := by
  constructor
  · rintro ⟨fuel, r, hr⟩
    cases fuel with
    | zero => cases hr
    | succ fuel =>
      rw [run_next h] at hr
      exact ⟨fuel, r, hr⟩
  · rintro ⟨fuel, r, hr⟩
    exact ⟨fuel + 1, r, (run_next h fuel).trans hr⟩

theorem Come.ends_iff (h : Come round s t) : Ends round s ↔ Ends round t := by
  induction h with
  | refl => exact Iff.rfl
  | tail _ hnext ih => exact ih.trans hnext.ends_iff

/-- what a round keeps holds of every state that is come to -/
theorem Come.keeps {I : σ → Prop} (h : ∀ s t, I s → Next round s t → I t) (hs : I s)
    (hc : Come round s t) : I t := by
  induction hc with
  | refl => exact hs
  | tail _ hnext ih => exact h _ _ ih hnext

/-- a loop that ends comes to a last state -/
theorem come_of_run {fuel : Nat} (h : run round fuel s = some r) :
    ∃ t, Come round s t ∧ round t = .inr r := by
  induction fuel generalizing s with
  | zero => cases h
  | succ fuel ih =>
    cases hr : round s with
    | inl t =>
      rw [run_next hr] at h
      obtain ⟨u, hu, hlast⟩ := ih h
      exact ⟨u, .head hr hu, hlast⟩
    | inr r' =>
      rw [run_last hr] at h
      obtain rfl := Option.some.inj h
      exact ⟨s, .refl, hr⟩

/-- the result at a last state that is come to -/
theorem run_of_come (h : Come round s t) (hr : round t = .inr r) : ∃ fuel, run round fuel s = some r := by
  induction h using Relation.ReflTransGen.head_induction_on with
  | refl => exact ⟨1, run_last hr 0⟩
  | head hnext _ ih =>
    obtain ⟨fuel, hrun⟩ := ih
    exact ⟨fuel + 1, (run_next hnext fuel).trans hrun⟩

/-- every state that is come to comes to the last one -/
theorem come_last {u : σ} (hr : round t = .inr r) (ht : Come round s t) (hu : Come round s u) :
    Come round u t := by
  have hunique : Relator.RightUnique (Next round) := fun _ _ _ h h' => Sum.inl.inj (h.symm.trans h')
  rcases Relation.ReflTransGen.total_of_right_unique hunique hu ht with h | h
  · exact h
  · rcases h.cases_head with rfl | ⟨v, hv, _⟩
    · exact .refl
    · cases hr.symm.trans hv

/-- an invariant under which every round goes on: the loop does not end -/
theorem not_ends_of_invariant {I : σ → Prop} (hI : ∀ s, I s → ∃ t, Next round s t ∧ I t) (h : I s) :
    ¬ Ends round s := by
  rintro ⟨fuel, r, hr⟩
  induction fuel generalizing s with
  | zero => cases hr
  | succ fuel ih =>
    obtain ⟨t, hnext, ht⟩ := hI s h
    rw [run_next hnext] at hr
    exact ih ht hr

end

/-! ## measures -/

/-- a relation whose every step from a state that is come to makes a measure smaller -/
theorem acc_of_measure {step : σ → σ → Prop} {s : σ} (m : σ → Nat)
    (h : ∀ t u, Relation.ReflTransGen step s t → step t u → m u < m t) : Acc (fun u t => step t u) s := by
  induction hm : m s using Nat.strongRecOn generalizing s with
  | ind n ih =>
    refine ⟨s, fun t hst => ?_⟩
    have hlt := h s t .refl hst
    exact ih _ (hm ▸ hlt) (fun u v hu => h u v (.head hst hu)) rfl

variable {round : σ → σ ⊕ ρ} {s : σ}

/-- every round that goes on makes a measure smaller: the loop ends -/
theorem ends_of_measure (m : σ → Nat) (h : ∀ t u, Come round s t → Next round t u → m u < m t) :
    Ends round s := by
  have hacc := acc_of_measure m h
  clear h
  induction hacc with
  | intro s _ ih =>
    cases hr : round s with
    | inl t => exact (Next.ends_iff hr).mpr (ih t hr)
    | inr r => exact ends_last hr

/-- a loop with an invariant `I`, a measure, and what holds of its result -/
theorem run_spec {I : σ → Prop} {Q : ρ → Prop} (m : σ → Nat)
    (h : ∀ s, I s → (∃ t, Next round s t ∧ I t ∧ m t < m s) ∨ ∃ r, round s = .inr r ∧ Q r)
    (hI : I s) {fuel : Nat} (hm : m s < fuel) : ∃ r, run round fuel s = some r ∧ Q r := by
  induction fuel generalizing s with
  | zero => omega
  | succ fuel ih =>
    rcases h s hI with ⟨t, hnext, ht, hlt⟩ | ⟨r, hr, hQ⟩
    · rw [run_next hnext]
      exact ih ht (by omega)
    · exact ⟨r, run_last hr fuel, hQ⟩

/-! ## a loop that ends, state by state -/

/-- the loop ends after at most `fuel` rounds, and `p` holds of every state before a round -/
def check (p : σ → Bool) (round : σ → σ ⊕ ρ) : (fuel : Nat) → (s : σ) → Bool
  | 0, _ => false
  | fuel + 1, s =>
    p s && match round s with
      | .inl t => check p round fuel t
      | .inr _ => true

theorem come_of_check {p : σ → Bool} {fuel : Nat} {t : σ} (h : check p round fuel s = true)
    (ht : Come round s t) : p t = true := by
  induction fuel generalizing s with
  | zero => cases h
  | succ fuel ih =>
    obtain ⟨hp, hrest⟩ := Bool.and_eq_true_iff.mp h
    rcases ht.cases_head with rfl | ⟨u, hu, hut⟩
    · exact hp
    · have hr : round s = .inl u := hu
      rw [hr] at hrest
      exact ih hrest hut

end Loop
