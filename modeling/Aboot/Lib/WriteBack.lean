import Mathlib.Logic.Function.Basic
import Mathlib.Tactic.Ring
import Mathlib.Tactic.Linarith

/-!
# Write-back caches over a backing store

A cache is a family of slots; a slot holds at most one key with a value and a dirty mark.
`Coherent c back a` says that the slots `c` over the backing store `back` stand for the plain
map `a`: no key is held twice, a held value is the value of `a`, and the backing store agrees
with `a` on every key that is not held dirty.

The rules follow what a write-back cache can do:

* `Coherent.writeback`  write a held value to the backing store and mark the slot clean;
* `Coherent.fill`       give a clean slot to a key that is not held, with its stored value;
* `Coherent.store_hit`, `Coherent.store_miss`   overwrite a value in the cache;
* `Coherent.back_eq`    when no slot is dirty the backing store is the plain map.
-/

set_option linter.unusedSectionVars false

namespace WB

/-- one slot of a cache -/
structure Slot (κ β : Type*) where
  key : Option κ
  val : β
  dirty : Bool

section
variable {ι κ β : Type*} [DecidableEq ι] [DecidableEq κ]

/-- the slots `c` over the backing store `back` stand for the plain map `a` -/
structure Coherent (c : ι → Slot κ β) (back a : κ → β) : Prop where
  uniq : ∀ i j k, (c i).key = some k → (c j).key = some k → i = j
  held : ∀ i k, (c i).key = some k → (c i).val = a k
  miss : ∀ k, (∀ i, (c i).key ≠ some k) → back k = a k
  clean : ∀ i k, (c i).key = some k → (c i).dirty = false → back k = a k

variable {c : ι → Slot κ β} {back a : κ → β}

/-- a held value is written to the backing store -/
theorem Coherent.writeback (h : Coherent c back a) {i : ι} {k : κ} (hk : (c i).key = some k) :
    Coherent (Function.update c i { c i with dirty := false })
      (Function.update back k (c i).val) a := by
  have hkey : ∀ j, (Function.update c i { c i with dirty := false } j).key = (c j).key := by
    intro j
    by_cases e : j = i
    · rw [e, Function.update_self]
    · rw [Function.update_of_ne e]
  have hval : ∀ j, (Function.update c i { c i with dirty := false } j).val = (c j).val := by
    intro j
    by_cases e : j = i
    · rw [e, Function.update_self]
    · rw [Function.update_of_ne e]
  have hback : ∀ k', back k' = a k' ∨ k' = k → Function.update back k (c i).val k' = a k' := by
    intro k' hk'
    by_cases e : k' = k
    · rw [e, Function.update_self, h.held i k hk]
    · rw [Function.update_of_ne e]
      exact hk'.resolve_right e
  refine ⟨?_, ?_, ?_, ?_⟩
  · intro j j' k' h1 h2
    rw [hkey] at h1 h2
    exact h.uniq j j' k' h1 h2
  · intro j k' h1
    rw [hkey] at h1
    rw [hval]
    exact h.held j k' h1
  · intro k' h1
    refine hback k' (Or.inl (h.miss k' fun j => ?_))
    have := h1 j
    rwa [hkey] at this
  · intro j k' h1 h2
    rw [hkey] at h1
    by_cases e : j = i
    · rw [e, hk] at h1
      exact hback k' (Or.inr (Option.some.inj h1).symm)
    · rw [Function.update_of_ne e] at h2
      exact hback k' (Or.inl (h.clean j k' h1 h2))

/-- the slot `i` takes over the key `k`, with the new value `v`; the map changes at `k` only -/
theorem Coherent.put (h : Coherent c back a) {i : ι} {k : κ} {v : β} {d : Bool}
    (hfree : ∀ j, (c j).key = some k → j = i)
    (hclean : ∀ k', (c i).key = some k' → k' ≠ k → back k' = a k')
    (hd : d = false → back k = v) :
    Coherent (Function.update c i ⟨some k, v, d⟩) back (Function.update a k v) := by
  have hne : ∀ j, j ≠ i → ∀ k', (c j).key = some k' → k' ≠ k := fun j hj k' hk' e =>
    hj (hfree j (e ▸ hk'))
  refine ⟨?_, ?_, ?_, ?_⟩
  · intro j j' k' h1 h2
    by_cases e : j = i <;> by_cases e' : j' = i
    · rw [e, e']
    · rw [e, Function.update_self] at h1
      rw [Function.update_of_ne e'] at h2
      exact absurd (Option.some.inj h1).symm (hne j' e' k' h2)
    · rw [e', Function.update_self] at h2
      rw [Function.update_of_ne e] at h1
      exact absurd (Option.some.inj h2).symm (hne j e k' h1)
    · rw [Function.update_of_ne e] at h1
      rw [Function.update_of_ne e'] at h2
      exact h.uniq j j' k' h1 h2
  · intro j k' h1
    by_cases e : j = i
    · rw [e, Function.update_self] at h1 ⊢
      rw [← Option.some.inj h1, Function.update_self]
    · rw [Function.update_of_ne e] at h1 ⊢
      rw [Function.update_of_ne (hne j e k' h1)]
      exact h.held j k' h1
  · intro k' h1
    have hk' : k' ≠ k := by
      intro e
      apply h1 i
      rw [e, Function.update_self]
    rw [Function.update_of_ne hk']
    by_cases hi : (c i).key = some k'
    · exact hclean k' hi hk'
    · refine h.miss k' fun j => ?_
      by_cases e : j = i
      · rw [e]; exact hi
      · have := h1 j
        rwa [Function.update_of_ne e] at this
  · intro j k' h1 h2
    by_cases e : j = i
    · rw [e, Function.update_self] at h1 h2
      rw [← Option.some.inj h1, Function.update_self]
      exact hd h2
    · rw [Function.update_of_ne e] at h1 h2
      rw [Function.update_of_ne (hne j e k' h1)]
      exact h.clean j k' h1 h2

/-- a clean slot is given to a key that is not held -/
theorem Coherent.fill (h : Coherent c back a) {i : ι} {k : κ}
    (hmiss : ∀ j, (c j).key ≠ some k) (hi : (c i).dirty = false) :
    Coherent (Function.update c i ⟨some k, back k, false⟩) back a := by
  have hp := h.put (i := i) (k := k) (v := back k) (d := false)
    (fun j hj => absurd hj (hmiss j)) (fun k' hk' _ => h.clean i k' hk' hi) (fun _ => rfl)
  rwa [h.miss k hmiss, Function.update_eq_self, ← h.miss k hmiss] at hp

/-- a held value is overwritten -/
theorem Coherent.store_hit (h : Coherent c back a) {i : ι} {k : κ} (hk : (c i).key = some k)
    (v : β) : Coherent (Function.update c i ⟨some k, v, true⟩) back (Function.update a k v) :=
  h.put (fun j hj => h.uniq j i k hj hk)
    (fun _ hk' hne => absurd (Option.some.inj (hk.symm.trans hk')).symm hne)
    (fun e => absurd e Bool.true_eq_false.mp)

/-- a clean slot is given to a key that is not held, with a new value -/
theorem Coherent.store_miss (h : Coherent c back a) {i : ι} {k : κ}
    (hmiss : ∀ j, (c j).key ≠ some k) (hi : (c i).dirty = false) (v : β) :
    Coherent (Function.update c i ⟨some k, v, true⟩) back (Function.update a k v) :=
  h.put (fun j hj => absurd hj (hmiss j)) (fun k' hk' _ => h.clean i k' hk' hi)
    (fun e => absurd e Bool.true_eq_false.mp)

/-- without a dirty slot the backing store is the plain map -/
theorem Coherent.back_eq (h : Coherent c back a)
    (hd : ∀ i k, (c i).key = some k → (c i).dirty = false) : back = a := by
  funext k
  by_cases e : ∃ i, (c i).key = some k
  · obtain ⟨i, hi⟩ := e
    exact h.clean i k hi (hd i k hi)
  · exact h.miss k fun i hi => e ⟨i, hi⟩

end

end WB
