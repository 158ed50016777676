import Mathlib.Algebra.Notation.Defs
import Mathlib.Data.List.Basic

/-!
# Records in blocks, placed first fit

A block is a list of records with a key, a value and a length; the value 0 marks a record that is
not in use.  A record needs `need k` of its length for the key `k`, and what a record in use does not
need can be split off.

* `fit`           a record is placed in a block: in one that is not in use, or behind one that is;
* `insert`        in the first block with room, or in a new one;
* `scan`          what a search for a key gives: the first value in a block, if it is accepted;
* `scan_insert`, `scan_insert_ne`   what a search gives afterwards;
* `shown_insert`  records that are not in use hide none that are.
-/

set_option linter.unusedSectionVars false

namespace Records

structure Rec (α β : Type*) where
  key : α
  val : β
  len : Nat

variable {α β : Type*} [DecidableEq α] [Zero β] [DecidableEq β] (need : α → Nat)

/-- place a record in a block -/
def fit (k : α) (v : β) : List (Rec α β) → Option (List (Rec α β))
  | [] => none
  | e :: es =>
    if e.val = 0 ∧ need k ≤ e.len then some (⟨k, v, e.len⟩ :: es)
    else if e.val ≠ 0 ∧ need k ≤ e.len - need e.key then
      some (⟨e.key, e.val, need e.key⟩ :: ⟨k, v, e.len - need e.key⟩ :: es)
    else (fit k v es).map (e :: ·)

/-- place a record in the first block with room, or in a new block of length `cap` -/
def insert (cap : Nat) (k : α) (v : β) : List (List (Rec α β)) → List (List (Rec α β))
  | [] => [[⟨k, v, cap⟩]]
  | es :: bs =>
    match fit need k v es with
    | some es' => es' :: bs
    | none => es :: insert cap k v bs

/-- the value of the first record with a key -/
def first (k : α) : List (Rec α β) → Option β
  | [] => none
  | e :: es => if e.key = k then some e.val else first k es

/-- a search takes the first value of a block, and goes on to the next block when it does not accept it -/
def scan (ok : β → Prop) [DecidablePred ok] (k : α) : List (List (Rec α β)) → Option β
  | [] => none
  | es :: bs =>
    match first k es with
    | some v => if ok v then some v else scan ok k bs
    | none => scan ok k bs

section
variable {ok : β → Prop} [DecidablePred ok] {k : α} {es : List (Rec α β)} {bs : List (List (Rec α β))}

theorem scan_hit {v : β} (h : first k es = some v) (hok : ok v) : scan ok k (es :: bs) = some v := by
  rw [scan, h]
  exact if_pos hok

theorem scan_pass (h : ∀ v, first k es = some v → ¬ ok v) : scan ok k (es :: bs) = scan ok k bs := by
  rw [scan]
  split
  · rename_i v hv
    exact if_neg (h v hv)
  · rfl

end

/-- every record has the length that its key needs -/
def Sized (es : List (Rec α β)) : Prop := ∀ e ∈ es, need e.key ≤ e.len

/-- a record with the key is in use -/
def Used (k : α) (es : List (Rec α β)) : Prop := ∃ e ∈ es, e.key = k ∧ e.val ≠ 0

def UsedIn (k : α) (bs : List (List (Rec α β))) : Prop := ∃ es ∈ bs, Used k es

/-- a search for a key in use does not end at a record that is not in use -/
def Shown (ok : β → Prop) [DecidablePred ok] (bs : List (List (Rec α β))) : Prop :=
  ∀ k, UsedIn k bs → scan ok k bs ≠ some 0

/-! ## one block -/

theorem used_cons {k : α} {e : Rec α β} {es : List (Rec α β)} :
    Used k (e :: es) ↔ (e.key = k ∧ e.val ≠ 0) ∨ Used k es := by
  simp [Used]

section
variable {need} {k : α} {v : β} {es es' : List (Rec α β)} (hsized : Sized need es)
include hsized

/-- a block without room has no record with the key that is not in use -/
theorem first_of_fit_none (hfree : ¬ Used k es) (h : fit need k v es = none) : first k es = none := by
  induction es with
  | nil => rfl
  | cons e es ih =>
    rw [fit] at h
    split at h
    · cases h
    · rename_i hroom
      split at h
      · cases h
      · have htail : first k es = none := by
          apply ih (fun e' he' => hsized e' (List.mem_cons_of_mem e he'))
          · exact fun hu => hfree (used_cons.mpr (Or.inr hu))
          · exact Option.map_eq_none_iff.mp h
        rw [first, if_neg]
        · exact htail
        · intro hkey
          apply hroom
          refine ⟨?_, ?_⟩
          · by_contra hval
            exact hfree (used_cons.mpr (Or.inl ⟨hkey, hval⟩))
          · rw [← hkey]
            exact hsized e List.mem_cons_self

/-- the record that was placed is the first one with its key -/
theorem first_fit (hfree : ¬ Used k es) (h : fit need k v es = some es') : first k es' = some v := by
  induction es generalizing es' with
  | nil => cases h
  | cons e es ih =>
    rw [fit] at h
    split at h
    · cases h
      rw [first, if_pos rfl]
    · rename_i hroom
      have hkey : e.key ≠ k := by
        intro hkey
        apply hroom
        refine ⟨?_, ?_⟩
        · by_contra hval
          exact hfree (used_cons.mpr (Or.inl ⟨hkey, hval⟩))
        · rw [← hkey]
          exact hsized e List.mem_cons_self
      split at h
      · cases h
        rw [first, if_neg hkey, first, if_pos rfl]
      · obtain ⟨es'', hfit, rfl⟩ := Option.map_eq_some_iff.mp h
        rw [first, if_neg hkey]
        exact ih (fun e' he' => hsized e' (List.mem_cons_of_mem e he'))
          (fun hu => hfree (used_cons.mpr (Or.inr hu))) hfit

end

section
variable {need} {k : α} {v : β} {es es' : List (Rec α β)} (h : fit need k v es = some es')
include h

/-- another key has the same first value, unless a record of it that was not in use is overwritten -/
theorem first_fit_ne {k' : α} (hne : k' ≠ k) (hshown : first k' es ≠ some 0) :
    first k' es' = first k' es := by
  induction es generalizing es' with
  | nil => cases h
  | cons e es ih =>
    rw [fit] at h
    rw [first] at hshown ⊢
    split at h
    · rename_i hroom
      cases h
      rw [first, if_neg hne.symm]
      by_cases hkey : e.key = k'
      · rw [if_pos hkey, hroom.1] at hshown
        exact absurd rfl hshown
      · rw [if_neg hkey]
    · split at h
      · cases h
        rw [first, first, if_neg hne.symm]
      · obtain ⟨es'', hfit, rfl⟩ := Option.map_eq_some_iff.mp h
        rw [first]
        split
        · rfl
        · rename_i hkey
          rw [if_neg hkey] at hshown
          exact ih hfit hshown

theorem used_fit (hv : v ≠ 0) (k' : α) : Used k' es' ↔ k' = k ∨ Used k' es := by
  induction es generalizing es' with
  | nil => cases h
  | cons e es ih =>
    rw [fit] at h
    split at h
    · rename_i hroom
      cases h
      have hold : ¬ (e.key = k' ∧ e.val ≠ 0) := fun hc => hc.2 hroom.1
      rw [used_cons, used_cons, or_iff_right hold, and_iff_left hv, eq_comm]
    · split at h
      · cases h
        rw [used_cons, used_cons, used_cons, and_iff_left hv, or_left_comm, eq_comm]
      · obtain ⟨es'', hfit, rfl⟩ := Option.map_eq_some_iff.mp h
        rw [used_cons, used_cons, ih hfit, or_left_comm]

end

/-! ## many blocks -/

theorem usedIn_cons {k : α} {es : List (Rec α β)} {bs : List (List (Rec α β))} :
    UsedIn k (es :: bs) ↔ Used k es ∨ UsedIn k bs := by
  simp [UsedIn]

section
variable {need} (cap : Nat) {k : α} {v : β} (hv : v ≠ 0) {bs : List (List (Rec α β))}

include hv in
theorem usedIn_insert (k' : α) : UsedIn k' (insert need cap k v bs) ↔ k' = k ∨ UsedIn k' bs := by
  induction bs with
  | nil => simp [insert, UsedIn, Used, hv, eq_comm]
  | cons es bs ih =>
    rw [insert]
    split
    · rename_i es' hfit
      rw [usedIn_cons, usedIn_cons, used_fit hfit hv, or_assoc]
    · rw [usedIn_cons, usedIn_cons, ih, or_left_comm]

variable (ok : β → Prop) [DecidablePred ok]

/-- **A search gives the record that was placed.** -/
theorem scan_insert (hok : ok v) (hsized : ∀ es ∈ bs, Sized need es) (hfree : ¬ UsedIn k bs) :
    scan ok k (insert need cap k v bs) = some v := by
  induction bs with
  | nil => simp [insert, scan, first, hok]
  | cons es bs ih =>
    have hsz := hsized es List.mem_cons_self
    have hfree' : ¬ Used k es := fun hu => hfree (usedIn_cons.mpr (Or.inl hu))
    rw [insert]
    split
    · rename_i es' hfit
      exact scan_hit (first_fit hsz hfree' hfit) hok
    · rename_i hfit
      rw [scan_pass (fun w hw => by rw [first_of_fit_none hsz hfree' hfit] at hw; cases hw)]
      exact ih (fun es' h => hsized es' (List.mem_cons_of_mem es h))
        (fun hu => hfree (usedIn_cons.mpr (Or.inr hu)))

/-- **A search for another key gives what it gave before**, unless that was a record not in use. -/
theorem scan_insert_ne (h0 : ok 0) {k' : α} (hne : k' ≠ k) (hshown : scan ok k' bs ≠ some 0) :
    scan ok k' (insert need cap k v bs) = scan ok k' bs := by
  induction bs with
  | nil => simp [insert, scan, first, hne.symm]
  | cons es bs ih =>
    have hfirst : first k' es ≠ some 0 := by
      intro e
      exact hshown (scan_hit e h0)
    rw [insert]
    split
    · rename_i es' hfit
      rw [scan, scan, first_fit_ne hfit hne hfirst]
    · by_cases hhit : ∃ w, first k' es = some w ∧ ok w
      · obtain ⟨w, hw, hokw⟩ := hhit
        rw [scan_hit hw hokw, scan_hit hw hokw]
      · have hpass : ∀ w, first k' es = some w → ¬ ok w := fun w hw hokw => hhit ⟨w, hw, hokw⟩
        rw [scan_pass hpass] at hshown
        rw [scan_pass hpass, scan_pass hpass]
        exact ih hshown

include hv in
theorem shown_insert (h0 : ok 0) (hok : ok v) (hsized : ∀ es ∈ bs, Sized need es)
    (hfree : ¬ UsedIn k bs) (hshown : Shown ok bs) : Shown ok (insert need cap k v bs) := by
  intro k' hused
  by_cases hkey : k' = k
  · rw [hkey, scan_insert cap ok hok hsized hfree]
    exact fun e => hv (Option.some.inj e)
  · rcases (usedIn_insert cap hv k').mp hused with e | hu
    · exact absurd e hkey
    · rw [scan_insert_ne cap ok h0 hkey (hshown k' hu)]
      exact hshown k' hu

end

end Records
