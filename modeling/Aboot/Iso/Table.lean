import Aboot.Iso.Frame
import Aboot.Lib.Bytes
import Mathlib.Data.Fintype.Card
import Mathlib.Data.Finset.Card

/-!
# The inode table of isolib.c over opens and closes

* `Holds s t held`     between `s` and `t` the entries `held` were taken, and no others changed hands;
* `igetOr_holds`, `iso_iput_holds`   what one call does to it;
* `lookup_holds`, `follow_link_holds`, `open_holds`   what a path takes and releases;
* `OpenFine`           no directory on the way is missing, and the text of every link can be read.

`iso_lookup` does not release the directory in which a component on the way is missing, and
`iso_follow_link` does not release the root when the link has no text.
-/

set_option linter.unusedVariables false

namespace Iso
open Word Prog

/-! ## the entries that are taken -/

/-- from `s` to `t` the entries `held` were taken; the others are free as before, and those that
were taken before are untouched -/
structure Holds (s t : State) (held : List Slot) : Prop where
  used : ∀ j ∈ held, (s.inode_table j).free = true ∧ (t.inode_table j).free = false
  same : ∀ j, j ∉ held → (t.inode_table j).free = (s.inode_table j).free
  kept : ∀ j, (s.inode_table j).free = false → t.inode_table j = s.inode_table j

variable {s t u : State} {held : List Slot} {i j : Slot} {E : Env}

theorem Holds.refl (s : State) : Holds s s [] :=
  ⟨fun j hj => absurd hj List.not_mem_nil, fun _ _ => rfl, fun _ _ => rfl⟩

theorem Holds.reads (h : Holds s t held) (hr : Reads t u) : Holds s u held := by
  refine ⟨?_, ?_, ?_⟩
  · rw [hr.inode_table]
    exact h.used
  · rw [hr.inode_table]
    exact h.same
  · rw [hr.inode_table]
    exact h.kept

/-- an entry that was free at the start gets another value -/
theorem Holds.setEntry (h : Holds s t held) {e : Entry} (hi : (s.inode_table i).free = true)
    {held' : List Slot} (hin : ∀ j ∈ held', j = i ∨ j ∈ held) (hout : ∀ j ∈ held, j = i ∨ j ∈ held')
    (he : e.free = false ↔ i ∈ held') : Holds s (t.setEntry i e) held' := by
  have hne : ∀ j, j ≠ i → (t.setEntry i e).inode_table j = t.inode_table j := fun j hj =>
    Function.update_of_ne hj _ _
  have heq : (t.setEntry i e).inode_table i = e := Function.update_self _ _ _
  refine ⟨fun j hj => ?_, fun j hj => ?_, fun j hj => ?_⟩
  · by_cases hji : j = i
    · rw [hji, heq]
      exact ⟨hi, he.mpr (hji ▸ hj)⟩
    · rw [hne j hji]
      exact h.used j ((hin j hj).resolve_left hji)
  · by_cases hji : j = i
    · rw [hji, heq, hi]
      cases hf : e.free with
      | true => rfl
      | false => exact absurd (hji ▸ he.mp hf) hj
    · rw [hne j hji]
      exact h.same j fun hm => hj ((hout j hm).resolve_left hji)
  · have hji : j ≠ i := by
      rintro rfl
      rw [hi] at hj
      cases hj
    rw [hne j hji]
    exact h.kept j hj

/-- `iso_iput` of an entry that was taken since -/
theorem iso_iput_holds (h : Holds s t (i :: held)) (hi : i ∉ held) :
    Same (iso_iput i) (iso_iput i) (fun _ u => Holds s u held) t := by
  refine .modify (h.setEntry (h.used i List.mem_cons_self).1 ?_ ?_ ?_)
  · exact fun j hj => .inr (List.mem_cons_of_mem i hj)
  · exact fun j hj => List.mem_cons.mp hj
  · simp [hi]

/-- `iso_iput` of an entry that is free already -/
theorem iso_iput_again (h : Holds s t held) (hi : (s.inode_table i).free = true) (hn : i ∉ held) :
    Same (iso_iput i) (iso_iput i) (fun _ u => Holds s u held) t := by
  refine .modify (h.setEntry hi (fun j hj => .inr hj) (fun j hj => .inr hj) ?_)
  simp [hn]

/-- the first free entry: which one it is depends on what is held only -/
theorem freeSlot_eq (h : Holds s t held) (h' : Holds s u held) : freeSlot t = freeSlot u := by
  unfold freeSlot
  congr 1
  funext j
  by_cases hj : j ∈ held
  · rw [(h.used j hj).2, (h'.used j hj).2]
  · rw [h.same j hj, h'.same j hj]

theorem freeSlot_free (h : freeSlot t = some i) : (t.inode_table i).free = true := by
  simpa using List.find?_some h

theorem Holds.free (h : Holds s t held) (hi : freeSlot t = some i) :
    i ∉ held ∧ (s.inode_table i).free = true := by
  have hf := freeSlot_free hi
  have hn : i ∉ held := by
    intro hm
    rw [(h.used i hm).2] at hf
    cases hf
  exact ⟨hn, (h.same i hn).symm.trans hf⟩

/-! ## iso_iget -/

/-- what a call of `iget` does to the entries: none, or the first free one is taken -/
def Got (s t : State) (held : List Slot) (r : Option Slot) (u : State) : Prop :=
  match r with
  | none => Holds s u held
  | some i => freeSlot t = some i ∧ Holds s u (i :: held)

theorem fillInode_holds (h : Holds s t held) (hi : (s.inode_table i).free = true) (fuel : Nat)
    (ino : Int) (m : Mem) (de : Nat) :
    Same (fillInode E fuel i ino m de) (fillInode E fuel i ino m de)
      (fun _ u => Holds s u (i :: held)) t := by
  refine .bind (P := fun _ u => Holds s u held) (.modify ⟨h.used, h.same, h.kept⟩) ?_
  intro _ t1 _ h1
  refine .get_bind (.bind (.of_steps (parse_rock_ridge_inode_reads _ _ _ _ _ _)) ?_)
  intro a t2 _ h2
  refine .modify ((h1.reads h2).setEntry hi ?_ ?_ ?_)
  · exact fun j hj => List.mem_cons.mp hj
  · exact fun j hj => .inr (List.mem_cons_of_mem i hj)
  · simp

theorem igetOr_holds (h : Holds s t held) {x y : Prog State (Option Slot)}
    (hxy : freeSlot t = none → Same x y (Got s t held) t) (fuel : Nat) (ino : Int) :
    Same (igetOr x E fuel ino) (igetOr y E fuel ino) (Got s t held) t := by
  refine .get_bind ?_
  cases hf : freeSlot t with
  | none => exact hxy hf
  | some i =>
    obtain ⟨hn, hi⟩ := h.free hf
    refine .bind (.of_steps (rawInode_reads ino)) fun r t1 _ h1 => ?_
    cases r with
    | none => exact .pure (h.reads h1)
    | some r =>
      refine .bind (fillInode_holds (h.reads h1) hi fuel ino r.1 r.2) fun _ t2 _ h2 => ?_
      exact .pure ⟨hf, h2⟩

/-! ## more than one call -/

theorem Holds.congr (h : Holds s t held) {held' : List Slot} (hh : ∀ j, j ∈ held' ↔ j ∈ held) :
    Holds s t held' :=
  ⟨fun j hj => h.used j ((hh j).mp hj), fun j hj => h.same j fun hm => hj ((hh j).mpr hm), h.kept⟩

theorem Holds.trans {held' : List Slot} (h : Holds s t held) (h' : Holds t u held') :
    Holds s u (held' ++ held) := by
  refine ⟨fun j hj => ?_, fun j hj => ?_, fun j hj => ?_⟩
  · by_cases hm : j ∈ held
    · rw [h'.kept j (h.used j hm).2]
      exact h.used j hm
    · have hm' : j ∈ held' := (List.mem_append.mp hj).resolve_right hm
      rw [← h.same j hm]
      exact h'.used j hm'
  · rw [h'.same j fun hm => hj (List.mem_append_left _ hm),
      h.same j fun hm => hj (List.mem_append_right _ hm)]
  · have hk := h.kept j hj
    rw [← hk] at hj ⊢
    exact h'.kept j hj

/-- two functions that get inodes do so alike, while at most one entry is held -/
def Gets (s : State) (x y : Int → Prog State (Option Slot)) : Prop :=
  ∀ t held ino, Holds s t held → held.length ≤ 1 → Same (x ino) (y ino) (Got s t held) t

/-! ## looking up a path -/

section
variable (iget : Int → Prog State (Option Slot))

/-- every directory on the way is found -/
def DirsFound (E : Env) (fuel : Nat) : List (List UInt8) → Slot → State → Prop
  | [], _, _ => True
  | c :: cs, dir, s => ∀ r t, iso_find_entry E fuel dir c s = some (r, t) →
    r.ret = 0 ∧ ∀ d u, (iso_iput dir >>= fun _ => iget (sgn 32 r.ino)) t = some (some d, u) →
      DirsFound E fuel cs d u

/-- every directory on the way of a name is found -/
def NameFound (E : Env) (fuel : Nat) (dir : Slot) (name : List UInt8) (s : State) : Prop :=
  S_ISDIR (s.inode_table dir).mode = true → DirsFound iget E fuel (components name).dropLast dir s

end

variable {x y : Int → Prog State (Option Slot)} {A : Slot} {fuel : Nat}

/-- what a lookup from the entry `A` does: `A` is released, and the entry of the result taken; or
`A` is left behind -/
def Looked (s : State) (A : Slot) (leak : Prop) (r : Option Slot) (u : State) : Prop :=
  match r with
  | none => Holds s u [] ∨ (leak ∧ Holds s u [A])
  | some i => i ≠ A ∧ Holds s u [i]

theorem lookupDirs_holds (hg : Gets s x y) (hA : ∀ u, Holds s u [] → freeSlot u = some A)
    (cs : List (List UInt8)) (h : Holds s t [A]) :
    Same (lookupDirs x E fuel cs A) (lookupDirs y E fuel cs A)
      (fun r u => match r with
        | none => Holds s u [] ∨ (¬ DirsFound x E fuel cs A t ∧ Holds s u [A])
        | some d => d = A ∧ Holds s u [A]) t := by
  induction cs generalizing t with
  | nil => exact .pure ⟨rfl, h⟩
  | cons c cs ih =>
    refine .bind (.of_steps (iso_find_entry_reads fuel A c)) fun r t1 e1 h1 => ?_
    refine .ite (fun hr => .pure (.inr ⟨fun hd => hr (hd r t1 e1).1, h.reads h1⟩)) fun hr => ?_
    refine .bind (iso_iput_holds (h.reads h1) List.not_mem_nil) fun _ t2 e2 h2 => ?_
    refine .bind (hg t2 [] _ h2 (Nat.zero_le 1)) fun d t3 e3 h3 => ?_
    cases d with
    | none => exact .pure (.inl h3)
    | some d =>
      -- the entry that was released is the first free one
      obtain ⟨hd, h3⟩ := h3
      obtain rfl : A = d := Option.some.inj ((hA t2 h2).symm.trans hd)
      refine (ih h3).mono fun r u hu => ?_
      cases r with
      | none => exact hu.imp_right fun hl => ⟨fun hd => hl.1 ((hd r t1 e1).2 A t3 ((bind_run e2).trans e3)), hl.2⟩
      | some d => exact hu

theorem lookupLast_holds (hg : Gets s x y) (c : List UInt8) (h : Holds s t [A]) :
    Same (lookupLast x E fuel c A) (lookupLast y E fuel c A) (Looked s A False) t := by
  refine .bind (.of_steps (iso_find_entry_reads fuel A c)) fun r t1 e1 h1 => ?_
  have h1 := h.reads h1
  refine .ite (fun _ => ?_) fun _ => ?_
  · exact .bind (iso_iput_holds h1 List.not_mem_nil) fun _ t2 _ h2 => .pure (.inl h2)
  · refine .bind (hg t1 [A] _ h1 (Nat.le_refl 1)) fun i t2 _ h2 => ?_
    cases i with
    | none => exact .bind (iso_iput_holds h2 List.not_mem_nil) fun _ t3 _ h3 => .pure (.inl h3)
    | some i =>
      obtain ⟨hf, h2⟩ := h2
      obtain ⟨hiA, hi⟩ := h1.free hf
      have hne : i ≠ A := fun e => hiA (e ▸ List.mem_cons_self)
      refine .bind (P := fun _ u => Holds s u [A, i]) (.modify (h2.setEntry hi ?_ ?_ ?_)) fun _ t3 _ h3 => ?_
      · exact fun j hj => .inr ((List.Perm.swap i A []).mem_iff.mp hj)
      · exact fun j hj => .inr ((List.Perm.swap A i []).mem_iff.mp hj)
      · simp [(h2.used i List.mem_cons_self).2]
      · refine .bind (iso_iput_holds h3 ?_) fun _ t4 _ h4 => .pure ⟨hne, h4⟩
        simpa using hne.symm

theorem lookup_holds (hg : Gets s x y) (hA : ∀ u, Holds s u [] → freeSlot u = some A)
    (name : List UInt8) (h : Holds s t [A]) :
    Same (iso_lookup x E fuel A name) (iso_lookup y E fuel A name)
      (Looked s A (¬ NameFound x E fuel A name t)) t := by
  refine .get_bind (.ite (fun hd => ?_) fun _ => ?_)
  · refine .bind (lookupDirs_holds hg hA _ h) fun d t1 _ h1 => ?_
    cases d with
    | none => exact .pure (h1.imp_right fun hl => ⟨fun hn => hl.1 (hn hd), hl.2⟩)
    | some d =>
      obtain ⟨rfl, h1⟩ := h1
      refine (lookupLast_holds hg _ h1).mono fun r u hu => ?_
      cases r with
      | none => exact .inl (hu.resolve_right fun hl => hl.1)
      | some i => exact hu
  · exact .bind (iso_iput_holds h List.not_mem_nil) fun _ t1 _ h1 => .pure (.inl h1)

/-! ## following links -/

section
variable (iget : Int → Prog State (Option Slot))

/-- the link `i` has a text, and it can be read; the root is taken before -/
def LinkRead (E : Env) (depth : Nat) (i : Slot) (s : State) : Prop :=
  ∀ root t, iget (sgn 32 s.root_inode) s = some (some root, t) →
    (s.inode_table i).size ≠ 0 ∧ ∀ u, get_rock_ridge_symlink E depth i t ≠ some (none, u)

/-- the same of every link of a chain that starts at `i` -/
def LinksRead (E : Env) (depth : Nat) (filename : List UInt8) : (fuel : Nat) → Slot → State → Prop
  | 0, _, _ => True
  | fuel + 1, i, s => S_ISLNK (s.inode_table i).mode = true → LinkRead iget E depth i s ∧
    ∀ r t, (iso_follow_link iget E depth i filename >>= fun r => iso_iput i >>= fun _ => pure r) s
        = some (some r, t) →
      LinksRead E depth filename fuel r t

/-- no directory on the way of `filename` is missing, and every link it leads to can be read -/
def OpenFine (E : Env) (fuel : Nat) (filename : List UInt8) (s : State) : Prop :=
  ∀ root t, iget (sgn 32 s.root_inode) s = some (some root, t) →
    NameFound iget E fuel root filename t ∧
    ∀ i u, iso_lookup iget E fuel root filename t = some (some i, u) →
      LinksRead iget E fuel filename fuel i u

end

/-- what an open does: the entry of the result is taken; or an entry is left behind -/
def Opened (s : State) (leak : Prop) (r : Option Slot) (u : State) : Prop :=
  match r with
  | none => Holds s u [] ∨ (leak ∧ ∃ A, Holds s u [A])
  | some i => Holds s u [i]

theorem first_free (hf : freeSlot s = some A) : ∀ u, Holds s u [] → freeSlot u = some A :=
  fun u hu => (freeSlot_eq hu (Holds.refl s)).trans hf

/-- the lookup of a link text: the root is released once more after it -/
theorem lookup_iput_holds (hg : Gets s x y) (hf : freeSlot s = some A) (name : List UInt8)
    (h : Holds s t [A]) :
    Same (iso_lookup x E fuel A name >>= fun r => iso_iput A >>= fun _ => pure r)
      (iso_lookup y E fuel A name >>= fun r => iso_iput A >>= fun _ => pure r)
      (Opened s False) t := by
  refine .bind (lookup_holds hg (first_free hf) name h) fun r t1 _ h1 => ?_
  have hA := freeSlot_free hf
  cases r with
  | none =>
    obtain h1 | ⟨_, h1⟩ := h1
    · exact .bind (iso_iput_again h1 hA List.not_mem_nil) fun _ t2 _ h2 => .pure (.inl h2)
    · exact .bind (iso_iput_holds h1 List.not_mem_nil) fun _ t2 _ h2 => .pure (.inl h2)
  | some i =>
    have hn : A ∉ [i] := by simpa using h1.1.symm
    exact .bind (iso_iput_again h1.2 hA hn) fun _ t2 _ h2 => .pure h2

theorem follow_link_holds (hg : Gets s x y) (hi : (s.inode_table i).free = false)
    (hl : S_ISLNK (s.inode_table i).mode = true) (basename : List UInt8) :
    Same (iso_follow_link x E fuel i basename) (iso_follow_link y E fuel i basename)
      (Opened s (¬ LinkRead x E fuel i s)) s := by
  refine .get_bind (.bind (hg s [] _ (Holds.refl s) (Nat.zero_le 1)) fun root t1 e1 h1 => .get_bind ?_)
  have hk : t1.inode_table i = s.inode_table i := by
    cases root with
    | none => exact Holds.kept h1 i hi
    | some A => exact Holds.kept h1.2 i hi
  -- an early return, which leaves the root behind
  have early : ∀ u, Reads t1 u →
      (∀ A, root = some A → ¬ LinkRead x E fuel i s) → Opened s (¬ LinkRead x E fuel i s) none u := by
    intro u hu hleak
    cases root with
    | none => exact .inl (Holds.reads h1 hu)
    | some A => exact .inr ⟨hleak A rfl, A, h1.2.reads hu⟩
  rw [hk]
  refine .ite (fun hn => absurd hl hn) fun _ => .ite (fun h0 => .pure ?_) fun h0 => ?_
  · refine early t1 (Reads.refl t1) fun A hA hr => ?_
    rw [hA] at e1
    exact (hr A t1 e1).1 h0
  · refine .bind (.of_steps (get_rock_ridge_symlink_reads fuel i)) fun txt t2 e2 h2 => ?_
    cases txt with
    | none =>
      refine .pure (early t2 h2 fun A hA hr => ?_)
      rw [hA] at e1
      exact (hr A t1 e1).2 t2 e2
    | some rpnt =>
      refine .bind (.of_steps (cstr_reads _ fuel 0)) fun linkto t3 _ h3 => ?_
      cases root with
      | none => exact .fail
      | some A =>
        refine (lookup_iput_holds hg h1.1 _ ((h1.2.reads h2).reads h3)).mono fun r u hu => ?_
        cases r with
        | none => exact hu.imp_right fun hx => hx.1.elim
        | some r => exact hu

theorem followLinks_none (depth : Nat) (filename : List UInt8) :
    followLinks x E depth filename fuel none = pure none := by
  cases fuel with
  | zero => rfl
  | succ fuel => rfl

theorem followLinks_holds (hg : ∀ t i, Holds s t [i] → Gets t x y) (depth : Nat)
    (filename : List UInt8) (h : Holds s t [i]) :
    Same (followLinks x E depth filename fuel (some i)) (followLinks y E depth filename fuel (some i))
      (Opened s (¬ LinksRead x E depth filename fuel i t)) t := by
  induction fuel generalizing t i with
  | zero => exact .fail
  | succ fuel ih =>
    refine .get_bind (.ite (fun hl => ?_) fun _ => .pure h)
    have hi := (h.used i List.mem_cons_self).2
    refine .bind (follow_link_holds (hg t i h) hi hl filename) fun r t1 e1 h1 => ?_
    cases r with
    | none =>
      obtain h1 | ⟨hr, A, h1⟩ := h1
      · refine .bind (iso_iput_holds (h.trans h1) List.not_mem_nil) fun _ t2 _ h2 => ?_
        rw [followLinks_none, followLinks_none]
        exact .pure (.inl h2)
      · have hA : A ≠ i := by
          rintro rfl
          rw [(h1.used A List.mem_cons_self).1] at hi
          cases hi
        have h2 : Holds s t1 [i, A] :=
          (h.trans h1).congr fun j => (List.Perm.swap A i []).mem_iff
        refine .bind (iso_iput_holds h2 (by simpa using hA.symm)) fun _ t2 _ h2 => ?_
        rw [followLinks_none, followLinks_none]
        exact .pure (.inr ⟨fun hc => hr (hc hl).1, A, h2⟩)
    | some r =>
      have hri : r ≠ i := by
        rintro rfl
        rw [(Holds.used h1 r List.mem_cons_self).1] at hi
        cases hi
      have h2 : Holds s t1 [i, r] :=
        (h.trans h1).congr fun j => (List.Perm.swap r i []).mem_iff
      refine .bind (iso_iput_holds h2 (by simpa using hri.symm)) fun _ t2 e2 h2 => ?_
      refine (ih h2).mono fun r' u hu => ?_
      cases r' with
      | none =>
        refine hu.imp_right fun hx => ⟨fun hc => hx.1 ?_, hx.2⟩
        exact (hc hl).2 r t2 ((bind_run e1).trans (bind_run e2))
      | some r' => exact hu

/-- **an open.** The entry of the result is taken, and no other; a failed open takes none, unless a
directory on the way is missing or a link cannot be read. -/
theorem open_holds (hs : Gets s x y) (hg : ∀ t i, Holds s t [i] → Gets t x y)
    (filename : List UInt8) :
    Same (openWith x E fuel filename) (openWith y E fuel filename)
      (Opened s (¬ OpenFine x E fuel filename s)) s := by
  refine .get_bind (.bind (hs s [] _ (Holds.refl s) (Nat.zero_le 1)) fun root t1 e1 h1 => ?_)
  cases root with
  | none => exact .pure (.inl h1)
  | some A =>
    refine .bind (lookup_holds hs (first_free h1.1) filename h1.2) fun r t2 e2 h2 => ?_
    cases r with
    | none =>
      rw [followLinks_none, followLinks_none]
      exact .pure (h2.imp_right fun hl => ⟨fun hc => hl.1 (hc A t1 e1).1, A, hl.2⟩)
    | some i =>
      refine (followLinks_holds hg fuel filename h2.2).mono fun r u hu => ?_
      cases r with
      | none => exact hu.imp_right fun hl => ⟨fun hc => hl.1 ((hc A t1 e1).2 i t2 e2), hl.2⟩
      | some r => exact hu

/-! ## room -/

/-- the entries that are not free -/
def taken (s : State) : Finset Slot := Finset.univ.filter fun i => (s.inode_table i).free = false

theorem mem_taken : i ∈ taken s ↔ (s.inode_table i).free = false := by simp [taken]

/-- `iso_iget`, whatever is taken -/
theorem gets_iget (s : State) (fuel : Nat) : Gets s (iso_iget E fuel) (iso_iget E fuel) :=
  fun t held ino h _ => igetOr_holds h (fun _ => .pure (show Got s t held none t from h)) fuel ino

/-- with three entries taken, `iso_iget` finds a free one -/
theorem gets_room (hs : (taken s).card ≤ 3) (a b : Prog State (Option Slot)) (fuel : Nat) :
    Gets s (igetOr a E fuel) (igetOr b E fuel) := by
  intro t held ino h hl
  refine igetOr_holds h (fun hf => absurd hf fun hnone => ?_) fuel ino
  have hall : (Finset.univ : Finset Slot) ⊆ held.toFinset ∪ taken s := by
    intro j _
    rw [Finset.mem_union, List.mem_toFinset, mem_taken]
    by_cases hj : j ∈ held
    · exact .inl hj
    · have hf : (t.inode_table j).free = false := by
        simpa using List.find?_eq_none.mp hnone j (List.mem_finRange j)
      exact .inr ((h.same j hj).symm.trans hf)
  have h1 : held.toFinset.card ≤ 1 := (List.toFinset_card_le held).trans hl
  have h5 : (Finset.univ : Finset Slot).card = 5 := rfl
  have h2 := (Finset.card_le_card hall).trans (Finset.card_union_le _ _)
  omega

theorem Holds.taken_le (h : Holds s t [i]) : (taken t).card ≤ (taken s).card + 1 := by
  have hsub : taken t ⊆ insert i (taken s) := by
    intro j hj
    rw [Finset.mem_insert, mem_taken]
    by_cases hji : j = i
    · exact .inl hji
    · have hn : j ∉ [i] := by simpa using hji
      exact .inr ((h.same j hn).symm.trans (mem_taken.mp hj))
  exact (Finset.card_le_card hsub).trans (Finset.card_insert_le _ _)

/-- with two entries taken, an open does not depend on what `iso_iget` does when none is free -/
theorem open_room (hs : (taken s).card ≤ 2) (a b : Prog State (Option Slot)) (filename : List UInt8) :
    openWith (igetOr a E fuel) E fuel filename s = openWith (igetOr b E fuel) E fuel filename s := by
  refine (open_holds (gets_room (by omega) a b fuel) (fun t i h => gets_room ?_ a b fuel) filename).1
  have := h.taken_le
  omega

/-! ## runs -/

/-- a run of opens and closes after `iso_read_super`, each of the opens under the condition `C`: the
state, and the entries of the open files as their opens left them -/
inductive Run (E : Env) (C : Nat → List UInt8 → State → Prop) : State → (Slot → Option Entry) → Prop
  | mounted {s t : State} {ret : Int} (h : iso_read_super E s = some (ret, t)) :
    Run E C t fun _ => none
  | opened {s t : State} {F : Slot → Option Entry} {fuel : Nat} {filename : List UInt8} {fd : Slot}
    (hr : Run E C s F) (hc : C fuel filename s)
    (h : iso_open E fuel filename s = some (some fd, t)) :
    Run E C t (Function.update F fd (some (t.inode_table fd)))
  | missed {s t : State} {F : Slot → Option Entry} {fuel : Nat} {filename : List UInt8}
    (hr : Run E C s F) (hc : C fuel filename s)
    (h : iso_open E fuel filename s = some (none, t)) : Run E C t F
  | closed {s t : State} {F : Slot → Option Entry} {fd : Slot} (hr : Run E C s F)
    (hfd : F fd ≠ none) (h : iso_close fd s = some ((), t)) :
    Run E C t (Function.update F fd none)

/-- the entries taken are those of the open files, as their opens left them -/
def Balanced (F : Slot → Option Entry) (s : State) : Prop :=
  ∀ i, match F i with
    | none => (s.inode_table i).free = true
    | some e => e.free = false ∧ s.inode_table i = e

theorem iso_read_super_free (s : State) :
    Same (iso_read_super E) (iso_read_super E) (fun _ t => ∀ i, (t.inode_table i).free = true) s := by
  have h0 : ∀ i, ((superStart s).inode_table i).free = true := fun i => rfl
  refine .bind (P := fun _ t => ∀ i, (t.inode_table i).free = true) (.modify h0) fun _ t1 _ h1 => ?_
  refine .bind (.of_steps (findVolume_reads 84 16)) fun v t2 _ h2 => ?_
  have h2 : ∀ i, (t2.inode_table i).free = true := by
    rw [h2.inode_table]
    exact h1
  cases v with
  | none => exact .pure h2
  | some v =>
    cases hz : zoneShift v.logical_block_size with
    | none =>
      simp only [hz]
      exact .pure h2
    | some z =>
      simp only [hz]
      exact .bind (P := fun _ t => ∀ i, (t.inode_table i).free = true) (.modify h2) fun _ t3 _ h3 => .pure h3

variable {F : Slot → Option Entry}

theorem Balanced.missed (hb : Balanced F s) (h : Holds s t []) : Balanced F t := by
  intro i
  have hi := hb i
  cases hF : F i with
  | none =>
    rw [hF] at hi
    exact (h.same i List.not_mem_nil).trans hi
  | some e =>
    rw [hF] at hi
    obtain ⟨he, hi⟩ := hi
    exact ⟨he, (h.kept i (hi ▸ he)).trans hi⟩

theorem Balanced.opened (hb : Balanced F s) (h : Holds s t [i]) :
    Balanced (Function.update F i (some (t.inode_table i))) t := by
  intro j
  by_cases hji : j = i
  · rw [hji, Function.update_self]
    exact ⟨(h.used i List.mem_cons_self).2, rfl⟩
  · rw [Function.update_of_ne hji]
    have hj := hb j
    cases hF : F j with
    | none =>
      rw [hF] at hj
      exact (h.same j (by simpa using hji)).trans hj
    | some e =>
      rw [hF] at hj
      obtain ⟨he, hj⟩ := hj
      exact ⟨he, (h.kept j (hj ▸ he)).trans hj⟩

theorem Balanced.closed (hb : Balanced F s) (h : iso_close i s = some ((), t)) :
    Balanced (Function.update F i none) t := by
  have ht : s.setEntry i { s.inode_table i with inumber := 0, free := true } = t :=
    (Prod.mk.inj (Option.some.inj h)).2
  intro j
  by_cases hji : j = i
  · have he : t.inode_table i = { s.inode_table i with inumber := 0, free := true } := by
      rw [← ht]
      exact Function.update_self _ _ _
    rw [hji, Function.update_self, he]
  · have hj := hb j
    have he : t.inode_table j = s.inode_table j := by
      rw [← ht]
      exact Function.update_of_ne hji _ _
    rw [Function.update_of_ne hji, he]
    exact hj

/-- a run whose opens are fine is balanced -/
theorem run_keeps_balance (h : Run E (fun fuel => OpenFine (iso_iget E fuel) E fuel) s F) :
    Balanced F s := by
  induction h with
  | mounted h => exact fun i => (iso_read_super_free _).2 _ _ h i
  | opened hr hc h ih =>
    exact ih.opened ((open_holds (gets_iget _ _) (fun t i _ => gets_iget t _) _).2 _ _ h)
  | missed hr hc h ih =>
    have ho := (open_holds (gets_iget _ _) (fun t i _ => gets_iget t _) _).2 _ _ h
    exact ih.missed (ho.resolve_right fun hl => hl.1 hc)
  | closed hr hfd h ih => exact ih.closed h

/-- the open files -/
def openFiles (F : Slot → Option Entry) : Finset Slot := Finset.univ.filter fun i => (F i).isSome

theorem Balanced.taken_eq (hb : Balanced F s) : taken s = openFiles F := by
  ext i
  rw [mem_taken, openFiles, Finset.mem_filter]
  have hi := hb i
  cases hF : F i with
  | none =>
    rw [hF] at hi
    simp [hi]
  | some e =>
    rw [hF] at hi
    simp [hi.2, hi.1]

/-- **open and close are balanced.** In every run of opens and closes after `iso_read_super` in which
no open misses a directory on its way or comes to a link without a text: the entries taken are as
many as the open files, the entry of an open file is the one that its open left, and with at most two
files open what `iso_iget` does when no entry is free has no effect on an open. -/
theorem iso_open_balanced (h : Run E (fun fuel => OpenFine (iso_iget E fuel) E fuel) s F) :
    (taken s).card = (openFiles F).card ∧
    (∀ fd e, F fd = some e → e.free = false ∧ s.inode_table fd = e) ∧
    ((openFiles F).card ≤ 2 → ∀ (nofree : Prog State (Option Slot)) (fuel : Nat)
      (filename : List UInt8),
      iso_open E fuel filename s = openWith (igetOr nofree E fuel) E fuel filename s) := by
  have hb := run_keeps_balance h
  refine ⟨by rw [hb.taken_eq], fun fd e he => ?_, fun hcard nofree fuel filename => ?_⟩
  · have hi := hb fd
    rw [he] at hi
    exact hi
  · refine open_room ?_ _ _ filename
    rw [hb.taken_eq]
    exact hcard

/-! ## a small disc -/

/-- a disc with a file `a` of five bytes in its root, which is at sector 20 -/
def tinyDisc : Mem := Bytes.record
  [(32768, 1, 1), (32769, 0x3130304443, 5), (32896, 2048, 2), (32926, 20, 4),
   (40960, 34, 1), (40962, 20, 4), (40970, 68, 4), (40985, 2, 1), (40992, 1, 1),
   (40994, 34, 1), (40996, 21, 4), (41004, 5, 4), (41026, 1, 1), (41027, 0x41, 1)]

def tinyEnv : Env :=
  { Machine.faultless (fun _ p => tinyDisc p.toNat) (fun _ _ => 0) [] with stack := fun _ _ => 0 }

def tinyStart : State where
  inode_table _ := ⟨0, 0, 0, true, 0, 0, 0⟩
  root_inode := 0
  sb := ⟨0, 0, 0, 0, false, 0, 0, 0, 0⟩
  data_block := fun _ => 0
  big_data_block := fun _ => 0
  blockoffset := 0
  diroffset := 0
  cd_device := 0
  free_mem_ptr := 0
  log := []

def tinyMounted : State := ((iso_read_super tinyEnv tinyStart).map Prod.snd).getD tinyStart

theorem tinyMounted_run (C : Nat → List UInt8 → State → Prop) :
    Run tinyEnv C tinyMounted fun _ => none := by
  have h : (iso_read_super tinyEnv tinyStart).isSome = true := by decide +kernel
  obtain ⟨⟨ret, t⟩, hr⟩ := Option.isSome_iff_exists.mp h
  have ht : tinyMounted = t := by rw [tinyMounted, hr]; rfl
  rw [ht]
  exact .mounted hr

/-- the file that a lookup of `a` in the root comes to is not a link -/
def tinyLook (s : State) : Option Bool := do
  let (root, t) ← iso_iget tinyEnv 4 (sgn 32 s.root_inode) s
  let (i, u) ← iso_lookup (iso_iget tinyEnv 4) tinyEnv 4 (← root) ['a'.toUInt8] t
  pure (S_ISLNK (u.inode_table (← i)).mode)

theorem tinyFine : OpenFine (iso_iget tinyEnv 4) tinyEnv 4 ['a'.toUInt8] tinyMounted := by
  intro root t hr
  refine ⟨fun _ => trivial, fun i u hu hl => ?_⟩
  have h : tinyLook tinyMounted = some false := by decide +kernel
  have h' : tinyLook tinyMounted = some (S_ISLNK (u.inode_table i).mode) := by
    simp [tinyLook, hr, hu]
  rw [h, hl] at h'
  cases h'

/-- the file is opened: one entry is taken -/
theorem iso_open_balanced_one : ∃ (s : State) (F : Slot → Option Entry),
    Run tinyEnv (fun fuel => OpenFine (iso_iget tinyEnv fuel) tinyEnv fuel) s F ∧
      (openFiles F).card = 1 ∧ (taken s).card = 1 := by
  have h : (iso_open tinyEnv 4 ['a'.toUInt8] tinyMounted).map Prod.fst = some (some 1) := by
    decide +kernel
  obtain ⟨⟨fd, t⟩, hr, hfd⟩ := Option.map_eq_some_iff.mp h
  dsimp only at hfd
  rw [hfd] at hr
  have hrun : Run tinyEnv (fun fuel => OpenFine (iso_iget tinyEnv fuel) tinyEnv fuel) t
      (Function.update (fun _ => none) 1 (some (t.inode_table 1))) :=
    .opened (tinyMounted_run _) tinyFine hr
  have h1 : (openFiles (Function.update (fun _ => none) 1 (some (t.inode_table 1)))).card = 1 := rfl
  exact ⟨t, _, hrun, h1, (iso_open_balanced hrun).1.trans h1⟩

/-- `b/a`: the directory `b` is missing, and the entry of the root stays taken -/
theorem iso_open_leaks : ¬ ∀ (E : Env) (s : State) (F : Slot → Option Entry),
    Run E (fun _ _ _ => True) s F → (taken s).card = (openFiles F).card := by
  intro hall
  have h : (iso_open tinyEnv 4 ("b/a".toList.map Char.toUInt8) tinyMounted).map
      (fun r => (r.1, (taken r.2).card)) = some (none, 1) := by
    decide +kernel
  obtain ⟨⟨fd, t⟩, hr, hfd⟩ := Option.map_eq_some_iff.mp h
  have h1 : fd = none := congrArg Prod.fst hfd
  have h2 : (taken t).card = 1 := congrArg Prod.snd hfd
  rw [h1] at hr
  have hc := hall tinyEnv t _ (.missed (tinyMounted_run _) trivial hr)
  have h0 : (openFiles fun _ => none).card = 0 := rfl
  omega

end Iso
