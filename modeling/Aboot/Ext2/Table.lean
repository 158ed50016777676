import Aboot.Ext2.Coherent
import Mathlib.Data.Fintype.Basic
import Mathlib.Data.Finset.Card
import Mathlib.Data.List.Nodup

/-!
# The inode table: open and close

`Bal s fds tmp`: the entries of the inode table that are not free are the root inode's, those of
the open file descriptors `fds`, and `tmp`, the one the path walk holds at the moment.

* `ext2_iget_bal`, `releaseDir_bal`   taking and releasing an entry;
* `walk_bal`, `ext2_namei_bal`        the path walk;
* `open_bal`, `close_bal`             one call, as long as no symbolic link is opened;
* `run_balanced`   the count over whole runs, and that no run starves `ext2_iget`;
* `link_leaks`     opening a symbolic link keeps the entry of the link.
-/

set_option linter.unusedVariables false

namespace Ext2
open Word State

/-! ## the invariant -/

/-- which entries are in use -/
structure Bal (s : State) (fds : List Slot) (tmp : Option Slot) : Prop where
  used : ∀ i, (s.inode_table i).free = false ↔ s.root_inode = some i ∨ i ∈ fds ∨ tmp = some i
  tmp_new : ∀ i, tmp = some i → s.root_inode = some i ∨ i ∉ fds
  nodup : (fds.filter fun fd => s.root_inode ≠ some fd).Nodup

theorem Bal.same {s t : State} {fds : List Slot} {tmp : Option Slot} (h : Bal s fds tmp)
    (ht : SameTable s t) : Bal t fds tmp := by
  constructor
  · rw [ht.table, ht.root]; exact h.used
  · rw [ht.root]; exact h.tmp_new
  · rw [ht.root]; exact h.nodup

/-- the number of entries that are not free -/
def inUse (s : State) : Nat :=
  (Finset.univ.filter fun i : Slot => (s.inode_table i).free = false).card

/-- the open descriptors other than the root's own slot -/
def otherFds (s : State) (fds : List Slot) : List Slot :=
  fds.filter fun fd => s.root_inode ≠ some fd

theorem Bal.count {s : State} {fds : List Slot} (h : Bal s fds none) :
    inUse s = s.root_inode.toList.length + (otherFds s fds).length := by
  have hnd : (s.root_inode.toList ++ otherFds s fds).Nodup := by
    refine List.Nodup.append ?_ h.nodup ?_
    · cases s.root_inode <;> simp
    · intro i hi hj
      have := (List.mem_filter.mp hj).2
      simp_all
  have hset : (Finset.univ.filter fun i : Slot => (s.inode_table i).free = false)
      = (s.root_inode.toList ++ otherFds s fds).toFinset := by
    ext i
    have hu := h.used i
    simp only [Finset.mem_filter, Finset.mem_univ, true_and, List.mem_toFinset, List.mem_append,
      Option.mem_toList, otherFds, List.mem_filter, decide_eq_true_eq]
    rw [hu]
    constructor
    · rintro (h1 | h1 | h1)
      · exact Or.inl h1
      · by_cases e : s.root_inode = some i
        · exact Or.inl e
        · exact Or.inr ⟨h1, e⟩
      · cases h1
    · rintro (h1 | h1)
      · exact Or.inl h1
      · exact Or.inr (Or.inl h1.1)
  unfold inUse
  rw [hset, List.toFinset_card_of_nodup hnd, List.length_append]

/-! ## taking and releasing an entry -/

theorem freeSlot_some {s : State} {i : Slot} (h : freeSlot s = some i) :
    (s.inode_table i).free = true := by
  have := List.find?_some (p := fun i => (s.inode_table i).free) h
  exact this

theorem freeSlot_none {s : State} (h : freeSlot s = none) (i : Slot) :
    (s.inode_table i).free = false := by
  have := List.find?_eq_none.mp h i (List.mem_finRange i)
  simpa using this

/-- with at most three other files open an entry is free -/
theorem Bal.room {s : State} {fds : List Slot} (h : Bal s fds none)
    (hlt : (otherFds s fds).length < MAX_OPEN_FILES - 1) : freeSlot s ≠ none := by
  intro hn
  have hall : inUse s = MAX_OPEN_FILES := by
    unfold inUse
    rw [Finset.filter_true_of_mem fun i _ => freeSlot_none hn i]
    rfl
  have hc := h.count
  have hr : s.root_inode.toList.length ≤ 1 := by cases s.root_inode <;> simp
  omega

theorem readInode_free (M : Machine) (i j : Slot) (ino : Int) (s : State) :
    ((readInode M i ino s).inode_table j).free = (s.inode_table j).free := by
  unfold readInode setEntry
  by_cases e : j = i
  · rw [e]; simp [State.note]
  · simp [State.note, Function.update_of_ne e]

theorem takeSlot_free (i j : Slot) (ino : Int) (s : State) :
    ((takeSlot i ino s).inode_table j).free = if j = i then false else (s.inode_table j).free := by
  unfold takeSlot setEntry
  by_cases e : j = i
  · rw [e]; simp
  · simp [e]

theorem ext2_iput_free (i j : Slot) (s : State) :
    ((ext2_iput i s).inode_table j).free = if j = i then true else (s.inode_table j).free := by
  unfold ext2_iput setEntry
  by_cases e : j = i
  · rw [e]; simp
  · simp [e]

/-- what `ext2_iget` does to the table: nothing is taken, or a free entry is -/
theorem ext2_iget_cases (M : Machine) (ino : Int) (s : State) :
    ((ext2_iget M ino s).1 = none ∧
      ∀ j, ((ext2_iget M ino s).2.inode_table j).free = (s.inode_table j).free) ∨
    ∃ i, (ext2_iget M ino s).1 = some i ∧ (s.inode_table i).free = true ∧
      ∀ j, ((ext2_iget M ino s).2.inode_table j).free
        = if j = i then false else (s.inode_table j).free := by
  unfold ext2_iget
  cases hf : freeSlot s with
  | none => exact Or.inl ⟨rfl, fun j => rfl⟩
  | some i =>
    by_cases hr : (s.rd M sizeof_inode (inodeOffset s ino)).ret ≠ sizeof_inode
    · left
      dsimp only
      rw [if_pos hr]
      exact ⟨rfl, fun j => readInode_free M i j ino s⟩
    · right
      dsimp only
      rw [if_neg hr]
      refine ⟨i, rfl, freeSlot_some hf, fun j => ?_⟩
      rw [takeSlot_free]
      split
      · rfl
      · exact readInode_free M i j ino s

theorem ext2_iget_root (M : Machine) (ino : Int) (s : State) :
    (ext2_iget M ino s).2.root_inode = s.root_inode := by
  unfold ext2_iget
  split
  · rfl
  · split <;> rfl

theorem ext2_iget_bal {M : Machine} (ino : Int) {s : State} {fds : List Slot}
    (h : Bal s fds none) : Bal (ext2_iget M ino s).2 fds (ext2_iget M ino s).1 := by
  have hroot := ext2_iget_root M ino s
  rcases ext2_iget_cases M ino s with ⟨h1, h2⟩ | ⟨i, h1, h2, h3⟩
  · rw [h1]
    constructor
    · intro j; rw [h2, hroot]; exact h.used j
    · rw [hroot]; exact h.tmp_new
    · rw [hroot]; exact h.nodup
  · have hnot : ¬ (s.root_inode = some i ∨ i ∈ fds ∨ none = some i) := by
      rw [← h.used i, h2]
      simp
    rw [h1]
    constructor
    · intro j
      rw [h3, hroot]
      by_cases e : j = i
      · simp [e]
      · have hu := h.used j
        have hne : (some i : Option Slot) ≠ some j := fun he => e (Option.some.inj he).symm
        simp only [if_neg e, hu, hne, reduceCtorEq]
    · intro j hj
      rw [← Option.some.inj hj]
      exact Or.inr fun hi => hnot (Or.inr (Or.inl hi))
    · rw [hroot]; exact h.nodup

theorem releaseDir_bal {s : State} {fds : List Slot} {i : Slot} (h : Bal s fds (some i)) :
    Bal (releaseDir i s) fds none := by
  unfold releaseDir
  by_cases hr : s.root_inode = some i
  · rw [if_pos hr]
    refine ⟨fun j => ?_, (fun _ hj => nomatch hj), h.nodup⟩
    rw [h.used j]
    constructor
    · rintro (h1 | h1 | h1)
      · exact Or.inl h1
      · exact Or.inr (Or.inl h1)
      · rw [← Option.some.inj h1]; exact Or.inl hr
    · rintro (h1 | h1 | h1)
      · exact Or.inl h1
      · exact Or.inr (Or.inl h1)
      · cases h1
  · rw [if_neg hr]
    have hi : i ∉ fds := (h.tmp_new i rfl).resolve_left hr
    refine ⟨fun j => ?_, (fun _ hj => nomatch hj), h.nodup⟩
    rw [ext2_iput_free]
    show _ ↔ s.root_inode = some j ∨ _
    by_cases e : j = i
    · subst e
      simp [hr, hi]
    · have hu := h.used j
      have hne : (some i : Option Slot) ≠ some j := fun he => e (Option.some.inj he).symm
      simp only [if_neg e, hu, hne, reduceCtorEq]

/-! ## the path walk -/

theorem walk_bal {M : Machine} {fuel : Nat} {fds : List Slot} (cs : List (List UInt8)) :
    ∀ (i : Slot) (s : State) (r : Option Slot × State), walk M fuel cs i s = some r →
      Bal s fds (some i) → Bal r.2 fds r.1 := by
  induction cs with
  | nil =>
    intro i s r h hb
    rw [← Option.some.inj h]
    exact hb
  | cons c cs ih =>
    intro i s r h hb
    unfold walk at h
    split at h
    · cases h
    · rename_i next_ino s₁ hs
      have h1 := releaseDir_bal (hb.same (searchDir_reads M i c fuel true s _ hs).table)
      simp only at h
      split at h
      · rw [← Option.some.inj h]
        exact h1
      · have h2 := ext2_iget_bal (M := M) next_ino h1
        split at h
        · rename_i e
          rw [e] at h2
          rw [← Option.some.inj h]
          exact h2
        · rename_i e
          rw [e] at h2
          exact ih _ _ _ h h2

theorem getRoot_bal {M : Machine} {s : State} {fds : List Slot} (h : Bal s fds none) :
    Bal (getRoot M s) fds none := by
  unfold getRoot
  cases hr : s.root_inode with
  | some r => exact h
  | none =>
    have hi := ext2_iget_bal (M := M) EXT2_ROOT_INO h
    have hroot := (ext2_iget_root M EXT2_ROOT_INO s).trans hr
    have hnd : fds.Nodup := by
      have := h.nodup
      simpa [hr] using this
    simp only
    refine ⟨fun j => ?_, (fun _ hj => nomatch hj), hnd.filter _⟩
    have hu := hi.used j
    rw [hroot] at hu
    rw [hu]
    simp only [reduceCtorEq, false_or, or_false]
    exact or_comm

/-- the walk starts at the root -/
theorem getRoot_held {M : Machine} {s : State} {fds : List Slot} {root : Slot} (hb : Bal s fds none)
    (hroot : (getRoot M s).root_inode = some root) : Bal (getRoot M s) fds (some root) := by
  have hg := getRoot_bal (M := M) hb
  refine ⟨fun j => ?_, ?_, hg.nodup⟩
  · rw [hg.used j, hroot]
    simp only [reduceCtorEq, or_false]
    tauto
  · intro j hj
    rw [← hj]
    exact Or.inl hroot

theorem ext2_namei_bal {M : Machine} {fuel : Nat} {name : List UInt8} {s : State}
    {fds : List Slot} {r : Option Slot × State} (h : ext2_namei M fuel name s = some r)
    (hb : Bal s fds none) : Bal r.2 fds r.1 := by
  have hg := getRoot_bal (M := M) hb
  unfold ext2_namei at h
  split at h
  · rw [← Option.some.inj h]
    exact hg
  · rename_i root hroot
    exact walk_bal _ _ _ r h (getRoot_held hb hroot)

/-! ## no starvation -/

theorem ext2_iget_nofree {M : Machine} (ino : Int) {s : State} (h : freeSlot s ≠ none) :
    (ext2_iget M ino s).2.no_free_inodes = s.no_free_inodes := by
  unfold ext2_iget
  split
  · rename_i hn
    exact absurd hn h
  · split <;> rfl

theorem releaseDir_root (i : Slot) (s : State) :
    (releaseDir i s).root_inode = s.root_inode ∧
      (releaseDir i s).no_free_inodes = s.no_free_inodes := by
  unfold releaseDir
  split <;> exact ⟨rfl, rfl⟩

theorem walk_nofree {M : Machine} {fuel : Nat} {fds : List Slot} (cs : List (List UInt8)) :
    ∀ (i : Slot) (s : State) (r : Option Slot × State), walk M fuel cs i s = some r →
      Bal s fds (some i) → (otherFds s fds).length < MAX_OPEN_FILES - 1 →
      r.2.no_free_inodes = s.no_free_inodes := by
  induction cs with
  | nil =>
    intro i s r h _ _
    rw [← Option.some.inj h]
  | cons c cs ih =>
    intro i s r h hb hlt
    unfold walk at h
    split at h
    · cases h
    · rename_i next_ino s₁ hs
      have ht := (searchDir_reads M i c fuel true s _ hs).table
      have h1 := releaseDir_bal (hb.same ht)
      obtain ⟨hr1, hn1⟩ := releaseDir_root i s₁
      have hlt1 : (otherFds (releaseDir i s₁) fds).length < MAX_OPEN_FILES - 1 := by
        unfold otherFds at hlt ⊢
        rwa [hr1, ht.root]
      simp only at h
      split at h
      · rw [← Option.some.inj h, hn1, ht.nofree]
      · have h2 := ext2_iget_bal (M := M) next_ino h1
        have hn2 := ext2_iget_nofree (M := M) next_ino (h1.room hlt1)
        have hr2 := ext2_iget_root M next_ino (releaseDir i s₁)
        split at h
        · rename_i e
          rw [e] at hn2
          rw [← Option.some.inj h, hn2, hn1, ht.nofree]
        · rename_i e
          rw [e] at hn2 h2 hr2
          rw [ih _ _ _ h h2 ?_, hn2, hn1, ht.nofree]
          unfold otherFds at hlt1 ⊢
          rwa [hr2]

theorem getRoot_nofree {M : Machine} {s : State} {fds : List Slot} (h : Bal s fds none)
    (hlt : (otherFds s fds).length < MAX_OPEN_FILES - 1) :
    (getRoot M s).no_free_inodes = s.no_free_inodes := by
  unfold getRoot
  split
  · rfl
  · exact ext2_iget_nofree _ (h.room hlt)

/-- reading the root in takes none of the open files away from the others -/
theorem getRoot_otherFds {M : Machine} {s : State} {fds : List Slot} :
    (otherFds (getRoot M s) fds).length ≤ (otherFds s fds).length := by
  unfold getRoot
  cases hr : s.root_inode with
  | some r => exact le_refl _
  | none =>
    have e : otherFds s fds = fds := by simp [otherFds, hr]
    rw [e]
    exact List.length_filter_le _ _

theorem ext2_namei_nofree {M : Machine} {fuel : Nat} {name : List UInt8} {s : State}
    {fds : List Slot} {r : Option Slot × State} (h : ext2_namei M fuel name s = some r)
    (hb : Bal s fds none) (hlt : (otherFds s fds).length < MAX_OPEN_FILES - 1) :
    r.2.no_free_inodes = s.no_free_inodes := by
  have hn := getRoot_nofree (M := M) hb hlt
  unfold ext2_namei at h
  split at h
  · rw [← Option.some.inj h, hn]
  · rename_i root hroot
    rw [walk_nofree _ _ _ r h (getRoot_held hb hroot)
      (lt_of_le_of_lt getRoot_otherFds hlt), hn]

/-! ## open and close -/

/-- the path does not name a symbolic link -/
def NoLink (M : Machine) (fuel : Nat) (filename : List UInt8) (s : State) : Prop :=
  ∀ i t, ext2_namei M fuel filename s = some (some i, t) →
    S_ISLNK (i_mode (t.inode_table i).inode) = false

/-- without a link `ext2_open` is the path walk -/
theorem ext2_open_eq_namei {M : Machine} {fuel : Nat} {filename : List UInt8} {s : State}
    {r : Option Slot × State} (hl : NoLink M fuel filename s)
    (h : ext2_open M fuel filename s = some r) : ext2_namei M fuel filename s = some r := by
  unfold ext2_open at h
  split at h
  · cases h
  · rename_i e
    rw [e, h]
  · rename_i i t e
    have hi := hl i t e
    cases fuel with
    | zero => cases h
    | succ fuel =>
      unfold followLinks at h
      rw [hi] at h
      rw [e]
      exact h

theorem open_bal {M : Machine} {fuel : Nat} {filename : List UInt8} {s : State} {fds : List Slot}
    {r : Option Slot × State} (hl : NoLink M fuel filename s)
    (h : ext2_open M fuel filename s = some r) (hb : Bal s fds none) :
    Bal r.2 (r.1.toList ++ fds) none := by
  have hn := ext2_namei_bal (ext2_open_eq_namei hl h) hb
  obtain ⟨r₁, t⟩ := r
  cases r₁ with
  | none => exact hn
  | some i =>
    refine ⟨fun j => ?_, (fun _ hj => nomatch hj), ?_⟩
    · rw [hn.used j]
      simp only [Option.toList_some, List.singleton_append, List.mem_cons, Option.some.injEq,
        reduceCtorEq, or_false, eq_comm (a := i)]
      tauto
    · simp only [Option.toList_some, List.singleton_append, List.filter_cons]
      split
      · rename_i hne
        refine List.nodup_cons.mpr ⟨fun hm => ?_, hn.nodup⟩
        rcases hn.tmp_new i rfl with h1 | h1
        · exact absurd h1 (by simpa using hne)
        · exact h1 (List.mem_filter.mp hm).1
      · exact hn.nodup

theorem close_bal {s : State} {fds : List Slot} {fd : Slot} (hb : Bal s fds none) (hfd : fd ∈ fds) :
    Bal (ext2_close fd s) (fds.erase fd) none := by
  have hnd : (fds.erase fd |>.filter fun x => s.root_inode ≠ some x).Nodup :=
    hb.nodup.sublist (List.erase_sublist.filter _)
  unfold ext2_close
  by_cases hr : s.root_inode = some fd
  · rw [if_pos hr]
    refine ⟨fun j => ?_, (fun _ hj => nomatch hj), hnd⟩
    rw [hb.used j]
    by_cases e : j = fd
    · simp [e, hr]
    · rw [List.mem_erase_of_ne e]
  · rw [if_neg hr]
    refine ⟨fun j => ?_, (fun _ hj => nomatch hj), hnd⟩
    rw [ext2_iput_free]
    show _ ↔ s.root_inode = some j ∨ _
    by_cases e : j = fd
    · subst e
      have hnot : j ∉ fds.erase j := by
        intro hm
        have hdup : 2 ≤ (fds.filter fun x => s.root_inode ≠ some x).count j := by
          rw [List.count_filter (by simpa using hr)]
          have h1 := List.count_pos_iff.mpr hm
          have h2 := List.count_erase_self (a := j) (l := fds)
          have h3 := List.count_pos_iff.mpr hfd
          omega
        have := List.nodup_iff_count_le_one.mp hb.nodup j
        omega
      simp [hr, hnot]
    · rw [if_neg e, hb.used j, List.mem_erase_of_ne e]

/-! ## runs -/

theorem mountBuffers_table (M : Machine) (p : Nat) (s : State) :
    (mountBuffers M p s).2.2.inode_table = s.inode_table ∧
      (mountBuffers M p s).2.2.root_inode = s.root_inode := by
  unfold mountBuffers
  simp only
  repeat' split
  all_goals exact ⟨rfl, rfl⟩

/-- whatever a mount returns, the table is empty after it -/
theorem ext2_mount_empty (M : Machine) (dev off : Int) (p : Nat) (s : State) :
    (ext2_mount M dev off p s).2.2.root_inode = none ∧
      ∀ i, ((ext2_mount M dev off p s).2.2.inode_table i).free = true := by
  unfold ext2_mount mountGroups
  simp only
  split
  · exact ⟨rfl, fun i => rfl⟩
  · split
    · exact ⟨rfl, fun i => rfl⟩
    · split
      · exact ⟨rfl, fun i => rfl⟩
      · rw [(mountBuffers_table M _ _).1, (mountBuffers_table M _ _).2]
        exact ⟨rfl, fun i => rfl⟩

/-- the reader, with the descriptors it has returned and that are not closed yet -/
structure Session where
  st : State
  fds : List Slot

/-- one call; every path that is opened satisfies `ok`, and a descriptor is closed once -/
inductive Step (M : Machine) (ok : Nat → List UInt8 → State → Prop) : Session → Session → Prop
  | open {s t : State} {fds : List Slot} {fuel : Nat} {filename : List UInt8} {fd : Option Slot} :
    ok fuel filename s → ext2_open M fuel filename s = some (fd, t) →
      Step M ok ⟨s, fds⟩ ⟨t, fd.toList ++ fds⟩
  | close {s : State} {fds : List Slot} {fd : Slot} :
    fd ∈ fds → Step M ok ⟨s, fds⟩ ⟨ext2_close fd s, fds.erase fd⟩
  | bread {s : State} {fds : List Slot} {fd : Slot} {blkno nblks : Int} :
    Step M ok ⟨s, fds⟩ ⟨(ext2_bread M fd blkno nblks s).st, fds⟩
  | readdir {s : State} {fds : List Slot} {fd : Slot} {rewind : Bool} :
    Step M ok ⟨s, fds⟩ ⟨(ext2_readdir M fd rewind s).2, fds⟩

/-- the calls after a mount -/
def After (M : Machine) (ok : Nat → List UInt8 → State → Prop) (s : State) (x : Session) : Prop :=
  ∃ dev off p, Relation.ReflTransGen (Step M ok) ⟨(ext2_mount M dev off p s).2.2, []⟩ x

theorem step_bal {M : Machine} {x y : Session} (h : Step M (NoLink M) x y)
    (hb : Bal x.st x.fds none) : Bal y.st y.fds none := by
  cases h with
  | «open» hl h => exact open_bal hl h hb
  | close hfd => exact close_bal hb hfd
  | bread => exact hb.same (extn_breadi_reads M _ _ _ _).table
  | readdir => exact hb.same (ext2_readdir_reads M _ _ _).table

theorem after_bal {M : Machine} {s : State} {x : Session} (h : After M (NoLink M) s x) :
    Bal x.st x.fds none := by
  obtain ⟨dev, off, p, hr⟩ := h
  obtain ⟨h1, h2⟩ := ext2_mount_empty M dev off p s
  induction hr with
  | refl =>
    refine ⟨fun i => ?_, (fun _ hj => nomatch hj), List.nodup_nil⟩
    rw [h1, h2]
    simp
  | tail _ hstep ih => exact step_bal hstep ih

/-- **The inode table is balanced in every state of a run** in which no path that is opened names a
symbolic link: the entries in use are the root's and one for every other open descriptor, and
`ext2_open` finds a free entry while fewer than `MAX_OPEN_FILES - 1` files are open. -/
theorem run_balanced (M : Machine) (s : State) (x : Session) (h : After M (NoLink M) s x) :
    inUse x.st = x.st.root_inode.toList.length + (otherFds x.st x.fds).length ∧
      (x.fds.length < MAX_OPEN_FILES - 1 → ∀ fuel filename r, NoLink M fuel filename x.st →
        ext2_open M fuel filename x.st = some r → r.2.no_free_inodes = x.st.no_free_inodes) := by
  have hb := after_bal h
  refine ⟨hb.count, fun hlt fuel filename r hl ho => ?_⟩
  refine ext2_namei_nofree (ext2_open_eq_namei hl ho) hb (lt_of_le_of_lt ?_ hlt)
  exact List.length_filter_le _ _

/-! ## a symbolic link -/

/-- the small file system with a directory block, in which `l` is a link to `/` -/
def linkDisk (x : Int) : UInt8 :=
  if x = 5288 then 6
  else if x = 6144 then 3 else if x = 6149 then 4 else if x = 6150 then 1 else if x = 6152 then 108
  else if x = 5376 then 0xFF else if x = 5377 then 0xA1 else if x = 5416 then 47
  else smallDisk x

def linkMachine : Machine :=
  Machine.faultless (fun _ x => linkDisk x) (fun _ _ => 0) [⟨0, 1024, 0⟩]

def linkMounted : State := (ext2_mount linkMachine 0 0 0 powerOn).2.2

/-- what opening a path after the mount gives -/
def openOnce (path : List UInt8) : Option Slot × State :=
  (ext2_open linkMachine 4 path linkMounted).getD (none, linkMounted)

theorem openOnce_eq (path : List UInt8)
    (h : (ext2_open linkMachine 4 path linkMounted).isSome = true) :
    ext2_open linkMachine 4 path linkMounted = some ((openOnce path).1, (openOnce path).2) := by
  obtain ⟨r, hr⟩ := Option.isSome_iff_exists.mp h
  simp only [openOnce, hr, Option.getD_some]

/-- the root is opened; it is no link -/
theorem run_balanced_root :
    (openOnce [47]).1 = some 0 ∧ inUse (openOnce [47]).2 = 1 ∧
      inUse (openOnce [47]).2
        = (openOnce [47]).2.root_inode.toList.length + (otherFds (openOnce [47]).2 [0]).length := by
  have hl : NoLink linkMachine 4 [47] linkMounted := by
    intro i t hi
    have hd : ∀ r ∈ ext2_namei linkMachine 4 [47] linkMounted, ∀ i ∈ r.1,
        S_ISLNK (i_mode (r.2.inode_table i).inode) = false := by
      decide +kernel
    exact hd _ hi i rfl
  have hfd : (openOnce [47]).1 = some 0 := by decide +kernel
  have he := openOnce_eq [47] (by decide +kernel)
  have hr : After linkMachine (NoLink linkMachine) powerOn ⟨(openOnce [47]).2, [0]⟩ := by
    refine ⟨0, 0, 0, Relation.ReflTransGen.single ?_⟩
    have hs : Step linkMachine (NoLink linkMachine) ⟨linkMounted, []⟩ _ := Step.open hl he
    rw [hfd] at hs
    exact hs
  have hc := (run_balanced _ _ _ hr).1
  dsimp only at hc
  exact ⟨hfd, by decide +kernel, hc⟩

/-- opening `/l` returns the root's descriptor and keeps the entry of the link -/
theorem link_leaks : ¬ ∀ (M : Machine) (s : State) (x : Session),
    After M (fun _ _ _ => True) s x →
      inUse x.st = x.st.root_inode.toList.length + (otherFds x.st x.fds).length := by
  intro hall
  have hfd : (openOnce [47, 108]).1 = some 0 := by decide +kernel
  have he := openOnce_eq [47, 108] (by decide +kernel)
  have hr : After linkMachine (fun _ _ _ => True) powerOn ⟨(openOnce [47, 108]).2, [0]⟩ := by
    refine ⟨0, 0, 0, Relation.ReflTransGen.single ?_⟩
    have hs : Step linkMachine (fun _ _ _ => True) ⟨linkMounted, []⟩ _ := Step.open trivial he
    rw [hfd] at hs
    exact hs
  have hne : inUse (openOnce [47, 108]).2
      ≠ (openOnce [47, 108]).2.root_inode.toList.length
        + (otherFds (openOnce [47, 108]).2 [0]).length := by decide +kernel
  have hc := hall _ _ _ hr
  dsimp only at hc
  exact hne hc

end Ext2
