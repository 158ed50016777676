import Aboot.Ext2.Lookup
import Aboot.Ext2.Table
import Aboot.Lib.Paths
import Aboot.Lib.Bytes

/-!
# `ext2_open` and the resolution of path names

The directory tree on the disk is `diskTree`.  `ext2_open` looks up paths in it from the root, and puts
the directory part of its own path before the text of every relative link.

* `Rooted`               the root's entry of the inode table is kept;
* `walk_tree`            what the path walk comes to is what the tree has;
* `followLinks_tree`     and the links are followed with one base;
* `ext2_open_resolves`   the inode that is opened is the one that the path name resolves to, if the
                         relative links on the way lie in the directory of the path;
* `ext2_open_astray`     a chain of two links in two directories.
-/

set_option linter.unusedVariables false

namespace Ext2
open Word State

/-! ## the inode table -/

/-- a table entry holds the inode `n` -/
structure Holds (M : Machine) (s : State) (i : Slot) (n : Nat) : Prop where
  inumber : (s.inode_table i).inumber = n
  inode : SameInode (s.inode_table i).inode (diskInode M s n)

/-- the root inode, once it is read, stays in its entry -/
def Rooted (M : Machine) (s : State) : Prop :=
  ∀ r, s.root_inode = some r → (s.inode_table r).free = false ∧ Holds M s r 2

/-- the mounted file system, as the functions find it -/
structure Ready (M : Machine) (s : State) : Prop where
  mounted : Mounted s
  coh : Coh M s
  rooted : Rooted M s

variable {M : Machine} {s t : State} {i j : Slot} {n : Nat}

theorem Holds.same (h : Holds M s i n) (hm : SameMount s t) (ht : t.inode_table i = s.inode_table i) :
    Holds M t i n := by
  refine ⟨?_, ?_⟩
  · rw [ht]
    exact h.inumber
  · rw [ht, diskInode_same hm]
    exact h.inode

theorem Rooted.same (h : Rooted M s) (hm : SameMount s t) (hr : t.root_inode = s.root_inode)
    (ht : ∀ r, s.root_inode = some r → t.inode_table r = s.inode_table r) : Rooted M t := by
  intro r hroot
  rw [hr] at hroot
  obtain ⟨hfree, hholds⟩ := h r hroot
  exact ⟨by rw [ht r hroot]; exact hfree, hholds.same hm (ht r hroot)⟩

theorem Rooted.reads (h : Rooted M s) (hr : Reads M s t) : Rooted M t :=
  h.same hr.keeps.mount hr.table.root fun r _ => by rw [hr.table.table]

theorem Ready.reads (h : Ready M s) (hr : Reads M s t) (hc : Coh M t) : Ready M t :=
  ⟨h.mounted.same hr.keeps.mount, hc, h.rooted.reads hr⟩

theorem releaseDir_rooted (h : Rooted M s) : Rooted M (releaseDir i s) := by
  refine h.same (releaseDir_keeps M i s).mount (releaseDir_root i s).1 fun r hr => ?_
  unfold releaseDir
  split
  · rfl
  · rename_i hne
    exact setEntry_other _ s fun he => hne (he ▸ hr)

theorem releaseDir_ready (h : Ready M s) : Ready M (releaseDir i s) := by
  refine ⟨h.mounted.same (releaseDir_keeps M i s).mount, ?_, releaseDir_rooted h.rooted⟩
  unfold releaseDir
  split
  · exact h.coh
  · exact ⟨h.coh.iblk, h.coh.diblk⟩

/-- no entry that is taken changes -/
theorem ext2_iget_taken (ino : Int) (hj : (s.inode_table j).free = false) :
    (ext2_iget M ino s).2.inode_table j = s.inode_table j := by
  unfold ext2_iget
  cases hf : freeSlot s with
  | none => rfl
  | some i =>
    have hne : j ≠ i := by
      rintro rfl
      rw [freeSlot_some hf] at hj
      cases hj
    have hread : (readInode M i ino s).inode_table j = s.inode_table j := setEntry_other _ _ hne
    dsimp only
    split
    · exact hread
    · exact (setEntry_other _ _ hne).trans hread

theorem ext2_iget_coh (ino : Int) (h : Coh M s) : Coh M (ext2_iget M ino s).2 := by
  unfold ext2_iget
  split
  · exact ⟨h.iblk, h.diblk⟩
  · split
    · exact ⟨h.iblk, h.diblk⟩
    · exact ⟨h.iblk, h.diblk⟩

theorem ext2_iget_rooted (ino : Int) (h : Rooted M s) : Rooted M (ext2_iget M ino s).2 :=
  h.same (ext2_iget_keeps M ino s).mount (ext2_iget_root M ino s) fun r hr =>
    ext2_iget_taken ino (h r hr).1

theorem ext2_iget_ready (ino : Int) (h : Ready M s) : Ready M (ext2_iget M ino s).2 :=
  ⟨h.mounted.same (ext2_iget_keeps M ino s).mount, ext2_iget_coh ino h.coh, ext2_iget_rooted ino h.rooted⟩

/-- the entry that is returned holds the inode -/
theorem ext2_iget_holds (hj : (ext2_iget M n s).1 = some j) :
    ((ext2_iget M n s).2.inode_table j).free = false ∧ Holds M (ext2_iget M n s).2 j n := by
  have hdisk : diskInode M (ext2_iget M n s).2 = diskInode M s :=
    diskInode_same (ext2_iget_keeps M n s).mount
  obtain ⟨i, hi, hret⟩ : ∃ i, freeSlot s = some i ∧
      (s.rd M sizeof_inode (inodeOffset s n)).ret = sizeof_inode := by
    unfold ext2_iget at hj
    cases hf : freeSlot s with
    | none =>
      rw [hf] at hj
      cases hj
    | some i =>
      rw [hf] at hj
      by_contra hno
      have hret : (s.rd M sizeof_inode (inodeOffset s n)).ret ≠ sizeof_inode := fun h => hno ⟨i, rfl, h⟩
      dsimp only at hj
      rw [if_pos hret] at hj
      cases hj
  have hget : ext2_iget M n s = (some i, takeSlot i n (readInode M i n s)) := by
    unfold ext2_iget
    rw [hi]
    exact if_neg (not_not.mpr hret)
  rw [hget] at hj hdisk ⊢
  obtain rfl := Option.some.inj hj
  have hentry : (takeSlot i n (readInode M i n s)).inode_table i
      = { (readInode M i n s).inode_table i with
          free := false, inumber := n, old_mode := i_mode ((readInode M i n s).inode_table i).inode } :=
    setEntry_self i _ _
  have hread : (readInode M i n s).inode_table i = { s.inode_table i with
      inode := (s.inode_table i).inode.put 0 (s.rd M sizeof_inode (inodeOffset s n)).data } :=
    setEntry_self i _ _
  refine ⟨by rw [hentry], by rw [hentry], ?_⟩
  rw [hentry, hread, hdisk]
  intro k hk
  have hk' : (k : Int) < sizeof_inode := by
    unfold sizeof_inode
    omega
  exact M.put_read_exact hret _ hk'

theorem getRoot_rooted (h : Rooted M s) : Rooted M (getRoot M s) := by
  unfold getRoot
  split
  · exact h
  · intro r hr
    obtain ⟨hfree, hholds⟩ := ext2_iget_holds (n := 2) hr
    exact ⟨hfree, hholds.inumber, hholds.inode⟩

theorem getRoot_ready (h : Ready M s) : Ready M (getRoot M s) := by
  refine ⟨h.mounted.same (getRoot_keeps M s).mount, ?_, getRoot_rooted h.rooted⟩
  unfold getRoot
  split
  · exact h.coh
  · have hc := ext2_iget_coh EXT2_ROOT_INO h.coh
    exact ⟨hc.iblk, hc.diblk⟩

/-! ### in every run -/

theorem walk_rooted (fuel : Nat) (cs : List (List UInt8)) :
    ∀ (i : Slot) (s : State) (r : Option Slot × State), Rooted M s → walk M fuel cs i s = some r →
      Rooted M r.2 := by
  induction cs with
  | nil =>
    intro i s r hs h
    rw [← Option.some.inj h]
    exact hs
  | cons c cs ih =>
    intro i s r hs h
    unfold walk at h
    split at h
    · cases h
    · rename_i next_ino s₁ hd
      have h1 : Rooted M (releaseDir i s₁) := releaseDir_rooted (hs.reads (searchDir_reads M i c fuel true s _ hd))
      simp only at h
      split at h
      · rw [← Option.some.inj h]
        exact h1
      · have h2 := ext2_iget_rooted next_ino h1
        split at h
        · rename_i e
          rw [e] at h2
          rw [← Option.some.inj h]
          exact h2
        · rename_i e
          rw [e] at h2
          exact ih _ _ _ h2 h

theorem ext2_namei_rooted {fuel : Nat} {name : List UInt8} {r : Option Slot × State} (hs : Rooted M s)
    (h : ext2_namei M fuel name s = some r) : Rooted M r.2 := by
  unfold ext2_namei at h
  split at h
  · rw [← Option.some.inj h]
    exact getRoot_rooted hs
  · exact walk_rooted fuel _ _ _ r (getRoot_rooted hs) h

theorem ext2_follow_link_rooted {fuel : Nat} {base : List UInt8} {r : Option Slot × State}
    (hs : Rooted M s) (h : ext2_follow_link M fuel i base s = some r) : Rooted M r.2 := by
  unfold ext2_follow_link at h
  split at h
  · cases h
  · rename_i e
    rw [← Option.some.inj h]
    exact hs.reads (linkText_reads M fuel i s _ e)
  · rename_i e
    exact ext2_namei_rooted (hs.reads (linkText_reads M fuel i s _ e)) h

theorem followLinks_rooted (filename : List UInt8) (depth fuel : Nat) :
    ∀ (i : Slot) (s : State) (r : Option Slot × State), Rooted M s →
      followLinks M filename depth fuel i s = some r → Rooted M r.2 := by
  induction fuel with
  | zero =>
    intro i s r _ h
    cases h
  | succ fuel ih =>
    intro i s r hs h
    unfold followLinks at h
    split at h
    · split at h
      · cases h
      · rename_i e
        rw [← Option.some.inj h]
        exact ext2_follow_link_rooted hs e
      · rename_i e
        exact ih _ _ _ (ext2_follow_link_rooted hs e) h
    · rw [← Option.some.inj h]
      exact hs

theorem ext2_open_rooted {fuel : Nat} {filename : List UInt8} {r : Option Slot × State} (hs : Rooted M s)
    (h : ext2_open M fuel filename s = some r) : Rooted M r.2 := by
  unfold ext2_open at h
  split at h
  · cases h
  · rename_i e
    rw [← Option.some.inj h]
    exact ext2_namei_rooted hs e
  · rename_i e
    exact followLinks_rooted filename fuel fuel _ _ r (ext2_namei_rooted hs e) h

theorem call_rooted {c : Call} (hs : Rooted M s) (h : call M c s = some t)
    (hc : ∀ dev off p, c ≠ .mount dev off p) : Rooted M t := by
  cases c with
  | mount dev off p => exact absurd rfl (hc dev off p)
  | «open» fuel f =>
    obtain ⟨r, hr, rfl⟩ := Option.map_eq_some_iff.mp h
    exact ext2_open_rooted hs hr
  | bread fd b n =>
    rw [← Option.some.inj h]
    exact hs.reads (extn_breadi_reads M fd b n s)
  | readdir fd rewind =>
    rw [← Option.some.inj h]
    exact hs.reads (ext2_readdir_reads M fd rewind s)
  | close fd =>
    rw [← Option.some.inj h]
    exact releaseDir_rooted hs

theorem Running.rooted (h : Running M s) : Rooted M s := by
  obtain ⟨s₀, dev, off, p, -, -, -, -, hr⟩ := h
  induction hr with
  | refl =>
    intro r hroot
    rw [(ext2_mount_empty M dev off p s₀).1] at hroot
    cases hroot
  | tail _ hstep ih =>
    obtain ⟨c, hc, hn, -⟩ := hstep
    exact call_rooted ih hc hn

/-- a running system is ready -/
theorem Running.ready (h : Running M s) : Ready M s := ⟨h.mounted.1, h.mounted.2, h.rooted⟩

/-! ## the directory tree -/

/-- a path name -/
def pathOf (name : List UInt8) : Paths.Path (List UInt8) :=
  ⟨name.head? = some '/'.toUInt8, components name, name.getLast? = some '/'.toUInt8⟩

/-- the text of the link `n`: in its inode, or in its first block -/
def textOf (M : Machine) (s : State) (n : Nat) : List UInt8 :=
  if i_blocks (diskInode M s n) = 0 then (diskInode M s n).get 40 (i_size (diskInode M s n))
  else (fileBlock M s (diskInode M s n) 0).get 0 (i_size (diskInode M s n))

/-- the entry of a directory with a name; entries with inode 0 are not in use -/
def entryNamed (es : List DirEnt) (c : List UInt8) : Option DirEnt :=
  es.find? fun e => e.inode ≠ 0 ∧ e.name = c

theorem link_not_dir {mode : Nat} (h : S_ISDIR mode = true) : S_ISLNK mode = false := by
  have h := of_decide_eq_true h
  refine decide_eq_false fun h' => ?_
  rw [h] at h'
  cases h'

/-- the tree that inodes, directory entries and link texts make -/
def treeOf (inode : Nat → Mem) (entries : Nat → List DirEnt) (text : Nat → List UInt8) :
    Paths.Tree Nat (List UInt8) where
  root := 2
  isDir n := S_ISDIR (i_mode (inode n))
  child d c := (entryNamed (entries d) c).map DirEnt.inode
  link n := if S_ISLNK (i_mode (inode n)) then some (pathOf (text n)) else none
  dir_link n h := by rw [link_not_dir h]; rfl

/-- the directory tree of the mounted partition -/
def diskTree (M : Machine) (s : State) : Paths.Tree Nat (List UInt8) :=
  treeOf (diskInode M s) (fun d => dirEntries M s (diskInode M s d)) (textOf M s)

theorem dirEntries_same (h : SameMount s t) : dirEntries M t = dirEntries M s := by
  funext ip
  unfold dirEntries blockEntries
  rw [blocksOf_same h, fileBlock_same h, h.blocksize]

theorem textOf_same (h : SameMount s t) : textOf M t = textOf M s := by
  funext n
  rw [textOf, textOf, diskInode_same h, fileBlock_same h]

theorem diskTree_same (h : SameMount s t) : diskTree M t = diskTree M s := by
  rw [diskTree, diskTree, diskInode_same h, dirEntries_same h, textOf_same h]

/-- the first entry of each name is in use -/
theorem entryNamed_first {es : List DirEnt} {c : List UInt8} {e : DirEnt}
    (h : es.find? (fun e => decide (e.name = c)) = some e) (hz : e.inode ≠ 0) : entryNamed es c = some e := by
  rw [List.find?_eq_some_iff_append] at h
  obtain ⟨hc, as, bs, rfl, has⟩ := h
  unfold entryNamed
  rw [List.find?_eq_some_iff_append]
  refine ⟨by simpa [hz] using hc, as, bs, rfl, fun a ha => ?_⟩
  have := has a ha
  simp only [Bool.not_eq_true', decide_eq_false_iff_not] at this ⊢
  exact fun h => this h.2

theorem mem_chain_lt {blk : Mem} {bs n o : Nat} {e : DirEnt} (h : e ∈ chain blk bs n o) :
    e.inode < 4294967296 := by
  induction n generalizing o with
  | zero => cases h
  | succ n ih =>
    unfold chain at h
    split at h
    · cases h
    · obtain rfl | h := List.mem_cons.mp h
      · exact Mem.le32_lt _ _
      · exact ih h

theorem mem_dirEntries_lt {ip : Mem} {e : DirEnt} (h : e ∈ dirEntries M s ip) : e.inode < 4294967296 := by
  obtain ⟨b, -, hb⟩ := List.mem_flatMap.mp h
  exact mem_chain_lt hb

/-! ## the path walk -/

/-- the path goes through directories that the reader can read, and no entry that is not in use has a
name of it first -/
def PathFine (M : Machine) (s : State) : Nat → List (List UInt8) → Prop
  | _, [] => True
  | d, c :: cs => S_ISDIR (i_mode (diskInode M s d)) = true ∧ DirFine M s (diskInode M s d) ∧
      (∀ e, (dirEntries M s (diskInode M s d)).find? (fun e => decide (e.name = c)) = some e →
        e.inode ≠ 0) ∧
      ∀ n, (diskTree M s).child d c = some n → PathFine M s n cs

theorem DirFine.same {ip : Mem} (h : DirFine M s ip) (hm : SameMount s t) : DirFine M t ip := by
  obtain ⟨h1, h2, h3, hsmall, h4⟩ := h
  refine ⟨h1.same hm, ?_, ?_, hsmall, ?_⟩
  · rwa [blocksOf_same hm]
  · rwa [blocksOf_same hm, hm.blocksize]
  · rwa [blocksOf_same hm, fileBlock_same hm, hm.blocksize]

theorem PathFine.same (hm : SameMount s t) {d : Nat} {cs : List (List UInt8)} (h : PathFine M s d cs) :
    PathFine M t d cs := by
  induction cs generalizing d with
  | nil => trivial
  | cons c cs ih =>
    obtain ⟨h1, h2, h3, h4⟩ := h
    refine ⟨?_, ?_, ?_, fun n hn => ih (h4 n ?_)⟩
    · rwa [diskInode_same hm]
    · rw [diskInode_same hm]
      exact h2.same hm
    · rwa [diskInode_same hm, dirEntries_same hm]
    · rwa [diskTree_same hm] at hn

theorem component_ne_nil {name c : List UInt8} (h : c ∈ components name) : c ≠ [] := by
  simpa using (List.mem_filter.mp h).2

/-- the path walk follows the tree -/
theorem walk_tree (fuel : Nat) (cs : List (List UInt8)) (hcs : ∀ c ∈ cs, c ≠ []) :
    ∀ (i : Slot) (s : State) (d : Nat), Ready M s → Holds M s i d → PathFine M s d cs →
      walk M fuel cs i s = some (some j, t) →
      Ready M t ∧ SameMount s t ∧ ∃ n, (diskTree M s).walk d cs = some n ∧ Holds M t j n := by
  induction cs with
  | nil =>
    intro i s d hs hi _ h
    have h := Option.some.inj h
    obtain ⟨h1, rfl⟩ := Prod.mk.inj h
    obtain rfl := Option.some.inj h1
    exact ⟨hs, SameMount.refl s, d, rfl, hi⟩
  | cons c cs ih =>
    intro i s d hs hi hp h
    obtain ⟨h1, h2, h3, h4⟩ := hp
    unfold walk at h
    split at h
    · cases h
    · rename_i r s₁ hd
      simp only at h
      split at h
      · cases congrArg Prod.fst (Option.some.inj h)
      · rename_i hr
        have hr : 0 ≤ r := not_lt.mp hr
        obtain ⟨⟨e, he, hre⟩, hreads, hcoh⟩ := searchDir_finds hs.mounted hs.coh h2 hi.inode
          (hcs c List.mem_cons_self) hr hd
        have hlt := mem_dirEntries_lt (List.mem_of_find?_eq_some he)
        obtain rfl : r = e.inode := by
          obtain ⟨q, e1, e2, e3⟩ := sgn32_cases e.inode
          omega
        have hchild : (diskTree M s).child d c = some e.inode := by
          show (entryNamed (dirEntries M s (diskInode M s d)) c).map DirEnt.inode = _
          rw [entryNamed_first he (h3 e he)]
          rfl
        have hs1 : Ready M (releaseDir i s₁) := releaseDir_ready (hs.reads hreads hcoh)
        have hm1 : SameMount s (releaseDir i s₁) := hreads.keeps.mount.trans (releaseDir_keeps M i s₁).mount
        have hs2 := ext2_iget_ready (e.inode : Int) hs1
        have hm2 := hm1.trans (ext2_iget_keeps M (e.inode : Int) (releaseDir i s₁)).mount
        split at h
        · cases congrArg Prod.fst (Option.some.inj h)
        · rename_i j' s₂ hget
          have hholds := (ext2_iget_holds (M := M) (s := releaseDir i s₁) (n := e.inode) (j := j')
            (by rw [hget])).2
          rw [hget] at hs2 hm2 hholds
          obtain ⟨i1, i2, n, i3, i4⟩ := ih (fun c hc => hcs c (List.mem_cons_of_mem _ hc)) j' s₂ e.inode hs2
            hholds ((h4 _ hchild).same hm2) h
          rw [diskTree_same hm2] at i3
          refine ⟨i1, hm2.trans i2, n, ?_, i4⟩
          rw [Paths.Tree.walk, hchild]
          exact i3

/-- a path name is looked up from the root -/
theorem ext2_namei_tree {fuel : Nat} {name : List UInt8} (hs : Ready M s)
    (hp : PathFine M s 2 (components name)) (h : ext2_namei M fuel name s = some (some j, t)) :
    Ready M t ∧ SameMount s t ∧ ∃ n, (diskTree M s).walk 2 (components name) = some n ∧ Holds M t j n := by
  have hm := (getRoot_keeps M s).mount
  have hs1 := getRoot_ready hs
  unfold ext2_namei at h
  split at h
  · cases congrArg Prod.fst (Option.some.inj h)
  · rename_i root hroot
    obtain ⟨i1, i2, n, i3, i4⟩ := walk_tree fuel _ (fun c hc => component_ne_nil hc) root _ 2 hs1
      (hs1.rooted root hroot).2 (hp.same hm) h
    rw [diskTree_same hm] at i3
    exact ⟨i1, hm.trans i2, n, i3, i4⟩

/-! ## the text of a link -/

/-- a link that the reader can read: a text without zeros, ended by one, in the inode or, as `i_blocks`
says, in the first block -/
structure LinkFine (M : Machine) (s : State) (n : Nat) : Prop where
  pos : 0 < i_size (diskInode M s n)
  short : i_size (diskInode M s n) < 256
  nonul : 0 ∉ textOf M s n
  fast : i_blocks (diskInode M s n) = 0 →
    i_size (diskInode M s n) < 60 ∧ diskInode M s n (40 + i_size (diskInode M s n)) = 0
  slow : i_blocks (diskInode M s n) ≠ 0 → Readable M s (diskInode M s n) ∧
    i_size (diskInode M s n) < s.blocksize.toNat ∧
    fileBlock M s (diskInode M s n) 0 (i_size (diskInode M s n)) = 0

instance (M : Machine) (s : State) (n : Nat) : Decidable (LinkFine M s n) :=
  decidable_of_iff (0 < i_size (diskInode M s n) ∧ i_size (diskInode M s n) < 256 ∧ 0 ∉ textOf M s n ∧
      (i_blocks (diskInode M s n) = 0 →
        i_size (diskInode M s n) < 60 ∧ diskInode M s n (40 + i_size (diskInode M s n)) = 0) ∧
      (i_blocks (diskInode M s n) ≠ 0 → Readable M s (diskInode M s n) ∧
        i_size (diskInode M s n) < s.blocksize.toNat ∧
        fileBlock M s (diskInode M s n) 0 (i_size (diskInode M s n)) = 0))
    ⟨fun ⟨h1, h2, h3, h4, h5⟩ => ⟨h1, h2, h3, h4, h5⟩, fun h => ⟨h.pos, h.short, h.nonul, h.fast, h.slow⟩⟩

theorem LinkFine.same (h : LinkFine M s n) (hm : SameMount s t) : LinkFine M t n := by
  obtain ⟨h1, h2, h3, h4, h5⟩ := h
  refine ⟨?_, ?_, ?_, ?_, ?_⟩
  · rwa [diskInode_same hm]
  · rwa [diskInode_same hm]
  · rwa [textOf_same hm]
  · rwa [diskInode_same hm]
  · rw [diskInode_same hm, fileBlock_same hm, hm.blocksize]
    exact fun hb => ⟨(h5 hb).1.same hm, (h5 hb).2⟩

/-- the string is what comes before the first zero -/
theorem cstr_eq {m : Mem} {fuel a n : Nat} {x : List UInt8} (hnul : 0 ∉ m.get a n) (hend : m (a + n) = 0)
    (h : cstr m fuel a = some x) : x = m.get a n := by
  induction fuel generalizing a n x with
  | zero => cases h
  | succ fuel ih =>
    unfold cstr at h
    cases n with
    | zero =>
      rw [Nat.add_zero] at hend
      rw [if_pos hend] at h
      exact (Option.some.inj h).symm
    | succ n =>
      have hget : m.get a (n + 1) = m a :: m.get (a + 1) n := by
        rw [Nat.add_comm n 1, Mem.get_add]
        rfl
      rw [hget] at hnul ⊢
      have hne : ¬ m a = 0 := fun h0 => hnul (h0 ▸ List.mem_cons_self)
      rw [if_neg hne] at h
      obtain ⟨y, hy, rfl⟩ := Option.map_eq_some_iff.mp h
      have hend' : m (a + 1 + n) = 0 := by
        rw [Nat.add_assoc, Nat.add_comm 1 n]
        exact hend
      rw [ih (fun h0 => hnul (List.mem_cons_of_mem _ h0)) hend' hy]

theorem linkText_tree {fuel : Nat} {x : List UInt8} (hs : Ready M s) (hi : Holds M s i n)
    (hl : LinkFine M s n) (h : linkText M fuel i s = some (some x, t)) :
    Ready M t ∧ SameMount s t ∧ x = textOf M s n := by
  have hnul := hl.nonul
  unfold linkText at h
  unfold textOf at hnul ⊢
  by_cases hb : i_blocks (diskInode M s n) = 0
  · rw [if_pos hb] at hnul ⊢
    rw [hi.inode.blocks, if_neg (not_not.mpr hb)] at h
    obtain ⟨y, hy, h⟩ := Option.map_eq_some_iff.mp h
    obtain ⟨h1, rfl⟩ := Prod.mk.inj h
    obtain rfl := Option.some.inj h1
    obtain ⟨hsize, hend⟩ := hl.fast hb
    have hget : (s.inode_table i).inode.get 40 (i_size (diskInode M s n))
        = (diskInode M s n).get 40 (i_size (diskInode M s n)) :=
      Mem.get_eq_of_forall _ _ _ _ fun k hk => hi.inode _ (by omega)
    refine ⟨hs, SameMount.refl s, ?_⟩
    rw [← hget] at hnul ⊢
    exact cstr_eq hnul ((hi.inode _ (by omega)).trans hend) hy
  · rw [if_neg hb] at hnul ⊢
    rw [hi.inode.blocks, if_pos hb] at h
    obtain ⟨hr, hsize, hend⟩ := hl.slow hb
    have hpos := hl.pos
    have h0 : 0 < blocksOf s (diskInode M s n) := Nat.div_pos (by omega) (by omega)
    by_cases hret : (breadBlkbuf M i 0 s).1 = -1
    · rw [if_pos hret] at h
      cases congrArg Prod.fst (Option.some.inj h)
    · rw [if_neg hret] at h
      obtain ⟨y, hy, h⟩ := Option.map_eq_some_iff.mp h
      obtain ⟨h1, rfl⟩ := Prod.mk.inj h
      obtain rfl := Option.some.inj h1
      have hblk := (breadBlkbuf_file (M := M) hs.mounted hs.coh hr hi.inode h0).resolve_left hret
      rw [Nat.cast_zero] at hblk
      obtain ⟨hcoh, hbuf⟩ := hblk.block.resolve_right fun h => absurd h.1 (by omega)
      have hget : (breadBlkbuf M i 0 s).2.blkbuf.get 0 (i_size (diskInode M s n))
          = (fileBlock M s (diskInode M s n) 0).get 0 (i_size (diskInode M s n)) :=
        Mem.get_eq_of_forall _ _ _ _ fun k hk => hbuf _ (by omega)
      refine ⟨hs.reads hblk.reads hcoh, hblk.reads.keeps.mount, ?_⟩
      rw [← hget] at hnul ⊢
      refine cstr_eq hnul ?_ hy
      rw [Nat.zero_add, hbuf _ (by omega)]
      exact hend

/-! ## the base -/

/-- the components of a path up to its last slash, which `strrchr` does not find at the start -/
def dirPart (filename : List UInt8) : List (List UInt8) :=
  (strrchr filename '/'.toUInt8).elim [] fun k => components (filename.take k)

theorem components_append (a b : List UInt8) :
    components (a ++ '/'.toUInt8 :: b) = components a ++ components b := by
  unfold components
  rw [List.splitOnP_append_cons _ _ (by simp), List.filter_append]

/-- a relative link is looked up with the directory part before it -/
theorem components_resolve (filename x : List UInt8) :
    components (resolve filename x) = Paths.rebase (dirPart filename) (pathOf x) := by
  unfold resolve Paths.rebase pathOf dirPart
  by_cases ha : x.head? = some '/'.toUInt8
  · simp [ha]
  · rw [if_neg ha, if_neg (by simpa using ha)]
    cases hk : strrchr filename '/'.toUInt8 with
    | none => rfl
    | some k =>
      have hslash : filename[k]? = some '/'.toUInt8 := by
        have := List.find?_some hk
        simpa using (of_decide_eq_true this).2
      show components (filename.take (k + 1) ++ x) = components (filename.take k) ++ components x
      rw [List.take_add_one, hslash, Option.toList_some, List.append_assoc, List.singleton_append,
        components_append]

/-- a text that is not empty starts at the root or has a component -/
theorem pathOf_nonempty {x : List UInt8} (h : x ≠ []) : ¬ (pathOf x).IsEmpty := by
  cases x with
  | nil => exact absurd rfl h
  | cons a x =>
    rintro ⟨h1, h2⟩
    have ha : a ≠ '/'.toUInt8 := by simpa [pathOf] using h1
    have hc : components (a :: x) = [] := h2
    unfold components at hc
    rw [List.splitOnP_cons_eq_if_modifyHead, if_neg (by simpa using ha)] at hc
    obtain ⟨y, ys, hy⟩ := List.exists_cons_of_ne_nil (List.splitOnP_ne_nil (· == '/'.toUInt8) x)
    rw [hy, List.modifyHead_cons, List.filter_cons_of_pos (by simp)] at hc
    cases hc

/-! ## following links -/

/-- what the reader needs of the files that it comes to, to read them right -/
structure FilesFine (M : Machine) (s : State) (filename : List UInt8) (cs : List (List UInt8)) : Prop where
  path : PathFine M s 2 cs
  link : ∀ n, (diskTree M s).walk 2 cs = some n → S_ISLNK (i_mode (diskInode M s n)) = true →
    LinkFine M s n ∧ (resolve filename (textOf M s n)).length < 256

theorem FilesFine.same {filename : List UInt8} {cs : List (List UInt8)} (h : FilesFine M s filename cs)
    (hm : SameMount s t) : FilesFine M t filename cs := by
  refine ⟨h.path.same hm, fun n hw hl => ?_⟩
  rw [diskTree_same hm] at hw
  rw [diskInode_same hm] at hl
  rw [textOf_same hm]
  exact ⟨(h.link n hw hl).1.same hm, (h.link n hw hl).2⟩

/-- the links are followed with the directory part of `filename` before their texts -/
theorem followLinks_tree (filename : List UInt8) (depth fuel : Nat) :
    ∀ (i : Slot) (s : State) (k : Nat) (cs : List (List UInt8)), Ready M s → Holds M s i k →
      (diskTree M s).walk 2 cs = some k →
      (∀ cs', (diskTree M s).Consulted (dirPart filename) cs cs' →
        FilesFine M s filename cs') →
      followLinks M filename depth fuel i s = some (some j, t) →
      SameMount s t ∧ ∃ n, (diskTree M s).Follows (dirPart filename) cs n ∧ Holds M t j n := by
  induction fuel with
  | zero =>
    intro i s k cs _ _ _ _ h
    cases h
  | succ fuel ih =>
    intro i s k cs hs hi hw hfine h
    have hlink : (diskTree M s).link k
        = if S_ISLNK (i_mode (diskInode M s k)) then some (pathOf (textOf M s k)) else none := rfl
    unfold followLinks at h
    rw [hi.inode.mode] at h
    by_cases hl : S_ISLNK (i_mode (diskInode M s k)) = true
    · rw [if_pos hl] at h hlink
      have hnext : (diskTree M s).next (dirPart filename) cs = some _ := Paths.Tree.next_eq hw hlink
      have hcomps := components_resolve filename (textOf M s k)
      have hf := hfine cs .refl
      have hpath := (hfine _ (.single hnext)).path
      split at h
      · cases h
      · cases congrArg Prod.fst (Option.some.inj h)
      · rename_i i' s' hfollow
        unfold ext2_follow_link at hfollow
        split at hfollow
        · cases hfollow
        · cases congrArg Prod.fst (Option.some.inj hfollow)
        · rename_i x s₁ htext
          obtain ⟨hs1, hm1, rfl⟩ := linkText_tree hs hi (hf.link k hw hl).1 htext
          rw [← hcomps] at hpath hnext
          obtain ⟨hs2, hm2, k', hw', hi'⟩ := ext2_namei_tree hs1 (hpath.same hm1) hfollow
          have hm := hm1.trans hm2
          rw [diskTree_same hm1] at hw'
          obtain ⟨i1, n, i2, i3⟩ := ih i' s' k' (components (resolve filename (textOf M s k))) hs2 hi'
            (by rw [diskTree_same hm]; exact hw') (fun cs' hcs' => by
              rw [diskTree_same hm] at hcs'
              exact (hfine cs' (.head hnext hcs')).same hm) h
          rw [diskTree_same hm] at i2
          rw [hcomps] at i2
          exact ⟨hm.trans i1, n, .link hw hlink i2, i3⟩
    · rw [if_neg hl] at h hlink
      obtain ⟨h1, rfl⟩ := Prod.mk.inj (Option.some.inj h)
      obtain rfl := Option.some.inj h1
      exact ⟨SameMount.refl s, k, .found hw hlink, hi⟩

/-! ## opening a file -/

/-- what the open of `filename` needs: the files on the way can be read, and

* every relative link is in the directory that is the directory part of `filename`;
* what ends in a slash is a directory. -/
structure OpenFine (M : Machine) (s : State) (filename : List UInt8) : Prop where
  short : filename.length < 256
  nonempty : filename ≠ []
  root : S_ISDIR (i_mode (diskInode M s 2)) = true
  files : ∀ cs, (diskTree M s).Consulted (dirPart filename) (components filename) cs →
    FilesFine M s filename cs
  relative : ∀ cs n, (diskTree M s).Consulted (dirPart filename) (components filename) cs →
    (diskTree M s).walk 2 cs = some n → S_ISLNK (i_mode (diskInode M s n)) = true →
    (textOf M s n).head? ≠ some '/'.toUInt8 →
    (diskTree M s).dirWalk 2 (dirPart filename) = (diskTree M s).dirWalk 2 cs.dropLast
  linkSlash : ∀ cs n, (diskTree M s).Consulted (dirPart filename) (components filename) cs →
    (diskTree M s).walk 2 cs = some n → S_ISLNK (i_mode (diskInode M s n)) = true →
    (textOf M s n).getLast? = some '/'.toUInt8 → ∀ m, (diskTree M s).Follows (dirPart filename)
      (components (resolve filename (textOf M s n))) m → S_ISDIR (i_mode (diskInode M s m)) = true
  slash : filename.getLast? = some '/'.toUInt8 → ∀ m, (diskTree M s).Follows (dirPart filename)
    (components filename) m → S_ISDIR (i_mode (diskInode M s m)) = true

/-- a path that leads to a file goes through directories -/
theorem PathFine.dirs {d : Nat} {cs : List (List UInt8)} (h : PathFine M s d cs)
    (hd : S_ISDIR (i_mode (diskInode M s d)) = true) (hw : (diskTree M s).walk d cs = some n) :
    ∃ e, (diskTree M s).dirWalk d cs.dropLast = some e := by
  induction cs generalizing d with
  | nil => exact ⟨d, Paths.Tree.dirWalk_nil.mpr ⟨hd, rfl⟩⟩
  | cons c cs ih =>
    rw [Paths.Tree.walk] at hw
    obtain ⟨m, hc, hm⟩ := Option.bind_eq_some_iff.mp hw
    have hp := h.2.2.2 m hc
    cases cs with
    | nil => exact ⟨d, Paths.Tree.dirWalk_nil.mpr ⟨hd, rfl⟩⟩
    | cons c' cs =>
      obtain ⟨e, he⟩ := ih hp hp.1 hm
      exact ⟨e, Paths.Tree.dirWalk_cons.mpr ⟨hd, m, hc, he⟩⟩

theorem link_some {p : Paths.Path (List UInt8)} (h : (diskTree M s).link n = some p) :
    S_ISLNK (i_mode (diskInode M s n)) = true ∧ p = pathOf (textOf M s n) := by
  have hlink : (diskTree M s).link n
      = if S_ISLNK (i_mode (diskInode M s n)) then some (pathOf (textOf M s n)) else none := rfl
  rw [hlink, Option.ite_none_right_eq_some, Option.some.injEq] at h
  exact ⟨h.1, h.2.symm⟩

/-- the paths are straight -/
theorem OpenFine.straight {filename : List UInt8} (h : OpenFine M s filename) {cs : List (List UInt8)}
    (hcs : (diskTree M s).Consulted (dirPart filename) (components filename) cs) :
    (diskTree M s).Straight (dirPart filename) cs := by
  refine ⟨fun n hw => (h.files cs hcs).path.dirs h.root hw, ?_, ?_, ?_⟩
  · intro n p hw hl
    obtain ⟨hlnk, rfl⟩ := link_some hl
    have hpos := ((h.files cs hcs).link n hw hlnk).1.pos
    refine pathOf_nonempty fun hnil => ?_
    have hlen : (textOf M s n).length = i_size (diskInode M s n) := by
      unfold textOf
      split
      · exact Mem.length_get _ _ _
      · exact Mem.length_get _ _ _
    rw [hnil, List.length_nil] at hlen
    omega
  · intro n p hw hl ha
    obtain ⟨hlnk, rfl⟩ := link_some hl
    exact h.relative cs n hcs hw hlnk (of_decide_eq_false ha)
  · intro n p hw hl hslash m hm
    obtain ⟨hlnk, rfl⟩ := link_some hl
    rw [← components_resolve] at hm
    exact h.linkSlash cs n hcs hw hlnk (of_decide_eq_true hslash) m hm

/-- **Opening a path name.** In a running system, when the relative links on the way of a path lie in the
directory part of it, the inode that `ext2_open` opens is the one that the path name resolves to. -/
theorem ext2_open_resolves {filename : List UInt8} {fuel : Nat} {fd : Slot} (h : Running M s)
    (hf : OpenFine M s filename) (ho : ext2_open M fuel filename s = some (some fd, t)) :
    ∃ n : Nat, (t.inode_table fd).inumber = n ∧ SameInode (t.inode_table fd).inode (diskInode M s n) ∧
      (diskTree M s).Names 2 (pathOf filename) n := by
  have hs := h.ready
  unfold ext2_open at ho
  split at ho
  · cases ho
  · cases congrArg Prod.fst (Option.some.inj ho)
  · rename_i i s₁ hname
    obtain ⟨hs1, hm1, k, hw, hi⟩ := ext2_namei_tree hs (hf.files _ .refl).path hname
    obtain ⟨hm2, n, hn, hfd⟩ := followLinks_tree filename fuel fuel i s₁ k (components filename) hs1 hi
      (by rw [diskTree_same hm1]; exact hw)
      (fun cs hcs => by
        rw [diskTree_same hm1] at hcs
        exact (hf.files cs hcs).same hm1) ho
    rw [diskTree_same hm1] at hn
    have hinode := hfd.inode
    rw [diskInode_same (hm1.trans hm2)] at hinode
    have hstart : (diskTree M s).start 2 (pathOf filename) = (diskTree M s).root := ite_self _
    refine ⟨n, hfd.inumber, hinode, pathOf_nonempty hf.nonempty, ?_, ?_⟩
    · rw [hstart]
      exact hn.resolves fun cs hcs => hf.straight hcs
    · exact fun hslash => hf.slash (of_decide_eq_true hslash) n hn

/-! ## two links in two directories -/

/-- `/l` is a link to `d/m`, and `/d/m` one to `f`; there are files `/d/f` and `/f` -/
def chainDisk : Mem := Bytes.record
  [(1028, 64, 4), (1044, 1, 4), (1056, 8192, 4), (1064, 8, 4), (1080, 0xef53, 2), (2056, 5, 4),
   (5248, 0x41ed, 2), (5252, 1024, 4), (5276, 2, 4), (5288, 6, 4),
   (5376, 0x41ed, 2), (5380, 1024, 4), (5404, 2, 4), (5416, 7, 4),
   (5504, 0xa1ff, 2), (5508, 3, 4), (5544, 0x6d2f64, 3),
   (5632, 0xa1ff, 2), (5636, 1, 4), (5672, 0x66, 1),
   (5760, 0x81a4, 2), (5888, 0x81a4, 2),
   (6144, 2, 4), (6148, 12, 2), (6150, 1, 1), (6152, 0x2e, 1),
   (6156, 2, 4), (6160, 12, 2), (6162, 2, 1), (6164, 0x2e2e, 2),
   (6168, 3, 4), (6172, 12, 2), (6174, 1, 1), (6176, 0x64, 1),
   (6180, 4, 4), (6184, 12, 2), (6186, 1, 1), (6188, 0x6c, 1),
   (6192, 7, 4), (6196, 976, 2), (6198, 1, 1), (6200, 0x66, 1),
   (7168, 3, 4), (7172, 12, 2), (7174, 1, 1), (7176, 0x2e, 1),
   (7180, 2, 4), (7184, 12, 2), (7186, 2, 1), (7188, 0x2e2e, 2),
   (7192, 5, 4), (7196, 12, 2), (7198, 1, 1), (7200, 0x6d, 1),
   (7204, 6, 4), (7208, 988, 2), (7210, 1, 1), (7212, 0x66, 1)]

def chainMachine : Machine :=
  Machine.faultless (fun _ x => chainDisk x.toNat) (fun _ _ => 0) [⟨0, 1024, 0⟩]

def chainMounted : State := (ext2_mount chainMachine 0 0 0 powerOn).2.2

theorem chainMounted_running : Running chainMachine chainMounted :=
  ⟨powerOn, 0, 0, 0, rfl, rfl, by decide +kernel, by decide +kernel, .refl⟩

theorem pathFine_cons {d : Nat} {c : List UInt8} {cs : List (List UInt8)} {e : DirEnt}
    (hd : S_ISDIR (i_mode (diskInode M s d)) = true) (hf : DirFine M s (diskInode M s d))
    (he : (dirEntries M s (diskInode M s d)).find? (fun e => decide (e.name = c)) = some e)
    (hz : e.inode ≠ 0) (hcs : PathFine M s e.inode cs) : PathFine M s d (c :: cs) := by
  refine ⟨hd, hf, fun e' he' => ?_, fun n hn => ?_⟩
  · rw [he] at he'
    exact Option.some.inj he' ▸ hz
  · have hchild : (diskTree M s).child d c = some e.inode := by
      show (entryNamed (dirEntries M s (diskInode M s d)) c).map DirEnt.inode = _
      rw [entryNamed_first he hz]
      rfl
    exact Option.some.inj (hchild.symm.trans hn) ▸ hcs

theorem filesFine_of {filename : List UInt8} {cs : List (List UInt8)} (hp : PathFine M s 2 cs)
    (hw : (diskTree M s).walk 2 cs = some n)
    (hl : S_ISLNK (i_mode (diskInode M s n)) = false ∨
      LinkFine M s n ∧ (resolve filename (textOf M s n)).length < 256) : FilesFine M s filename cs := by
  refine ⟨hp, fun m hm hlnk => ?_⟩
  obtain rfl := Option.some.inj (hw.symm.trans hm)
  exact hl.resolve_left fun h => by rw [h] at hlnk; cases hlnk

theorem chain_root {c : List UInt8} {cs : List (List UInt8)} {e : DirEnt}
    (he : (dirEntries chainMachine chainMounted (diskInode chainMachine chainMounted 2)).find?
      (fun e => decide (e.name = c)) = some e) (hz : e.inode ≠ 0)
    (hcs : PathFine chainMachine chainMounted e.inode cs) :
    PathFine chainMachine chainMounted 2 (c :: cs) :=
  pathFine_cons (by decide +kernel) (by decide +kernel) he hz hcs

theorem chain_d {c : List UInt8} {cs : List (List UInt8)} {e : DirEnt}
    (he : (dirEntries chainMachine chainMounted (diskInode chainMachine chainMounted 3)).find?
      (fun e => decide (e.name = c)) = some e) (hz : e.inode ≠ 0)
    (hcs : PathFine chainMachine chainMounted e.inode cs) :
    PathFine chainMachine chainMounted 2 ([0x64] :: c :: cs) :=
  chain_root (e := ⟨3, 12, [0x64]⟩) (by decide +kernel) (by decide)
    (pathFine_cons (by decide +kernel) (by decide +kernel) he hz hcs)

/-- `/d/m` is opened: its link is in the directory of the path -/
theorem ext2_open_resolves_chain : ∃ (t : State) (fd : Slot),
    ext2_open chainMachine 8 [0x2f, 0x64, 0x2f, 0x6d] chainMounted = some (some fd, t) ∧
      (t.inode_table fd).inumber = 6 ∧
      (diskTree chainMachine chainMounted).Names 2 (pathOf [0x2f, 0x64, 0x2f, 0x6d]) 6 := by
  have h : (ext2_open chainMachine 8 [0x2f, 0x64, 0x2f, 0x6d] chainMounted).map
      (fun r => r.1.map fun fd => (r.2.inode_table fd).inumber) = some (some 6) := by decide +kernel
  obtain ⟨⟨r, t⟩, ho, h⟩ := Option.map_eq_some_iff.mp h
  obtain ⟨fd, rfl, hino⟩ := Option.map_eq_some_iff.mp h
  have hcons : ∀ P : List (List UInt8) → Prop, P [[0x64], [0x6d]] → P [[0x64], [0x66]] →
      ∀ cs, (diskTree chainMachine chainMounted).Consulted (dirPart [0x2f, 0x64, 0x2f, 0x6d])
        (components [0x2f, 0x64, 0x2f, 0x6d]) cs → P cs := by
    intro P h1 h2
    have hc : components [0x2f, 0x64, 0x2f, 0x6d] = [[0x64], [0x6d]] := by decide +kernel
    rw [hc]
    exact Paths.Tree.forall_consulted_link h1 (c := [[0x64], [0x66]]) (by decide +kernel)
      (Paths.Tree.forall_consulted_found h2 (by decide +kernel))
  have hm : (diskTree chainMachine chainMounted).walk 2 [[0x64], [0x6d]] = some 5 := by decide +kernel
  have hf : (diskTree chainMachine chainMounted).walk 2 [[0x64], [0x66]] = some 6 := by decide +kernel
  have hreg : S_ISLNK (i_mode (diskInode chainMachine chainMounted 6)) = false := by decide +kernel
  have hfine : OpenFine chainMachine chainMounted [0x2f, 0x64, 0x2f, 0x6d] := by
    refine ⟨by decide, by decide, by decide +kernel, hcons _ ?_ ?_, fun cs n hcs => ?_,
      fun cs n hcs => ?_, fun h => absurd h (by decide)⟩
    · exact filesFine_of (chain_d (e := ⟨5, 12, [0x6d]⟩) (by decide +kernel) (by decide) trivial) hm
        (.inr (by decide +kernel))
    · exact filesFine_of (chain_d (e := ⟨6, 988, [0x66]⟩) (by decide +kernel) (by decide) trivial) hf
        (.inl hreg)
    · revert cs
      refine hcons _ (fun _ _ _ => ?_) fun _ _ _ => ?_
      · decide +kernel
      · decide +kernel
    · revert cs
      refine hcons _ (fun hw _ hs => ?_) fun hw hl => ?_
      · obtain rfl := Option.some.inj (hm.symm.trans hw)
        exact absurd hs (by decide +kernel)
      · obtain rfl := Option.some.inj (hf.symm.trans hw)
        rw [hreg] at hl
        cases hl
  obtain ⟨n, hn, -, hnames⟩ := ext2_open_resolves chainMounted_running hfine ho
  obtain rfl : n = 6 := by exact_mod_cast hn.symm.trans hino
  exact ⟨t, fd, ho, hn, hnames⟩

/-- `/l` is a link to `d/m`, whose own text `f` is looked up in the directory of `/l`: the file `/f` is
opened, and the path name resolves to `/d/f` -/
theorem ext2_open_astray : ¬ ∀ (M : Machine) (s t : State) (filename : List UInt8) (fuel : Nat) (fd : Slot),
    Running M s → filename.length < 256 → S_ISDIR (i_mode (diskInode M s 2)) = true →
    (∀ cs, (diskTree M s).Consulted (dirPart filename) (components filename) cs →
      FilesFine M s filename cs) →
    ext2_open M fuel filename s = some (some fd, t) →
    ∃ n : Nat, (t.inode_table fd).inumber = n ∧ (diskTree M s).Names 2 (pathOf filename) n := by
  intro hall
  have h : (ext2_open chainMachine 8 [0x2f, 0x6c] chainMounted).map
      (fun r => r.1.map fun fd => (r.2.inode_table fd).inumber) = some (some 7) := by decide +kernel
  obtain ⟨⟨r, t⟩, ho, h⟩ := Option.map_eq_some_iff.mp h
  obtain ⟨fd, rfl, hino⟩ := Option.map_eq_some_iff.mp h
  have hfiles : ∀ cs, (diskTree chainMachine chainMounted).Consulted (dirPart [0x2f, 0x6c])
      (components [0x2f, 0x6c]) cs → FilesFine chainMachine chainMounted [0x2f, 0x6c] cs := by
    have hc : components [0x2f, 0x6c] = [[0x6c]] := by decide +kernel
    rw [hc]
    refine Paths.Tree.forall_consulted_link (c := [[0x64], [0x6d]]) ?_ (by decide +kernel)
      (Paths.Tree.forall_consulted_link (c := [[0x66]]) ?_ (by decide +kernel)
        (Paths.Tree.forall_consulted_found ?_ (by decide +kernel)))
    · exact filesFine_of (n := 4) (chain_root (e := ⟨4, 12, [0x6c]⟩) (by decide +kernel) (by decide) trivial)
        (by decide +kernel) (.inr (by decide +kernel))
    · exact filesFine_of (n := 5) (chain_d (e := ⟨5, 12, [0x6d]⟩) (by decide +kernel) (by decide) trivial)
        (by decide +kernel) (.inr (by decide +kernel))
    · exact filesFine_of (n := 7) (chain_root (e := ⟨7, 976, [0x66]⟩) (by decide +kernel) (by decide) trivial)
        (by decide +kernel) (.inl (by decide +kernel))
  obtain ⟨n, hn, hnames⟩ := hall _ _ t _ 8 fd chainMounted_running (by decide) (by decide +kernel) hfiles ho
  have hf : (diskTree chainMachine chainMounted).Resolves 3 [[0x66]] 6 :=
    .file (by decide +kernel) (by decide +kernel) (by decide +kernel) .here
  have hm : (diskTree chainMachine chainMounted).Resolves 3 [[0x6d]] 6 :=
    .link (by decide +kernel) (k := 5) (by decide +kernel) (p := ⟨false, [[0x66]], false⟩)
      (by decide +kernel) (fun h => by cases h.2) hf (fun h => by cases h) .here
  have hdm : (diskTree chainMachine chainMounted).Resolves 2 [[0x64], [0x6d]] 6 :=
    .file (n := 3) (by decide +kernel) (by decide +kernel) (by decide +kernel) hm
  have hright : (diskTree chainMachine chainMounted).Resolves 2 [[0x6c]] 6 :=
    .link (by decide +kernel) (k := 4) (by decide +kernel) (p := ⟨false, [[0x64], [0x6d]], false⟩)
      (by decide +kernel) (fun h => by cases h.2) hdm (fun h => by cases h) .here
  have h7 : n = 7 := by exact_mod_cast hn.symm.trans hino
  have h6 : n = 6 := hnames.2.1.unique hright
  omega

end Ext2
