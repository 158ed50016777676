import Aboot.Ext2.Links
import Mathlib.Data.Fintype.Card

/-!
# Loops that end, and loops that do not

Nothing bounds the loops of the reader but what is on the disk.  `Advances` is what one call of
`ext2_readdiri` needs to move on in a directory, `LinkMoves` what one link needs.

* `readdirStep_lt`             an entry or a block that moves on makes `left` smaller;
* `search_ends`, `list_ends`   the loops over the entries of a directory;
* `walk_root_inUse`            a path name that is found keeps an entry of the inode table;
* `links_end`                  so the links come to an end, if the root is no link to itself;
* `reader_ends`                `ext2_open` and `list_directory` end, if every step moves on;
* `search_stuck`, `list_stuck`, `rootLink_stuck`   where they do not;
* `open_hangs`                 a directory entry with `rec_len` 0.
-/

set_option linter.unusedVariables false

namespace Ext2
open Word State

variable {M : Machine} {s t : State} {i j : Slot} {c : List UInt8}

/-! ## list_directory -/

/-- the loop of `list_directory`: the names that it prints -/
def listLoop (M : Machine) (fd : Slot) : (fuel : Nat) → (rewind : Bool) → State →
    Option (List (List UInt8) × State)
  | 0, _, _ => none
  | fuel + 1, rewind, s =>
    match ext2_readdir M fd rewind s with
    | (none, s) => some ([], s)
    | (some ent, s) => (listLoop M fd fuel false s).map fun r => (ent :: r.1, r.2)

/-- `list_directory` of an ext2 file system: the names, or `none` if the directory is not found -/
def list_directory (M : Machine) (fuel : Nat) (dir : List UInt8) (s : State) :
    Option (Option (List (List UInt8)) × State) :=
  match ext2_open M fuel dir s with
  | none => none
  | some (none, s) => some (none, s)
  | some (some fd, s) => (listLoop M fd fuel true s).map fun r => (some r.1, ext2_close fd r.2)

/-- a round of `list_directory` -/
def listRound (M : Machine) (fd : Slot) (x : Bool × State) : (Bool × State) ⊕ State :=
  match ext2_readdir M fd x.1 x.2 with
  | (none, t) => .inr t
  | (some _, t) => .inl (false, t)

theorem listLoop_run {fd : Slot} {fuel : Nat} {rewind : Bool} :
    (listLoop M fd fuel rewind s).map Prod.snd = Loop.run (listRound M fd) fuel (rewind, s) := by
  induction fuel generalizing rewind s with
  | zero => rfl
  | succ fuel ih =>
    rw [listLoop, Loop.run, listRound]
    cases hr : ext2_readdir M fd rewind s with
    | mk ent t =>
      cases ent with
      | none => rfl
      | some ent =>
        simp only [Option.map_map]
        exact ih

/-! ## one entry -/

/-- the entry at an offset has the name -/
def Matches (c : List UInt8) (blk : Mem) (dp : Int) : Prop :=
  d_name_len blk dp = c.length ∧ d_name blk dp c.length = c

/-- the entry that comes next is the one that is looked for, or has a length; at the end of a block
`diroffset` moves on, and stays an `int` -/
structure Advances (found : Prop) (s : State) : Prop where
  entry : s.blockoffset < s.blocksize → found ∨ d_rec_len s.blkbuf s.blockoffset ≠ 0
  block : s.blocksize ≤ s.blockoffset → 0 < s.blocksize ∧ s.diroffset + s.blocksize < 2147483648

instance (c : List UInt8) (blk : Mem) (dp : Int) : Decidable (Matches c blk dp) :=
  inferInstanceAs (Decidable (_ ∧ _))

instance (found : Prop) [Decidable found] (s : State) : Decidable (Advances found s) :=
  decidable_of_iff (_ ∧ _) ⟨fun h => ⟨h.1, h.2⟩, fun h => ⟨h.entry, h.block⟩⟩

/-- what is left of the directory: an upper bound for its entries -/
def left (i : Slot) (s : State) : Nat :=
  2 * ((i_size (s.inode_table i).inode : Int) - s.diroffset).toNat + (s.blocksize - s.blockoffset).toNat

/-- the next block, if there is one, makes what is left smaller -/
theorem nextDirBlock_lt {dp : Int} (h : (nextDirBlock M i s).1 = some dp) (hpos : 0 < s.blocksize)
    (hend : s.blocksize ≤ s.blockoffset) (hint : s.diroffset + s.blocksize < 2147483648) :
    left i (nextDirBlock M i s).2 < left i s := by
  obtain ⟨b, hb⟩ : ∃ b, b = Int.tdiv (sgn 32 (s.diroffset + s.blocksize)) s.blocksize := ⟨_, rfl⟩
  obtain ⟨u, hu⟩ : ∃ u, u = { s with diroffset := sgn 32 (s.diroffset + s.blocksize) } := ⟨_, rfl⟩
  unfold nextDirBlock at h ⊢
  simp only [← hb, ← hu] at h ⊢
  split at h
  · cases h
  · rename_i hsize
    split at h
    · cases h
    · rename_i hread
      rw [if_neg hsize, if_neg hread]
      have hreads := breadBlkbuf_reads M i b u
      obtain ⟨q, hq, hlt⟩ := uns32_cases (sgn 32 (s.diroffset + s.blocksize))
      obtain ⟨r, hr, hlo, hhi⟩ := sgn32_cases (s.diroffset + s.blocksize)
      have hdir : (breadBlkbuf M i b u).2.diroffset = sgn 32 (s.diroffset + s.blocksize) := by
        rw [(breadBlkbuf_place b).1, hu]
      have hbs : (breadBlkbuf M i b u).2.blocksize = s.blocksize := by
        rw [hreads.keeps.mount.blocksize, hu]
      have htable : (breadBlkbuf M i b u).2.inode_table = s.inode_table := by
        rw [hreads.table.table, hu]
      have hlen : 0 ≤ d_rec_len (breadBlkbuf M i b u).2.blkbuf 0 := Int.natCast_nonneg _
      unfold left nextEntry
      simp only [hdir, hbs, htable]
      omega

/-- an entry that has a length, or a block that is not the last, makes what is left smaller -/
theorem readdirStep_lt {d : Int} (h : (readdirStep M i s).1 = some d) (ha : Advances False s) :
    left i (readdirStep M i s).2 < left i s := by
  unfold readdirStep at h ⊢
  by_cases hin : s.blocksize ≤ s.blockoffset
  · rw [if_pos hin] at h ⊢
    obtain ⟨hpos, hint⟩ := ha.block hin
    exact nextDirBlock_lt h hpos hin hint
  · rw [if_neg hin]
    have hlen := (ha.entry (by omega)).resolve_left id
    have hle : 0 ≤ d_rec_len s.blkbuf s.blockoffset := Int.natCast_nonneg _
    unfold left nextEntry
    simp only
    omega

/-! ## the loops over the entries -/

/-- a loop over the entries of a directory: one call of `ext2_readdiri` a round, which moves on -/
theorem entries_end {ρ : Type} {round : Bool × State → (Bool × State) ⊕ ρ} {m : State → Nat}
    (hnext : ∀ x y, Loop.Next round x y → y.1 = false)
    (hlt : ∀ u v, Loop.Come round (true, s) (false, u) → Loop.Next round (false, u) (false, v) →
      m v < m u) : Loop.Ends round (true, s) := by
  cases hr : round (true, s) with
  | inr r => exact Loop.ends_last hr
  | inl x =>
    have hfirst : Loop.Next round (true, s) x := hr
    refine hfirst.ends_iff.mpr (Loop.ends_of_measure (fun y => m y.2) fun y z hy hz => ?_)
    have hcome : Loop.Come round (true, s) y := .head hfirst hy
    have hyf : y.1 = false := by
      rcases hy.cases_tail with rfl | ⟨w, -, hw⟩
      · exact hnext _ _ hfirst
      · exact hnext _ _ hw
    have hzf := hnext _ _ hz
    obtain ⟨yb, u⟩ := y
    obtain ⟨zb, v⟩ := z
    cases hyf
    cases hzf
    exact hlt u v hcome hz

/-- every entry that the search comes to moves on, or is the one that is looked for -/
def SearchMoves (M : Machine) (i : Slot) (c : List UInt8) (s : State) : Prop :=
  ∀ u, Loop.Come (searchRound M i c) (true, s) (false, u) →
    Advances (Matches c u.blkbuf u.blockoffset) u

/-- every entry that the listing comes to moves on -/
def ListMoves (M : Machine) (fd : Slot) (s : State) : Prop :=
  ∀ u, Loop.Come (listRound M fd) (true, s) (false, u) → Advances False u

theorem searchRound_next {x y : Bool × State} (h : Loop.Next (searchRound M i c) x y) :
    ∃ dp, ext2_readdiri M i x.1 x.2 = (some dp, y.2) ∧ ¬ Matches c y.2.blkbuf dp ∧ y.1 = false := by
  unfold Loop.Next searchRound at h
  cases hr : ext2_readdiri M i x.1 x.2 with
  | mk dp t =>
    rw [hr] at h
    cases dp with
    | none => cases h
    | some dp =>
      simp only at h
      split at h
      · cases h
      · rename_i hno
        cases h
        exact ⟨dp, rfl, hno, rfl⟩

theorem listRound_next {fd : Slot} {x y : Bool × State} (h : Loop.Next (listRound M fd) x y) :
    ∃ dp t n, ext2_readdiri M fd x.1 x.2 = (some dp, t) ∧ y = (false, { t with blkbuf := t.blkbuf.put n [0] }) := by
  unfold Loop.Next listRound ext2_readdir at h
  split at h
  · cases h
  · rename_i hr
    split at hr
    · cases hr' : ext2_readdiri M fd x.1 x.2 with
      | mk dp t =>
        rw [hr'] at hr
        cases dp with
        | none => cases hr
        | some dp =>
          cases hr
          cases h
          exact ⟨dp, t, _, rfl, rfl⟩
    · cases hr

theorem search_ends (h : SearchMoves M i c s) : Loop.Ends (searchRound M i c) (true, s) := by
  refine entries_end (m := left i) (fun x y hxy => ?_) fun u v hu huv => ?_
  · obtain ⟨-, -, -, hy⟩ := searchRound_next hxy
    exact hy
  · obtain ⟨dp, hr, hno, -⟩ := searchRound_next huv
    have ha := h u hu
    have hstep : readdirStep M i u = (some dp, v) := hr
    have hv : v = (readdirStep M i u).2 := by rw [hstep]
    rw [hv]
    refine readdirStep_lt (d := dp) (by rw [hstep]) ⟨fun hin => .inr ?_, ha.block⟩
    refine (ha.entry hin).resolve_left fun hmatch => hno ?_
    unfold readdirStep at hstep
    rw [if_neg (by omega)] at hstep
    cases hstep
    exact hmatch

theorem list_ends {fd : Slot} (h : ListMoves M fd s) : Loop.Ends (listRound M fd) (true, s) := by
  refine entries_end (m := left fd) (fun x y hxy => ?_) fun u v hu huv => ?_
  · obtain ⟨-, -, -, -, rfl⟩ := listRound_next hxy
    rfl
  · obtain ⟨dp, t, n, hr, heq⟩ := listRound_next huv
    have hstep : readdirStep M fd u = (some dp, t) := hr
    have ht : t = (readdirStep M fd u).2 := by rw [hstep]
    have hleft : left fd v = left fd t := by
      cases heq
      rfl
    rw [hleft, ht]
    exact readdirStep_lt (d := dp) (by rw [hstep]) (h u hu)

theorem searchMoves_of_check (fuel : Nat)
    (h : Loop.check (fun x => x.1 || decide (Advances (Matches c x.2.blkbuf x.2.blockoffset) x.2))
      (searchRound M i c) fuel (true, s) = true) : SearchMoves M i c s := by
  intro u hu
  have hp := Loop.come_of_check h hu
  exact of_decide_eq_true hp

theorem listMoves_of_check (fuel : Nat) {fd : Slot}
    (h : Loop.check (fun x => x.1 || decide (Advances False x.2)) (listRound M fd) fuel (true, s) = true) :
    ListMoves M fd s := by
  intro u hu
  have hp := Loop.come_of_check h hu
  exact of_decide_eq_true hp

/-- an entry with `rec_len` 0 and another name: the search stays at it -/
theorem search_stuck {u : State} (hu : Loop.Come (searchRound M i c) (true, s) (false, u))
    (hin : u.blockoffset < u.blocksize) (hno : ¬ Matches c u.blkbuf u.blockoffset)
    (h0 : d_rec_len u.blkbuf u.blockoffset = 0) : ¬ Loop.Ends (searchRound M i c) (true, s) := by
  have hstep : ext2_readdiri M i false u = (some u.blockoffset, u) := by
    show readdirStep M i u = _
    unfold readdirStep nextEntry
    rw [if_neg (by omega), h0, add_zero]
  have hstay : Loop.Next (searchRound M i c) (false, u) (false, u) := by
    show searchRound M i c (false, u) = _
    unfold searchRound
    rw [hstep]
    exact if_neg hno
  rw [hu.ends_iff]
  refine Loop.not_ends_of_invariant (I := fun x => x = (false, u)) ?_ rfl
  rintro _ rfl
  exact ⟨_, hstay, rfl⟩

/-- and so does the listing: the NUL that it stores is behind the length -/
theorem list_stuck {fd : Slot} {u : State} (hu : Loop.Come (listRound M fd) (true, s) (false, u))
    (hdir : S_ISDIR (i_mode (u.inode_table fd).inode) = true) (hin : u.blockoffset < u.blocksize)
    (h0 : d_rec_len u.blkbuf u.blockoffset = 0) : ¬ Loop.Ends (listRound M fd) (true, s) := by
  rw [hu.ends_iff]
  refine Loop.not_ends_of_invariant
    (I := fun x => x.1 = false ∧ S_ISDIR (i_mode (x.2.inode_table fd).inode) = true ∧
      x.2.blockoffset < x.2.blocksize ∧ d_rec_len x.2.blkbuf x.2.blockoffset = 0) ?_ ⟨rfl, hdir, hin, h0⟩
  rintro ⟨_, v⟩ ⟨rfl, hdir, hin, h0⟩
  simp only at hdir hin h0
  have hstep : ext2_readdiri M fd false v = (some v.blockoffset, v) := by
    show readdirStep M fd v = _
    unfold readdirStep nextEntry
    rw [if_neg (by omega), h0, add_zero]
  obtain ⟨n, hn⟩ : ∃ n, n = v.blockoffset.toNat + 8 + d_name_len v.blkbuf v.blockoffset := ⟨_, rfl⟩
  have hnext : Loop.Next (listRound M fd) (false, v) (false, { v with blkbuf := v.blkbuf.put n [0] }) := by
    show listRound M fd (false, v) = _
    unfold listRound ext2_readdir
    rw [if_pos hdir, hstep, hn]
  have hlen : ∀ k < 2, v.blkbuf.put n [0] (v.blockoffset.toNat + 4 + k) = v.blkbuf (v.blockoffset.toNat + 4 + k) := by
    intro k hk
    apply Mem.put_out
    omega
  refine ⟨_, hnext, rfl, hdir, hin, ?_⟩
  show ((v.blkbuf.put n [0]).le16 (v.blockoffset.toNat + 4) : Int) = 0
  rw [show (v.blkbuf.put n [0]).le16 (v.blockoffset.toNat + 4) = v.blkbuf.le16 (v.blockoffset.toNat + 4) from
    Mem.le_congr hlen]
  exact h0

/-! ## entries of the inode table -/

theorem inUse_le (s : State) : inUse s ≤ MAX_OPEN_FILES := by
  have h := Finset.card_filter_le (Finset.univ : Finset Slot) fun i => (s.inode_table i).free = false
  rwa [Finset.card_univ, Fintype.card_fin] at h

theorem inUse_table (h : t.inode_table = s.inode_table) : inUse t = inUse s := by
  unfold inUse
  rw [h]

/-- an inode that is read takes a free entry -/
theorem iget_inUse {ino : Int} (h : ext2_iget M ino s = (some j, t)) : inUse t = inUse s + 1 := by
  have hcases := ext2_iget_cases M ino s
  rw [h] at hcases
  obtain ⟨hno, -⟩ | ⟨i, hi, hfree, hafter⟩ := hcases
  · cases hno
  · have hset : (Finset.univ.filter fun k : Slot => (t.inode_table k).free = false)
        = insert i (Finset.univ.filter fun k : Slot => (s.inode_table k).free = false) := by
      ext k
      simp only [Finset.mem_insert, Finset.mem_filter, Finset.mem_univ, true_and]
      rw [hafter k]
      by_cases hk : k = i
      · simp [hk]
      · simp [hk]
    have hnot : i ∉ Finset.univ.filter fun k : Slot => (s.inode_table k).free = false := by
      simp [hfree]
    unfold inUse
    rw [hset, Finset.card_insert_of_notMem hnot]

theorem iget_none_inUse {ino : Int} (h : ext2_iget M ino s = (none, t)) : inUse t = inUse s := by
  have hcases := ext2_iget_cases M ino s
  rw [h] at hcases
  obtain ⟨-, hsame⟩ | ⟨i, hi, -⟩ := hcases
  · have hfree : ∀ k, (t.inode_table k).free = (s.inode_table k).free := hsame
    unfold inUse
    simp only [hfree]
  · cases hi

/-- a directory that is done with gives at most its own entry back -/
theorem releaseDir_inUse (i : Slot) (s : State) : inUse s ≤ inUse (releaseDir i s) + 1 := by
  unfold releaseDir
  split
  · omega
  · unfold inUse
    refine le_trans (Finset.card_le_card ?_) (Finset.card_insert_le i _)
    intro k hk
    rw [Finset.mem_insert, Finset.mem_filter, ext2_iput_free]
    by_cases e : k = i
    · exact .inl e
    · rw [if_neg e]
      exact .inr ⟨Finset.mem_univ k, (Finset.mem_filter.mp hk).2⟩

theorem getRoot_inUse (s : State) : inUse s ≤ inUse (getRoot M s) := by
  unfold getRoot
  split
  · exact le_refl _
  · show inUse s ≤ inUse (ext2_iget M EXT2_ROOT_INO s).2
    cases hg : ext2_iget M EXT2_ROOT_INO s with
    | mk r t =>
      cases r with
      | none => exact (iget_none_inUse hg).ge
      | some i =>
        have hplus := iget_inUse hg
        show inUse s ≤ inUse t
        omega

/-! ## the path walk -/

/-- every directory that the walk searches has entries that move on -/
def WalkMoves (M : Machine) : List (List UInt8) → Slot → State → Prop
  | [], _, _ => True
  | c :: cs, i, s => SearchMoves M i c s ∧ ∀ fuel ino t j u, searchDir M i c fuel true s = some (ino, t) →
      0 ≤ ino → ext2_iget M ino (releaseDir i t) = (some j, u) → WalkMoves M cs j u

theorem walk_add {fuel : Nat} (k : Nat) {cs : List (List UInt8)} : ∀ {i : Slot} {s : State}
    {r : Option Slot × State}, walk M fuel cs i s = some r → walk M (fuel + k) cs i s = some r := by
  induction cs with
  | nil =>
    intro i s r h
    exact h
  | cons c cs ih =>
    intro i s r h
    unfold walk at h ⊢
    cases hs : searchDir M i c fuel true s with
    | none =>
      rw [hs] at h
      cases h
    | some x =>
      rw [searchDir_run] at hs
      rw [searchDir_run] at h ⊢
      rw [hs] at h
      rw [Loop.run_add k hs]
      simp only at h ⊢
      split at h
      · rename_i hneg
        rw [if_pos hneg]
        exact h
      · rename_i hneg
        rw [if_neg hneg]
        split at h
        · exact h
        · exact ih h

/-- the walk ends -/
theorem walk_ends {cs : List (List UInt8)} : ∀ {i : Slot} {s : State}, WalkMoves M cs i s →
    ∃ fuel r, walk M fuel cs i s = some r := by
  induction cs with
  | nil =>
    intro i s _
    exact ⟨0, _, rfl⟩
  | cons c cs ih =>
    intro i s ⟨hsearch, hrest⟩
    obtain ⟨fuel, ⟨ino, t⟩, hrun⟩ := search_ends hsearch
    rw [← searchDir_run] at hrun
    by_cases hneg : ino < 0
    · refine ⟨fuel, (none, releaseDir i t), ?_⟩
      rw [walk, hrun]
      exact if_pos hneg
    · cases hg : ext2_iget M ino (releaseDir i t) with
      | mk j u =>
        cases j with
        | none =>
          refine ⟨fuel, (none, u), ?_⟩
          rw [walk, hrun]
          simp only
          rw [if_neg hneg, hg]
        | some j =>
          obtain ⟨fuel', r, hr⟩ := ih (hrest fuel ino t j u hrun (by omega) hg)
          have hrun' : searchDir M i c (fuel + fuel') true s = some (ino, t) := by
            rw [searchDir_run] at hrun ⊢
            exact Loop.run_add fuel' hrun
          refine ⟨fuel + fuel', r, ?_⟩
          rw [walk, hrun']
          simp only
          rw [if_neg hneg, hg, Nat.add_comm]
          exact walk_add fuel hr

/-- what the walk finds has an entry of the inode table -/
theorem walk_inUse {fuel : Nat} {cs : List (List UInt8)} : ∀ {i : Slot} {s : State},
    walk M fuel cs i s = some (some j, t) → inUse s ≤ inUse t := by
  induction cs with
  | nil =>
    intro i s h
    cases h
    exact le_refl _
  | cons c cs ih =>
    intro i s h
    unfold walk at h
    split at h
    · cases h
    · rename_i ino u hs
      have htable := (searchDir_reads M i c fuel true s _ hs).table.table
      have hrel := releaseDir_inUse i u
      rw [inUse_table htable] at hrel
      simp only at h
      split at h
      · cases h
      · split at h
        · cases h
        · rename_i hg
          have hplus := iget_inUse hg
          have hle := ih h
          omega

/-- and one more than before, when the walk begins at the root -/
theorem walk_root_inUse {fuel : Nat} {cs : List (List UInt8)} (hne : cs ≠ [])
    (hroot : s.root_inode = some i) (h : walk M fuel cs i s = some (some j, t)) : inUse s < inUse t := by
  cases cs with
  | nil => exact absurd rfl hne
  | cons c cs =>
    unfold walk at h
    split at h
    · cases h
    · rename_i ino u hs
      have hreads := (searchDir_reads M i c fuel true s _ hs).table
      have hkept : releaseDir i u = u := if_pos (hreads.root.trans hroot)
      have htable := inUse_table hreads.table
      simp only [hkept] at h
      split at h
      · cases h
      · split at h
        · cases h
        · rename_i hg
          have hplus := iget_inUse hg
          have hle := walk_inUse h
          show inUse s < inUse t
          have htable' : inUse u = inUse s := htable
          omega

/-- every directory on the way of a path name has entries that move on -/
def NameMoves (M : Machine) (name : List UInt8) (s : State) : Prop :=
  name.length < 256 ∧
    ∀ root, (getRoot M s).root_inode = some root → WalkMoves M (components name) root (getRoot M s)

theorem namei_add {fuel : Nat} (k : Nat) {name : List UInt8} {r : Option Slot × State}
    (h : ext2_namei M fuel name s = some r) : ext2_namei M (fuel + k) name s = some r := by
  unfold ext2_namei at h ⊢
  split at h
  · exact h
  · exact walk_add k h

theorem namei_unique {fuel fuel' : Nat} {name : List UInt8} {r r' : Option Slot × State}
    (h : ext2_namei M fuel name s = some r) (h' : ext2_namei M fuel' name s = some r') : r = r' :=
  Loop.unique_of_add (f := fun fuel => ext2_namei M fuel name s) (fun _ k _ h => namei_add k h) h h'

theorem namei_ends {name : List UInt8} (h : NameMoves M name s) :
    ∃ fuel r, ext2_namei M fuel name s = some r := by
  cases hr : (getRoot M s).root_inode with
  | none =>
    refine ⟨0, (none, getRoot M s), ?_⟩
    rw [ext2_namei, hr]
  | some root =>
    obtain ⟨fuel, r, hw⟩ := walk_ends (h.2 root hr)
    refine ⟨fuel, r, ?_⟩
    rw [ext2_namei, hr]
    exact hw

/-- a path name without a component is the root; any other one takes an entry of the inode table -/
theorem namei_inUse {fuel : Nat} {name : List UInt8} (h : ext2_namei M fuel name s = some (some j, t)) :
    (components name = [] ∧ t.root_inode = some j ∧ inUse s ≤ inUse t) ∨ inUse s < inUse t := by
  unfold ext2_namei at h
  split at h
  · cases h
  · rename_i root hr
    have hle := getRoot_inUse (M := M) s
    by_cases hc : components name = []
    · left
      rw [hc] at h
      cases h
      exact ⟨hc, hr, hle⟩
    · right
      have hlt := walk_root_inUse hc hr h
      omega

/-! ## the text of a link -/

/-- a NUL follows -/
def Terminated (m : Mem) (a : Nat) : Prop := ∃ k, m (a + k) = 0

theorem cstr_add {m : Mem} {fuel : Nat} (k : Nat) : ∀ {a : Nat} {x : List UInt8},
    cstr m fuel a = some x → cstr m (fuel + k) a = some x := by
  induction fuel with
  | zero =>
    intro a x h
    cases h
  | succ fuel ih =>
    intro a x h
    rw [Nat.add_right_comm]
    unfold cstr at h ⊢
    by_cases h0 : m a = 0
    · rw [if_pos h0] at h ⊢
      exact h
    · rw [if_neg h0] at h ⊢
      obtain ⟨y, hy, rfl⟩ := Option.map_eq_some_iff.mp h
      rw [ih hy]
      rfl

theorem cstr_ends {m : Mem} {a : Nat} (h : Terminated m a) : ∃ fuel x, cstr m fuel a = some x := by
  obtain ⟨k, hk⟩ := h
  induction k generalizing a with
  | zero => exact ⟨1, [], if_pos hk⟩
  | succ k ih =>
    by_cases h0 : m a = 0
    · exact ⟨1, [], if_pos h0⟩
    · obtain ⟨fuel, x, hx⟩ := ih (a := a + 1) (by rwa [Nat.add_assoc, Nat.add_comm 1])
      refine ⟨fuel + 1, m a :: x, ?_⟩
      rw [cstr, if_neg h0, hx]
      rfl

/-- the text of a link is terminated: in the block that was read, or in the inode -/
def TextEnds (M : Machine) (i : Slot) (s : State) : Prop :=
  if i_blocks (s.inode_table i).inode ≠ 0 then Terminated (breadBlkbuf M i 0 s).2.blkbuf 0
  else Terminated (s.inode_table i).inode 40

theorem linkText_add {fuel : Nat} (k : Nat) {r : Option (List UInt8) × State}
    (h : linkText M fuel i s = some r) : linkText M (fuel + k) i s = some r := by
  unfold linkText at h ⊢
  by_cases hb : i_blocks (s.inode_table i).inode ≠ 0
  · rw [if_pos hb] at h ⊢
    by_cases hret : (breadBlkbuf M i 0 s).1 = -1
    · rw [if_pos hret] at h ⊢
      exact h
    · rw [if_neg hret] at h ⊢
      obtain ⟨x, hx, rfl⟩ := Option.map_eq_some_iff.mp h
      rw [cstr_add k hx]
      rfl
  · rw [if_neg hb] at h ⊢
    obtain ⟨x, hx, rfl⟩ := Option.map_eq_some_iff.mp h
    rw [cstr_add k hx]
    rfl

theorem linkText_ends (h : TextEnds M i s) : ∃ fuel r, linkText M fuel i s = some r := by
  unfold TextEnds at h
  unfold linkText
  split at h
  · rename_i hb
    obtain ⟨fuel, x, hx⟩ := cstr_ends h
    refine ⟨fuel, ?_⟩
    rw [if_pos hb, hx]
    split
    · exact ⟨_, rfl⟩
    · exact ⟨_, rfl⟩
  · rename_i hb
    obtain ⟨fuel, x, hx⟩ := cstr_ends h
    refine ⟨fuel, ?_⟩
    rw [if_neg hb, hx]
    exact ⟨_, rfl⟩

/-! ## the links -/

/-- a link has a terminated text, and the path name that comes of it moves on; that of the root, if it is
a link, has a component -/
structure LinkMoves (M : Machine) (filename : List UInt8) (i : Slot) (s : State) : Prop where
  text : TextEnds M i s
  name : ∀ fuel linkto t, linkText M fuel i s = some (some linkto, t) →
    NameMoves M (resolve filename linkto) t ∧
      (s.root_inode = some i → components (resolve filename linkto) ≠ [])

/-- `ext2_open` goes on from a link -/
def LinkTo (M : Machine) (filename : List UInt8) (x y : Slot × State) : Prop :=
  S_ISLNK (i_mode (x.2.inode_table x.1).inode) = true ∧
    ∃ depth, ext2_follow_link M depth x.1 filename x.2 = some (some y.1, y.2)

/-- every link that `ext2_open` comes to moves on -/
def LinksMove (M : Machine) (filename : List UInt8) (x : Slot × State) : Prop :=
  ∀ y, Relation.ReflTransGen (LinkTo M filename) x y →
    S_ISLNK (i_mode (y.2.inode_table y.1).inode) = true → LinkMoves M filename y.1 y.2

theorem followLink_add {filename : List UInt8} {fuel : Nat} (k : Nat) {r : Option Slot × State}
    (h : ext2_follow_link M fuel i filename s = some r) :
    ext2_follow_link M (fuel + k) i filename s = some r := by
  unfold ext2_follow_link at h ⊢
  cases ht : linkText M fuel i s with
  | none =>
    rw [ht] at h
    cases h
  | some x =>
    rw [ht] at h
    rw [linkText_add k ht]
    obtain ⟨linkto, t⟩ := x
    cases linkto with
    | none => exact h
    | some linkto => exact namei_add k h

theorem followLink_ends {filename : List UInt8} (h : LinkMoves M filename i s) :
    ∃ fuel r, ext2_follow_link M fuel i filename s = some r := by
  obtain ⟨fuel, ⟨linkto, t⟩, ht⟩ := linkText_ends h.text
  cases linkto with
  | none =>
    refine ⟨fuel, (none, t), ?_⟩
    rw [ext2_follow_link, ht]
  | some linkto =>
    obtain ⟨fuel', r, hr⟩ := namei_ends (h.name fuel linkto t ht).1
    refine ⟨fuel + fuel', r, ?_⟩
    rw [ext2_follow_link, linkText_add fuel' ht, Nat.add_comm]
    exact namei_add fuel hr

/-- the free entries of the inode table, and a step to the root -/
def linksLeft (x : Slot × State) : Nat :=
  2 * (MAX_OPEN_FILES - inUse x.2) + if x.2.root_inode = some x.1 then 0 else 1

/-- a link makes what is left smaller -/
theorem linkTo_lt {filename : List UInt8} {x y : Slot × State} (h : LinkMoves M filename x.1 x.2)
    (hxy : LinkTo M filename x y) : linksLeft y < linksLeft x := by
  obtain ⟨i, s⟩ := x
  obtain ⟨j, t⟩ := y
  obtain ⟨-, depth, hf⟩ := hxy
  have hf' : ext2_follow_link M depth i filename s = some (some j, t) := hf
  unfold ext2_follow_link at hf'
  split at hf'
  · cases hf'
  · cases hf'
  · rename_i linkto u ht
    have hreads := (linkText_reads M depth i s _ ht).table
    have huse : inUse u = inUse s := inUse_table hreads.table
    have hle := inUse_le t
    unfold linksLeft
    simp only
    rcases namei_inUse hf' with ⟨hnil, hroot, hle'⟩ | hlt
    · -- the root is no link to itself
      have hno : ¬ s.root_inode = some i := fun hi => (h.name depth linkto u ht).2 hi hnil
      rw [if_pos hroot, if_neg hno]
      omega
    · split <;> split <;> omega

theorem followLinks_add {filename : List UInt8} {depth fuel : Nat} (k l : Nat) : ∀ {i : Slot} {s : State}
    {r : Option Slot × State}, followLinks M filename depth fuel i s = some r →
      followLinks M filename (depth + k) (fuel + l) i s = some r := by
  induction fuel with
  | zero =>
    intro i s r h
    cases h
  | succ fuel ih =>
    intro i s r h
    rw [Nat.add_right_comm]
    unfold followLinks at h ⊢
    split at h
    · rename_i hlnk
      rw [if_pos hlnk]
      cases hf : ext2_follow_link M depth i filename s with
      | none =>
        rw [hf] at h
        cases h
      | some x =>
        rw [hf] at h
        rw [followLink_add k hf]
        obtain ⟨j, t⟩ := x
        cases j with
        | none => exact h
        | some j => exact ih h
    · rename_i hlnk
      rw [if_neg hlnk]
      exact h

/-- the root as a link whose text has no component leads to itself -/
theorem rootLink_stuck {filename : List UInt8} {depth : Nat} (hroot : s.root_inode = some i)
    (hlnk : S_ISLNK (i_mode (s.inode_table i).inode) = true) (hfast : i_blocks (s.inode_table i).inode = 0)
    (hnil : ∀ linkto t, linkText M depth i s = some (some linkto, t) →
      components (resolve filename linkto) = []) (fuel : Nat) :
    followLinks M filename depth fuel i s = none := by
  have hget : getRoot M s = s := by
    unfold getRoot
    rw [hroot]
  induction fuel with
  | zero => rfl
  | succ fuel ih =>
    rw [followLinks, if_pos hlnk, ext2_follow_link]
    have htext : linkText M depth i s = (cstr (s.inode_table i).inode depth 40).map fun x => (some x, s) :=
      if_neg (not_not.mpr hfast)
    cases hx : cstr (s.inode_table i).inode depth 40 with
    | none => rw [htext, hx]; rfl
    | some x =>
      rw [hx] at htext
      have hname : ext2_namei M depth (resolve filename x) s = some (some i, s) := by
        rw [ext2_namei, hget, hroot]
        simp only
        rw [hnil x s htext, walk]
      rw [htext]
      simp only [Option.map_some]
      rw [hname]
      exact ih

/-- the links come to an end -/
theorem links_end {filename : List UInt8} {x : Slot × State} (h : LinksMove M filename x) :
    ∃ depth fuel r, followLinks M filename depth fuel x.1 x.2 = some r := by
  have hacc := Loop.acc_of_measure linksLeft fun y z hy hz => linkTo_lt (h y hy hz.1) hz
  induction hacc with
  | intro x _ ih =>
    by_cases hlnk : S_ISLNK (i_mode (x.2.inode_table x.1).inode) = true
    · obtain ⟨depth, ⟨j, t⟩, hf⟩ := followLink_ends (h x .refl hlnk)
      cases j with
      | none =>
        refine ⟨depth, 1, (none, t), ?_⟩
        rw [followLinks, if_pos hlnk, hf]
      | some j =>
        have hto : LinkTo M filename x (j, t) := ⟨hlnk, depth, hf⟩
        obtain ⟨depth', fuel, r, hr⟩ := ih (j, t) hto fun y hy => h y (.head hto hy)
        refine ⟨depth + depth', fuel + 1, r, ?_⟩
        rw [followLinks, if_pos hlnk, followLink_add depth' hf]
        have hmore := followLinks_add depth 0 hr
        rwa [Nat.add_comm depth' depth] at hmore
    · refine ⟨0, 1, (some x.1, x.2), ?_⟩
      rw [followLinks, if_neg hlnk]

/-! ## ext2_open and list_directory -/

/-- every step of `ext2_open` moves on -/
def OpenMoves (M : Machine) (filename : List UInt8) (s : State) : Prop :=
  NameMoves M filename s ∧ ∀ fuel i t, ext2_namei M fuel filename s = some (some i, t) →
    LinksMove M filename (i, t)

theorem open_ends {filename : List UInt8} (h : OpenMoves M filename s) :
    ∃ fuel r, ext2_open M fuel filename s = some r := by
  obtain ⟨fuel, ⟨i, t⟩, hn⟩ := namei_ends h.1
  cases i with
  | none =>
    refine ⟨fuel, (none, t), ?_⟩
    rw [ext2_open, hn]
  | some i =>
    obtain ⟨depth, fuel', r, hr⟩ := links_end (h.2 fuel i t hn)
    refine ⟨fuel + (depth + fuel'), r, ?_⟩
    rw [ext2_open, namei_add (depth + fuel') hn]
    have hmore := followLinks_add (fuel + fuel') (fuel + depth) hr
    have h1 : depth + (fuel + fuel') = fuel + (depth + fuel') := by omega
    have h2 : fuel' + (fuel + depth) = fuel + (depth + fuel') := by omega
    rwa [h1, h2] at hmore

theorem open_add {filename : List UInt8} {fuel : Nat} (k : Nat) {r : Option Slot × State}
    (h : ext2_open M fuel filename s = some r) : ext2_open M (fuel + k) filename s = some r := by
  unfold ext2_open at h ⊢
  cases hn : ext2_namei M fuel filename s with
  | none =>
    rw [hn] at h
    cases h
  | some x =>
    rw [hn] at h
    rw [namei_add k hn]
    obtain ⟨i, t⟩ := x
    cases i with
    | none => exact h
    | some i => exact followLinks_add k k h

theorem open_unique {filename : List UInt8} {fuel fuel' : Nat} {r r' : Option Slot × State}
    (h : ext2_open M fuel filename s = some r) (h' : ext2_open M fuel' filename s = some r') : r = r' :=
  Loop.unique_of_add (f := fun fuel => ext2_open M fuel filename s) (fun _ k _ h => open_add k h) h h'

theorem listLoop_add {fd : Slot} {fuel : Nat} (k : Nat) : ∀ {rewind : Bool} {s : State}
    {r : List (List UInt8) × State}, listLoop M fd fuel rewind s = some r →
      listLoop M fd (fuel + k) rewind s = some r := by
  induction fuel with
  | zero =>
    intro rewind s r h
    cases h
  | succ fuel ih =>
    intro rewind s r h
    rw [Nat.add_right_comm]
    unfold listLoop at h ⊢
    split at h
    · exact h
    · obtain ⟨x, hx, rfl⟩ := Option.map_eq_some_iff.mp h
      rw [ih hx]
      rfl

/-- every step of `list_directory` moves on -/
def ListingMoves (M : Machine) (dir : List UInt8) (s : State) : Prop :=
  OpenMoves M dir s ∧ ∀ fuel fd t, ext2_open M fuel dir s = some (some fd, t) → ListMoves M fd t

theorem listing_ends {dir : List UInt8} (h : ListingMoves M dir s) :
    ∃ fuel r, list_directory M fuel dir s = some r := by
  obtain ⟨fuel, ⟨fd, t⟩, ho⟩ := open_ends h.1
  cases fd with
  | none =>
    refine ⟨fuel, (none, t), ?_⟩
    rw [list_directory, ho]
  | some fd =>
    obtain ⟨fuel', r, hr⟩ := list_ends (h.2 fuel fd t ho)
    rw [← listLoop_run] at hr
    obtain ⟨x, hx, -⟩ := Option.map_eq_some_iff.mp hr
    refine ⟨fuel + fuel', (some x.1, ext2_close fd x.2), ?_⟩
    have hmore := listLoop_add fuel hx
    rw [Nat.add_comm fuel' fuel] at hmore
    rw [list_directory, open_add fuel' ho]
    simp only
    rw [hmore]
    rfl

/-- **The reader does not hang.**  For every device, every state of the reader and every path name:
`ext2_open` ends if each of its steps moves on, and so does `list_directory`. -/
theorem reader_ends (M : Machine) (s : State) (filename : List UInt8) :
    (OpenMoves M filename s → ∃ fuel r, ext2_open M fuel filename s = some r) ∧
      (ListingMoves M filename s → ∃ fuel r, list_directory M fuel filename s = some r) :=
  ⟨open_ends, listing_ends⟩

/-- the directory `/d` is opened and listed -/
theorem reader_ends_chain : (∃ fuel r, ext2_open chainMachine fuel [0x2f, 0x64] chainMounted = some r) ∧
    ∃ fuel r, list_directory chainMachine fuel [0x2f, 0x64] chainMounted = some r := by
  have hname : NameMoves chainMachine [0x2f, 0x64] chainMounted := by
    refine ⟨by decide, fun root hroot => ?_⟩
    have h0 : (getRoot chainMachine chainMounted).root_inode = some 0 := by decide +kernel
    obtain rfl := Option.some.inj (h0.symm.trans hroot)
    have hc : components [0x2f, 0x64] = [[0x64]] := by decide +kernel
    have hs : SearchMoves chainMachine 0 [0x64] (getRoot chainMachine chainMounted) :=
      searchMoves_of_check 8 (by decide +kernel)
    rw [hc]
    exact ⟨hs, fun _ _ _ _ _ _ _ _ => trivial⟩
  have hopen : OpenMoves chainMachine [0x2f, 0x64] chainMounted := by
    refine ⟨hname, fun fuel i t hn y hy hlnk => ?_⟩
    have h : (ext2_namei chainMachine 8 [0x2f, 0x64] chainMounted).map
        (fun r => r.1.map fun i => S_ISLNK (i_mode (r.2.inode_table i).inode)) = some (some false) := by
      decide +kernel
    obtain ⟨r, hr, h⟩ := Option.map_eq_some_iff.mp h
    obtain rfl := namei_unique hn hr
    have hdir : S_ISLNK (i_mode (t.inode_table i).inode) = false := Option.some.inj h
    rcases hy.cases_head with rfl | ⟨z, hz, -⟩
    · exact absurd hlnk (by rw [hdir]; decide)
    · exact absurd hz.1 (by rw [hdir]; decide)
  refine ⟨(reader_ends _ _ _).1 hopen, (reader_ends _ _ _).2 ⟨hopen, fun fuel fd t ho => ?_⟩⟩
  have h : (ext2_open chainMachine 8 [0x2f, 0x64] chainMounted).map
      (fun r => r.1.map fun fd => Loop.check (fun x => x.1 || decide (Advances False x.2))
        (listRound chainMachine fd) 8 (true, r.2)) = some (some true) := by decide +kernel
  obtain ⟨r, hr, h⟩ := Option.map_eq_some_iff.mp h
  obtain rfl := open_unique ho hr
  exact listMoves_of_check 8 (Option.some.inj h)

/-! ## a hang -/

/-- the first entry of the root has `rec_len` 0 -/
def hangDisk : Mem := Function.update chainDisk 6148 0

def hangMachine : Machine :=
  Machine.faultless (fun _ x => hangDisk x.toNat) (fun _ _ => 0) [⟨0, 1024, 0⟩]

def hangRoot : State := getRoot hangMachine (ext2_mount hangMachine 0 0 0 powerOn).2.2

/-- the search comes to the first entry, and moves on by nothing -/
theorem hangRoot_next : Loop.Next (searchRound hangMachine 0 [0x64]) (true, hangRoot)
    (false, (ext2_readdiri hangMachine 0 true hangRoot).2) := by
  have h : (ext2_readdiri hangMachine 0 true hangRoot).1 = some 0 := by decide +kernel
  show searchRound hangMachine 0 [0x64] (true, hangRoot) = _
  unfold searchRound
  cases hr : ext2_readdiri hangMachine 0 true hangRoot with
  | mk dp t =>
    have hno : ¬ (d_name_len (ext2_readdiri hangMachine 0 true hangRoot).2.blkbuf 0 = [0x64].length ∧
        d_name (ext2_readdiri hangMachine 0 true hangRoot).2.blkbuf 0 [0x64].length = [0x64]) := by
      decide +kernel
    rw [hr] at h hno
    obtain rfl : dp = some 0 := h
    exact if_neg hno

/-- `ext2_open` of `/d` does not end -/
theorem open_hangs : ¬ ∀ (M : Machine) (dev off : Int) (p : Nat) (filename : List UInt8),
    (ext2_mount M dev off p powerOn).1 = some 0 →
      (∃ fuel r, ext2_open M fuel filename (ext2_mount M dev off p powerOn).2.2 = some r) ∧
        ∃ fuel r, list_directory M fuel filename (ext2_mount M dev off p powerOn).2.2 = some r := by
  intro hall
  obtain ⟨⟨fuel, r, ho⟩, -⟩ := hall hangMachine 0 0 0 [0x2f, 0x64] (by decide +kernel)
  have hroot : hangRoot.root_inode = some 0 := by decide +kernel
  have hc : components [0x2f, 0x64] = [[0x64]] := by decide +kernel
  have hstuck := search_stuck (.single hangRoot_next) (by decide +kernel) (by decide +kernel) (by decide +kernel)
  have hnone : searchDir hangMachine 0 [0x64] fuel true hangRoot = none := by
    rw [searchDir_run]
    cases hrun : Loop.run (searchRound hangMachine 0 [0x64]) fuel (true, hangRoot) with
    | none => rfl
    | some r => exact absurd ⟨fuel, r, hrun⟩ hstuck
  have hnamei : ext2_namei hangMachine fuel [0x2f, 0x64] (ext2_mount hangMachine 0 0 0 powerOn).2.2 = none := by
    have hstart : getRoot hangMachine (ext2_mount hangMachine 0 0 0 powerOn).2.2 = hangRoot := rfl
    rw [ext2_namei, hstart, hroot]
    simp only
    rw [hc, walk, hnone]
  rw [ext2_open, hnamei] at ho
  cases ho

end Ext2
