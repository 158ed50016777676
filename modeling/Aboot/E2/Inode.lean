import Aboot.E2.Cache

/-!
# Where an inode lives: the ext2 writer and the boot loader

The writer and the boot loader compute the place of an inode with formulas of their own.  The
format puts inode `ino` into the table of group `(ino - 1) / s_inodes_per_group`, and its inodes
have the size the superblock says.  The writer takes the table of group
`ino / s_inodes_per_group`, inodes of 128 bytes, and `int` offsets.

* `format`      the offset of an inode on the device, by the format;
* `place`       where `ext2_iget` and `ext2_iput` of the writer find it;
* `iget_place`, `iput_place`   that they read it from there and write it there;
* `place_iff`   when that is where the format puts the inode;
* `inode_place_iff`   when the writer, the loader and the format agree.
-/

set_option linter.unusedVariables false

namespace E2
open Word Bytes
open Ext2 (s_inodes_per_group bg_inode_table inode_size)

/-- the number of an inode in its group -/
def indexIn (sb : Mem) (ino : Nat) : Nat := (ino - 1) % s_inodes_per_group sb

/-- the offset of an inode on the device, by the format -/
def format (sb gds : Mem) (blocksize : Nat) (ino : Nat) : Nat :=
  bg_inode_table gds ((ino - 1) / s_inodes_per_group sb) * blocksize + indexIn sb ino * inode_size sb

/-- where the writer reads and writes an inode; there is no such place when `lseek` fails -/
def place (s : State) (ino : Int) : Option Nat :=
  if 0 ≤ sgn 32 (inodeBlock s ino * s.blocksize) then
    some ((sgn 32 (inodeBlock s ino * s.blocksize)).toNat + byteoffset s ino)
  else none

/-! ## the block of an inode -/

/-- the block sizes of the format -/
def BlockSize (bs : Nat) : Prop := bs ∣ 2147483648 ∧ 128 ∣ bs ∧ 0 < bs

theorem BlockSize.dvd_sgn {bs : Nat} (h : BlockSize bs) {x : Int} (hx : (bs : Int) ∣ x) :
    (bs : Int) ∣ sgn 32 x := by
  obtain ⟨q, hq, -⟩ := sgn32_cases x
  obtain ⟨c, hc⟩ := h.1
  rw [hq]
  refine Int.dvd_sub hx ⟨2 * c * q, ?_⟩
  have hc' : (2147483648 : Int) = bs * c := by exact_mod_cast hc
  calc (4294967296 : Int) * q = 2 * 2147483648 * q := by ring
    _ = bs * (2 * c * q) := by rw [hc']; ring

theorem dvd_blkoffset {s : State} {bs : Nat} (h : BlockSize bs) (hs : s.blocksize = bs) (ino : Int) :
    (bs : Int) ∣ blkoffset s ino := by
  unfold blkoffset
  rw [hs]
  refine h.dvd_sgn (Int.dvd_add (h.dvd_sgn ?_) ?_)
  · exact Int.dvd_mul_left _ _
  · exact Int.dvd_mul_left _ _

/-- the block is read from the offset that was computed -/
theorem inodeBlock_offset {s : State} {bs : Nat} (h : BlockSize bs) (hs : s.blocksize = bs)
    (ino : Int) : sgn 32 (inodeBlock s ino * s.blocksize) = blkoffset s ino := by
  have hd := dvd_blkoffset h hs ino
  obtain ⟨q, -, h1, h2⟩ := sgn32_cases (sgn 32 (bg_inode_table s.gds (inodeGroup s ino) * s.blocksize)
    + Int.tdiv (tableOffset s ino) s.blocksize * s.blocksize)
  have e : inodeBlock s ino * s.blocksize = blkoffset s ino := by
    unfold inodeBlock
    rw [hs, Int.tdiv_mul_cancel hd]
  rw [e]
  exact sgn32_of_range h1 h2

theorem byteoffset_lt {s : State} {bs : Nat} (h : BlockSize bs) (hs : s.blocksize = bs) (ino : Int) :
    byteoffset s ino < bs := by
  have hpos : (0 : Int) < bs := by exact_mod_cast h.2.2
  have := Int.tmod_lt_of_pos (tableOffset s ino) hpos
  unfold byteoffset
  rw [hs]
  omega

/-- the writer's place is below 2 GB -/
theorem place_lt {s : State} {bs : Nat} (h : BlockSize bs) (hs : s.blocksize = bs) {ino : Int}
    {p : Nat} (hp : place s ino = some p) : p < 2147483648 := by
  unfold place at hp
  rw [inodeBlock_offset h hs] at hp
  split at hp
  · rename_i h0
    have hb := byteoffset_lt h hs ino
    obtain ⟨q, -, -, h2⟩ := sgn32_cases (sgn 32 (bg_inode_table s.gds (inodeGroup s ino) * s.blocksize)
      + Int.tdiv (tableOffset s ino) s.blocksize * s.blocksize)
    obtain ⟨c, hc⟩ := dvd_blkoffset h hs ino
    obtain ⟨d, hd⟩ := h.1
    have h2 : blkoffset s ino < 2147483648 := h2
    -- a multiple of the block size below 2 GB ends a block before it
    have hd' : (2147483648 : Int) = bs * d := by exact_mod_cast hd
    have hlt : (bs : Int) * c < bs * d := by rwa [← hc, ← hd']
    have hcd : c + 1 ≤ d := by
      have := lt_of_mul_lt_mul_left hlt (Int.natCast_nonneg bs)
      omega
    have hle : (bs : Int) * (c + 1) ≤ bs * d := mul_le_mul_of_nonneg_left hcd (Int.natCast_nonneg bs)
    have hp' := Option.some.inj hp
    rw [Int.mul_add, ← hc, ← hd'] at hle
    omega
  · cases hp

/-- the writer's place, when the offset in the table fits an `int` -/
theorem place_eq {s : State} {bs : Nat} (h : BlockSize bs) (hs : s.blocksize = bs) {ino : Nat}
    (hino : 1 ≤ ino) (hlt : ino < 4294967296) (hidx : indexIn s.sb ino * 128 < 2147483648) (p : Nat)
    (hp : p < 2147483648) :
    place s ino = some p ↔
      (bg_inode_table s.gds (ino / s_inodes_per_group s.sb) * bs + indexIn s.sb ino * 128)
        % 4294967296 = p := by
  have hu : uns 32 ((ino : Int) - 1) = ino - 1 := by
    rw [show ((ino : Int) - 1) = ((ino - 1 : Nat) : Int) by omega]
    exact uns32_natCast (by omega)
  have hg : inodeGroup s ino = ino / s_inodes_per_group s.sb := by
    rw [inodeGroup, uns32_natCast hlt]
  have ht : tableOffset s ino = ((indexIn s.sb ino * 128 : Nat) : Int) := by
    rw [tableOffset, hu]
    exact sgn32_of_range (by omega) (by exact_mod_cast hidx)
  have hdiv : Int.tdiv (tableOffset s ino) s.blocksize
      = ((indexIn s.sb ino * 128 / bs : Nat) : Int) := by
    rw [ht, hs]
    exact Int.ofNat_tdiv _ _
  have hmod : byteoffset s ino = indexIn s.sb ino * 128 % bs := by
    rw [byteoffset, ht, hs]
    have : ((indexIn s.sb ino * 128 : Nat) : Int).tmod bs = ((indexIn s.sb ino * 128 % bs : Nat) : Int) :=
      Int.ofNat_tmod _ _
    rw [this, Int.toNat_natCast]
  generalize hT : bg_inode_table s.gds (ino / s_inodes_per_group s.sb) = T
  generalize hI : indexIn s.sb ino * 128 = I at hdiv hmod
  have hblk : blkoffset s ino = sgn 32 (sgn 32 ((T : Int) * bs) + ((I / bs : Nat) : Int) * bs) := by
    rw [blkoffset, hg, hT, hdiv, hs]
  -- both offsets are the same number up to multiples of the word size
  obtain ⟨q, hq, -, -⟩ := sgn32_cases ((T : Int) * bs)
  obtain ⟨r, hr, hr1, hr2⟩ := sgn32_cases (sgn 32 ((T : Int) * bs) + ((I / bs : Nat) : Int) * bs)
  have hI' : I / bs * bs + I % bs = I := by rw [Nat.mul_comm]; exact Nat.div_add_mod I bs
  have hb := byteoffset_lt h hs ino
  have hdvd := dvd_blkoffset h hs ino
  unfold place
  rw [inodeBlock_offset h hs, hmod, hblk]
  rw [hblk] at hdvd
  rw [hmod] at hb
  generalize sgn 32 (sgn 32 ((T : Int) * bs) + ((I / bs : Nat) : Int) * bs) = A at hr hr1 hr2 hdvd ⊢
  have hA : A + ((I % bs : Nat) : Int) = ((T * bs + I : Nat) : Int) - 4294967296 * (q + r) := by
    rw [hr, hq]
    have : ((I : Nat) : Int) = ((I / bs : Nat) : Int) * bs + ((I % bs : Nat) : Int) := by
      exact_mod_cast hI'.symm
    push_cast
    push_cast at this
    linarith
  obtain ⟨c, hc⟩ := hdvd
  have hbs : bs ≤ 2147483648 := Nat.le_of_dvd (by decide) h.1
  generalize T * bs + I = X at hA ⊢
  generalize I % bs = b at hA hb ⊢
  split
  · rename_i h0
    constructor
    · intro hp
      have := Option.some.inj hp
      omega
    · intro hX
      rw [Option.some.injEq]
      omega
  · rename_i h0
    constructor
    · intro hp
      cases hp
    · -- below zero, a multiple of the block size is at least a block below
      intro hX
      exfalso
      have hneg : (bs : Int) * c < 0 := by omega
      have hc0 : c + 1 ≤ 0 := by
        by_contra hcon
        have : 0 ≤ (bs : Int) * c := mul_nonneg (Int.natCast_nonneg bs) (by omega)
        omega
      have hle : (bs : Int) * (c + 1) ≤ 0 :=
        mul_nonpos_of_nonneg_of_nonpos (Int.natCast_nonneg bs) hc0
      rw [Int.mul_add, ← hc] at hle
      omega

/-! ## what is read and written there -/

/-- the block and the offset in it make up the place -/
theorem place_block {s : State} {bs : Nat} (h : BlockSize bs) (hs : s.blocksize = bs) {ino : Int}
    {p : Nat} (hp : place s ino = some p) :
    inodeBlock s ino = ((p / bs : Nat) : Int) ∧ byteoffset s ino = p % bs := by
  have hoff := inodeBlock_offset h hs ino
  have hb := byteoffset_lt h hs ino
  obtain ⟨c, hc⟩ := dvd_blkoffset h hs ino
  have hpos : (0 : Int) < bs := by exact_mod_cast h.2.2
  have hblk : inodeBlock s ino = c := by
    rw [inodeBlock, hs, hc, Int.mul_tdiv_cancel_left c (by omega)]
  unfold place at hp
  rw [hoff] at hp
  split at hp
  · rename_i h0
    have hc0 : 0 ≤ c := by
      by_contra hn
      have : (bs : Int) * c < 0 := mul_neg_of_pos_of_neg hpos (by omega)
      omega
    obtain ⟨d, rfl⟩ := Int.eq_ofNat_of_zero_le hc0
    have hp' := Option.some.inj hp
    have hpd : p = bs * d + byteoffset s ino := by
      rw [← hp', hc]
      have : ((bs : Int) * (d : Int)).toNat = bs * d := by
        rw [← Int.natCast_mul, Int.toNat_natCast]
      omega
    rw [hblk, hpd]
    constructor
    · rw [Nat.mul_add_div h.2.2, Nat.div_eq_of_lt hb, Nat.add_zero]
    · rw [Nat.mul_add_mod, Nat.mod_eq_of_lt hb]
  · cases hp

/-- a place holds a whole inode, which does not cross the end of its block -/
theorem place_inside {s : State} {bs : Nat} (h : BlockSize bs) (hs : s.blocksize = bs) (ino : Int) :
    byteoffset s ino + 128 ≤ bs := by
  obtain ⟨c, hc⟩ := h.2.1
  have hb := byteoffset_lt h hs ino
  have hd : (128 : Int) ∣ tableOffset s ino := by
    obtain ⟨q, hq, -⟩ := sgn32_cases
      ((uns 32 (ino - 1) % s_inodes_per_group s.sb * sizeof_inode : Nat) : Int)
    rw [tableOffset, hq]
    refine Int.dvd_sub ⟨(uns 32 (ino - 1) % s_inodes_per_group s.sb : Nat), ?_⟩ ⟨33554432 * q, by ring⟩
    rw [sizeof_inode]
    push_cast
    ring
  have hm : (128 : Int) ∣ Int.tmod (tableOffset s ino) bs := by
    rw [Int.tmod_def]
    refine Int.dvd_sub hd (Dvd.dvd.mul_right ?_ _)
    exact ⟨c, by rw [hc]; push_cast; ring⟩
  have : (128 : Int) ∣ (byteoffset s ino : Int) := by
    rw [byteoffset, hs]
    rcases Int.le_total 0 (Int.tmod (tableOffset s ino) bs) with h0 | h0
    · rwa [Int.toNat_of_nonneg h0]
    · rw [Int.toNat_of_nonpos h0]
      exact Int.dvd_zero _
  omega

/-- what `place` says of a block that can be reached -/
structure Reaches (s : State) (bs p : Nat) (ino : Int) : Prop where
  blocksize : s.bio.bio_blocksize = bs
  size : s.blocksize = bs
  groups : s_inodes_per_group s.sb ≠ 0
  place : place s ino = some p
  first : bs ≤ p

theorem Reaches.block {s : State} {bs p : Nat} {ino : Int} (h : BlockSize bs)
    (hp : Reaches s bs p ino) :
    1 ≤ p / bs ∧ (p / bs + 1) * s.bio.bio_blocksize ≤ 2147483648 ∧ divides s = true := by
  have hlt := place_lt h hp.size hp.place
  refine ⟨(Nat.one_le_div_iff h.2.2).mpr hp.first, ?_, ?_⟩
  · obtain ⟨d, hd⟩ := h.1
    rw [hp.blocksize, hd, Nat.mul_comm]
    refine Nat.mul_le_mul_left bs (Nat.succ_le_of_lt ?_)
    exact Nat.div_lt_of_lt_mul (hd ▸ hlt)
  · have := h.2.2
    simp only [divides, decide_eq_true_eq]
    exact ⟨hp.groups, by rw [hp.size]; omega⟩

/-- the bytes from a place on, in its block -/
theorem view_place {bs p k : Nat} (a : Nat → List UInt8) (hb : 0 < bs) (hk : p % bs + k < bs) :
    view a bs (p + k) = buffer (a (p / bs)) (p % bs + k) := by
  have hpk : p + k = bs * (p / bs) + (p % bs + k) := by
    have := Nat.div_add_mod p bs
    omega
  rw [view, hpk, Nat.mul_add_div hb, Nat.div_eq_of_lt hk, Nat.add_zero, Nat.mul_add_mod,
    Nat.mod_eq_of_lt hk]

/-- `ext2_iget` copies the 128 bytes at the place into a free entry of the table -/
theorem iget_place {s : State} {bs p : Nat} {ino : Int} (h : BlockSize bs) (hp : Reaches s bs p ino)
    {a : Nat → List UInt8} (ha : Bio.Held s.bio a) {i : Slot} (hi : freeSlot s = some i) :
    ∃ t, ext2_iget ino s = some (some i, t) ∧ Bio.Held t.bio a ∧
      (t.inode i).get 0 128 = (List.range 128).map fun k => view a bs (p + k) := by
  obtain ⟨hblk, hoff⟩ := place_block h hp.size hp.place
  have hin := place_inside h hp.size ino
  obtain ⟨h1, hr, hdiv⟩ := hp.block h
  obtain ⟨b, hb, hinv, -⟩ := bread_run ha h1 hr
  have hrun : ext2_iget ino s = some (some i, setEntry i
      { inode := (s.inode i).put 0 ((buffer (a (p / bs))).get (p % bs) sizeof_inode), inumber := ino,
        free := false
        old_mode := Ext2.i_mode
          ((s.inode i).put 0 ((buffer (a (p / bs))).get (p % bs) sizeof_inode)) }
      (s.over b (((p / bs : Nat) : Int) :: s.asked))) := by
    unfold ext2_iget
    rw [Prog.bind_run (Prog.get_run s)]
    simp only [hi, hdiv, if_true]
    rw [hblk, Prog.bind_run hb, hoff]
    rfl
  refine ⟨_, hrun, hinv, ?_⟩
  have hget := Mem.get_put_self (s.inode i) 0 ((buffer (a (p / bs))).get (p % bs) sizeof_inode)
  rw [Mem.length_get] at hget
  simp only [setEntry, State.inode, Function.update_self]
  refine hget.trans ?_
  apply List.map_congr_left
  intro k hk
  have hk := List.mem_range.mp hk
  exact (view_place a h.2.2 (by simp only [sizeof_inode] at hk; omega)).symm

/-- the array after bytes were stored in one block, byte by byte -/
theorem view_update {bs p : Nat} (a : Nat → List UInt8) (d : List UInt8) (hb : 0 < bs)
    (hd : p % bs + d.length ≤ bs) (hlen : (a (p / bs)).length = bs) (x : Nat) :
    view (Function.update a (p / bs) (((buffer (a (p / bs))).put (p % bs) d).get 0 bs)) bs x
      = if p ≤ x ∧ x < p + d.length then d.getD (x - p) 0 else view a bs x := by
  have hp := Nat.div_add_mod p bs
  have hx := Nat.div_add_mod x bs
  have hxm := Nat.mod_lt x hb
  unfold view
  by_cases e : x / bs = p / bs
  · rw [e, Function.update_self, buffer_get hxm]
    rw [e] at hx
    by_cases h : p ≤ x ∧ x < p + d.length
    · have hk : x - p < d.length := by omega
      have hxk : x % bs = p % bs + (x - p) := by omega
      rw [if_pos h, hxk, Mem.put_in _ _ _ _ hk, List.getD_eq_getElem?_getD,
        List.getElem?_eq_getElem hk, Option.getD_some]
    · rw [if_neg h, Mem.put_out _ _ _ _ (by omega)]
  · rw [Function.update_of_ne e]
    have hne : ¬ (p ≤ x ∧ x < p + d.length) := by
      rintro ⟨h1, h2⟩
      apply e
      calc x / bs = (bs * (p / bs) + (p % bs + (x - p))) / bs := congrArg (· / bs) (by omega)
        _ = p / bs := by
          rw [Nat.mul_add_div hb, Nat.div_eq_of_lt (show p % bs + (x - p) < bs by omega), Nat.add_zero]
    rw [if_neg hne]

theorem writeInode_place {s : State} {bs p : Nat} {i : Slot} {ino : Int} (h : BlockSize bs)
    (hp : Reaches s bs p ino) {a : Nat → List UInt8} (ha : Bio.Held s.bio a) :
    ∃ b l a', writeInode i ino s = some ((), countDirs (inodeGroup s ino) (s.inode_table i).old_mode
        (Ext2.i_mode (s.inode i)) (s.over b l)) ∧ Bio.Held b a' ∧
      ∀ x, view a' bs x = if p ≤ x ∧ x < p + 128 then s.inode i (x - p) else view a bs x := by
  obtain ⟨hblk, hoff⟩ := place_block h hp.size hp.place
  have hin := place_inside h hp.size ino
  obtain ⟨h1, hr, hdiv⟩ := hp.block h
  obtain ⟨b, hb, hinv, hbs⟩ := bread_run ha h1 hr
  have hr' : (p / bs + 1) * (s.over b (((p / bs : Nat) : Int) :: s.asked)).bio.bio_blocksize ≤ 2147483648 := by
    show (p / bs + 1) * b.bio_blocksize ≤ 2147483648
    rw [hbs]
    exact hr
  obtain ⟨b', hb', hinv', -⟩ := bwrite_run (s := s.over b (((p / bs : Nat) : Int) :: s.asked)) hinv h1 hr'
    ((buffer (a (p / bs))).put (p % bs) ((s.inode i).get 0 sizeof_inode))
  refine ⟨b', ((p / bs : Nat) : Int) :: ((p / bs : Nat) : Int) :: s.asked, _, ?_, hinv', ?_⟩
  · unfold writeInode
    rw [Prog.bind_run (Prog.get_run s)]
    simp only [hdiv, if_true]
    rw [hblk, Prog.bind_run hb, hoff, Prog.bind_run hb']
    rfl
  · intro x
    have hbs' : (s.over b (((p / bs : Nat) : Int) :: s.asked)).bio.bio_blocksize = bs := hbs.trans hp.blocksize
    have hlen : (a (p / bs)).length = bs := (ha.length (p / bs)).trans hp.blocksize
    have hl : ((s.inode i).get 0 sizeof_inode).length = 128 := Mem.length_get _ _ _
    rw [hbs', view_update a _ h.2.2 (by rw [hl]; omega) hlen, hl]
    by_cases hx : p ≤ x ∧ x < p + 128
    · have hk := Mem.get_getElem? (s.inode i) 0 sizeof_inode (x - p) (by simp only [sizeof_inode]; omega)
      rw [if_pos hx, if_pos hx, List.getD_eq_getElem?_getD, hk, Option.getD_some, Nat.zero_add]
    · rw [if_neg hx, if_neg hx]

theorem countDirs_bio (group old_mode mode : Nat) (s : State) :
    (countDirs group old_mode mode s).bio = s.bio := by
  unfold countDirs
  simp only
  split <;> split <;> rfl

/-- `ext2_iput` of a file that is still linked stores the inode at the place it came from, and
changes no other byte -/
theorem iput_place {s : State} {bs p : Nat} {i : Slot} (h : BlockSize bs)
    (hp : Reaches s bs p (s.inode_table i).inumber) {a : Nat → List UInt8} (ha : Bio.Held s.bio a)
    (hlink : i_links_count (s.inode i) ≠ 0) (hw : s.readonly = false) :
    ∃ t a', ext2_iput i s = some ((), t) ∧ Bio.Held t.bio a' ∧
      ∀ x, view a' bs x = if p ≤ x ∧ x < p + 128 then s.inode i (x - p) else view a bs x := by
  generalize hino : (s.inode_table i).inumber = ino at hp
  have hp₁ : Reaches (setEntry i { s.inode_table i with inumber := 0 } s) bs p ino :=
    ⟨hp.blocksize, hp.size, hp.groups, hp.place, hp.first⟩
  obtain ⟨b, l, a', hwr, hinv, hview⟩ := writeInode_place (i := i) h hp₁ ha
  have hsame : (setEntry i { s.inode_table i with inumber := 0 } s).inode i = s.inode i := by
    simp [setEntry, State.inode]
  have hrun : ext2_iput i s = some ((), (fun s => setEntry i { s.inode_table i with free := true } s)
      (countDirs (inodeGroup (setEntry i { s.inode_table i with inumber := 0 } s) ino)
        ((setEntry i { s.inode_table i with inumber := 0 } s).inode_table i).old_mode
        (Ext2.i_mode ((setEntry i { s.inode_table i with inumber := 0 } s).inode i))
        ((setEntry i { s.inode_table i with inumber := 0 } s).over b l))) := by
    unfold ext2_iput
    rw [Prog.bind_run (Prog.get_run s)]
    simp only [Prog.when, hlink, hw, hino, if_false, if_true]
    rw [Prog.bind_run (Prog.pure_run () s), Prog.bind_run (Prog.modify_run _ s), Prog.bind_run hwr]
    rfl
  refine ⟨_, a', hrun, ?_, fun x => by rw [hview x, hsame]⟩
  show Bio.Held (countDirs _ _ _ _).bio a'
  rw [countDirs_bio]
  exact hinv

/-! ## the writer, the loader and the format -/

/-- When the three agree on an inode, as a condition on the superblock and the group descriptors:
it lies below 2 GB, and either it is not the last inode of its group, and the first one or of 128
bytes; or the table of the next group happens to be where it leads back to the same offset. -/
def Placeable (sb gds : Mem) (bs ino : Nat) : Prop :=
  format sb gds bs ino < 2147483648 ∧
    if ino % s_inodes_per_group sb ≠ 0 then indexIn sb ino = 0 ∨ inode_size sb = 128
    else (bg_inode_table gds (ino / s_inodes_per_group sb) * bs + indexIn sb ino * 128) % 4294967296
      = format sb gds bs ino

instance (sb gds : Mem) (bs ino : Nat) : Decidable (Placeable sb gds bs ino) :=
  inferInstanceAs (Decidable (_ ∧ ite _ _ _))

/-- the group of an inode that is not the last one of its group -/
theorem div_of_mod {ino ipg : Nat} (h : ino % ipg ≠ 0) (hpos : 0 < ipg) : (ino - 1) / ipg = ino / ipg := by
  have hd := Nat.div_add_mod ino ipg
  have hm := Nat.mod_lt ino hpos
  calc (ino - 1) / ipg = (ipg * (ino / ipg) + (ino % ipg - 1)) / ipg := congrArg (· / ipg) (by omega)
    _ = ino / ipg := by
      rw [Nat.mul_add_div hpos, Nat.div_eq_of_lt (show ino % ipg - 1 < ipg by omega), Nat.add_zero]

theorem place_iff {s : State} {bs : Nat} (h : BlockSize bs) (hs : s.blocksize = bs)
    (hipg : 0 < s_inodes_per_group s.sb) (hsz : 128 ≤ inode_size s.sb) {ino : Nat} (hino : 1 ≤ ino)
    (hlt : ino < 4294967296) :
    place s ino = some (format s.sb s.gds bs ino) ↔ Placeable s.sb s.gds bs ino := by
  unfold Placeable
  by_cases hF : format s.sb s.gds bs ino < 2147483648
  · have hle : indexIn s.sb ino * 128 ≤ indexIn s.sb ino * inode_size s.sb :=
      Nat.mul_le_mul_left _ hsz
    have hF' : bg_inode_table s.gds ((ino - 1) / s_inodes_per_group s.sb) * bs
        + indexIn s.sb ino * inode_size s.sb < 2147483648 := hF
    rw [place_eq h hs hino hlt (by omega) _ hF]
    simp only [hF, true_and]
    by_cases hm : ino % s_inodes_per_group s.sb ≠ 0
    · rw [if_pos hm, ← div_of_mod hm hipg]
      -- the same table on both sides, and nothing wraps around
      rw [Nat.mod_eq_of_lt (by omega), format, Nat.add_left_cancel_iff]
      constructor
      · intro he
        rcases Nat.eq_zero_or_pos (indexIn s.sb ino) with h0 | h0
        · exact Or.inl h0
        · exact Or.inr (Nat.eq_of_mul_eq_mul_left h0 he).symm
      · rintro (h0 | h0)
        · rw [h0, Nat.zero_mul, Nat.zero_mul]
        · rw [h0]
    · rw [if_neg hm]
  · constructor
    · intro hp
      exact absurd (place_lt h hs hp) hF
    · rintro ⟨h1, -⟩
      exact absurd h1 hF

/-- the writer and the loader have opened the same file system: the same superblock and the same
group descriptors of the groups there are -/
structure SameFs (e : State) (l : Ext2.State) (bs : Nat) : Prop where
  size : BlockSize bs
  writer : e.blocksize = bs
  loader : l.blocksize = bs
  sb : ∀ k, k < 1024 → l.sb k = e.sb k
  gds : ∀ g k, g * s_inodes_per_group e.sb < s_inodes_count e.sb → k < 32 →
    l.gds (g * 32 + k) = e.gds (g * 32 + k)

/-- the place of an inode, for the loader -/
theorem loader_place {e : State} {l : Ext2.State} {bs : Nat} (h : SameFs e l bs)
    (hipg : 0 < s_inodes_per_group e.sb) {ino : Nat} (hino : 1 ≤ ino) (hlt : ino < 4294967296)
    (hcount : ino ≤ s_inodes_count e.sb) (hF : format e.sb e.gds bs ino < 2147483648) :
    Ext2.inodeOffset l ino = l.partition_offset + format e.sb e.gds bs ino := by
  have h1 : s_inodes_per_group l.sb = s_inodes_per_group e.sb :=
    le_congr fun j hj => h.sb (40 + j) (by omega)
  have h2 : inode_size l.sb = inode_size e.sb := by
    have hrev : Ext2.s_rev_level l.sb = Ext2.s_rev_level e.sb :=
      le_congr fun j hj => h.sb (76 + j) (by omega)
    have hsz : Ext2.s_inode_size l.sb = Ext2.s_inode_size e.sb :=
      le_congr fun j hj => h.sb (88 + j) (by omega)
    rw [inode_size, inode_size, hrev, hsz]
  have hu : uns 32 ((ino : Int) - 1) = ino - 1 := by
    rw [show ((ino : Int) - 1) = ((ino - 1 : Nat) : Int) by omega]
    exact uns32_natCast (by omega)
  have hg : (ino - 1) / s_inodes_per_group e.sb * s_inodes_per_group e.sb < s_inodes_count e.sb := by
    have := Nat.div_mul_le_self (ino - 1) (s_inodes_per_group e.sb)
    omega
  have h3 : bg_inode_table l.gds ((ino - 1) / s_inodes_per_group e.sb)
      = bg_inode_table e.gds ((ino - 1) / s_inodes_per_group e.sb) := by
    refine le_congr fun j hj => ?_
    rw [Nat.add_assoc]
    exact h.gds _ (8 + j) hg (by omega)
  unfold format indexIn at hF ⊢
  unfold Ext2.inodeOffset
  rw [hu, h1, h2, h3, h.loader, uns32_natCast (by omega)]
  push_cast
  ring

/-- **Where the writer and the loader look for an inode.**  For a file system that both have opened
and every inode number of it, the writer's place is the loader's, relative to the partition, and
the one the format gives the inode, exactly under `Placeable`. -/
theorem inode_place_iff (e : State) (l : Ext2.State) (bs : Nat) (h : SameFs e l bs)
    (hipg : 0 < s_inodes_per_group e.sb) (hsz : 128 ≤ inode_size e.sb) (ino : Nat) (hino : 1 ≤ ino)
    (hcount : ino ≤ s_inodes_count e.sb) :
    (place e ino = some (format e.sb e.gds bs ino) ∧
        Ext2.inodeOffset l ino = l.partition_offset + format e.sb e.gds bs ino)
      ↔ Placeable e.sb e.gds bs ino := by
  have hlt : ino < 4294967296 := by
    have := num_lt (e.sb.get 0 4)
    rw [Mem.length_get, ← le_eq_num] at this
    exact Nat.lt_of_le_of_lt hcount this
  rw [← place_iff h.size h.writer hipg hsz hino hlt]
  constructor
  · exact fun hp => hp.1
  · intro hp
    exact ⟨hp, loader_place h hipg hino hlt hcount (place_lt h.size h.writer hp)⟩

/-! ## a file system of two groups -/

/-- 16385 blocks of 1024 bytes and 16 inodes of 128 bytes, in two groups -/
def twoSuper : Mem :=
  record [(0, 16, 4), (4, 16385, 4), (20, 1, 4), (32, 8192, 4), (40, 8, 4), (56, 0xEF53, 2),
    (76, 1, 4), (88, 128, 2)]

/-- their inode tables are at the blocks 5 and 8197 -/
def twoGroups : Mem := record [(8, 5, 4), (40, 8197, 4)]

/-- a writer with this superblock and these group descriptors, over a device of zeros -/
def twoWriter : State where
  sb := twoSuper
  gds := twoGroups
  ngroups := 3
  blocksize := 1024
  directlim := 11
  ind1lim := 267
  ind2lim := 65547
  ptrs_per_blk := 256
  readonly := false
  inode_table := fun _ => ⟨fun _ => 0, 0, true, 0⟩
  bio := Bio.binit 1024 ⟨0, 0, fun _ => ⟨0, 0, false, none⟩, fun _ => 0, 0⟩
  stack := fun _ => 0
  asked := []

/-- the loader on a partition that starts at the offset 512 -/
def twoLoader : Ext2.State where
  sb := twoSuper
  gds := twoGroups
  root_inode := none
  ngroups := 2
  directlim := 11
  ind1lim := 267
  ind2lim := 65547
  ptrs_per_blk := 256
  blocksize := 1024
  blkbuf := fun _ => 0
  cached_iblkno := -1
  iblkbuf := fun _ => 0
  cached_diblkno := -1
  diblkbuf := fun _ => 0
  dev := 0
  partition_offset := 512
  inode_table := fun _ => ⟨fun _ => 0, 0, true, 0⟩
  diroffset := 0
  blockoffset := 0
  log := []
  no_free_inodes := 0

theorem two_same : SameFs twoWriter twoLoader 1024 :=
  ⟨⟨by decide, by decide, by decide⟩, rfl, rfl, fun _ _ => rfl, fun _ _ _ _ => rfl⟩

theorem inode_place_third :
    place twoWriter 3 = some 5376 ∧ Ext2.inodeOffset twoLoader 3 = 512 + 5376 :=
  (inode_place_iff twoWriter twoLoader 1024 two_same (by decide +kernel) (by decide +kernel) 3
    (by decide) (by decide +kernel)).mpr (by decide +kernel)

/-- the last inode of the first group: the writer goes to the table of the second one -/
theorem last_inode_misplaced :
    SameFs twoWriter twoLoader 1024 ∧ 1 ≤ 8 ∧ 8 ≤ s_inodes_count twoWriter.sb ∧
      Ext2.inodeOffset twoLoader 8 = 512 + 6016 ∧ format twoSuper twoGroups 1024 8 = 6016 ∧
      place twoWriter 8 = some 8394624 ∧ place twoWriter 8 ≠ some (format twoSuper twoGroups 1024 8) :=
  ⟨two_same, by decide, by decide +kernel, by decide +kernel, by decide +kernel, by decide +kernel,
    by decide +kernel⟩

end E2
