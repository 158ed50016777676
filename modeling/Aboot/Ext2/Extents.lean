import Aboot.Ext2.Grouped

/-!
# Files with extents

`ext4_breadi` knows one shape of an extent tree: a leaf in the inode with one extent from file block
0 on.  `treeBlock` is what the format says of a file block, for a tree of any depth: a block of the
partition, or none where the file has zeros.

* `treeBlock_one`       the shape that `ext4_breadi` knows;
* `ext4_breadi_iff`     when a request is right or refused, whatever the reads of the device return:
                        the depth, the flag of an unwritten extent and a start past the extent are not
                        looked at.
-/

set_option linter.unusedVariables false

namespace Ext2
open Word State

/-! ## extent trees -/

/-- the header of a node at `base`: the number of entries and the depth of the tree below -/
def node_entries (node : Mem) (base : Nat) : Nat := node.le16 (base + 2)
def eh_depth (ip : Mem) : Nat := ip.le16 46

/-- the last entry that starts at or before a file block -/
def entryOf (node : Mem) (base L : Nat) : Option Nat :=
  ((List.range (node_entries node base)).reverse.find? fun k =>
    node.le32 (base + 12 + 12 * k) ≤ L).map fun k => base + 12 + 12 * k

/-- the block of an extent at `e`: a length above 32768 is that of an unwritten extent -/
def leafBlock (node : Mem) (e L : Nat) : Option Int :=
  if node.le16 (e + 4) ≤ 32768 ∧ L < node.le32 e + node.le16 (e + 4) then
    some ((node.le16 (e + 6) : Int) * 2 ^ 32 + node.le32 (e + 8) + (L - node.le32 e : Nat))
  else none

/-- the child of an index entry at `e` -/
def childBlock (node : Mem) (e : Nat) : Int := (node.le16 (e + 8) : Int) * 2 ^ 32 + node.le32 (e + 4)

/-- the block of the partition that holds a file block; none where the file has zeros -/
def treeBlock (M : Machine) (s : State) : (depth : Nat) → (node : Mem) → (base L : Nat) → Option Int
  | 0, node, base, L => (entryOf node base L).bind fun e => leafBlock node e L
  | d + 1, node, base, L =>
    (entryOf node base L).bind fun e => treeBlock M s d (diskBlock M s (childBlock node e)) 0 L

/-- the bytes of a file block -/
def treeBytes (M : Machine) (s : State) (i : Slot) (L : Nat) : List UInt8 :=
  (treeBlock M s (eh_depth (s.inode_table i).inode) (s.inode_table i).inode 40 L).elim
    (List.replicate s.blocksize.toNat 0) (deviceBlock M s)

/-- one extent, from file block 0 on -/
theorem entryOf_one {ip : Mem} (h1 : eh_entries ip = 1) (h0 : ee_block ip = 0) (L : Nat) :
    entryOf ip 40 L = some 52 := by
  unfold eh_entries at h1
  unfold ee_block at h0
  unfold entryOf node_entries
  rw [h1, List.range_one, List.reverse_singleton, List.find?_singleton]
  simp [h0]

/-- the shape that `ext4_breadi` knows -/
theorem treeBlock_one {M : Machine} {s : State} {ip : Mem} (h1 : eh_entries ip = 1)
    (h0 : ee_block ip = 0) (hl : ee_len ip ≤ 32768) {L : Nat} (hL : L < ee_len ip) :
    treeBlock M s 0 ip 40 L = some (ee_start ip + L) := by
  have he := entryOf_one h1 h0 L
  unfold ee_block at h0
  unfold ee_len at hl hL
  rw [treeBlock, he, Option.bind_some, leafBlock, h0, if_pos ⟨hl, by rw [Nat.zero_add]; exact hL⟩]
  rfl

/-- what the extent does not have is a hole -/
theorem treeBlock_past {M : Machine} {s : State} {ip : Mem} (h1 : eh_entries ip = 1)
    (h0 : ee_block ip = 0) {L : Nat} (hL : ¬ (ee_len ip ≤ 32768 ∧ L < ee_len ip)) :
    treeBlock M s 0 ip 40 L = none := by
  have he := entryOf_one h1 h0 L
  unfold ee_block at h0
  unfold ee_len at hL
  rw [treeBlock, he, Option.bind_some, leafBlock, h0, if_neg]
  rw [Nat.zero_add]
  exact hL

/-! ## a request -/

/-- a tree that `ext4_breadi` does not implement, or a start that the extent does not have -/
def Unsupported (ip : Mem) (blkno : Nat) : Prop :=
  0 < eh_depth ip ∨ 1 < eh_entries ip ∨ ee_block ip ≠ 0 ∨ 32768 < ee_len ip ∨ ee_len ip ≤ blkno

/-- a count that is returned is of bytes of the file, and what is not implemented is refused -/
structure RightOrRefused (M : Machine) (i : Slot) (blkno nblks : Nat) (s : State) : Prop where
  bytes : 0 ≤ (ext4_breadi M i blkno nblks s).ret →
    (ext4_breadi M i blkno nblks s).data.take (ext4_breadi M i blkno nblks s).ret.toNat
      = ((List.range nblks).flatMap fun j => treeBytes M s i (blkno + j)).take
        (ext4_breadi M i blkno nblks s).ret.toNat
  count : 0 ≤ (ext4_breadi M i blkno nblks s).ret →
    (ext4_breadi M i blkno nblks s).ret ≤ nblks * s.blocksize
  length : 0 ≤ (ext4_breadi M i blkno nblks s).ret →
    ∀ r ∈ newLog s (ext4_breadi M i blkno nblks s).st, 0 ≤ r.count
  refused : Unsupported (s.inode_table i).inode blkno →
    (ext4_breadi M i blkno nblks s).ret = -1 ∨ (ext4_breadi M i blkno nblks s).ret = 0

/-- the checks of `ext4_breadi` -/
def Checked (ip : Mem) (nblks : Nat) : Prop :=
  eh_magic ip = EXT4_EXT_MAGIC ∧ eh_entries ip = 1 ∧ ee_block ip = 0 ∧ nblks ≤ ee_len ip

/-- a request that fails the checks is refused -/
theorem ext4_breadi_refused (M : Machine) (blkno : Nat) {i : Slot} {nblks : Nat} {s : State}
    (h : ¬ Checked (s.inode_table i).inode nblks) :
    ext4_breadi M i blkno nblks s = ⟨-1, [], s⟩ := by
  unfold ext4_breadi
  simp only
  split
  · rfl
  · rename_i h1
    split
    · rfl
    · rename_i h2
      split
      · rfl
      · rename_i h3
        split
        · rfl
        · rename_i h4
          exact absurd ⟨not_not.mp h1, not_not.mp h2, not_not.mp h3, by omega⟩ h

/-- the number of blocks that are read -/
def extentBlks (ip : Mem) (blkno nblks : Nat) : Int :=
  if (ee_len ip : Int) < blkno + nblks then (ee_len ip : Int) - blkno else nblks

/-- the one read of a request that passes the checks -/
theorem ext4_breadi_checked (M : Machine) (blkno : Nat) {i : Slot} {nblks : Nat} {s : State}
    (h : Checked (s.inode_table i).inode nblks) :
    ∃ n : Int, n = extentBlks (s.inode_table i).inode blkno nblks * s.blocksize ∧
      ∃ offset, offset = s.blockOffset (ee_start (s.inode_table i).inode + blkno) ∧
      (ext4_breadi M i blkno nblks s).st = s.note M .data n offset ∧
      (ext4_breadi M i blkno nblks s).data = (s.rd M n offset).data ∧
      (ext4_breadi M i blkno nblks s).ret
        = if (s.rd M n offset).ret ≠ n then -1 else sgn 32 n := by
  obtain ⟨h1, h2, h3, h4⟩ := h
  refine ⟨_, rfl, _, rfl, ?_⟩
  unfold ext4_breadi extentBlks
  simp only
  rw [if_neg (not_not.mpr h1), if_neg (not_not.mpr h2), if_neg (not_not.mpr h3), if_neg (by omega)]
  by_cases hr : (s.rd M ((if (ee_len (s.inode_table i).inode : Int) < blkno + nblks then
      (ee_len (s.inode_table i).inode : Int) - blkno else nblks) * s.blocksize)
      (s.blockOffset (ee_start (s.inode_table i).inode + blkno))).ret
    ≠ (if (ee_len (s.inode_table i).inode : Int) < blkno + nblks then
      (ee_len (s.inode_table i).inode : Int) - blkno else nblks) * s.blocksize
  · rw [if_pos hr, if_pos hr]
    exact ⟨rfl, by simp [BreadRes.data], rfl⟩
  · rw [if_neg hr, if_neg hr]
    refine ⟨rfl, by simp [BreadRes.data], ?_⟩
    rw [not_not.mp hr]

/-- a multiple of 4 is not -1 as an `int`, and is 0 only if it is one of 2^32 -/
theorem sgn32_four {n x : Int} (h : n = 4 * x) :
    sgn 32 n ≠ -1 ∧ (0 < n → n < 4294967296 → sgn 32 n ≠ 0) := by
  obtain ⟨q, h1, h2, h3⟩ := sgn32_cases n
  constructor <;> omega

theorem sgn32_le {n : Int} (h : 0 ≤ n) : sgn 32 n ≤ n := by
  obtain ⟨q, h1, h2, h3⟩ := sgn32_cases n
  omega

section
variable {M : Machine} {i : Slot} {blkno nblks : Nat} {s : State}

theorem rightOrRefused_of_not_checked (h : ¬ Checked (s.inode_table i).inode nblks) :
    RightOrRefused M i blkno nblks s := by
  have e := ext4_breadi_refused M blkno h
  have hret : (ext4_breadi M i blkno nblks s).ret = -1 := by rw [e]
  have hneg : ¬ 0 ≤ (ext4_breadi M i blkno nblks s).ret := by rw [hret]; omega
  exact ⟨fun h => absurd h hneg, fun h => absurd h hneg, fun h => absurd h hneg,
    fun _ => Or.inl hret⟩

/-- nothing is read -/
theorem ext4_breadi_empty (hm : Mounted s) (h : Checked (s.inode_table i).inode nblks)
    (h0 : extentBlks (s.inode_table i).inode blkno nblks = 0) :
    RightOrRefused M i blkno nblks s := by
  obtain ⟨n, hn, offset, -, hst, -, hret⟩ := ext4_breadi_checked M blkno h
  rw [h0, zero_mul] at hn
  have hz : sgn 32 0 = 0 := rfl
  rw [hn] at hret hst
  have hr : (ext4_breadi M i blkno nblks s).ret = -1 ∨ (ext4_breadi M i blkno nblks s).ret = 0 := by
    rw [hret]
    split
    · exact Or.inl rfl
    · exact Or.inr hz
  have h0 : 0 ≤ (ext4_breadi M i blkno nblks s).ret → (ext4_breadi M i blkno nblks s).ret = 0 := by
    intro hge
    rcases hr with h | h
    · rw [h] at hge
      omega
    · exact h
  refine ⟨fun hge => ?_, fun hge => ?_, fun _ r hmem => ?_, fun _ => hr⟩
  · rw [h0 hge, Int.toNat_zero, List.take_zero, List.take_zero]
  · rw [h0 hge]
    exact mul_nonneg (Int.natCast_nonneg _) hm.blocksize_pos.le
  · rw [hst, newLog_note, List.mem_singleton] at hmem
    rw [hmem]

/-- the shape that is known: the blocks of the extent -/
theorem ext4_breadi_extent (hm : Mounted s) (h : Checked (s.inode_table i).inode nblks)
    (hd : eh_depth (s.inode_table i).inode = 0) (hl : ee_len (s.inode_table i).inode ≤ 32768)
    (hb : blkno < ee_len (s.inode_table i).inode) : RightOrRefused M i blkno nblks s := by
  obtain ⟨n, hn, offset, hoff, hst, hdata, hret⟩ := ext4_breadi_checked M blkno h
  obtain ⟨h1, h2, h3, h4⟩ := h
  obtain ⟨m, hm', hmn, hml⟩ : ∃ m : Nat, extentBlks (s.inode_table i).inode blkno nblks = m ∧
      m ≤ nblks ∧ blkno + m ≤ ee_len (s.inode_table i).inode := by
    unfold extentBlks
    split
    · exact ⟨ee_len (s.inode_table i).inode - blkno, by omega, by omega, by omega⟩
    · exact ⟨nblks, rfl, le_refl _, by omega⟩
  rw [hm'] at hn
  have hn0 : 0 ≤ n := by
    rw [hn]
    exact mul_nonneg (Int.natCast_nonneg _) hm.blocksize_pos.le
  -- a count that is not -1 is that of a read in full
  have hok : 0 ≤ (ext4_breadi M i blkno nblks s).ret →
      (s.rd M n offset).ret = n ∧ (ext4_breadi M i blkno nblks s).ret ≤ n := by
    intro hge
    rw [hret] at hge ⊢
    split at hge
    · omega
    · rename_i hr
      rw [if_neg hr]
      exact ⟨not_not.mp hr, sgn32_le hn0⟩
  have hblk : ∀ j < m, treeBytes M s i (blkno + j)
      = deviceBlock M s (ee_start (s.inode_table i).inode + blkno + j) := by
    intro j hj
    unfold treeBytes
    rw [hd, treeBlock_one h2 h3 hl (by omega), Option.elim_some, Nat.cast_add, ← add_assoc]
  refine ⟨fun hge => ?_, fun hge => ?_, fun _ r hmem => ?_, fun hu => ?_⟩
  · obtain ⟨hr, hle⟩ := hok hge
    have hsplit := flatMap_blocks (fun j => treeBytes M s i (blkno + j)) m (nblks - m)
    rw [Nat.add_sub_cancel' hmn] at hsplit
    rw [hdata, rd, M.read_exact _ _ _ _ hr, hoff, hn, run_device hm.blocksize_pos.le, hsplit,
      List.take_append_of_le_length]
    · congr 1
      apply List.flatMap_congr
      intro j hj
      rw [hblk j (List.mem_range.mp hj)]
    · have e : ((List.range m).flatMap fun j => treeBytes M s i (blkno + j)).length
          = n.toNat := by
        have := congrArg List.length (run_device (M := M) hm.blocksize_pos.le
          (ee_start (s.inode_table i).inode + blkno) m)
        rw [List.length_map, List.length_range, ← hn] at this
        rw [this]
        congr 1
        apply List.flatMap_congr
        intro j hj
        exact hblk j (List.mem_range.mp hj)
      rw [e]
      omega
  · have hle : (m : Int) * s.blocksize ≤ nblks * s.blocksize :=
      mul_le_mul_of_nonneg_right (by omega) hm.blocksize_pos.le
    have := (hok hge).2
    omega
  · rw [hst, newLog_note, List.mem_singleton] at hmem
    rw [hmem]
    exact hn0
  · unfold Unsupported at hu
    omega

end

/-- **When extent reads are right or refused.**  Whatever the reads of the device return, a request
is right or refused exactly when it fails the checks, or it starts in the extent or at its end and
there is nothing to read, or the node is a leaf and its extent is written. -/
theorem ext4_breadi_iff (bytes : Int → Int → UInt8) (s : State) (hm : Mounted s) (i : Slot)
    (hx : hasExtents s i) (blkno nblks : Nat) :
    (∀ M : Machine, M.bytes = bytes → RightOrRefused M i blkno nblks s) ↔
      ¬ Checked (s.inode_table i).inode nblks ∨
      (blkno ≤ ee_len (s.inode_table i).inode ∧
        (nblks = 0 ∨ blkno = ee_len (s.inode_table i).inode ∨
          (eh_depth (s.inode_table i).inode = 0 ∧ ee_len (s.inode_table i).inode ≤ 32768))) := by
  have hpos := hm.blocksize_pos
  have hbs := hm.blocksize
  have hsmall := hm.small
  constructor
  · intro hall
    by_contra hno
    obtain ⟨hc, hno⟩ := not_or.mp hno
    have hc := not_not.mp hc
    have hr := hall (Machine.faultless bytes (fun _ _ => 0) []) rfl
    obtain ⟨n, hn, offset, -, hst, -, hret⟩ := ext4_breadi_checked
      (Machine.faultless bytes (fun _ _ => 0) []) blkno hc
    have hfull : (s.rd (Machine.faultless bytes (fun _ _ => 0) []) n offset).ret = n := rfl
    rw [if_neg (not_not.mpr hfull)] at hret
    have hfour : n = 4 * (extentBlks (s.inode_table i).inode blkno nblks * s.ptrs_per_blk) := by
      rw [hn, hbs]
      ring
    obtain ⟨hne, hnz⟩ := sgn32_four hfour
    rw [← hret] at hne hnz
    have hlen : ee_len (s.inode_table i).inode < 65536 := Mem.le16_lt _ _
    have hc4 := hc.2.2.2
    by_cases hb : blkno ≤ ee_len (s.inode_table i).inode
    · have hu : Unsupported (s.inode_table i).inode blkno := by
        unfold Unsupported
        by_contra hu
        exact hno ⟨hb, by omega⟩
      -- some blocks are read, and fewer than 2^32 bytes
      have hm1 : 0 < extentBlks (s.inode_table i).inode blkno nblks := by
        unfold extentBlks
        split <;> omega
      have hm2 : extentBlks (s.inode_table i).inode blkno nblks ≤ 65535 := by
        unfold extentBlks
        split <;> omega
      have hn1 : 0 < n := by rw [hn]; exact mul_pos hm1 hpos
      have hn2 : n < 4294967296 := by
        have : n ≤ 65535 * 65536 := by
          rw [hn]
          exact mul_le_mul hm2 (by omega) hpos.le (by omega)
        omega
      exact (hr.refused hu).elim hne (hnz hn1 hn2)
    · have hneg : extentBlks (s.inode_table i).inode blkno nblks < 0 := by
        unfold extentBlks
        rw [if_pos (by omega)]
        omega
      have hn1 : n < 0 := by rw [hn]; exact mul_neg_of_neg_of_pos hneg hpos
      have hu : Unsupported (s.inode_table i).inode blkno := by
        unfold Unsupported
        omega
      have hz := (hr.refused hu).resolve_left hne
      have := hr.length (by rw [hz]) _ (by
        rw [hst, newLog_note]
        exact List.mem_singleton_self _)
      dsimp only at this
      omega
  · rintro (hc | ⟨hb, hor⟩) M rfl
    · exact rightOrRefused_of_not_checked hc
    · by_cases hc : Checked (s.inode_table i).inode nblks
      · by_cases h0 : extentBlks (s.inode_table i).inode blkno nblks = 0
        · exact ext4_breadi_empty hm hc h0
        · have hne : nblks ≠ 0 ∧ blkno ≠ ee_len (s.inode_table i).inode := by
            unfold extentBlks at h0
            constructor
            · rintro rfl
              apply h0
              split <;> omega
            · intro he
              apply h0
              split <;> omega
          have hsh := (hor.resolve_left hne.1).resolve_left hne.2
          exact ext4_breadi_extent hm hc hsh.1 hsh.2 (by omega)
      · exact rightOrRefused_of_not_checked hc

/-- the small file system, with a root whose one entry, a tree of depth `d` below it, is an extent of
20 blocks from block 30 on, or an index entry with the child 20 -/
def extDisk (d : UInt8) (x : Int) : UInt8 :=
  if x = 5248 + 34 then 8 else if x = 5248 + 40 then 0x0a else if x = 5248 + 41 then 0xf3
  else if x = 5248 + 42 then 1 else if x = 5248 + 46 then d else if x = 5248 + 56 then 20
  else if x = 5248 + 60 then 30 else if x = 5248 + 88 then 0 else smallDisk x

def extMachine (d : UInt8) : Machine :=
  Machine.faultless (fun _ x => extDisk d x) (fun _ _ => 0) [⟨0, 1024, 0⟩]

def extMounted (d : UInt8) : State := (ext2_mount (extMachine d) 0 0 0 powerOn).2.2

def extOpened (d : UInt8) : State :=
  ((ext2_open (extMachine d) 1 ['/'.toUInt8] (extMounted d)).map Prod.snd).getD (extMounted d)

instance (s : State) : Decidable (Mounted s) :=
  decidable_of_iff (0 < s.ptrs_per_blk ∧ s.ptrs_per_blk ≤ 16384 ∧ s.blocksize = 4 * s.ptrs_per_blk ∧
      s.directlim = 11 ∧ s.ind1lim = 11 + s.ptrs_per_blk ∧
      s.ind2lim = 11 + s.ptrs_per_blk * s.ptrs_per_blk)
    ⟨fun ⟨h1, h2, h3, h4, h5, h6⟩ => ⟨h1, h2, h3, h4, h5, h6⟩,
      fun ⟨h1, h2, h3, h4, h5, h6⟩ => ⟨h1, h2, h3, h4, h5, h6⟩⟩

/-- the last two blocks of an extent of 20 blocks, of five that are asked for -/
theorem ext4_breadi_leaf :
    RightOrRefused (extMachine 0) 0 18 5 (extOpened 0) ∧
      (ext4_breadi (extMachine 0) 0 (18 : Nat) (5 : Nat) (extOpened 0)).ret = 2048 := by
  refine ⟨(ext4_breadi_iff (fun _ x => extDisk 0 x) (extOpened 0) (by decide +kernel) 0
    (by decide +kernel) 18 5).mpr ?_ (extMachine 0) rfl, by decide +kernel⟩
  exact Or.inr ⟨by decide +kernel, Or.inr (Or.inr (by decide +kernel))⟩

/-- a tree of depth one: the number of its child is taken for the length of an extent -/
theorem ext4_breadi_deep : ¬ ∀ (bytes : Int → Int → UInt8) (s : State), Mounted s →
    ∀ i : Slot, hasExtents s i → ∀ (blkno nblks : Nat) (M : Machine), M.bytes = bytes →
      RightOrRefused M i blkno nblks s := by
  intro hall
  have h := (hall (fun _ x => extDisk 1 x) (extOpened 1) (by decide +kernel) 0 (by decide +kernel) 0 1
    (extMachine 1) rfl).refused (Or.inl (by decide +kernel))
  have hret : (ext4_breadi (extMachine 1) 0 (0 : Nat) (1 : Nat) (extOpened 1)).ret = 1024 := by
    decide +kernel
  omega

end Ext2
