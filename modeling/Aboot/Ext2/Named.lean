import Aboot.Ext2.Lookup
import Aboot.Ext2.Extents
import Aboot.Lib.Bytes

/-!
# The first entry with a name

The search takes the first entry with the name, also when it is deleted: its inode number is not
looked at, and is taken for an `int`.

* `Tiled.scannable`   a tiled directory whose blocks the reader knows;
* `delivered`         they come to `blkbuf`;
* `search_runs`       the search of such blocks, to the first entry with the name or to their end;
* `search_zeros`      in a block of zeros it does not end;
* `Overflows`   it comes to the end of 2 GiB;
* `lookup_live_iff`   when the search finds the first entry in use.
-/

set_option linter.unusedVariables false

namespace Ext2
open Word State

variable {M : Machine} {s t : State} {i : Slot} {c : List UInt8}

/-! ## the blocks of a directory -/

/-- a block of a directory, by the extent tree of the inode or by its block map -/
def dirBlock (M : Machine) (s : State) (i : Slot) (b : Nat) : Mem :=
  if hasExtents s i then
    (treeBlock M s (eh_depth (s.inode_table i).inode) (s.inode_table i).inode 40 b).elim (fun _ => 0)
      (diskBlock M s)
  else if filePtr M s i b = 0 then fun _ => 0 else diskBlock M s (filePtr M s i b)

/-- a directory of `N` blocks that are tiled by entries -/
structure Tiled (M : Machine) (s : State) (i : Slot) (N : Nat) : Prop where
  blocksize : EXT2_MIN_BLOCK_SIZE ≤ s.blocksize
  whole : i_size (s.inode_table i).inode = N * s.blocksize.toNat
  /-- an empty directory has no block -/
  empty : N = 0 → if hasExtents s i then eh_entries (s.inode_table i).inode = 0 else filePtr M s i 0 = 0
  chain : ∀ b < N, ChainFine (dirBlock M s i b) s.blocksize.toNat s.blocksize.toNat 0

/-- the entries of the first `N` blocks -/
def tiledEntries (M : Machine) (s : State) (i : Slot) (N : Nat) : List DirEnt :=
  (List.range N).flatMap fun b => chain (dirBlock M s i b) s.blocksize.toNat s.blocksize.toNat 0

/-- the first entry in use with the name -/
def liveEntry (es : List DirEnt) (c : List UInt8) : Option Nat :=
  (es.find? fun e => e.inode ≠ 0 ∧ e.name = c).map DirEnt.inode

/-- the search ends, and its `next_ino` is the number of the first entry in use, or negative, for which
`ext2_namei` returns NULL, if there is none -/
def LooksUp (M : Machine) (s : State) (i : Slot) (es : List DirEnt) (c : List UInt8) : Prop :=
  ∃ fuel r t, searchDir M i c fuel true s = some (r, t) ∧
    (∀ n : Nat, r = n ↔ liveEntry es c = some n) ∧ (r < 0 ↔ liveEntry es c = none)

/-- the reader takes other blocks for those of the directory: it does not look at the depth of an extent
tree, and a cached index block 0xffffffff is none -/
def Misread (M : Machine) (s : State) (i : Slot) : Prop :=
  if hasExtents s i then Checked (s.inode_table i).inode 1 ∧ eh_depth (s.inode_table i).inode ≠ 0
  else ¬ ValidPtrs M s i

/-- the reader knows no such extent tree -/
def Refused (s : State) (i : Slot) : Prop := hasExtents s i ∧ ¬ Checked (s.inode_table i).inode 1

/-- how many of the blocks the block map of the reader comes to, at an offset that is an `int` -/
def reached (s : State) (i : Slot) (N : Nat) : Nat :=
  min (if hasExtents s i then N else min N (12 + ptrs s * ptrs s)) (2147483647 / s.blocksize.toNat + 1)

/-- the search comes to the end of 2 GiB, where `diroffset` is no `int` any more -/
def Overflows (M : Machine) (s : State) (i : Slot) (N : Nat) (c : List UInt8) : Prop :=
  2147483648 ≤ reached s i N * s.blocksize.toNat ∧
    ((tiledEntries M s i (reached s i N)).find? fun e => decide (e.name = c)) = none

/-- no entry with the name is in use, and the extent tree is refused; or the blocks of the directory are
read, and the first entry with the name, of those that are come to, is in use and its inode number is
positive as an `int`, or there is none, and all blocks are come to, and are less than 2 GiB -/
def FirstLive (M : Machine) (s : State) (i : Slot) (N : Nat) (c : List UInt8) : Prop :=
  (Refused s i ∧ liveEntry (tiledEntries M s i N) c = none) ∨
  (¬ Refused s i ∧ ¬ Misread M s i ∧
    match (tiledEntries M s i (reached s i N)).find? fun e => decide (e.name = c) with
    | some e => 0 < e.inode ∧ e.inode < 2147483648
    | none => 0 < N ∧ N * s.blocksize.toNat < 2147483648 ∧ N ≤ reached s i N)

theorem offset_small {bs b : Nat} (h : 0 < bs) : b < 2147483647 / bs + 1 ↔ b * bs < 2147483648 := by
  rw [Nat.lt_succ_iff, Nat.le_div_iff_mul_le h]
  exact Nat.lt_succ_iff.symm

/-! ## directories that are read -/

/-- a tiled directory whose blocks the reader knows -/
structure Scannable (M : Machine) (s : State) (i : Slot) (N : Nat) : Prop extends Tiled M s i N where
  map : ¬ hasExtents s i → ValidPtrs M s i
  extent : hasExtents s i → Checked (s.inode_table i).inode 1 ∧ 0 < N ∧
    N ≤ ee_len (s.inode_table i).inode
  start : hasExtents s i → ∀ b < N, dirBlock M s i b = diskBlock M s (ee_start (s.inode_table i).inode + b)

/-- a block of zeros is not tiled -/
theorem chainFine_zeros {bs n : Nat} (hbs : 0 < bs) : ¬ ChainFine (fun _ => 0) bs n 0 := by
  intro h
  cases n with
  | zero => exact hbs.ne h
  | succ n =>
    rcases h with h | ⟨h, -⟩
    · exact hbs.ne h
    · have hrec : (entryAt (fun _ => 0) 0).rec_len = 0 := rfl
      omega

theorem Tiled.scannable {N : Nat} (h : Tiled M s i N) (hr : ¬ Refused s i) (hm : ¬ Misread M s i) :
    Scannable M s i N := by
  by_cases hx : hasExtents s i
  · have hch : Checked (s.inode_table i).inode 1 := by
      by_contra hne
      exact hr ⟨hx, hne⟩
    have hdepth : eh_depth (s.inode_table i).inode = 0 := by
      by_contra hne
      refine hm ?_
      unfold Misread
      rw [if_pos hx]
      exact ⟨hch, hne⟩
    obtain ⟨-, hone, hzero, -⟩ := id hch
    have hbs : 0 < s.blocksize.toNat := by
      have hmin : (1024 : Int) ≤ s.blocksize := h.blocksize
      omega
    have hin : ∀ b < N, ee_len (s.inode_table i).inode ≤ 32768 ∧ b < ee_len (s.inode_table i).inode := by
      -- a block that the extent does not have is one of zeros
      intro b hb
      by_contra hout
      have hchain := h.chain b hb
      rw [dirBlock, if_pos hx, hdepth, treeBlock_past hone hzero hout] at hchain
      exact chainFine_zeros hbs hchain
    have hN : 0 < N := by
      by_contra h0
      have hempty := h.empty (by omega)
      rw [if_pos hx, hone] at hempty
      cases hempty
    refine ⟨h, fun hn => absurd hx hn, fun _ => ⟨hch, hN, ?_⟩, fun _ b hb => ?_⟩
    · have hlast := (hin (N - 1) (by omega)).2
      omega
    · obtain ⟨hl, hlt⟩ := hin b hb
      rw [dirBlock, if_pos hx, hdepth, treeBlock_one hone hzero hl hlt]
      rfl
  · refine ⟨h, fun _ => ?_, fun hp => absurd hp hx, fun hp => absurd hp hx⟩
    by_contra hv
    refine hm ?_
    unfold Misread
    rw [if_neg hx]
    exact hv

/-! ## a block in blkbuf -/

/-- the block that the reader comes to: zeros past the end of its block map -/
def seenBlock (M : Machine) (s : State) (i : Slot) (b : Nat) : Mem :=
  if hasExtents s i then diskBlock M s (ee_start (s.inode_table i).inode + b)
  else if seenPtr M s i b = 0 then fun _ => 0 else diskBlock M s (seenPtr M s i b)

theorem seenBlock_inside (hm : Mounted s) {N b : Nat} (htl : Scannable M s i N) (hb : b < reached s i N) :
    seenBlock M s i b = dirBlock M s i b := by
  rw [reached] at hb
  have hb := (lt_min_iff.mp hb).1
  by_cases hx : hasExtents s i
  · rw [if_pos hx] at hb
    rw [seenBlock, if_pos hx, htl.start hx b hb]
  · have hP : ((ptrs s * ptrs s : Nat) : Int) = s.ptrs_per_blk * s.ptrs_per_blk := by
      rw [Nat.cast_mul, hm.ptrs_eq]
    rw [if_neg hx] at hb
    have hlim : (b : Int) ≤ s.ind2lim := by
      rw [hm.ind2lim]
      omega
    have hseen : seenPtr M s i b = filePtr M s i b := if_pos hlim
    rw [seenBlock, dirBlock, if_neg hx, if_neg hx, hseen]

theorem seenBlock_past (hm : Mounted s) (hx : ¬ hasExtents s i) {b : Nat}
    (hb : 12 + ptrs s * ptrs s ≤ b) : seenBlock M s i b = fun _ => 0 := by
  have hP : ((ptrs s * ptrs s : Nat) : Int) = s.ptrs_per_blk * s.ptrs_per_blk := by
    rw [Nat.cast_mul, hm.ptrs_eq]
  have hlim : ¬ (b : Int) ≤ s.ind2lim := by
    rw [hm.ind2lim]
    omega
  have hseen : seenPtr M s i b = 0 := if_neg hlim
  rw [seenBlock, if_neg hx, if_pos hseen]

/-- a block that is in the file, or the first one, can be asked for -/
def Asked (s : State) (i : Slot) (b : Nat) : Prop :=
  (b + 1) * s.blocksize.toNat ≤ i_size (s.inode_table i).inode ∨
    (b = 0 ∧ i_size (s.inode_table i).inode = 0)

/-- the map of the inode is one that the reader has for the block -/
structure MapFine (M : Machine) (s : State) (i : Slot) (b : Nat) : Prop where
  map : ¬ hasExtents s i → ValidPtrs M s i
  extent : hasExtents s i → Checked (s.inode_table i).inode 1 ∧ b < ee_len (s.inode_table i).inode

theorem Asked.clamp (hm : Mounted s) {b : Nat} (h : Asked s i b) :
    clampBlks s i b 1 = 1 ∧ b < 2147483648 := by
  have hpos := hm.pos
  have hsmall := hm.small
  have hbs := hm.blocksize
  obtain ⟨B, hB⟩ : ∃ B : Nat, s.blocksize = B := ⟨s.blocksize.toNat, by omega⟩
  have hsize : i_size (s.inode_table i).inode < 4294967296 := Mem.le32_lt _ _
  unfold Asked at h
  rw [hB, Int.toNat_natCast] at h
  have hlt : b < 2147483648 := by
    rcases h with h | ⟨rfl, -⟩
    · have hmul : (b + 1) * 4 ≤ (b + 1) * B := Nat.mul_le_mul_left _ (by omega)
      omega
    · decide
  refine ⟨?_, hlt⟩
  unfold clampBlks
  rw [hB]
  rcases h with h | ⟨rfl, h0⟩
  · have hcast : ((b : Int) + 1) * (B : Int) = (((b + 1) * B : Nat) : Int) := by push_cast; ring
    rw [hcast, sgn64_natCast (by omega), if_neg (by omega)]
  · have hcast : (((0 : Nat) : Int) + 1) * (B : Int) = (B : Nat) := by push_cast; ring
    have hone : uns 32 (B : Int) / uns 32 (B : Int) = 1 := by
      rw [uns32_natCast (by omega)]
      exact Nat.div_self (by omega)
    rw [hcast, sgn64_natCast (by omega), h0, if_pos (by omega), Nat.cast_zero, zero_add, hone]
    rfl

/-- a block in `blkbuf`, with nothing else changed -/
structure Delivered (M : Machine) (s : State) (i : Slot) (b : Nat) : Prop where
  ret : 0 ≤ (breadBlkbuf M i b s).1
  coh : Coh M (breadBlkbuf M i b s).2
  buf : ∀ k : Nat, (k : Int) < s.blocksize → (breadBlkbuf M i b s).2.blkbuf k = seenBlock M s i b k

/-- through the block map -/
theorem delivered_map (hm : Mounted s) (hc : Coh M s) (hall : AllReads M s.dev) {b : Nat}
    (ha : Asked s i b) (hx : ¬ hasExtents s i) (hv : ValidPtrs M s i) : Delivered M s i b := by
  obtain ⟨hclamp, hbig⟩ := ha.clamp hm
  have hreads := ext2_blkno_reads M i b s
  have hd : AllReads M (ext2_blkno M i b s).2.dev := by rw [hreads.keeps.mount.dev]; exact hall
  have hok := indexOk_of_logged (ext2_blkno_logged hall.every hm.blocksize_pos.le i b)
  have hseen := ext2_blkno_seen hm hc hv b hok
  obtain ⟨-, count, offset, hfail⟩ | ⟨hret, hdata, hcoh⟩ :=
    extn_breadi_block (M := M) hm hx hclamp hbig
  · exact absurd (hd _ _ _) hfail
  · have hc' := hcoh (hreads.keeps.coh_ok hc hok)
    refine ⟨?_, ⟨hc'.iblk, hc'.diblk⟩, fun k hk => ?_⟩
    · show 0 ≤ (extn_breadi M i b 1 s).ret
      rw [hret]
      exact hm.blocksize_pos.le
    · show (Mem.put _ 0 (extn_breadi M i b 1 s).data) k = _
      rw [hdata, put_blockBytes _ _ hk, hseen, seenBlock, if_neg hx]
      split <;> rfl

/-- through the extent -/
theorem delivered_extent (hm : Mounted s) (hc : Coh M s) (hall : AllReads M s.dev) {b : Nat}
    (hx : hasExtents s i) (hch : Checked (s.inode_table i).inode 1)
    (hb : b < ee_len (s.inode_table i).inode) : Delivered M s i b := by
  have hpos := hm.pos
  have hsmall := hm.small
  have hbs := hm.blocksize
  obtain ⟨n, hn, offset, hoff, hst, hdata, hret⟩ := ext4_breadi_checked M b hch
  have hext : extn_breadi M i b 1 s = ext4_breadi M i b (1 : Nat) s := if_pos hx
  have hone : extentBlks (s.inode_table i).inode b 1 = 1 := if_neg (by push_cast; omega)
  rw [hone, one_mul] at hn
  subst hn
  have hread : (s.rd M s.blocksize offset).ret = s.blocksize := hall _ _ _
  rw [if_neg (not_not.mpr hread), sgn32_of_range (by omega) (by omega)] at hret
  have hexact := M.read_exact _ _ _ _ hread
  refine ⟨?_, ?_, fun k hk => ?_⟩
  · show 0 ≤ (extn_breadi M i b 1 s).ret
    rw [hext, hret]
    omega
  · have hcoh : Coh M (extn_breadi M i b 1 s).st := by
      rw [hext, hst]
      exact ⟨hc.iblk, hc.diblk⟩
    exact ⟨hcoh.iblk, hcoh.diblk⟩
  · show (Mem.put _ 0 (extn_breadi M i b 1 s).data) k = _
    have hlen : k < (s.rd M s.blocksize offset).data.length := by
      show k < (M.read s.log.length s.dev s.blocksize offset).data.length
      rw [hexact, List.length_map, List.length_range]
      omega
    have hput : ∀ m : Mem, m.put 0 (s.rd M s.blocksize offset).data k
        = (s.rd M s.blocksize offset).data[k] := by
      intro m
      have h := Mem.put_in m 0 k _ hlen
      rwa [Nat.zero_add] at h
    have hbyte : (s.rd M s.blocksize offset).data[k] = M.bytes s.dev (offset + k) := by
      simp only [rd, hexact, List.getElem_map, List.getElem_range]
    rw [hext, hdata, hput, hbyte, hoff, seenBlock, if_pos hx]
    rfl

theorem delivered (hm : Mounted s) (hc : Coh M s) (hall : AllReads M s.dev) {b : Nat}
    (ha : Asked s i b) (hf : MapFine M s i b) : Delivered M s i b := by
  by_cases hx : hasExtents s i
  · obtain ⟨hch, hb⟩ := hf.extent hx
    exact delivered_extent hm hc hall hx hch hb
  · exact delivered_map hm hc hall ha hx (hf.map hx)

/-! ## the search -/

/-- what the search needs of a directory that is begun in `s`: its first `L` blocks come to `blkbuf`
from every state of the search, and they are tiled -/
structure Scan (M : Machine) (s : State) (i : Slot) (blk : Nat → Mem) (L : Nat) : Prop where
  size : L * s.blocksize.toNat ≤ i_size (s.inode_table i).inode
  small : ∀ b < L, b * s.blocksize.toNat < 2147483648
  deliver : ∀ b < L, ∀ t, Reads M s t → Coh M t →
    Delivered M t i b ∧ ∀ k : Nat, (k : Int) < s.blocksize → seenBlock M t i b k = blk b k
  chain : ∀ b < L, ChainFine (blk b) s.blocksize.toNat s.blocksize.toNat 0

theorem searchDir_mono {fuel k : Nat} {rewind : Bool} {u : State} {r : Int × State}
    (h : searchDir M i c fuel rewind u = some r) : searchDir M i c (fuel + k) rewind u = some r := by
  rw [searchDir_run] at h ⊢
  exact Loop.run_add k h

/-- two runs of the search end in the same way -/
theorem searchDir_unique {fuel fuel' : Nat} {rewind : Bool} {u : State} {r r' : Int × State}
    (h : searchDir M i c fuel rewind u = some r) (h' : searchDir M i c fuel' rewind u = some r') :
    r = r' := by
  rw [searchDir_run] at h h'
  exact Loop.run_unique h h'

/-- what `searchDir` does depends on the entry that `ext2_readdiri` gives -/
theorem searchDir_congr {rewind rewind' : Bool} {u v : State}
    (h : ext2_readdiri M i rewind u = ext2_readdiri M i rewind' v) (fuel : Nat) :
    searchDir M i c fuel rewind u = searchDir M i c fuel rewind' v := by
  cases fuel with
  | zero => rfl
  | succ fuel => rw [searchDir, searchDir, h]

variable {blk : Nat → Mem} {L : Nat}

/-- a block that is delivered is a position in it -/
theorem Scan.place (hs : Scan M s i blk L) {b : Nat} (hb : b < L) {u : State} (hr : Reads M s u)
    (hc : Coh M u) (hdir : u.diroffset = b * s.blocksize) :
    0 ≤ (breadBlkbuf M i b u).1 ∧ Place M s blk L b s.blocksize.toNat 0
      { (breadBlkbuf M i b u).2 with blockoffset := 0 } := by
  obtain ⟨hd, hblk⟩ := hs.deliver b hb u hr hc
  have hreads : Reads M s (breadBlkbuf M i b u).2 := hr.trans (breadBlkbuf_reads M i b u)
  have hcoh := hd.coh
  refine ⟨hd.ret, hreads.trans (Reads.of_pos _ _ _ rfl), ⟨hcoh.iblk, hcoh.diblk⟩,
    (breadBlkbuf_place b).1.trans hdir, rfl, fun k hk => ?_, hb, hs.chain b hb⟩
  rw [← hblk k hk]
  exact hd.buf k (by rw [hr.keeps.mount.blocksize]; exact hk)

theorem readdiri_inside {u : State} (h : u.blockoffset < u.blocksize) :
    ext2_readdiri M i false u = nextEntry u := by
  unfold ext2_readdiri readdirStep
  rw [if_neg (by decide), if_neg (not_le.mpr h)]

/-- at the end of a block, the search goes on at the start of the next one -/
theorem readdir_cross {b : Nat} {u : State} (hpos : 0 < u.blocksize) (hoff : u.blockoffset = u.blocksize)
    (hdir : u.diroffset = b * u.blocksize)
    (hin : (b + 1) * u.blocksize.toNat < i_size (u.inode_table i).inode)
    (hint : (b + 1) * u.blocksize.toNat < 2147483648)
    (hret : 0 ≤ (breadBlkbuf M i (b + 1 : Nat) { u with diroffset := (b + 1 : Nat) * u.blocksize }).1) :
    ext2_readdiri M i false u = ext2_readdiri M i false
      { (breadBlkbuf M i (b + 1 : Nat) { u with diroffset := (b + 1 : Nat) * u.blocksize }).2 with
        blockoffset := 0 } := by
  obtain ⟨B, hB⟩ : ∃ B : Nat, u.blocksize = B := ⟨u.blocksize.toNat, by omega⟩
  rw [hB, Int.toNat_natCast] at hin hint
  have hnext : sgn 32 (u.diroffset + u.blocksize) = ((b + 1 : Nat) : Int) * u.blocksize := by
    have hsum : u.diroffset + u.blocksize = (((b + 1) * B : Nat) : Int) := by
      rw [hdir, hB]
      push_cast
      ring
    rw [hsum, sgn32_of_range (by omega) (by omega), hB, Nat.cast_mul]
  have hsize : ¬ i_size (u.inode_table i).inode ≤ uns 32 (((b + 1 : Nat) : Int) * u.blocksize) := by
    have hlt : i_size (u.inode_table i).inode < 4294967296 := Mem.le32_lt _ _
    rw [hB, ← Nat.cast_mul, uns32_natCast (by omega)]
    omega
  have hdiv : Int.tdiv (((b + 1 : Nat) : Int) * u.blocksize) u.blocksize = ((b + 1 : Nat) : Int) :=
    Int.mul_tdiv_cancel _ (by omega)
  have hv : (breadBlkbuf M i (b + 1 : Nat)
      { u with diroffset := (b + 1 : Nat) * u.blocksize }).2.blocksize = u.blocksize :=
    (breadBlkbuf_reads M i (b + 1 : Nat) _).keeps.mount.blocksize
  have hright : ext2_readdiri M i false
      { (breadBlkbuf M i (b + 1 : Nat) { u with diroffset := (b + 1 : Nat) * u.blocksize }).2 with
        blockoffset := 0 } = nextEntry _ := readdiri_inside (by
      show 0 < (breadBlkbuf M i (b + 1 : Nat) _).2.blocksize
      rw [hv]
      exact hpos)
  rw [hright]
  unfold ext2_readdiri readdirStep nextDirBlock
  rw [if_neg (by decide), if_pos (le_of_eq hoff.symm)]
  simp only
  rw [hnext, if_neg hsize, hdiv, if_neg (not_lt.mpr hret)]

/-- at the end of a block that is not the last, the search goes on at the start of the next -/
theorem Scan.cross (hs : Scan M s i blk L) (hm : Mounted s) {b n : Nat} {u : State}
    (h : Place M s blk L b n s.blocksize.toNat u) (hb : b + 1 < L) :
    ∃ v, Place M s blk L (b + 1) s.blocksize.toNat 0 v ∧
      ext2_readdiri M i false u = ext2_readdiri M i false v := by
  have hpos := hm.blocksize_pos
  have hbs : u.blocksize = s.blocksize := h.reads.keeps.mount.blocksize
  have hoff := h.off
  have hreads : Reads M s { u with diroffset := (b + 1 : Nat) * u.blocksize } :=
    h.reads.trans (Reads.of_pos _ _ _ rfl)
  obtain ⟨hret, hplace⟩ := hs.place hb hreads ⟨h.coh.iblk, h.coh.diblk⟩ (by rw [hbs])
  refine ⟨_, hplace, readdir_cross (by omega) (by omega) (by rw [h.dir, hbs]) ?_
    (hbs.symm ▸ hs.small _ hb) hret⟩
  have hmul : (b + 1 + 1) * s.blocksize.toNat ≤ L * s.blocksize.toNat := Nat.mul_le_mul_right _ hb
  have hsize := hs.size
  rw [Nat.succ_mul] at hmul
  rw [hbs, h.reads.table.table]
  omega

/-- no entry is left at the end of the last block only -/
theorem Scan.at_end (hs : Scan M s i blk L) (hm : Mounted s) {b n o : Nat} {u : State}
    (h : Place M s blk L b n o u) (hes : entriesAt blk L s.blocksize.toNat b n o = []) :
    o = s.blocksize.toNat ∧ b = L - 1 := by
  have hpos := hm.blocksize_pos
  have hin := h.inside
  have ho : o = s.blocksize.toNat := by
    by_contra ho
    obtain ⟨e, n', hcons, -⟩ := h.entry ho
    rw [hcons] at hes
    cases hes
  subst ho
  refine ⟨rfl, ?_⟩
  by_contra hne
  obtain ⟨v, hv, -⟩ := hs.cross hm h (by omega)
  obtain ⟨e, n', hcons, -⟩ := hv.entry (by omega)
  rw [entriesAt_end blk (by omega), hcons] at hes
  cases hes

/-- the position at an entry, which is that of the next block at the end of one -/
theorem Scan.at_entry (hs : Scan M s i blk L) (hm : Mounted s) {b n o : Nat} {u : State} {e : DirEnt}
    {es : List DirEnt} (h : Place M s blk L b n o u)
    (hes : entriesAt blk L s.blocksize.toNat b n o = e :: es) :
    ∃ b' n' o' v, Place M s blk L b' n' o' v ∧ o' ≠ s.blocksize.toNat ∧
      ext2_readdiri M i false u = ext2_readdiri M i false v ∧
      entriesAt blk L s.blocksize.toNat b' n' o' = e :: es := by
  have hpos := hm.blocksize_pos
  by_cases ho : o = s.blocksize.toNat
  · subst ho
    have hnext : b + 1 < L := by
      by_contra hlast
      have hz : L - (b + 1) = 0 := by omega
      rw [entriesAt, chain_end, hz] at hes
      cases hes
    obtain ⟨v, hv, hsame⟩ := hs.cross hm h hnext
    exact ⟨_, _, _, v, hv, by omega, hsame, by rw [← entriesAt_end blk hnext, hes]⟩
  · exact ⟨b, n, o, u, h, ho, rfl, hes⟩

/-- the search from a position: it ends at the first entry with the name, or comes to the end of the
last block -/
theorem search_runs (hs : Scan M s i blk L) (hm : Mounted s) (es : List DirEnt) :
    ∀ (b n o : Nat) (u : State), Place M s blk L b n o u →
      entriesAt blk L s.blocksize.toNat b n o = es →
      match es.find? fun e => decide (e.name = c) with
      | some e => ∃ k v, ∀ fuel, searchDir M i c (fuel + k) false u = some (sgn 32 e.inode, v)
      | none => ∃ k n' v, Place M s blk L (L - 1) n' s.blocksize.toNat v ∧
          ∀ fuel, searchDir M i c (fuel + k) false u = searchDir M i c fuel false v := by
  induction es with
  | nil =>
    intro b n o u h hes
    obtain ⟨rfl, rfl⟩ := hs.at_end hm h hes
    exact ⟨0, n, u, h, fun fuel => rfl⟩
  | cons e es ih =>
    intro b n o u h hes
    obtain ⟨b', n', o', v, hv, hne, hsame, hes'⟩ := hs.at_entry hm h hes
    have hfuel := searchDir_congr (c := c) hsame
    obtain ⟨e', n'', hcons, hino, hname, hnext⟩ := hv.entry hne
    obtain ⟨rfl, hrest⟩ := List.cons.inj (hes'.symm.trans hcons)
    have hoff : v.blockoffset = o' := hv.off
    have hlt : v.blockoffset < v.blocksize := by
      have := hv.fine.lt hne
      rw [hoff, hv.reads.keeps.mount.blocksize]
      omega
    have hstep := fun fuel => @searchDir_inside M i c fuel v hlt
    have hbuf : (nextEntry v).2.blkbuf = v.blkbuf := rfl
    rw [hoff, hbuf] at hstep
    by_cases hc : e.name = c
    · rw [List.find?_cons_of_pos (by simpa using hc)]
      refine ⟨1, (nextEntry v).2, fun fuel => ?_⟩
      rw [hfuel, hstep, if_pos ((hname c).mpr hc), hino]
    · rw [List.find?_cons_of_neg (by simpa using hc)]
      have hgo : ∀ fuel, searchDir M i c (fuel + 1) false u = searchDir M i c fuel false (nextEntry v).2 := by
        intro fuel
        rw [hfuel, hstep, if_neg fun h => hc ((hname c).mp h)]
      have hrun := ih _ _ _ _ hnext hrest.symm
      cases hf : es.find? fun e => decide (e.name = c) with
      | some e' =>
        rw [hf] at hrun
        obtain ⟨k, w, hw⟩ := hrun
        refine ⟨k + 1, w, fun fuel => ?_⟩
        rw [← Nat.add_assoc, hgo, hw]
      | none =>
        rw [hf] at hrun
        obtain ⟨k, m, w, hplace, hw⟩ := hrun
        refine ⟨k + 1, m, w, hplace, fun fuel => ?_⟩
        rw [← Nat.add_assoc, hgo, hw]

/-! ## the start and the end -/

theorem set_blockoffset {u : State} (h : u.blockoffset = 0) : { u with blockoffset := 0 } = u := by
  cases u
  cases h
  rfl

/-- the first entry is that of block 0 -/
theorem readdir_start (hd : Delivered M { s with diroffset := 0, blockoffset := 0 } i 0) :
    ext2_readdiri M i true s = ext2_readdiri M i false
      { (breadBlkbuf M i (0 : Nat) { s with diroffset := 0, blockoffset := 0 }).2 with blockoffset := 0 } := by
  have hret := hd.ret
  have hstep : ∀ u : State, ext2_readdiri M i false u = readdirStep M i u := fun u => if_neg (by decide)
  rw [set_blockoffset (breadBlkbuf_place _).2, hstep]
  unfold ext2_readdiri
  rw [if_pos rfl]
  exact if_neg (not_lt.mpr hret)

/-- at the end of the last block there is no further entry -/
theorem search_last (fuel : Nat) {u : State} (hoff : u.blockoffset = u.blocksize)
    (hdir : u.diroffset + u.blocksize = (i_size (u.inode_table i).inode : Int))
    (hint : i_size (u.inode_table i).inode < 2147483648) :
    ∃ v, searchDir M i c (fuel + 1) false u = some (-1, v) := by
  have hlt : i_size (u.inode_table i).inode < 4294967296 := Mem.le32_lt _ _
  have hsize : i_size (u.inode_table i).inode ≤ uns 32 (i_size (u.inode_table i).inode : Int) := by
    rw [uns32_natCast hlt]
  have hnext : sgn 32 (u.diroffset + u.blocksize) = (i_size (u.inode_table i).inode : Int) := by
    rw [hdir, sgn32_of_range (by omega) (by omega)]
  refine ⟨{ u with diroffset := sgn 32 (u.diroffset + u.blocksize) }, ?_⟩
  have hend : ext2_readdiri M i false u
      = (none, { u with diroffset := sgn 32 (u.diroffset + u.blocksize) }) := by
    unfold ext2_readdiri readdirStep nextDirBlock
    rw [if_neg (by decide), if_pos (by omega)]
    simp only
    rw [hnext, if_pos hsize]
  rw [searchDir, hend]

/-- in a block of zeros the search does not end -/
theorem search_zeros (hc : c ≠ []) {b : Nat} (hd : Delivered M s i b)
    (hbs : EXT2_MIN_BLOCK_SIZE ≤ s.blocksize) (hz : seenBlock M s i b = fun _ => 0) (fuel : Nat) :
    searchDir M i c fuel false { (breadBlkbuf M i b s).2 with blockoffset := 0 } = none := by
  have hmin : (1024 : Int) ≤ s.blocksize := hbs
  have hv : (breadBlkbuf M i b s).2.blocksize = s.blocksize :=
    (breadBlkbuf_reads M i b s).keeps.mount.blocksize
  apply search_zero hc fuel _ rfl
  · intro k hk
    show (breadBlkbuf M i b s).2.blkbuf k = 0
    rw [hd.buf k (by omega), hz]
  · show 0 < (breadBlkbuf M i b s).2.blocksize
    omega

theorem hasExtents_reads (h : Reads M s t) : hasExtents t i ↔ hasExtents s i := by
  unfold hasExtents
  rw [h.table.table]

theorem seenBlock_reads (h : Reads M s t) (b : Nat) : seenBlock M t i b = seenBlock M s i b := by
  unfold seenBlock
  rw [if_congr (hasExtents_reads h) rfl rfl, h.table.table, diskBlock_same h.keeps.mount,
    seenPtr_reads h]

theorem Asked.reads (h : Reads M s t) {b : Nat} (ha : Asked s i b) : Asked t i b := by
  unfold Asked at ha ⊢
  rwa [h.table.table, h.keeps.mount.blocksize]

theorem MapFine.reads (h : Reads M s t) {b : Nat} (hf : MapFine M s i b) : MapFine M t i b := by
  refine ⟨fun hne => (hf.map fun h' => hne ((hasExtents_reads h).mpr h')).reads h, fun he => ?_⟩
  rw [h.table.table]
  exact hf.extent ((hasExtents_reads h).mp he)

theorem reached_le (s : State) (i : Slot) (N : Nat) : reached s i N ≤ N := by
  refine (Nat.min_le_left _ _).trans ?_
  split
  · exact le_refl N
  · exact Nat.min_le_left _ _

theorem Tiled.asked {N b : Nat} (htl : Tiled M s i N) (hb : b < N) : Asked s i b := by
  left
  rw [htl.whole]
  exact Nat.mul_le_mul_right _ hb

section
variable {N : Nat} (hm : Mounted s) (hall : AllReads M s.dev) (htl : Scannable M s i N)
include hm hall htl

/-- a block of a tiled directory, from every state of the search -/
theorem Scannable.delivered {b : Nat} (ha : Asked s i b) (hb : hasExtents s i → b < N) (hr : Reads M s t)
    (hc : Coh M t) : Delivered M t i b := by
  have hd : AllReads M t.dev := by rw [hr.keeps.mount.dev]; exact hall
  refine Ext2.delivered (hm.same hr.keeps.mount) hc hd (ha.reads hr) (MapFine.reads hr ⟨?_, ?_⟩)
  · exact htl.map
  · intro hx
    obtain ⟨hch, -, hle⟩ := htl.extent hx
    exact ⟨hch, lt_of_lt_of_le (hb hx) hle⟩

theorem Scannable.scan : Scan M s i (dirBlock M s i) (reached s i N) where
  size := by
    rw [htl.whole]
    exact Nat.mul_le_mul_right _ (reached_le s i N)
  small b hb := (offset_small (by have := hm.blocksize_pos; omega)).mp (lt_min_iff.mp hb).2
  deliver b hb t hr hc := by
    have hbN : b < N := lt_of_lt_of_le hb (reached_le s i N)
    refine ⟨htl.delivered hm hall (htl.toTiled.asked hbN) (fun _ => hbN) hr hc, fun k hk => ?_⟩
    rw [seenBlock_reads hr, seenBlock_inside hm htl hb]
  chain b hb := htl.chain b (lt_of_lt_of_le hb (reached_le s i N))

/-! ## the whole search -/

/-- block 0 is asked for first -/
theorem Scannable.begins (hc : Coh M s) : Delivered M { s with diroffset := 0, blockoffset := 0 } i 0 := by
  have hask : Asked s i 0 := by
    by_cases hN : N = 0
    · right
      refine ⟨rfl, ?_⟩
      rw [htl.whole, hN, Nat.zero_mul]
    · exact htl.toTiled.asked (by omega)
  exact htl.delivered hm hall hask (fun hx => (htl.extent hx).2.1) (Reads.of_pos _ _ _ rfl) ⟨hc.iblk, hc.diblk⟩

/-- block 0 of an empty directory is a hole, in which the search does not end -/
theorem Scannable.search_empty (hc : Coh M s) (hne : c ≠ []) (hN : N = 0) (fuel : Nat) :
    searchDir M i c fuel true s = none := by
  have hreads : Reads M s { s with diroffset := 0, blockoffset := 0 } := Reads.of_pos _ _ _ rfl
  have hd := htl.begins hm hall hc
  have hx : ¬ hasExtents s i := fun hx => by
    have hpos := (htl.extent hx).2.1
    omega
  have hhole := htl.empty hN
  rw [if_neg hx] at hhole
  have hptr : seenPtr M s i (0 : Nat) = 0 := by
    unfold seenPtr
    rw [Nat.cast_zero, hhole, ite_self]
  have hz : seenBlock M { s with diroffset := 0, blockoffset := 0 } i 0 = fun _ => 0 := by
    rw [seenBlock_reads hreads, seenBlock, if_neg hx, if_pos hptr]
  rw [searchDir_congr (readdir_start hd)]
  exact search_zeros hne hd htl.blocksize hz fuel

omit hall in
/-- at the end of the last block the search ends -/
theorem Scannable.search_whole {b n : Nat} {v : State}
    (hv : Place M s (dirBlock M s i) (b + 1) b n s.blocksize.toNat v) (hN : N = b + 1)
    (hint : N * s.blocksize.toNat < 2147483648) : ∃ w, searchDir M i c 1 false v = some (-1, w) := by
  have hpos := hm.blocksize_pos
  have hvbs : v.blocksize = s.blocksize := hv.reads.keeps.mount.blocksize
  have hoff := hv.off
  have hsize : v.diroffset + v.blocksize = (i_size (v.inode_table i).inode : Int) := by
    rw [hv.dir, hvbs, hv.reads.table.table, htl.whole, hN, Nat.cast_mul, Int.toNat_of_nonneg hpos.le]
    push_cast
    ring
  exact search_last 0 (by omega) hsize (by rwa [hv.reads.table.table, htl.whole])

/-- past the last block that the block map comes to, it does not end -/
theorem Scannable.search_past (hne : c ≠ []) {b n : Nat} {v : State}
    (hv : Place M s (dirBlock M s i) (b + 1) b n s.blocksize.toNat v) (hb : reached s i N = b + 1)
    (hlt : b + 1 < N) (hint : (b + 1) * s.blocksize.toNat < 2147483648) (fuel : Nat) :
    searchDir M i c fuel false v = none := by
  have hpos := hm.blocksize_pos
  have hvbs : v.blocksize = s.blocksize := hv.reads.keeps.mount.blocksize
  have hoff := hv.off
  have hsmall := (offset_small (by omega)).mpr hint
  rw [reached] at hb
  have hx : ¬ hasExtents s i := fun hx => by
    rw [if_pos hx] at hb
    omega
  have hlast : 12 + ptrs s * ptrs s ≤ b + 1 := by
    rw [if_neg hx] at hb
    omega
  have hreads : Reads M s { v with diroffset := (b + 1 : Nat) * v.blocksize } :=
    hv.reads.trans (Reads.of_pos _ _ _ rfl)
  have hd := htl.delivered hm hall (htl.toTiled.asked hlt) (fun h => absurd h hx) hreads
    ⟨hv.coh.iblk, hv.coh.diblk⟩
  have hin : (b + 1) * v.blocksize.toNat < i_size (v.inode_table i).inode := by
    rw [hvbs, hv.reads.table.table, htl.whole]
    exact Nat.mul_lt_mul_of_pos_right hlt (by omega)
  have hdir : v.diroffset = b * v.blocksize := by rw [hv.dir, hvbs]
  have hz : seenBlock M { v with diroffset := (b + 1 : Nat) * v.blocksize } i (b + 1) = fun _ => 0 := by
    rw [seenBlock_reads hreads]
    exact seenBlock_past hm hx hlast
  have hbs : EXT2_MIN_BLOCK_SIZE ≤ v.blocksize := by
    rw [hvbs]
    exact htl.blocksize
  rw [searchDir_congr (readdir_cross (by omega) (by omega) hdir hin (by rwa [hvbs]) hd.ret)]
  exact search_zeros hne hd hbs hz fuel

/-- the search ends after some rounds, or never -/
theorem Scannable.search (hc : Coh M s) (hne : c ≠ []) :
    match (tiledEntries M s i (reached s i N)).find? fun e => decide (e.name = c) with
    | some e => ∃ fuel v, searchDir M i c fuel true s = some (sgn 32 e.inode, v)
    | none => reached s i N * s.blocksize.toNat < 2147483648 →
        (0 < N ∧ N ≤ reached s i N → ∃ fuel v, searchDir M i c fuel true s = some (-1, v)) ∧
        (¬ (0 < N ∧ N ≤ reached s i N) → ∀ fuel, searchDir M i c fuel true s = none) := by
  by_cases hN : N = 0
  · have hnil : tiledEntries M s i (reached s i N) = [] := by
      have h0 : reached s i N = 0 := Nat.le_zero.mp (hN ▸ reached_le s i N)
      rw [h0]
      rfl
    rw [hnil]
    exact fun _ => ⟨fun h => absurd h.1 (by omega), fun _ => htl.search_empty hm hall hc hne hN⟩
  · have hstart := readdir_start (htl.begins hm hall hc)
    have hs := htl.scan hm hall
    have hle := reached_le s i N
    obtain ⟨b, hb⟩ : ∃ b, reached s i N = b + 1 := by
      have hpos : 0 < reached s i N := by
        refine lt_min ?_ (Nat.succ_pos _)
        split <;> omega
      exact ⟨reached s i N - 1, by omega⟩
    have hreads : Reads M s { s with diroffset := 0, blockoffset := 0 } := Reads.of_pos _ _ _ rfl
    have hplace := (hs.place (b := 0) (by omega) hreads ⟨hc.iblk, hc.diblk⟩
      (by rw [Nat.cast_zero, zero_mul])).2
    have hrun := search_runs (c := c) hs hm _ _ _ _ _ hplace (entriesAt_zero _ (by omega))
    rw [← tiledEntries] at hrun
    cases hf : (tiledEntries M s i (reached s i N)).find? fun e => decide (e.name = c) with
    | some e =>
      rw [hf] at hrun
      obtain ⟨k, v, hv⟩ := hrun
      refine ⟨0 + k, v, ?_⟩
      rw [searchDir_congr hstart]
      exact hv 0
    | none =>
      rw [hf] at hrun
      obtain ⟨k, n, v, hv, hgo⟩ := hrun
      rw [hb, Nat.add_sub_cancel] at hv
      intro hint
      rw [hb] at hint
      constructor
      · rintro ⟨-, hin⟩
        have hN : N = b + 1 := by omega
        obtain ⟨w, hw⟩ := htl.search_whole hm (c := c) hv hN (hN ▸ hint)
        refine ⟨1 + k, w, ?_⟩
        rw [searchDir_congr hstart, hgo, hw]
      · intro hnot fuel
        cases hsome : searchDir M i c fuel true s with
        | none => rfl
        | some r =>
          have hmore := searchDir_mono (k := k) hsome
          rw [searchDir_congr hstart, hgo, htl.search_past hm hall hne hv hb (by omega) hint] at hmore
          cases hmore

end

/-! ## the first entry in use -/

theorem live_of_first {es : List DirEnt} {e : DirEnt}
    (h : es.find? (fun e => decide (e.name = c)) = some e) (h0 : e.inode ≠ 0) :
    liveEntry es c = some e.inode := by
  obtain ⟨hname, pre, post, rfl, hpre⟩ := List.find?_eq_some_iff_append.mp h
  have hnone : (pre.find? fun e => decide (e.inode ≠ 0 ∧ e.name = c)) = none := by
    rw [List.find?_eq_none]
    intro x hx hlive
    have hno := hpre x hx
    simp only [decide_eq_true_eq] at hlive
    simp [hlive.2] at hno
  unfold liveEntry
  rw [List.find?_append, hnone, Option.none_or, List.find?_cons_of_pos]
  · rfl
  · simpa [h0] using hname

theorem live_none {es : List DirEnt} (h : es.find? (fun e => decide (e.name = c)) = none) :
    liveEntry es c = none := by
  unfold liveEntry
  rw [Option.map_eq_none_iff, List.find?_eq_none]
  intro x hx hlive
  have hno := List.find?_eq_none.mp h x hx
  simp only [decide_eq_true_eq] at hlive
  exact hno (decide_eq_true hlive.2)

theorem mem_chain {blk : Mem} {bs n : Nat} : ∀ {o : Nat} {e : DirEnt}, e ∈ chain blk bs n o →
    ∃ o', e = entryAt blk o' := by
  induction n with
  | zero =>
    intro o e h
    cases h
  | succ n ih =>
    intro o e h
    rw [chain] at h
    split at h
    · cases h
    · rcases List.mem_cons.mp h with rfl | h
      · exact ⟨o, rfl⟩
      · exact ih h

/-- an inode number is a word of the block -/
theorem tiledEntries_word {N : Nat} {e : DirEnt} (h : e ∈ tiledEntries M s i N) : e.inode < 4294967296 := by
  obtain ⟨b, -, hb⟩ := List.mem_flatMap.mp h
  obtain ⟨o, rfl⟩ := mem_chain hb
  exact Mem.le32_lt _ _

theorem live_ne_zero {es : List DirEnt} {n : Nat} (h : liveEntry es c = some n) : n ≠ 0 := by
  obtain ⟨e, he, rfl⟩ := Option.map_eq_some_iff.mp h
  have hlive := List.find?_some he
  simp only [decide_eq_true_eq] at hlive
  exact hlive.1

/-- an entry of the first blocks is one of the directory -/
theorem tiledEntries_first {N L : Nat} (hL : L ≤ N) {e : DirEnt}
    (h : (tiledEntries M s i L).find? (fun e => decide (e.name = c)) = some e) :
    (tiledEntries M s i N).find? (fun e => decide (e.name = c)) = some e := by
  obtain ⟨k, rfl⟩ := Nat.exists_eq_add_of_le hL
  unfold tiledEntries at h ⊢
  rw [List.range_add, List.flatMap_append, List.find?_append, h, Option.some_or]

/-- a search that is refused finds nothing -/
theorem search_refused (h : Refused s i) : ∃ t, searchDir M i c 1 true s = some (-1, t) := by
  obtain ⟨hx, hno⟩ := h
  have hret : (breadBlkbuf M i (0 : Nat) { s with diroffset := 0, blockoffset := 0 }).1 = -1 := by
    have hext : extn_breadi M i (0 : Nat) 1 { s with diroffset := 0, blockoffset := 0 }
        = ext4_breadi M i (0 : Nat) (1 : Nat) { s with diroffset := 0, blockoffset := 0 } := if_pos hx
    show (extn_breadi M i (0 : Nat) 1 { s with diroffset := 0, blockoffset := 0 }).ret = -1
    rw [hext, ext4_breadi_refused (s := { s with diroffset := 0, blockoffset := 0 }) M 0 hno]
  have hend : ext2_readdiri M i true s
      = (none, (breadBlkbuf M i (0 : Nat) { s with diroffset := 0, blockoffset := 0 }).2) := by
    unfold ext2_readdiri
    rw [if_pos rfl]
    refine if_pos ?_
    show (breadBlkbuf M i (0 : Nat) _).1 < 0
    rw [hret]
    decide
  exact ⟨_, by rw [searchDir, hend]⟩

/-- the search of a directory that is read -/
theorem Scannable.looksUp_iff {N : Nat} (hm : Mounted s) (hc : Coh M s) (hall : AllReads M s.dev)
    (htl : Scannable M s i N) (hne : c ≠ []) (hover : ¬ Overflows M s i N c) :
    LooksUp M s i (tiledEntries M s i N) c ↔
      match (tiledEntries M s i (reached s i N)).find? fun e => decide (e.name = c) with
      | some e => 0 < e.inode ∧ e.inode < 2147483648
      | none => 0 < N ∧ N * s.blocksize.toNat < 2147483648 ∧ N ≤ reached s i N := by
  have hrun := htl.search hm hall hc hne
  have hle := reached_le s i N
  cases hf : (tiledEntries M s i (reached s i N)).find? fun e => decide (e.name = c) with
  | some e =>
    rw [hf] at hrun
    obtain ⟨fuel, v, hv⟩ := hrun
    have hfirst := tiledEntries_first hle hf
    have hlt : e.inode < 4294967296 := tiledEntries_word (List.mem_of_find?_eq_some hf)
    constructor
    · rintro ⟨fuel', r, t, hr, hsome, hneg⟩
      obtain ⟨hret, -⟩ := Prod.ext_iff.mp (searchDir_unique hr hv)
      simp only at hret
      rw [hret] at hsome hneg
      have hpos : e.inode ≠ 0 := by
        -- a deleted entry is found as inode 0, which no entry in use has
        intro h0
        rw [h0] at hsome
        exact live_ne_zero ((hsome 0).mp (sgn32_of_range (by decide) (by decide))) rfl
      refine ⟨by omega, ?_⟩
      by_contra hbig
      have hlive := live_of_first hfirst hpos
      obtain ⟨q, hq, hlo, hhi⟩ := sgn32_cases (e.inode : Int)
      have hnone := hneg.mp (by omega)
      rw [hlive] at hnone
      cases hnone
    · rintro ⟨hpos, hint⟩
      have hlive := live_of_first hfirst (by omega)
      rw [sgn32_of_range (by omega) (by omega)] at hv
      refine ⟨fuel, _, v, hv, fun n => ?_, ?_⟩
      · rw [hlive, Option.some.injEq]
        omega
      · rw [hlive]
        simp
  | none =>
    rw [hf] at hrun
    have hint : reached s i N * s.blocksize.toNat < 2147483648 := by
      by_contra hbig
      exact hover ⟨not_lt.mp hbig, hf⟩
    have hrun := hrun hint
    by_cases hin : 0 < N ∧ N ≤ reached s i N
    · obtain ⟨fuel, v, hv⟩ := hrun.1 hin
      have hN : reached s i N = N := by omega
      rw [hN] at hf hint
      have hlive := live_none hf
      refine iff_of_true ⟨fuel, -1, v, hv, fun n => ?_, ?_⟩ ⟨hin.1, hint, hin.2⟩
      · rw [hlive]
        simp
      · rw [hlive]
        simp
    · refine iff_of_false ?_ fun h => hin ⟨h.1, h.2.2⟩
      rintro ⟨fuel, r, t, hr, -⟩
      rw [hrun.2 hin fuel] at hr
      cases hr

/-- the root has a deleted entry `a`, then the file `a`, and the file `b` -/
def deletedDisk : Mem := Bytes.record
  [(1028, 64, 4), (1044, 1, 4), (1056, 8192, 4), (1064, 8, 4), (1080, 0xef53, 2), (2056, 5, 4),
   (5248, 0x41ed, 2), (5252, 1024, 4), (5276, 2, 4), (5288, 6, 4), (5376, 0x81a4, 2), (5504, 0x81a4, 2),
   (6144, 0, 4), (6148, 12, 2), (6150, 1, 1), (6152, 0x61, 1),
   (6156, 3, 4), (6160, 12, 2), (6162, 1, 1), (6164, 0x61, 1),
   (6168, 4, 4), (6172, 1000, 2), (6174, 1, 1), (6176, 0x62, 1)]

def deletedMachine : Machine :=
  Machine.faultless (fun _ x => deletedDisk x.toNat) (fun _ _ => 0) [⟨0, 1024, 0⟩]

/-- mounted, with the root in slot 0 -/
def deletedRoot : State := getRoot deletedMachine (ext2_mount deletedMachine 0 0 0 powerOn).2.2

theorem deletedRoot_mounted : Mounted deletedRoot :=
  ⟨by decide +kernel, by decide +kernel, by decide +kernel, by decide +kernel, by decide +kernel,
    by decide +kernel⟩

theorem deletedRoot_coh : Coh deletedMachine deletedRoot :=
  coh_of_empty _ (by decide +kernel) (by decide +kernel)

theorem deletedRoot_tiled : Tiled deletedMachine deletedRoot 0 1 where
  blocksize := by decide +kernel
  whole := by decide +kernel
  empty h := by cases h
  chain := by decide +kernel

theorem deletedRoot_map : ¬ Misread deletedMachine deletedRoot 0 := by
  have hx : ¬ hasExtents deletedRoot 0 := by decide +kernel
  unfold Misread
  rw [if_neg hx, not_not]
  exact .of_fin (P := 256) (by decide +kernel) (by decide +kernel) (by decide +kernel) (by decide +kernel)

end Ext2
