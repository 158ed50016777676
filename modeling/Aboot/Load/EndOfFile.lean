import Aboot.Ext2.Grouped
import Aboot.Iso.Impl

/-!
# The end of a file, for block reads

Both `ext2_breadi` and `iso_breadi` cut a request that ends past the file to
`(size + bs) / bs - blkno` blocks.  `due` is the number of bytes that there are to deliver.

* `cut_iff`          when the cut count is the right one;
* `breadi_eof_iff`   when the two drivers return exactly what is due: a size that is a multiple of the
                     block size gives one block too many, and a start past the end a negative count.
-/

set_option linter.unusedVariables false

namespace EndOfFile
open Word

/-! ## the cut -/

/-- the number of blocks of a file of `S` bytes -/
def blocks (S bs : Nat) : Nat := (S + bs - 1) / bs

/-- the number of bytes that a request for `n` blocks from block `b` on is to deliver -/
def due (S bs b n : Nat) : Nat := bs * min n (blocks S bs - b)

/-- the number of blocks that are read -/
def cut (S bs b n : Nat) : Int :=
  if (S : Int) < sgn 64 (((b : Int) + n) * bs) then ((S + bs) / bs : Nat) - (b : Int) else n

/-- the request does not end past the file, and its bytes are those that are due, as an `int` -/
def Within (S bs b n : Nat) : Prop :=
  sgn 64 (((b : Int) + n) * bs) ≤ S ∧ due S bs b n < 2147483648 ∧
    ((n * bs : Nat) : Int) % 4294967296 = due S bs b n % 4294967296

/-- the request ends past the file, and the cut is right: the last block is not full and the request
starts in the file or at its end; or the last block is full and the request starts one block past the
end -/
def Past (S bs b n : Nat) : Prop :=
  (S : Int) < sgn 64 (((b : Int) + n) * bs) ∧
    ((¬ bs ∣ S ∧ b ≤ blocks S bs ∧ (blocks S bs - b) * bs < 2147483648) ∨
      (bs ∣ S ∧ b = blocks S bs + 1))

theorem sgn32_eq_iff {x : Int} {d : Nat} :
    sgn 32 x = d ↔ d < 2147483648 ∧ x % 4294967296 = d % 4294967296 := by
  obtain ⟨q, h1, h2, h3⟩ := sgn32_cases x
  constructor
  · intro h
    omega
  · rintro ⟨h4, h5⟩
    omega

/-- a product as a signed word is not above it -/
theorem sgn64_le {x : Int} (h : 0 ≤ x) : sgn 64 x ≤ x := by
  obtain ⟨q, h1, h2, h3⟩ := sgn64_cases x
  omega

theorem add_div_self {S bs : Nat} (hb : 0 < bs) : (S + bs) / bs = S / bs + 1 :=
  Nat.add_div_right S hb

theorem blocks_of_dvd {S bs : Nat} (hb : 0 < bs) (h : bs ∣ S) : blocks S bs = S / bs := by
  obtain ⟨q, rfl⟩ := h
  have e : bs * q + bs - 1 = (bs - 1) + bs * q := by omega
  rw [blocks, e, Nat.add_mul_div_left _ _ hb, Nat.div_eq_of_lt (by omega),
    Nat.mul_div_cancel_left _ hb, Nat.zero_add]

theorem blocks_of_not_dvd {S bs : Nat} (hb : 0 < bs) (h : ¬ bs ∣ S) : blocks S bs = S / bs + 1 := by
  have hm := Nat.mod_lt S hb
  have hne : S % bs ≠ 0 := fun h0 => h (Nat.dvd_of_mod_eq_zero h0)
  have hd := Nat.div_add_mod S bs
  have e : S + bs - 1 = (S % bs - 1) + bs * (S / bs + 1) := by rw [Nat.mul_add]; omega
  rw [blocks, e, Nat.add_mul_div_left _ _ hb, Nat.div_eq_of_lt (by omega), Nat.zero_add]

/-- a request that ends past the file reaches its last block -/
theorem past_reaches {S bs b n : Nat} (hb : 0 < bs)
    (h : (S : Int) < sgn 64 (((b : Int) + n) * bs)) : S / bs + 1 ≤ b + n := by
  have hV : (0 : Int) ≤ ((b : Int) + n) * bs := mul_nonneg (by omega) (Int.natCast_nonneg bs)
  have hlt : (S : Int) < ((b + n) * bs : Nat) := by
    push_cast
    exact lt_of_lt_of_le h (sgn64_le hV)
  have hlt : S < (b + n) * bs := by exact_mod_cast hlt
  exact (Nat.div_lt_iff_lt_mul hb).mpr hlt

/-- a last block that is full: the count is one block more than is due -/
theorem cut_full {bs b n q : Nat} (hb : 0 < bs) (hb1 : bs ≤ 65536) (hr : q + 1 ≤ b + n) :
    (0 ≤ ((q + 1 : Nat) : Int) - b ∧
        sgn 32 ((((q + 1 : Nat) : Int) - b) * bs) = (bs * min n (q - b) : Nat)) ↔ b = q + 1 := by
  constructor
  · rintro ⟨h0, hs⟩
    by_contra hne
    obtain ⟨k, rfl⟩ : ∃ k, q = b + k := ⟨q - b, by omega⟩
    have e1 : ((b + k + 1 : Nat) : Int) - b = ((k + 1 : Nat) : Int) := by omega
    have e2 : min n (b + k - b) = k := by omega
    rw [e1, e2, ← Nat.cast_mul, sgn32_eq_iff, Nat.succ_mul, Nat.mul_comm bs k] at hs
    generalize k * bs = y at hs
    omega
  · rintro rfl
    have e1 : ((q + 1 : Nat) : Int) - ((q + 1 : Nat) : Int) = 0 := by omega
    have e2 : min n (q - (q + 1)) = 0 := by omega
    rw [e1, e2, zero_mul, Nat.mul_zero]
    exact ⟨le_refl _, rfl⟩

/-- a last block that is not full -/
theorem cut_partial {bs b n q : Nat} (hr : q + 1 ≤ b + n) :
    (0 ≤ ((q + 1 : Nat) : Int) - b ∧
        sgn 32 ((((q + 1 : Nat) : Int) - b) * bs) = (bs * min n (q + 1 - b) : Nat)) ↔
      b ≤ q + 1 ∧ (q + 1 - b) * bs < 2147483648 := by
  by_cases hle : b ≤ q + 1
  · obtain ⟨k, hk⟩ : ∃ k, q + 1 = b + k := ⟨q + 1 - b, by omega⟩
    have e1 : ((b + k : Nat) : Int) - b = (k : Int) := by omega
    have e2 : min n (b + k - b) = k := by omega
    have e3 : b + k - b = k := by omega
    rw [hk, e1, e2, e3, ← Nat.cast_mul, sgn32_eq_iff, Nat.mul_comm bs k]
    constructor
    · rintro ⟨-, h1, -⟩
      exact ⟨by omega, h1⟩
    · rintro ⟨-, h1⟩
      exact ⟨Int.natCast_nonneg k, h1, rfl⟩
  · constructor
    · rintro ⟨h0, -⟩
      omega
    · rintro ⟨h0, -⟩
      omega

/-- when the cut count is that of the bytes due -/
theorem cut_iff {S bs b n : Nat} (hb : 0 < bs) (hb1 : bs ≤ 65536) :
    (0 ≤ cut S bs b n ∧ sgn 32 (cut S bs b n * bs) = due S bs b n) ↔
      Within S bs b n ∨ Past S bs b n := by
  unfold cut Within Past
  by_cases h : (S : Int) < sgn 64 (((b : Int) + n) * bs)
  · have hr := past_reaches hb h
    rw [if_pos h, add_div_self hb]
    have hw : ¬ sgn 64 (((b : Int) + n) * bs) ≤ S := not_le.mpr h
    simp only [h, hw, false_and, true_and, false_or]
    unfold due
    by_cases hd : bs ∣ S
    · rw [blocks_of_dvd hb hd]
      simp only [hd, not_true, false_and, true_and, false_or]
      exact cut_full hb hb1 hr
    · rw [blocks_of_not_dvd hb hd]
      simp only [hd, not_false_eq_true, false_and, true_and, or_false]
      exact cut_partial hr
  · have hw : sgn 64 (((b : Int) + n) * bs) ≤ S := not_lt.mp h
    rw [if_neg h]
    simp only [h, hw, false_and, true_and, or_false]
    rw [sgn32_eq_iff]
    push_cast
    simp

/-! ## ext2_breadi -/

/-- a request of `ext2_breadi` is exact at the end of the file: the loop, which counts the blocks
down, comes to 0, no read has a negative length, and the bytes due are reported -/
structure Ext2Exact (M : Machine) (i : Ext2.Slot) (b n : Nat) (s : Ext2.State) : Prop where
  ends : ∃ k : Nat, Ext2.clampBlks s i b n - k = 0
  length : ∀ r ∈ Ext2.newLog s (Ext2.ext2_breadi M i b n s).st, 0 ≤ r.count
  ret : (Ext2.ext2_breadi M i b n s).ret
    = due (Ext2.i_size (s.inode_table i).inode) s.blocksize.toNat b n

theorem counts_down {c : Int} : (∃ k : Nat, c - k = 0) ↔ 0 ≤ c := by
  constructor
  · rintro ⟨k, hk⟩
    omega
  · intro h
    exact ⟨c.toNat, by omega⟩

/-- the count of `ext2_breadi`, where the size rounded up fits -/
theorem ext2_clamp {s : Ext2.State} (hm : Ext2.Mounted s) {i : Ext2.Slot} {b n : Nat}
    (h : Ext2.i_size (s.inode_table i).inode + s.blocksize.toNat < 4294967296 ∨
      sgn 64 (((b : Int) + n) * s.blocksize.toNat) ≤ Ext2.i_size (s.inode_table i).inode) :
    Ext2.clampBlks s i b n
      = cut (Ext2.i_size (s.inode_table i).inode) s.blocksize.toNat b n := by
  have hpos := hm.blocksize_pos
  have hle : s.blocksize ≤ 65536 := by
    have h1 := hm.small
    have h2 := hm.blocksize
    omega
  obtain ⟨B, hB⟩ := Int.eq_ofNat_of_zero_le hpos.le
  unfold Ext2.clampBlks cut
  rw [hB, Int.toNat_natCast] at h ⊢
  generalize Ext2.i_size (s.inode_table i).inode = S at h ⊢
  by_cases hp : (S : Int) < sgn 64 (((b : Int) + n) * B)
  · have hS : S + B < 4294967296 := h.resolve_right (not_le.mpr hp)
    have hB1 : uns 32 (B : Int) = B := uns32_natCast (by omega)
    have hB2 : uns 32 ((S : Int) + B) = S + B := by
      rw [← Nat.cast_add]
      exact uns32_natCast hS
    rw [if_pos hp, if_pos hp, hB1, hB2]
  · rw [if_neg hp, if_neg hp]

/-- the count of `ext2_breadi`, where the size rounded up does not fit -/
theorem ext2_clamp_wrap {s : Ext2.State} (hm : Ext2.Mounted s) {i : Ext2.Slot} {b n : Nat}
    (h : 4294967296 ≤ Ext2.i_size (s.inode_table i).inode + s.blocksize.toNat)
    (hp : (Ext2.i_size (s.inode_table i).inode : Int)
      < sgn 64 (((b : Int) + n) * s.blocksize.toNat)) :
    Ext2.clampBlks s i b n = -(b : Int) := by
  have hS : Ext2.i_size (s.inode_table i).inode < 4294967296 := Mem.le32_lt _ _
  have hpos := hm.blocksize_pos
  have hle : s.blocksize ≤ 65536 := by
    have h1 := hm.small
    have h2 := hm.blocksize
    omega
  obtain ⟨B, hB⟩ := Int.eq_ofNat_of_zero_le hpos.le
  unfold Ext2.clampBlks
  rw [hB, Int.toNat_natCast] at h hp
  rw [hB]
  generalize Ext2.i_size (s.inode_table i).inode = S at h hp hS ⊢
  have hB1 : uns 32 (B : Int) = B := uns32_natCast (by omega)
  have hB2 : uns 32 ((S : Int) + B) = S + B - 4294967296 := by
    obtain ⟨q, h1, h2⟩ := uns32_cases ((S : Int) + B)
    omega
  rw [if_pos hp, hB1, hB2, Nat.div_eq_of_lt (by omega)]
  omega

theorem ext2_clamp_lt {s : Ext2.State} {i : Ext2.Slot} {b n : Nat}
    (hn : n < 9223372036854775808) : Ext2.clampBlks s i b n < 18446744073709551616 := by
  unfold Ext2.clampBlks
  split
  · have h1 : uns 32 (Ext2.i_size (s.inode_table i).inode + s.blocksize) < 4294967296 :=
      (uns32_cases _).choose_spec.2
    have h2 := Nat.div_le_self (uns 32 (Ext2.i_size (s.inode_table i).inode + s.blocksize))
      (uns 32 s.blocksize)
    generalize uns 32 (Ext2.i_size (s.inode_table i).inode + s.blocksize) / uns 32 s.blocksize = x
      at h2 ⊢
    omega
  · omega

theorem ext2_exact_iff {M : Machine} {s : Ext2.State} (hm : Ext2.Mounted s)
    (hall : Ext2.AllReads M s.dev) (i : Ext2.Slot) {b n : Nat} (hn : n < 9223372036854775808) :
    Ext2Exact M i b n s ↔
      ¬ Ext2.hasExtents s i ∧
      (Within (Ext2.i_size (s.inode_table i).inode) s.blocksize.toNat b n ∨
        (Past (Ext2.i_size (s.inode_table i).inode) s.blocksize.toNat b n ∧
          Ext2.i_size (s.inode_table i).inode + s.blocksize.toNat < 4294967296)) := by
  have hpos := hm.blocksize_pos
  have hle : s.blocksize ≤ 65536 := by
    have h1 := hm.small
    have h2 := hm.blocksize
    omega
  have hcast : (s.blocksize.toNat : Int) = s.blocksize := Int.toNat_of_nonneg hpos.le
  by_cases hx : Ext2.hasExtents s i
  · have hret : (Ext2.ext2_breadi M i b n s).ret = -1 := by
      have hflag : Ext2.i_flags (s.inode_table i).inode &&& Ext2.EXT4_EXTENTS_FL ≠ 0 := hx
      rw [Ext2.ext2_breadi, if_pos hflag]
    constructor
    · rintro ⟨-, -, h⟩
      rw [hret] at h
      omega
    · rintro ⟨h, -⟩
      exact absurd hx h
  · have hflag : ¬ Ext2.i_flags (s.inode_table i).inode &&& Ext2.EXT4_EXTENTS_FL ≠ 0 := hx
    have hlog : ∀ r ∈ Ext2.newLog s (Ext2.ext2_breadi M i b n s).st, 0 ≤ r.count := by
      rw [Ext2.ext2_breadi, if_neg hflag]
      exact Ext2.breadLoop_logged _ _ _ _ s (fun _ _ _ _ _ hc => hc) hpos.le
    have hret : (Ext2.ext2_breadi M i b n s).ret
        = sgn 32 (uns 64 (Ext2.clampBlks s i b n) * s.blocksize) := by
      rw [Ext2.ext2_breadi, if_neg hflag, Ext2.breadLoop_ret hall hpos.le]
    have hlt := ext2_clamp_lt (s := s) (i := i) (b := b) hn
    have key : Ext2Exact M i b n s ↔ 0 ≤ Ext2.clampBlks s i b n ∧
        sgn 32 (Ext2.clampBlks s i b n * s.blocksize.toNat)
          = due (Ext2.i_size (s.inode_table i).inode) s.blocksize.toNat b n := by
      rw [hcast]
      constructor
      · rintro ⟨h1, -, h3⟩
        have h1 := counts_down.mp h1
        rw [hret, uns64_of_range h1 hlt] at h3
        exact ⟨h1, h3⟩
      · rintro ⟨h1, h3⟩
        refine ⟨counts_down.mpr h1, hlog, ?_⟩
        rw [hret, uns64_of_range h1 hlt]
        exact h3
    rw [key]
    by_cases hw : Ext2.i_size (s.inode_table i).inode + s.blocksize.toNat < 4294967296 ∨
        sgn 64 (((b : Int) + n) * s.blocksize.toNat) ≤ Ext2.i_size (s.inode_table i).inode
    · rw [ext2_clamp hm hw, cut_iff (by omega) (by omega)]
      constructor
      · rintro (h | h)
        · exact ⟨hx, Or.inl h⟩
        · exact ⟨hx, Or.inr ⟨h, hw.resolve_right (not_le.mpr h.1)⟩⟩
      · rintro ⟨-, h | h⟩
        · exact Or.inl h
        · exact Or.inr h.1
    · obtain ⟨hS, hp⟩ := not_or.mp hw
      have hp := not_le.mp hp
      rw [ext2_clamp_wrap hm (not_lt.mp hS) hp]
      constructor
      · rintro ⟨h0, h1⟩
        exfalso
        obtain rfl : b = 0 := by omega
        have hr : 1 ≤ 0 + n := le_trans (Nat.le_add_left 1 _) (past_reaches (by omega) hp)
        have hz : sgn 32 0 = 0 := rfl
        have hb1 : 0 < blocks (Ext2.i_size (s.inode_table i).inode) s.blocksize.toNat :=
          Nat.div_pos (by omega) (by omega)
        have hd : 0 < due (Ext2.i_size (s.inode_table i).inode) s.blocksize.toNat 0 n :=
          Nat.mul_pos (by omega) (by omega)
        rw [Nat.cast_zero, neg_zero, zero_mul, hz] at h1
        omega
      · rintro ⟨-, h | h⟩
        · exact absurd hp (not_lt.mpr h.1)
        · exact absurd h.2 hS

/-! ## iso_breadi -/

/-- a request of `iso_breadi` is exact at the end of the file -/
def IsoExact (E : Iso.Env) (i : Iso.Slot) (b n : Nat) (s : Iso.State) : Prop :=
  ∃ (ret : Int) (data : List UInt8) (t : Iso.State),
    Iso.iso_breadi E i b n s = some ((ret, data), t) ∧
      (∀ r ∈ t.log.drop s.log.length, 0 ≤ r.count) ∧
      ret = due (s.inode_table i).size s.sb.s_blocksize b n

/-- one request: nothing is read, or one read is issued -/
theorem iso_breadi_run {E : Iso.Env} {i : Iso.Slot} {b n : Nat} {s : Iso.State}
    (hall : ∀ t count offset, (E.read t s.cd_device count offset).ret = count) :
    ∃ (data : List UInt8) (t : Iso.State),
      Iso.iso_breadi E i b n s = some
        ((if (s.inode_table i).i_first_extent = 0 ∨ Iso.iso_bmap s i (sgn 32 b) = 0 then -1
          else sgn 32 (Iso.clampBlks s i b n * s.sb.s_blocksize), data), t) ∧
      (¬ ((s.inode_table i).i_first_extent = 0 ∨ Iso.iso_bmap s i (sgn 32 b) = 0) →
        ∃ offset ret, t.log = s.log ++ [⟨Iso.clampBlks s i b n * s.sb.s_blocksize, offset, ret⟩]) := by
  unfold Iso.iso_breadi
  rw [Prog.bind_run (Prog.get_run s)]
  by_cases h1 : (s.inode_table i).i_first_extent = 0
  · rw [if_pos h1]
    exact ⟨_, _, by rw [if_pos (Or.inl h1)]; rfl, fun h => absurd (Or.inl h1) h⟩
  · rw [if_neg h1]
    by_cases h2 : Iso.iso_bmap s i (sgn 32 b) = 0
    · rw [if_pos h2]
      exact ⟨_, _, by rw [if_pos (Or.inr h2)]; rfl, fun h => absurd (Or.inr h2) h⟩
    · rw [if_neg h2]
      have h : ¬ ((s.inode_table i).i_first_extent = 0 ∨ Iso.iso_bmap s i (sgn 32 b) = 0) := by
        rintro (h | h)
        · exact h1 h
        · exact h2 h
      rw [if_neg h]
      unfold Iso.iso_dev_read
      rw [Prog.bind_run (Prog.modifyGet_run _ s)]
      dsimp only
      rw [Prog.pure_run, hall]
      exact ⟨_, _, rfl, fun _ => ⟨_, _, rfl⟩⟩

theorem iso_exact_iff {E : Iso.Env} {s : Iso.State} (i : Iso.Slot) {b n : Nat}
    (hb : 0 < s.sb.s_blocksize) (hb1 : s.sb.s_blocksize ≤ 65536)
    (hall : ∀ t count offset, (E.read t s.cd_device count offset).ret = count) :
    IsoExact E i b n s ↔
      ((s.inode_table i).i_first_extent ≠ 0 ∧ Iso.iso_bmap s i (sgn 32 b) ≠ 0) ∧
      (Within (s.inode_table i).size s.sb.s_blocksize b n ∨
        Past (s.inode_table i).size s.sb.s_blocksize b n) := by
  have hclamp : Iso.clampBlks s i b n = cut (s.inode_table i).size s.sb.s_blocksize b n := by
    have hd : Int.tdiv (((s.inode_table i).size : Int) + s.sb.s_blocksize) s.sb.s_blocksize
        = (((s.inode_table i).size + s.sb.s_blocksize) / s.sb.s_blocksize : Nat) := by
      rw [Int.tdiv_eq_ediv_of_nonneg (by omega)]
      push_cast
      rfl
    rw [Iso.clampBlks, cut, hd]
  obtain ⟨data, t, hrun, hlog⟩ := iso_breadi_run (i := i) (b := b) (n := n) hall
  rw [← cut_iff hb hb1, ← hclamp]
  unfold IsoExact
  rw [hrun]
  by_cases h : (s.inode_table i).i_first_extent = 0 ∨ Iso.iso_bmap s i (sgn 32 b) = 0
  · rw [if_pos h]
    constructor
    · rintro ⟨ret, data', t', he, -, hr⟩
      rw [Option.some.injEq, Prod.mk.injEq, Prod.mk.injEq] at he
      rw [← he.1.1] at hr
      omega
    · rintro ⟨⟨h1, h2⟩, -⟩
      exact absurd h (by rintro (h | h); exacts [h1 h, h2 h])
  · rw [if_neg h]
    obtain ⟨offset, ret', hl⟩ := hlog h
    have hcount : (∀ r ∈ t.log.drop s.log.length, 0 ≤ r.count) ↔ 0 ≤ Iso.clampBlks s i b n := by
      rw [hl, List.drop_left]
      constructor
      · intro hr
        have := hr _ (List.mem_singleton_self _)
        exact nonneg_of_mul_nonneg_left this (by omega)
      · intro hr r hm
        rw [List.mem_singleton.mp hm]
        exact mul_nonneg hr (Int.natCast_nonneg _)
    have h' : (s.inode_table i).i_first_extent ≠ 0 ∧ Iso.iso_bmap s i (sgn 32 b) ≠ 0 :=
      not_or.mp h
    constructor
    · rintro ⟨ret, data', t', he, hr, hret⟩
      rw [Option.some.injEq, Prod.mk.injEq, Prod.mk.injEq] at he
      rw [← he.2, hcount] at hr
      rw [← he.1.1] at hret
      exact ⟨h', hr, hret⟩
    · rintro ⟨-, hr, hret⟩
      exact ⟨_, _, _, rfl, hcount.mpr hr, hret⟩

/-! ## the two drivers -/

/-- **When the end of a file is exact.**  With device reads that succeed, `ext2_breadi` and
`iso_breadi` end, issue no read of a negative length and return the bytes due exactly when the
request stays within the file, or ends past it and the cut is right; the size rounded up has to fit an
`unsigned int` in `ext2_breadi`, and in `iso_breadi` the file has an extent and its block number is
not 0. -/
theorem breadi_eof_iff (M : Machine) (s : Ext2.State) (hm : Ext2.Mounted s)
    (hall : Ext2.AllReads M s.dev) (i : Ext2.Slot) (E : Iso.Env) (t : Iso.State)
    (ht : t.sb.s_blocksize = 1024)
    (hall' : ∀ u count offset, (E.read u t.cd_device count offset).ret = count) (j : Iso.Slot)
    (b n : Nat) (hb : b < 9223372036854775808) (hn : n < 9223372036854775808) :
    (Ext2Exact M i b n s ↔
      ¬ Ext2.hasExtents s i ∧
      (Within (Ext2.i_size (s.inode_table i).inode) s.blocksize.toNat b n ∨
        (Past (Ext2.i_size (s.inode_table i).inode) s.blocksize.toNat b n ∧
          Ext2.i_size (s.inode_table i).inode + s.blocksize.toNat < 4294967296))) ∧
    (IsoExact E j b n t ↔
      ((t.inode_table j).i_first_extent ≠ 0 ∧ Iso.iso_bmap t j (sgn 32 b) ≠ 0) ∧
      (Within (t.inode_table j).size t.sb.s_blocksize b n ∨
        Past (t.inode_table j).size t.sb.s_blocksize b n)) :=
  ⟨ext2_exact_iff hm hall i hn, iso_exact_iff j (by omega) (by omega) hall'⟩

/-- a device whose reads all succeed, under the ISO reader -/
def isoEnv : Iso.Env :=
  { Machine.faultless (fun _ _ => 0) (fun _ _ => 0) [] with stack := fun _ _ => 0 }

/-- an open file of 1500 bytes, at sector 10 -/
def isoFile : Iso.State where
  inode_table _ := ⟨20480, 0, 0, false, 1500, 1, 0o100444⟩
  root_inode := 0
  sb := ⟨0, 11, 0, 'n'.toUInt8, true, 'n'.toUInt8, 1024, 10, 'n'.toUInt8⟩
  data_block := fun _ => 0
  big_data_block := fun _ => 0
  blockoffset := 0
  diroffset := 0
  cd_device := 0
  free_mem_ptr := 0
  log := []

instance (S bs b n : Nat) : Decidable (Within S bs b n) := inferInstanceAs (Decidable (_ ∧ _ ∧ _))
instance (S bs b n : Nat) : Decidable (Past S bs b n) := inferInstanceAs (Decidable (_ ∧ _))

/-- four blocks from block 1 on: within the small root, and past the end of a file of 1500 bytes -/
theorem breadi_eof_small :
    Ext2Exact Ext2.smallMachine 0 1 4 Ext2.smallOpened ∧ IsoExact isoEnv 0 1 4 isoFile := by
  have h := breadi_eof_iff Ext2.smallMachine Ext2.smallOpened Ext2.smallOpened_running.mounted.1
    (fun _ _ _ => rfl) 0 isoEnv isoFile rfl (fun _ _ _ => rfl) 0 1 4 (by omega) (by omega)
  exact ⟨h.1.mpr ⟨by decide +kernel, Or.inl (by decide +kernel)⟩,
    h.2.mpr ⟨by decide +kernel, Or.inr (by decide +kernel)⟩⟩

/-- the small root has 20 full blocks, and block 20 is read from past its end -/
theorem breadi_one_more : ¬ ((∀ (M : Machine) (s : Ext2.State), Ext2.Mounted s →
      Ext2.AllReads M s.dev → ∀ i : Ext2.Slot, ¬ Ext2.hasExtents s i → ∀ b n : Nat,
      b < 9223372036854775808 → n < 9223372036854775808 → Ext2Exact M i b n s) ∧
    ∀ (E : Iso.Env) (t : Iso.State), t.sb.s_blocksize = 1024 →
      (∀ u count offset, (E.read u t.cd_device count offset).ret = count) → ∀ (j : Iso.Slot)
      (b n : Nat), b < 9223372036854775808 → n < 9223372036854775808 → IsoExact E j b n t) := by
  rintro ⟨hall, -⟩
  have h := (hall Ext2.smallMachine Ext2.smallOpened Ext2.smallOpened_running.mounted.1
    (fun _ _ _ => rfl) 0 (by decide +kernel) 20 1 (by omega) (by omega)).ret
  have hne : (Ext2.ext2_breadi Ext2.smallMachine 0 (20 : Nat) (1 : Nat) Ext2.smallOpened).ret
      ≠ due (Ext2.i_size (Ext2.smallOpened.inode_table 0).inode)
        Ext2.smallOpened.blocksize.toNat 20 1 := by decide +kernel
  exact hne h

end EndOfFile
