import Aboot.Options.Config
import Aboot.Ufs.BlockMap

/-!
# The end of a UFS file

`breadi` reads as many blocks as it is asked for: it does not look for the end of the file.

* `Geometry`, `blockSize`   a superblock, and the sizes of the blocks of a file;
* `breadi_spec`   what `breadi` returns: the sum of the sizes, as an `int`;
* `past_end_iff`  behind the end this is 0 only for whole blocks up to the direct ones;
* `readLoop`      the loops of `print_config_file` and `get_default_args`;
* `eof_iff`       when `breadi` gives an end of file, and when these loops end.
-/

set_option linter.unusedVariables false

namespace Ufs
open Word Raise

/-! ## the sizes of blocks -/

/-- a file system with blocks of `2 ^ b` bytes and fragments of `2 ^ f` bytes -/
structure Geometry (fs : Mem) (b f : Nat) : Prop where
  bsize : fs_bsize fs = 2 ^ b
  bmask : fs_bmask fs = -2 ^ b
  bshift : fs_bshift fs = b
  fsize : fs_fsize fs = 2 ^ f
  fmask : fs_fmask fs = -2 ^ f
  fshift : fs_fshift fs = f
  frag : f ≤ b

/-- the size of a block of a file of `S` bytes: a whole block, or the fragments at the end of a short
direct block -/
def blockSize (S b f lbn : Nat) : Nat :=
  if 12 ≤ lbn ∨ (lbn + 1) * 2 ^ b ≤ S then 2 ^ b else (S % 2 ^ b + 2 ^ f - 1) / 2 ^ f * 2 ^ f

/-- the sizes of `n` blocks -/
def total (S b f lbn n : Nat) : Nat := ((List.range n).map fun k => blockSize S b f (lbn + k)).sum

/-- the number of blocks of a file -/
def blocks (S b : Nat) : Nat := (S + 2 ^ b - 1) / 2 ^ b

theorem total_zero (S b f lbn : Nat) : total S b f lbn 0 = 0 := rfl

theorem total_add (S b f lbn m n : Nat) :
    total S b f lbn (m + n) = total S b f lbn m + total S b f (lbn + m) n := by
  unfold total
  rw [List.range_add, List.map_append, List.sum_append, List.map_map]
  congr 2
  apply List.map_congr_left
  intro k hk
  show blockSize S b f (lbn + (m + k)) = _
  rw [Nat.add_assoc]

theorem total_one (S b f lbn : Nat) : total S b f lbn 1 = blockSize S b f lbn := Nat.add_zero _

/-- fragments are rounded up to nothing only where there are no bytes -/
theorem roundup_pos_iff (n f : Nat) : 0 < (n + 2 ^ f - 1) / 2 ^ f * 2 ^ f ↔ n ≠ 0 := by
  have hpos : 0 < 2 ^ f := Nat.pow_pos (by decide)
  constructor
  · intro h h0
    rw [h0, Nat.zero_add, Nat.div_eq_of_lt (by omega), Nat.zero_mul] at h
    exact absurd h (Nat.lt_irrefl 0)
  · intro h0
    exact Nat.mul_pos (Nat.div_pos (by omega) hpos) hpos

/-- a block behind the end has no bytes in a file of whole blocks, up to the direct ones -/
theorem blockSize_past {S b f lbn : Nat} (h : blocks S b ≤ lbn) :
    blockSize S b f lbn = 0 ↔ 2 ^ b ∣ S ∧ lbn < 12 := by
  have hpos : 0 < 2 ^ b := Nat.pow_pos (by decide)
  have hshort : ¬ (lbn + 1) * 2 ^ b ≤ S := by
    rw [blocks, Nat.div_le_iff_le_mul_add_pred hpos] at h
    rw [Nat.add_mul, Nat.one_mul, Nat.mul_comm]
    omega
  have hround := roundup_pos_iff (S % 2 ^ b) f
  rw [Nat.dvd_iff_mod_eq_zero]
  unfold blockSize
  by_cases h12 : 12 ≤ lbn
  · rw [if_pos (.inl h12)]
    omega
  · rw [if_neg (not_or.mpr ⟨h12, hshort⟩)]
    omega

theorem total_eq_zero {S b f lbn n : Nat} :
    total S b f lbn n = 0 ↔ ∀ k, k < n → blockSize S b f (lbn + k) = 0 := by
  unfold total
  rw [List.sum_eq_zero_iff_forall_eq_nat]
  constructor
  · exact fun h k hk => h _ (List.mem_map_of_mem (List.mem_range.mpr hk))
  · intro h x hx
    obtain ⟨k, hk, rfl⟩ := List.mem_map.mp hx
    exact h k (List.mem_range.mp hk)

/-- behind the end, the sizes sum to 0 in whole blocks up to the direct ones; or they wrap around -/
theorem past_end_iff {S b f blkno nblks : Nat} (h : blocks S b ≤ blkno) :
    4294967296 ∣ total S b f blkno nblks ↔ nblks = 0 ∨ (2 ^ b ∣ S ∧ blkno + nblks ≤ 12) ∨
      (0 < total S b f blkno nblks ∧ 4294967296 ∣ total S b f blkno nblks) := by
  have hzero : total S b f blkno nblks = 0 ↔ nblks = 0 ∨ (2 ^ b ∣ S ∧ blkno + nblks ≤ 12) := by
    rw [total_eq_zero]
    constructor
    · intro hall
      by_cases h0 : nblks = 0
      · exact .inl h0
      · obtain ⟨hS, hlt⟩ := (blockSize_past (by omega)).mp (hall (nblks - 1) (by omega))
        exact .inr ⟨hS, by omega⟩
    · rintro (rfl | ⟨hS, hle⟩) k hk
      · exact absurd hk (Nat.not_lt_zero k)
      · exact (blockSize_past (by omega)).mpr ⟨hS, by omega⟩
  rw [← or_assoc, ← hzero]
  constructor
  · intro hd
    by_cases h0 : total S b f blkno nblks = 0
    · exact .inl h0
    · exact .inr ⟨Nat.pos_of_ne_zero h0, hd⟩
  · rintro (h0 | ⟨-, hd⟩)
    · rw [h0]
      exact dvd_zero _
    · exact hd

theorem Geometry.shift_le {fs : Mem} {b f : Nat} (h : Geometry fs b f) : b ≤ 30 := by
  obtain ⟨q, -, -, hlt⟩ := sgn32_cases (fs.le32 48)
  have hb : sgn 32 (fs.le32 48) = 2 ^ b := h.bsize
  rw [hb] at hlt
  by_contra hn
  have hle : (2 : Int) ^ 31 ≤ 2 ^ b := pow_le_pow_right₀ (by decide) (by omega)
  omega

theorem Geometry.pow_le {fs : Mem} {b f : Nat} (h : Geometry fs b f) :
    2 ^ b ≤ 1073741824 ∧ 2 ^ f ≤ 2 ^ b ∧ 0 < 2 ^ f :=
  ⟨Nat.pow_le_pow_right (by decide) h.shift_le, Nat.pow_le_pow_right (by decide) h.frag,
    Nat.pow_pos (by decide)⟩

section
variable {fs ic : Mem} {S b f : Nat}

theorem blkoff_eq (h : Geometry fs b f) (hS : S < 9223372036854775808) :
    blkoff fs S = (S % 2 ^ b : Nat) := by
  obtain ⟨hb, -, -⟩ := h.pow_le
  have hpos : 0 < 2 ^ b := Nat.pow_pos (by decide)
  have hmod := Nat.mod_lt S hpos
  have hmask : (-(fs_bmask fs) - 1 : Int) = (2 ^ b - 1 : Nat) := by
    rw [h.bmask]
    push_cast [hpos]
    omega
  unfold blkoff
  rw [hmask, uns64_natCast (n := S) (by omega), uns64_natCast (by omega), Nat.and_two_pow_sub_one_eq_mod]
  exact sgn64_natCast (by omega)

theorem fragroundup_eq (h : Geometry fs b f) {n : Nat} (hn : n < 2 ^ b) :
    fragroundup fs n = ((n + 2 ^ f - 1) / 2 ^ f * 2 ^ f : Nat) := by
  obtain ⟨hb, hf, hpos⟩ := h.pow_le
  have hsum : ((n : Int) + fs_fsize fs - 1) = (n + 2 ^ f - 1 : Nat) := by
    rw [h.fsize]
    push_cast [show 1 ≤ n + 2 ^ f by omega]
    omega
  have hmask : uns 64 (fs_fmask fs) = 2 ^ 64 - 2 ^ f := by
    have hcast : (-2 ^ f : Int) = -((2 ^ f : Nat) : Int) := by
      push_cast
      rfl
    rw [h.fmask, hcast]
    generalize 2 ^ f = p at hf hpos
    obtain ⟨q, hq, hlt⟩ := uns64_cases (-(p : Int))
    omega
  have hle : (n + 2 ^ f - 1) / 2 ^ f * 2 ^ f ≤ n + 2 ^ f - 1 := Nat.div_mul_le_self _ _
  unfold fragroundup
  rw [hsum, uns64_natCast (by omega), hmask,
    and_mask (show f ≤ 64 by have := h.shift_le; have := h.frag; omega) (by omega)]
  exact sgn64_natCast (by omega)

theorem i_size_lt (h : i_size ic = S) : S < 9223372036854775808 := by
  obtain ⟨q, -, -, hlt⟩ := sgn64_cases (ic.le64 8)
  have hS : sgn 64 (ic.le64 8) = S := h
  omega

/-- the test for a whole block does not overflow -/
theorem whole_iff (h : Geometry fs b f) {lbn : Int} (hlbn : -2147483648 ≤ lbn) :
    (NDADDR ≤ lbn ∨ sgn 64 ((lbn + 1) * shift (fs_bshift fs)) ≤ i_size ic) ↔
      12 ≤ lbn ∨ (lbn + 1) * 2 ^ b ≤ i_size ic := by
  obtain ⟨hb, -, -⟩ := h.pow_le
  have hshift : shift (fs_bshift fs) = ((2 ^ b : Nat) : Int) := by
    have hle := h.shift_le
    rw [h.bshift, shift, Nat.mod_eq_of_lt (by omega), Nat.cast_pow]
    rfl
  have hpow : (2 : Int) ^ b = ((2 ^ b : Nat) : Int) := by
    rw [Nat.cast_pow]
    rfl
  rw [hshift, hpow]
  generalize 2 ^ b = p at hb
  unfold NDADDR
  by_cases h12 : 12 ≤ lbn
  · exact iff_of_true (.inl h12) (.inl h12)
  have hge : -2147483648 * (p : Int) ≤ (lbn + 1) * p :=
    Int.mul_le_mul_of_nonneg_right (by omega) (Int.natCast_nonneg p)
  have hle : (lbn + 1) * (p : Int) ≤ 12 * p :=
    Int.mul_le_mul_of_nonneg_right (by omega) (Int.natCast_nonneg p)
  rw [sgn64_of_range (by omega) (by omega)]

/-- a block from 12 on, and one before the end, is whole -/
theorem blksize_whole (h : Geometry fs b f) {lbn : Int} (hlbn : -2147483648 ≤ lbn)
    (hw : 12 ≤ lbn ∨ (lbn + 1) * 2 ^ b ≤ i_size ic) : blksize fs ic lbn = 2 ^ b := by
  unfold blksize
  rw [if_pos ((whole_iff h hlbn).mpr hw)]
  exact h.bsize

/-- the end of a short file -/
theorem blksize_short (h : Geometry fs b f) (hS : i_size ic = S) {lbn : Int} (hlbn : -2147483648 ≤ lbn)
    (hw : ¬ (12 ≤ lbn ∨ (lbn + 1) * 2 ^ b ≤ S)) :
    blksize fs ic lbn = ((S % 2 ^ b + 2 ^ f - 1) / 2 ^ f * 2 ^ f : Nat) := by
  have hpos : 0 < 2 ^ b := Nat.pow_pos (by decide)
  rw [← hS] at hw
  unfold blksize
  rw [if_neg fun h' => hw ((whole_iff h hlbn).mp h'), hS, blkoff_eq h (i_size_lt hS)]
  exact fragroundup_eq h (Nat.mod_lt S hpos)

theorem blksize_eq (h : Geometry fs b f) (hS : i_size ic = S) (lbn : Nat) :
    blksize fs ic lbn = blockSize S b f lbn := by
  unfold blockSize
  have hiff : ((lbn : Int) + 1) * 2 ^ b ≤ S ↔ (lbn + 1) * 2 ^ b ≤ S := by exact_mod_cast Iff.rfl
  by_cases hw : 12 ≤ lbn ∨ (lbn + 1) * 2 ^ b ≤ S
  · rw [if_pos hw, blksize_whole h (by omega) (hw.imp (by omega) (by rw [hS]; exact hiff.mpr))]
    push_cast
    rfl
  · rw [if_neg hw, blksize_short h hS (by omega) fun h' => hw (h'.imp (by omega) hiff.mp)]

end

/-! ## the memory that a call takes -/

theorem Room.le {M : Machine} {size : Int} {m n p : Nat} (h : Room M size n p) (hle : m ≤ n) :
    Room M size m p := by
  induction hle with
  | refl => exact h
  | step _ ih => exact ih h.pred

/-- memory for `n` blocks is missing -/
def Short (M : Machine) (n : Nat) (c : Core) : Prop := ¬ Room M (fs_bsize c.fs) n c.free_mem_ptr

/-- the file is the same, and `n` blocks of memory are taken at most -/
structure Pays (M : Machine) (n : Nat) (c t : Core) : Prop where
  keep : Keep c t
  room : ∀ k, Room M (fs_bsize c.fs) (n + k) c.free_mem_ptr → Room M (fs_bsize c.fs) k t.free_mem_ptr

section
variable {M : Machine} {c t : Core} {m n : Nat}

theorem Short.le (h : Short M m c) (hle : m ≤ n) : Short M n c := fun hr => h (hr.le hle)

theorem Pays.refl (n : Nat) (c : Core) : Pays M n c c :=
  ⟨.refl c, fun k h => h.le (Nat.le_add_left k n)⟩

theorem Pays.trans {u : Core} (h : Pays M m c t) (h' : Pays M n t u) : Pays M (m + n) c u where
  keep := h.keep.trans h'.keep
  room k hk := by
    rw [Nat.add_assoc] at hk
    have h1 := h.room (n + k) hk
    rw [← h.keep.fs] at h1 ⊢
    exact h'.room k h1

theorem Pays.le (h : Pays M m c t) (hle : m ≤ n) : Pays M n c t :=
  ⟨h.keep, fun k hk => h.room k (hk.le (by omega))⟩

theorem Pays.short (h : Pays M m c t) (hs : Short M n t) : Short M (m + n) c := by
  intro hr
  have h1 := h.room n hr
  rw [← h.keep.fs] at h1
  exact hs h1

/-- a program that takes `n` blocks at most, or fails because they are missing -/
structure Paid (M : Machine) (n : Nat) {α : Type} (x : Run α) : Prop where
  ends : ∀ c, Ends x (fun _ t => Pays M n c t) (fun _ _ => Short M n c) c

section
variable {α β : Type} {x : Run α}

theorem Paid.pure (n : Nat) (a : α) : Paid M n (pure a : Run α) := ⟨fun c => .pure (.refl n c)⟩

theorem Paid.get {f : Core → Run α} (h : ∀ c, Paid M n (f c)) : Paid M n (get >>= f) :=
  ⟨fun c => .bind (.get ((h c).ends c))⟩

theorem Paid.ite {p : Prop} [Decidable p] {y : Run α} (hx : Paid M n x) (hy : Paid M n y) :
    Paid M n (if p then x else y) :=
  ⟨fun c => .ite (fun _ => hx.ends c) fun _ => hy.ends c⟩

theorem Paid.bind {f : α → Run β} (hx : Paid M m x) (hf : ∀ a, Paid M n (f a)) :
    Paid M (m + n) (x >>= f) := by
  refine ⟨fun c => (hx.ends c).seq (fun a t ht => ?_) fun e t hs => hs.le (Nat.le_add_right m n)⟩
  exact ((hf a).ends t).imp (fun b u hu => ht.trans hu) fun e u hs => ht.short hs

theorem Paid.le (h : Paid M m x) (hle : m ≤ n) : Paid M n x :=
  ⟨fun c => (h.ends c).imp (fun a t ht => ht.le hle) fun e t hs => hs.le hle⟩

end

theorem cons_read_paid (count offset : Int) : Paid M 0 (cons_read M count offset) :=
  ⟨fun c => .of_ok (cons_read_ok count offset) ⟨⟨rfl, rfl, rfl, rfl, rfl⟩, fun k h => by rwa [Nat.zero_add] at h⟩⟩

theorem fill_paid (hM : Succeeds M) (level : Nat) (n : Int) : Paid M 1 (fill M level n) := by
  unfold fill
  refine .get fun _ => .ite (.pure 1 _) ⟨fun c => ?_⟩
  by_cases hm : out_of_memory (malloc M.clusters c.free_mem_ptr (uns 64 (fs_bsize c.fs)))
  · exact .of_error (readIndex_error hm) fun hr => hr.1 hm
  · refine .of_ok (readIndex_ok hM hm) ⟨indexRead_keep, fun k hk => ?_⟩
    rw [Nat.add_comm] at hk
    exact hk.2

theorem mapFrom_paid (hM : Succeeds M) (level : Nat) : ∀ n k, Paid M (level + 1) (mapFrom M level n k) := by
  induction level with
  | zero =>
    intro n k
    unfold mapFrom
    show Paid M (1 + 0) _
    refine .ite (.pure _ _) (.bind (fill_paid hM 0 n) fun r => .ite ?_ (.pure 0 _))
    exact .get fun c => .pure 0 _
  | succ level ih =>
    intro n k
    unfold mapFrom
    rw [Nat.add_comm (level + 1) 1]
    refine .ite (.pure _ _) (.bind (fill_paid hM _ n) fun r => .ite ?_ (.pure _ _))
    exact .get fun c => ih _ _

theorem findLevel_lt {f : Nat → Int} (left : Nat) : ∀ {level l : Nat} {k k' : Int},
    findLevel f left level k = some (l, k') → l < level + left := by
  induction left with
  | zero =>
    intro level l k k' h
    cases h
  | succ left ih =>
    intro level l k k' h
    unfold findLevel at h
    split at h
    · obtain ⟨rfl, -⟩ := Prod.mk.inj (Option.some.inj h)
      omega
    · have := ih h
      omega

theorem block_map_paid (hM : Succeeds M) (fb : Int) : Paid M 3 (block_map M fb) := by
  unfold block_map
  refine .get fun c => .ite (.pure 3 _) ?_
  split
  · exact .pure 3 _
  · rename_i hfind
    have hlt : _ < 0 + 3 := findLevel_lt _ hfind
    exact (mapFrom_paid hM _ _ _).le (by omega)

end

/-! ## breadi -/

/-- the open file -/
structure OpenFile (S b f : Nat) (c : Core) : Prop where
  geometry : Geometry c.fs b f
  size : i_size c.file.i_ic = S

theorem OpenFile.keep {S b f : Nat} {c t : Core} (h : OpenFile S b f c) (hk : Keep c t) :
    OpenFile S b f t where
  geometry := by
    rw [hk.fs]
    exact h.geometry
  size := by
    rw [hk.i_ic]
    exact h.size

section
variable {M : Machine} (hM : Succeeds M) {S b f : Nat}

/-- a program on the core, in the whole state -/
theorem Paid.lift {α : Type} {n : Nat} {x : Run α} (h : Paid M n x) (s : State) :
    Ends (lift x) (fun _ t => Pays M n s.core t.core) (fun _ _ => Short M n s.core) s := by
  obtain ⟨a, c, hx, hc⟩ | ⟨e, c, hx, hc⟩ := (h.ends s.core).cases
  · refine .of_ok (a := a) (t := { s with core := c }) ?_ hc
    unfold Ufs.lift
    rw [hx]
  · refine .of_error (e := e) (t := { s with core := c }) ?_ hc
    unfold Ufs.lift
    rw [hx]

include hM

theorem map_spec (blkno : Int) (s : State) :
    Ends (map M blkno) (fun _ t => Pays M 3 s.core t.core) (fun _ _ => Short M 3 s.core) s := by
  unfold map
  apply Ends.bind
  apply Ends.modify
  exact (block_map_paid hM _).lift { s with calls := s.calls ++ [(s.core, sgn 32 blkno)] }

theorem group_spec (d : Int) (n : Nat) : ∀ (blkno : Nat) (nbytes ncontig : Int) (s : State),
    0 < n → OpenFile S b f s.core →
    Ends (group M d n blkno nbytes ncontig)
      (fun g t => ∃ m, 0 < m ∧ g.1 + m = n ∧ g.2.1 = (blkno + m : Nat) ∧
        g.2.2 = nbytes + total S b f blkno m ∧ Pays M (3 * m) s.core t.core)
      (fun _ _ => Short M (3 * n) s.core) s := by
  induction n with
  | zero =>
    intro blkno nbytes ncontig s hpos
    omega
  | succ n ih =>
    intro blkno nbytes ncontig s hpos hfile
    have hsize : blksize s.core.fs s.core.file.i_ic blkno = (total S b f blkno 1 : Nat) := by
      rw [total_one]
      exact blksize_eq hfile.geometry hfile.size blkno
    unfold group
    apply Ends.bind
    apply Ends.get
    dsimp only
    rw [hsize]
    apply Ends.ite
    · intro h0
      apply Ends.pure
      exact ⟨1, Nat.one_pos, by rw [h0], rfl, rfl, .refl _ _⟩
    · intro h0
      refine (map_spec hM (blkno + 1) s).seq (fun r t ht => ?_) fun e t hs => hs.le (by omega)
      apply Ends.ite
      · intro _
        have hnext := ih (blkno + 1) (nbytes + total S b f blkno 1)
          (ncontig + numfrags s.core.fs (total S b f blkno 1 : Nat)) t (Nat.pos_of_ne_zero h0)
          (hfile.keep ht.keep)
        refine hnext.imp (fun g u hg => ?_) fun e u hs => (ht.short hs).le (by omega)
        obtain ⟨m, hm, hn, hblk, hbytes, hpay⟩ := hg
        refine ⟨m + 1, Nat.succ_pos m, by omega, ?_, ?_, (ht.trans hpay).le (by omega)⟩
        · rw [hblk]
          congr 1
          omega
        · rw [hbytes, Nat.add_comm m 1, total_add]
          push_cast
          ring
      · intro _
        apply Ends.pure
        exact ⟨1, Nat.one_pos, rfl, rfl, rfl, ht⟩

theorem readGroup_spec (d nbytes : Int) (s : State) :
    Ends (readGroup M d nbytes) (fun r t => (∃ data, r = some data) ∧ Pays M 0 s.core t.core)
      (fun _ _ => False) s := by
  unfold readGroup
  apply Ends.ite
  · intro _
    exact .pure ⟨⟨_, rfl⟩, .refl 0 _⟩
  · intro _
    apply Ends.bind
    apply Ends.get
    refine Ends.seq (P := fun r t => r.ret = nbytes ∧ Pays M 0 s.core t.core) (E := fun _ _ => False) ?_ ?_
      fun e t h => h
    · exact .of_ok rfl ⟨hM _ _ _ _, ⟨rfl, rfl, rfl, rfl, rfl⟩, fun k h => by rwa [Nat.zero_add] at h⟩
    · rintro r t ⟨hr, ht⟩
      rw [if_neg (not_not.mpr hr)]
      exact .pure ⟨⟨_, rfl⟩, ht⟩

theorem breadiLoop_spec (rounds : Nat) : ∀ (nblks blkno : Nat) (tot : Int) (stored : List UInt8)
    (s : State), nblks ≤ rounds → OpenFile S b f s.core →
    Ends (breadiLoop M rounds nblks blkno tot stored)
      (fun r t => r.1 = sgn 32 (tot + total S b f blkno nblks) ∧ Pays M (6 * nblks) s.core t.core)
      (fun _ _ => Short M (6 * nblks) s.core) s := by
  induction rounds with
  | zero =>
    intro nblks blkno tot stored s hle hfile
    obtain rfl : nblks = 0 := by omega
    refine .pure ⟨?_, .refl _ _⟩
    rw [total_zero, Nat.cast_zero, Int.add_zero]
  | succ rounds ih =>
    intro nblks blkno tot stored s hle hfile
    unfold breadiLoop
    apply Ends.ite
    · rintro rfl
      refine .pure ⟨?_, .refl _ _⟩
      rw [total_zero, Nat.cast_zero, Int.add_zero]
    · intro h0
      refine (map_spec hM blkno s).seq (fun d t ht => ?_) fun e t hs => hs.le (by omega)
      refine (group_spec hM d nblks blkno 0 0 t (Nat.pos_of_ne_zero h0) (hfile.keep ht.keep)).seq
        (fun g u hg => ?_) fun e u hs => (ht.short hs).le (by omega)
      obtain ⟨m, hm, hn, hblk, hbytes, hpay⟩ := hg
      refine (readGroup_spec hM d g.2.2 u).seq (fun r v hr => ?_) fun e v h => h.elim
      obtain ⟨⟨data, rfl⟩, hv⟩ := hr
      have hsv := (ht.trans hpay).trans hv
      dsimp only
      rw [hblk, hbytes, Int.zero_add]
      refine (ih g.1 (blkno + m) _ _ v (by omega) (hfile.keep hsv.keep)).imp (fun r w hr => ?_)
        fun e w hs => (hsv.short hs).le (by omega)
      refine ⟨?_, (hsv.trans hr.2).le (by omega)⟩
      rw [hr.1, ← hn, Nat.add_comm g.1 m, total_add]
      congr 1
      push_cast
      ring

/-- what `breadi` returns: the sum of the sizes of the blocks, as an `int` -/
theorem breadi_spec (blkno nblks : Nat) {s : State} (hfile : OpenFile S b f s.core) :
    Ends (breadi M blkno nblks)
      (fun r t => r.1 = sgn 32 (total S b f blkno nblks) ∧ Pays M (6 * nblks) s.core t.core)
      (fun _ _ => Short M (6 * nblks) s.core) s := by
  refine (breadiLoop_spec hM nblks nblks blkno 0 [] s (Nat.le_refl _) hfile).mono fun r t hr => ?_
  rw [Int.zero_add] at hr
  exact hr

end

/-! ## one block -/

section
variable {M : Machine} (hM : Succeeds M) {S b f : Nat}

/-- a call for a direct block takes no memory -/
theorem map_keep (hM : Succeeds M) (blkno : Int) (s : State) :
    Ends (map M blkno) (fun _ t => Keep s.core t.core) (fun _ _ => NDADDR ≤ sgn 32 blkno) s := by
  by_cases hd : sgn 32 blkno < NDADDR
  · have hx : map M blkno s = .ok (s.core.i_db (sgn 32 blkno))
        { s with calls := s.calls ++ [(s.core, sgn 32 blkno)] } := by
      unfold map
      rw [bind_ok modify_ok]
      unfold lift block_map
      dsimp only
      rw [bind_ok get_ok, if_pos hd]
      rfl
    exact .of_ok hx (.refl _)
  · exact (map_spec hM blkno s).imp (fun _ _ h => h.keep) fun _ _ _ => not_lt.mp hd

theorem bread_one (hM : Succeeds M) (blkno : Int) (s : State) :
    Ends (ufs_bread M blkno 1)
      (fun r t => r.1 = sgn 32 (blksize s.core.fs s.core.file.i_ic blkno) ∧ Keep s.core t.core)
      (fun _ _ => NDADDR ≤ sgn 32 blkno) s := by
  unfold ufs_bread breadi breadiLoop
  rw [if_neg Nat.one_ne_zero]
  refine (map_keep hM blkno s).seq (fun d t ht => ?_) fun e t h => h
  have hgroup : group M d 1 blkno 0 0 t
      = .ok (0, blkno + 1, 0 + blksize t.core.fs t.core.file.i_ic blkno) t := by
    unfold group
    rw [bind_ok get_ok]
    dsimp only
    rw [if_pos rfl]
    rfl
  refine Ends.bind (.of_ok hgroup ?_)
  refine (readGroup_spec hM d _ t).seq (fun r u hr => ?_) fun e u h => h.elim
  obtain ⟨⟨data, rfl⟩, hu⟩ := hr
  unfold breadiLoop
  refine .pure ⟨?_, ht.trans hu.keep⟩
  rw [Int.zero_add, Int.zero_add, ht.fs, ht.i_ic]

/-- a block has no bytes only right behind a file of whole direct blocks -/
theorem size_pos_iff {c : Core} (h : OpenFile S b f c) {blkno : Int} (hblk : -2147483648 ≤ blkno) :
    0 < sgn 32 (blksize c.fs c.file.i_ic blkno) ↔
      ¬ (2 ^ b ∣ S ∧ ((S / 2 ^ b : Nat) : Int) ≤ blkno ∧ blkno < 12) := by
  obtain ⟨hb, hf, hfpos⟩ := h.geometry.pow_le
  have hbpos : 0 < 2 ^ b := Nat.pow_pos (by decide)
  have hpow : (2 : Int) ^ b = ((2 ^ b : Nat) : Int) := by
    rw [Nat.cast_pow]
    rfl
  by_cases hw : 12 ≤ blkno ∨ (blkno + 1) * 2 ^ b ≤ S
  · rw [blksize_whole h.geometry hblk (by rw [h.size]; exact hw), hpow,
      sgn32_of_range (by omega) (by omega)]
    refine iff_of_true (by omega) ?_
    rintro ⟨-, hle, h12⟩
    have hlt := hw.resolve_left (not_le.mpr h12)
    rw [hpow, ← Int.le_ediv_iff_mul_le (by exact_mod_cast hbpos), ← Int.natCast_ediv] at hlt
    omega
  · rw [blksize_short h.geometry h.size hblk hw]
    obtain ⟨h12, hlt⟩ := not_or.mp hw
    have hend : ((S / 2 ^ b : Nat) : Int) ≤ blkno := by
      rw [hpow, ← Int.le_ediv_iff_mul_le (by exact_mod_cast hbpos), ← Int.natCast_ediv] at hlt
      omega
    have hmod := Nat.mod_lt S hbpos
    have hle : (S % 2 ^ b + 2 ^ f - 1) / 2 ^ f * 2 ^ f ≤ S % 2 ^ b + 2 ^ f - 1 := Nat.div_mul_le_self _ _
    rw [sgn32_of_range (by omega) (by omega), Nat.dvd_iff_mod_eq_zero, Int.natCast_pos,
      roundup_pos_iff]
    constructor
    · exact fun h0 hd => h0 hd.1
    · exact fun h0 hd => h0 ⟨hd, hend, by omega⟩

end

/-! ## the callers -/

section
variable (M : Machine) {σ : Type} (f : List UInt8 → σ → σ) (stop : σ → Bool)

/-- `do { nread = bread(fd, blkno++, 1, buf); .. } while (nread > 0 && ..)`; `blkno` is an `int` -/
def readLoop : (fuel : Nat) → (blkno : Int) → σ → Prog σ
  | 0, _, _ => throw .fuel
  | fuel + 1, blkno, x => do
    let r ← ufs_bread M blkno 1
    if 0 < r.1 ∧ stop (f (r.2.take r.1.toNat) x) = false then
      readLoop fuel (sgn 32 (blkno + 1)) (f (r.2.take r.1.toNat) x)
    else pure (f (r.2.take r.1.toNat) x)

/-- the blocks from one on, as they are read one after the other -/
def firstBlocks : (k : Nat) → (blkno : Int) → Prog (List (List UInt8))
  | 0, _ => pure []
  | k + 1, blkno => do
    let r ← ufs_bread M blkno 1
    let bs ← firstBlocks k (sgn 32 (blkno + 1))
    pure (r.2.take r.1.toNat :: bs)

/-- the loop is left after one of the blocks -/
def stopsIn : List (List UInt8) → σ → Bool
  | [], _ => false
  | b :: bs, x => stop (f b x) || stopsIn bs (f b x)

/-- there is fuel enough -/
def Returns {α : Type} (x : (fuel : Nat) → Prog α) (s : State) : Prop := ∃ fuel a t, x fuel s = .ok a t

variable {M f stop}

/-- a round that is the last -/
theorem readLoop_last {fuel : Nat} {blkno : Int} {x : σ} {s t : State} {r : Int × List UInt8}
    (hr : ufs_bread M blkno 1 s = .ok r t) (h : ¬ (0 < r.1 ∧ stop (f (r.2.take r.1.toNat) x) = false)) :
    readLoop M f stop (fuel + 1) blkno x s = .ok (f (r.2.take r.1.toNat) x) t := by
  rw [readLoop, bind_ok hr, if_neg h]
  rfl

theorem readLoop_next {fuel : Nat} {blkno : Int} {x : σ} {s t : State} {r : Int × List UInt8}
    (hr : ufs_bread M blkno 1 s = .ok r t) (h : 0 < r.1 ∧ stop (f (r.2.take r.1.toNat) x) = false) :
    readLoop M f stop (fuel + 1) blkno x s
      = readLoop M f stop fuel (sgn 32 (blkno + 1)) (f (r.2.take r.1.toNat) x) t := by
  rw [readLoop, bind_ok hr, if_pos h]

theorem sgn32_ge (x : Int) : -2147483648 ≤ sgn 32 x := by
  obtain ⟨q, -, hge, -⟩ := sgn32_cases x
  exact hge

section
variable (hM : Succeeds M) {S b e : Nat}
include hM

/-- a loop that returns comes to the end of a file of whole direct blocks, or is left before -/
theorem readLoop_ends (fuel : Nat) : ∀ {blkno : Int} {x y : σ} {s t : State}, -2147483648 ≤ blkno →
    OpenFile S b e s.core → readLoop M f stop fuel blkno x s = .ok y t →
    (2 ^ b ∣ S ∧ S / 2 ^ b ≤ 11) ∨
      ∃ k bs u, firstBlocks M k blkno s = .ok bs u ∧ stopsIn f stop bs x = true := by
  induction fuel with
  | zero =>
    intro blkno x y s t _ _ h
    cases h
  | succ fuel ih =>
    intro blkno x y s t hblk hfile h
    rcases (bread_one hM blkno s).cases with ⟨r, u, hr, hret, hkeep⟩ | ⟨err, u, hr, -⟩
    · by_cases hend : 0 < r.1
      · by_cases hstop : stop (f (r.2.take r.1.toNat) x) = false
        · -- another round
          rw [readLoop_next hr ⟨hend, hstop⟩] at h
          rcases ih (sgn32_ge _) (hfile.keep hkeep) h with hdone | ⟨k, bs, v, hbs, hin⟩
          · exact .inl hdone
          · refine .inr ⟨k + 1, r.2.take r.1.toNat :: bs, v, ?_, ?_⟩
            · rw [firstBlocks, bind_ok hr, bind_ok hbs]
              rfl
            · rw [stopsIn, hin, Bool.or_true]
        · refine .inr ⟨1, [r.2.take r.1.toNat], u, ?_, ?_⟩
          · rw [firstBlocks, bind_ok hr, firstBlocks]
            rfl
          · rw [stopsIn, Bool.of_not_eq_false hstop, Bool.true_or]
      · rw [hret, size_pos_iff hfile hblk, not_not] at hend
        exact .inl ⟨hend.1, by omega⟩
    · rw [readLoop, bind_error hr] at h
      cases h

/-- a file of whole direct blocks: the loop returns -/
theorem readLoop_whole (hS : 2 ^ b ∣ S) (h11 : S / 2 ^ b ≤ 11) (d : Nat) : ∀ {j : Nat} {x : σ} {s : State},
    j + d = S / 2 ^ b → OpenFile S b e s.core →
    ∃ fuel y t, readLoop M f stop fuel j x s = .ok y t := by
  induction d with
  | zero =>
    intro j x s hj hfile
    rcases (bread_one hM j s).cases with ⟨r, u, hr, hret, hkeep⟩ | ⟨err, u, hr, hbig⟩
    · have hend : ¬ 0 < r.1 := by
        rw [hret, size_pos_iff hfile (by omega), not_not]
        exact ⟨hS, by omega, by omega⟩
      exact ⟨1, _, u, readLoop_last hr fun h => hend h.1⟩
    · unfold NDADDR at hbig
      rw [sgn32_of_range (by omega) (by omega)] at hbig
      omega
  | succ d ih =>
    intro j x s hj hfile
    rcases (bread_one hM j s).cases with ⟨r, u, hr, hret, hkeep⟩ | ⟨err, u, hr, hbig⟩
    · by_cases hnext : 0 < r.1 ∧ stop (f (r.2.take r.1.toNat) x) = false
      · obtain ⟨fuel, y, t, h⟩ := @ih (j + 1) (f (r.2.take r.1.toNat) x) u (by omega) (hfile.keep hkeep)
        refine ⟨fuel + 1, y, t, ?_⟩
        have hj1 : sgn 32 ((j : Int) + 1) = (j + 1 : Nat) := sgn32_of_range (by omega) (by omega)
        rw [readLoop_next hr hnext, hj1]
        exact h
      · exact ⟨1, _, u, readLoop_last hr hnext⟩
    · unfold NDADDR at hbig
      rw [sgn32_of_range (by omega) (by omega)] at hbig
      omega

omit hM in
/-- a loop that is left after one of the first blocks returns -/
theorem readLoop_stops (k : Nat) : ∀ {blkno : Int} {x : σ} {s u : State} {bs : List (List UInt8)},
    firstBlocks M k blkno s = .ok bs u → stopsIn f stop bs x = true →
    ∃ fuel y t, readLoop M f stop fuel blkno x s = .ok y t := by
  induction k with
  | zero =>
    intro blkno x s u bs hbs hin
    obtain ⟨rfl, -⟩ := EStateM.Result.ok.inj hbs
    cases hin
  | succ k ih =>
    intro blkno x s u bs hbs hin
    rw [firstBlocks] at hbs
    cases hr : ufs_bread M blkno 1 s with
    | error err v =>
      rw [bind_error hr] at hbs
      cases hbs
    | ok r v =>
      rw [bind_ok hr] at hbs
      cases hrest : firstBlocks M k (sgn 32 (blkno + 1)) v with
      | error err w =>
        rw [bind_error hrest] at hbs
        cases hbs
      | ok rest w =>
        rw [bind_ok hrest] at hbs
        obtain ⟨rfl, -⟩ := EStateM.Result.ok.inj hbs
        by_cases hnext : 0 < r.1 ∧ stop (f (r.2.take r.1.toNat) x) = false
        · rw [stopsIn, hnext.2, Bool.false_or] at hin
          obtain ⟨fuel, y, t, h⟩ := ih hrest hin
          exact ⟨fuel + 1, y, t, (readLoop_next hr hnext).trans h⟩
        · exact ⟨1, _, v, readLoop_last hr hnext⟩

theorem readLoop_returns_iff {x : σ} {s : State} (hfile : OpenFile S b e s.core) :
    Returns (fun fuel => readLoop M f stop fuel 0 x) s ↔ (2 ^ b ∣ S ∧ S / 2 ^ b ≤ 11) ∨
      ∃ k bs u, firstBlocks M k 0 s = .ok bs u ∧ stopsIn f stop bs x = true := by
  constructor
  · rintro ⟨fuel, y, t, h⟩
    exact readLoop_ends hM fuel (by decide) hfile h
  · rintro (⟨hS, h11⟩ | ⟨k, bs, u, hbs, hin⟩)
    · exact @readLoop_whole M σ f stop hM S b e hS h11 (S / 2 ^ b) 0 x s (Nat.zero_add _) hfile
    · exact readLoop_stops k hbs hin

end

end

/-- the places of the configuration file -/
def configs : List (List UInt8) :=
  ["/etc/aboot.conf", "/aboot.conf", "/etc/aboot.cfg", "/aboot.cfg"].map
    fun name => name.toList.map Char.toUInt8

section
variable (M : Machine)

/-- the descriptor of the first that is found, or that of the last try -/
def openFirst (fuel : Nat) : (names : List (List UInt8)) → (fd : Int) → Prog Int
  | [], fd => pure fd
  | name :: names, _ => do
    let fd ← ufs_open M fuel name
    if 0 ≤ fd then pure fd else openFirst fuel names fd

def open_config_file (fuel : Nat) : Prog Int := openFirst M fuel configs (-1)

/-- open the configuration file, and take a buffer for a block of it -/
def openConfig (fuel : Nat) (extra : Int) : Prog Int := do
  let fd ← open_config_file M fuel
  if fd < 0 then pure fd
  else do
    let s ← get
    let _ ← lift (alloc M (fs_bsize s.core.fs + extra))
    pure fd

/-- `print_config_file`: what is printed, `none` if the file is not found; `fuel₀` is for `ufs_open` -/
def print_config_file (fuel₀ fuel : Nat) : Prog (Option (List UInt8)) := do
  let fd ← openConfig M fuel₀ 1
  if fd < 0 then pure none
  else do
    let text ← readLoop M (fun b text => text ++ b.takeWhile (· ≠ 0)) (fun _ => false) fuel 0 []
    ufs_close
    pure (some text)

/-- `get_default_args`: what is stored in `str`, `none` for -1 -/
def get_default_args (num : UInt8) (fuel₀ fuel : Nat) : Prog (Option (List UInt8)) := do
  let fd ← openConfig M fuel₀ 0
  if fd < 0 then pure none
  else do
    let c ← readLoop M (Options.confBlock num) (fun c => c.state = .found) fuel 0 ⟨.eol, []⟩
    ufs_close
    pure (if c.state = .found then some c.str else none)

end

/-- the loop of `get_default_args` is left where a line, or an end mark, is found -/
theorem stopsIn_conf (num : UInt8) (bs : List (List UInt8)) : ∀ c : Options.Conf,
    stopsIn (Options.confBlock num) (fun c => c.state = .found) bs c = true ↔
      bs ≠ [] ∧ (Options.confBlocks num bs c).state = .found := by
  induction bs with
  | nil => exact fun c => iff_of_false Bool.false_ne_true fun h => h.1 rfl
  | cons b bs ih =>
    intro c
    rw [stopsIn, Bool.or_eq_true, ih, decide_eq_true_iff, Options.confBlocks]
    by_cases hf : (Options.confBlock num b c).state = .found
    · rw [if_pos hf]
      exact iff_of_true (.inl hf) ⟨List.cons_ne_nil _ _, hf⟩
    · rw [if_neg hf]
      cases bs with
      | nil => exact iff_of_false (fun h => h.elim hf fun h => h.1 rfl) fun h => hf h.2
      | cons b' bs =>
        constructor
        · exact fun h => ⟨List.cons_ne_nil _ _, (h.resolve_left hf).2⟩
        · exact fun h => .inr ⟨List.cons_ne_nil _ _, h.2⟩

theorem stopsIn_print (bs : List (List UInt8)) : ∀ text : List UInt8,
    stopsIn (fun b text => text ++ b.takeWhile (· ≠ 0)) (fun _ => false) bs text = false := by
  induction bs with
  | nil => exact fun text => rfl
  | cons b bs ih =>
    intro text
    rw [stopsIn, ih]
    rfl

/-- the file has, in what is looked at, the line for `num` or an end mark -/
def Claims (num : UInt8) (bs : List (List UInt8)) : Prop :=
  ∃ rest t, Options.Seen num (Options.shown bs) rest ∧ Options.Stands num rest t

theorem claims_iff (num : UInt8) (bs : List (List UInt8)) :
    stopsIn (Options.confBlock num) (fun c => c.state = .found) bs ⟨.eol, []⟩ = true ↔ Claims num bs := by
  rw [stopsIn_conf, Options.parse_blocks]
  constructor
  · exact fun h => Options.parse_stands h.2
  · rintro ⟨rest, t, hseen, hstands⟩
    have hfound : (Options.parse num (Options.shown bs) ⟨.eol, []⟩).state = .found := by
      rw [hseen.parse, hstands.parse]
    refine ⟨?_, hfound⟩
    rintro rfl
    cases hfound

/-- what a call of `breadi` should return: 0 behind the end, and the sum of the sizes before it -/
def Right (M : Machine) (S b f : Nat) (s : State) (blkno nblks : Nat) : Prop :=
  ∃ r t, ufs_bread M blkno nblks s = .ok r t ∧ (blocks S b ≤ blkno → r.1 = 0) ∧
    (blkno + nblks ≤ blocks S b → r.1 = total S b f blkno nblks)

section
variable {M : Machine} {S b f : Nat}

theorem right_iff (hM : Succeeds M) {s : State} (hfile : OpenFile S b f s.core) {blkno nblks : Nat}
    (hroom : Room M (fs_bsize s.core.fs) (6 * nblks) s.core.free_mem_ptr) :
    Right M S b f s blkno nblks ↔
      (blocks S b ≤ blkno → nblks = 0 ∨ (2 ^ b ∣ S ∧ blkno + nblks ≤ 12) ∨
        (0 < total S b f blkno nblks ∧ 4294967296 ∣ total S b f blkno nblks)) ∧
        (blkno + nblks ≤ blocks S b → total S b f blkno nblks < 2147483648) := by
  rcases (breadi_spec hM blkno nblks hfile).cases with ⟨r, t, hr, hret, -⟩ | ⟨e, t, -, hshort⟩
  · obtain ⟨q, hq, hge, hlt⟩ := sgn32_cases (total S b f blkno nblks)
    have hzero : r.1 = 0 ↔ 4294967296 ∣ total S b f blkno nblks := by
      rw [hret]
      omega
    have hsum : r.1 = total S b f blkno nblks ↔ total S b f blkno nblks < 2147483648 := by
      rw [hret]
      omega
    rw [← hsum, ← imp_congr_right fun h : blocks S b ≤ blkno => past_end_iff h, ← hzero]
    constructor
    · rintro ⟨r', t', hr', h⟩
      obtain ⟨rfl, -⟩ := EStateM.Result.ok.inj (hr.symm.trans hr')
      exact h
    · exact fun h => ⟨r, t, hr, h⟩
  · exact absurd hroom hshort

/-- a program that ends with a loop -/
theorem returns_bind {α β : Type} {x : Nat → Prog α} {g : α → Prog β} (hg : ∀ a s, ∃ c t, g a s = .ok c t)
    {s : State} : Returns (fun fuel => x fuel >>= g) s ↔ Returns x s := by
  constructor
  · rintro ⟨fuel, c, t, h⟩
    have hrun : (x fuel >>= g) s = .ok c t := h
    cases hx : x fuel s with
    | ok a u => exact ⟨fuel, a, u, hx⟩
    | error e u =>
      rw [bind_error hx] at hrun
      cases hrun
  · rintro ⟨fuel, a, u, hx⟩
    obtain ⟨c, t, h⟩ := hg a u
    exact ⟨fuel, c, t, (bind_ok hx).trans h⟩

/-- the file is open -/
theorem returns_open {α : Type} {x : Prog Int} {y : Prog α} {z : Nat → Prog α} {s₀ s : State} {fd : Int}
    (hx : x s₀ = .ok fd s) (hfd : 0 ≤ fd) :
    Returns (fun fuel => x >>= fun fd => if fd < 0 then y else z fuel) s₀ ↔ Returns z s := by
  have hstep : ∀ fuel, (x >>= fun fd => if fd < 0 then y else z fuel) s₀ = z fuel s := by
    intro fuel
    rw [bind_ok hx, if_neg (not_lt.mpr hfd)]
  constructor
  · rintro ⟨fuel, a, t, h⟩
    exact ⟨fuel, a, t, (hstep fuel).symm.trans h⟩
  · rintro ⟨fuel, a, t, h⟩
    exact ⟨fuel, a, t, (hstep fuel).trans h⟩

theorem print_config_file_returns (hM : Succeeds M) {fuel₀ : Nat} {s₀ s : State} {fd : Int}
    (hopen : openConfig M fuel₀ 1 s₀ = .ok fd s) (hfd : 0 ≤ fd) (hfile : OpenFile S b f s.core) :
    Returns (print_config_file M fuel₀) s₀ ↔ 2 ^ b ∣ S ∧ S / 2 ^ b ≤ 11 := by
  unfold print_config_file
  have hclose (text : List UInt8) (s : State) :
      ∃ c t, (do ufs_close; pure (some text) : Prog (Option (List UInt8))) s = .ok c t := ⟨_, _, rfl⟩
  rw [returns_open hopen hfd, returns_bind hclose, readLoop_returns_iff hM hfile]
  constructor
  · rintro (h | ⟨k, bs, u, -, hin⟩)
    · exact h
    · rw [stopsIn_print] at hin
      cases hin
  · exact .inl

theorem get_default_args_returns (hM : Succeeds M) {num : UInt8} {fuel₀ : Nat} {s₀ s : State} {fd : Int}
    (hopen : openConfig M fuel₀ 0 s₀ = .ok fd s) (hfd : 0 ≤ fd) (hfile : OpenFile S b f s.core) :
    Returns (get_default_args M num fuel₀) s₀ ↔ (2 ^ b ∣ S ∧ S / 2 ^ b ≤ 11) ∨
      ∃ k bs u, firstBlocks M k 0 s = .ok bs u ∧ Claims num bs := by
  unfold get_default_args
  have hclose (c : Options.Conf) (s : State) :
      ∃ r t, (do ufs_close; pure (if c.state = .found then some c.str else none) : Prog (Option (List UInt8))) s
        = .ok r t := ⟨_, _, rfl⟩
  rw [returns_open hopen hfd, returns_bind hclose, readLoop_returns_iff hM hfile]
  simp only [claims_iff]

/-- when `breadi` says that the file has ended, and gives its blocks before; and when the loops over the
blocks of a configuration file end -/
theorem eof_iff (hM : Succeeds M) :
    (∀ s, OpenFile S b f s.core → ∀ blkno nblks,
      Room M (fs_bsize s.core.fs) (6 * nblks) s.core.free_mem_ptr →
      (Right M S b f s blkno nblks ↔
        (blocks S b ≤ blkno → nblks = 0 ∨ (2 ^ b ∣ S ∧ blkno + nblks ≤ 12) ∨
          (0 < total S b f blkno nblks ∧ 4294967296 ∣ total S b f blkno nblks)) ∧
          (blkno + nblks ≤ blocks S b → total S b f blkno nblks < 2147483648))) ∧
      (∀ fuel₀ s₀ fd s, openConfig M fuel₀ 1 s₀ = .ok fd s → 0 ≤ fd → OpenFile S b f s.core →
        (Returns (print_config_file M fuel₀) s₀ ↔ 2 ^ b ∣ S ∧ S / 2 ^ b ≤ 11)) ∧
      ∀ num fuel₀ s₀ fd s, openConfig M fuel₀ 0 s₀ = .ok fd s → 0 ≤ fd → OpenFile S b f s.core →
        (Returns (get_default_args M num fuel₀) s₀ ↔ (2 ^ b ∣ S ∧ S / 2 ^ b ≤ 11) ∨
          ∃ k bs u, firstBlocks M k 0 s = .ok bs u ∧ Claims num bs) :=
  ⟨fun s hfile blkno nblks hroom => right_iff hM hfile hroom,
    fun fuel₀ s₀ fd s hopen hfd hfile => print_config_file_returns hM hopen hfd hfile,
    fun num fuel₀ s₀ fd s hopen hfd hfile => get_default_args_returns hM hopen hfd hfile⟩

end

/-! ## the directory of thirteen blocks -/

def thirteenOpened : State := stateOf (ufs_open thirteen 20 [slash] thirteenMounted)

theorem thirteen_file : OpenFile 53248 12 10 thirteenOpened.core where
  geometry := by
    constructor <;> decide +kernel
  size := by decide +kernel

theorem thirteen_room : Room thirteen (fs_bsize thirteenOpened.core.fs) 6 thirteenOpened.core.free_mem_ptr := by
  refine ⟨?_, ?_, ?_, ?_, ?_, ?_, trivial⟩ <;> decide +kernel

/-- the last block is given with its size -/
theorem thirteen_last : ∃ s, OpenFile 53248 12 10 s.core ∧ Right thirteen 53248 12 10 s 12 1 :=
  ⟨thirteenOpened, thirteen_file,
    ((eof_iff thirteen_succeeds).1 thirteenOpened thirteen_file 12 1 thirteen_room).mpr
      ⟨fun h => absurd h (by decide), fun _ => by decide⟩⟩

/-- the block behind the last is given as well -/
theorem breadi_endless : ¬ ∀ (M : Machine) (S b f : Nat), Succeeds M → ∀ s, OpenFile S b f s.core →
    ∀ blkno nblks, Room M (fs_bsize s.core.fs) (6 * nblks) s.core.free_mem_ptr →
      Right M S b f s blkno nblks := by
  intro hall
  have hright := hall thirteen 53248 12 10 thirteen_succeeds thirteenOpened thirteen_file 13 1 thirteen_room
  have hend := ((right_iff thirteen_succeeds thirteen_file thirteen_room).mp hright).1 (by decide)
  revert hend
  decide

end Ufs
