import Aboot.E2.Alloc
import Aboot.E2.Search

/-!
# Runs of the allocator

* `mark_spec`       the end of an allocation: the bitmap is written and the counts are changed;
* `allocIn_spec`, `contiguousIn_spec`   one group;
* `firstGroup_spec` the loop over the groups;
* `bfree_spec`      freeing a block;
* `exec_spec`       one call;
* `allocator_counted`   every run of calls.
-/

set_option linter.unusedVariables false

namespace E2
open Word Bytes Bitmap
open Ext2 (s_blocks_count s_blocks_per_group s_inodes_per_group)

/-! ## one group -/

/-- a number of the file system as the `int` that is returned -/
theorem sgn32_number {x : Nat} (h1 : 1 ≤ x) (h2 : x < 4294967296) :
    sgn 32 (x : Int) ≠ 0 ∧ uns 32 (sgn 32 (x : Int)) = x := by
  obtain ⟨q, hq, hq1, hq2⟩ := sgn32_cases (x : Int)
  obtain ⟨r, hr, hr1⟩ := uns32_cases (sgn 32 (x : Int))
  constructor <;> omega

theorem Layout.sgn_map {s : State} (h : Layout s) {k : Kind} {i : Nat} (hg : s.Group k i) :
    sgn 32 (k.map s.gds i : Int) = k.map s.gds i := by
  have := h.reach k i hg
  exact sgn32_of_range (by omega) (by omega)

theorem Layout.map_reach {s : State} (h : Layout s) {k : Kind} {i : Nat} (hg : s.Group k i)
    {b : Bio.State} (hb : b.bio_blocksize = s.bio.bio_blocksize) :
    (k.map s.gds i + 1) * b.bio_blocksize ≤ 2147483648 := by
  rw [hb, h.blocksize]
  exact h.reach k i hg

/-- an allocation succeeds with the number `r` of the first of `n` -/
def Gave (k : Kind) (n : Nat) (s : State) (r : Int) (t : State) : Prop :=
  r ≠ 0 ∧ Ok t ∧ Took k (uns 32 r) n s t

/-- the end of an allocation, with the bitmap `m` in which `n` bits from `lo` on were set -/
theorem mark_spec {s : State} (h : Ok s) {k : Kind} {i : Nat} (lo n : Nat) (hg : s.Group k i) (hn : 1 ≤ n)
    (hle : lo + n ≤ k.size s.sb i) (hfree : ∀ j, lo ≤ j → j < lo + n → s.bit k i j = false) {m : Mem}
    (hm : ∀ j, Bitmap.bit m j = (s.bit k i j || decide (lo ≤ j ∧ j < lo + n)))
    {a : Nat → List UInt8} {b : Bio.State} {l : List Int} (ha : Bio.Held s.bio a) (hb : Bio.Held b a)
    (hbs : b.bio_blocksize = s.bio.bio_blocksize) :
    ∃ t, (do bwrite (sgn 32 (k.map s.gds i)) m
             modify (k.add i (-n))
             pure (some (sgn 32 (lo + i * k.per s.sb + 1 : Nat))) : Prog State (Option Int))
        (s.over b l) = some (some (sgn 32 (lo + i * k.per s.sb + 1 : Nat)), t) ∧
      Gave k n s (sgn 32 (lo + i * k.per s.sb + 1 : Nat)) t := by
  obtain ⟨b', hrun, hinv, hbs'⟩ := bwrite_run (s := s.over b l) hb (h.layout.first k i hg)
    (h.layout.map_reach hg hbs) m
  have hbs1 : b.bio_blocksize = 1024 := hbs.trans h.layout.blocksize
  have hold : ∀ j, s.bit k i j = Bitmap.bit (buffer (a (k.map s.gds i))) j := by
    intro j
    rw [State.bit, contents_eq ha]
  have hz : zeros m (k.size s.sb i) + n = Kind.free s.gds i k := by
    rw [h.counted.free k i hg.1, contents_eq ha]
    refine zeros_mark hle (fun j h1 h2 => ?_) (fun j h1 h2 => ?_) fun j _ hne => ?_
    · rw [← hold]
      exact hfree j h1 h2
    · rw [hm]
      simp [h1, h2]
    · rw [hm, hold]
      simp only [hne, decide_false, Bool.or_false]
  have hw := update_counted (d := -n) (m := m) (l := k.map s.gds i :: l) h.sound hg ha (hbs1 ▸ hinv) (hbs'.trans hbs1) (by omega)
    fun j h1 h2 => by
      rw [hm, h.counted.tail k i j hg h1 h2]
      rfl
  have hx : lo + i * k.per s.sb + 1 < 4294967296 := by
    have h1 := k.units_lt s.sb
    have h2 : k.size s.sb i ≤ k.units s.sb - i * k.per s.sb := Nat.min_le_right _ _
    omega
  obtain ⟨hne, huns⟩ := sgn32_number (x := lo + i * k.per s.sb + 1) (by omega) hx
  refine ⟨k.add i (-n) (s.over b' (k.map s.gds i :: l)), ?_, hne, hw.ok h, ?_⟩
  · rw [h.layout.sgn_map hg, Prog.bind_run hrun, Prog.bind_run (Prog.modify_run _ _)]
    rfl
  · rw [huns, Nat.add_comm lo]
    exact took_of_wrote hw h.layout.toPlan hg hle hfree fun j _ => hm j

/-- `ext2_balloc` and `ext2_ialloc` in one group: `slop` of them are left alone -/
def allocIn (k : Kind) (slop i : Nat) : Prog State (Option Int) := do
  let s ← get
  if Kind.free s.gds i k > slop then
    let map ← bread (sgn 32 (k.map s.gds i))
    let n := find_first_zero_bit map (k.per s.sb)
    if n = 0 ∨ n = k.per s.sb then pure none
    else
      bwrite (sgn 32 (k.map s.gds i)) (set_bit map n)
      modify (k.add i (-1))
      pure (some (sgn 32 (n + i * k.per s.sb + 1 : Nat)))
  else pure none

theorem ballocIn_eq (i : Nat) : ballocIn i = allocIn .block 0 i := rfl

theorem iallocIn_eq (i : Nat) : iallocIn i = allocIn .inode 4 i := rfl

/-- what one group gives: nothing, or `n` numbers -/
def GroupGave (k : Kind) (n : Nat) (s : State) (r : Option Int) (t : State) : Prop :=
  match r with
  | none => Ok t ∧ Quiet s t
  | some r => Gave k n s r t

theorem Ok.quiet_refl {s : State} (h : Ok s) : Ok s ∧ Quiet s s := ⟨h, rfl, rfl, rfl, rfl⟩

/-- a group with a free count has something in it -/
theorem Sound.group {s : State} (h : Sound s) {k : Kind} {i : Nat} (hi : i < s.groups)
    (hf : 0 < Kind.free s.gds i k) : s.Group k i :=
  ⟨hi, Nat.lt_of_lt_of_le hf (h.counted.free_le k hi)⟩

/-- a clear bit of a bitmap is below the end of the group -/
theorem Sound.clear_lt {s : State} (h : Sound s) {k : Kind} {i j : Nat} (hg : s.Group k i) (hj : j < 8192)
    (hb : s.bit k i j = false) : j < k.size s.sb i := by
  by_contra hn
  rw [h.counted.tail k i j hg (by omega) hj] at hb
  cases hb

theorem allocIn_spec {s : State} (h : Ok s) (k : Kind) (slop : Nat) {i : Nat} (hi : i < s.groups) :
    ∃ r t, allocIn k slop i s = some (r, t) ∧ GroupGave k 1 s r t := by
  unfold allocIn
  rw [Prog.bind_run (Prog.get_run s)]
  by_cases hf : Kind.free s.gds i k > slop
  swap
  · rw [if_neg hf]
    exact ⟨none, s, rfl, h.quiet_refl⟩
  rw [if_pos hf]
  have hg := h.sound.group hi (Nat.lt_of_le_of_lt (Nat.zero_le _) hf)
  obtain ⟨a, ha⟩ := h.coherent
  obtain ⟨b, hrun, hb, hbs⟩ := bread_run ha (h.layout.first k i hg) (h.layout.map_reach hg rfl)
  rw [← h.layout.sgn_map hg] at hrun
  rw [Prog.bind_run hrun]
  generalize hn : find_first_zero_bit (buffer (a (k.map s.gds i))) (k.per s.sb) = n
  by_cases hz : n = 0 ∨ n = k.per s.sb
  · rw [if_pos hz]
    exact ⟨none, _, rfl, h.read _ ha hb hbs⟩
  · rw [if_neg hz]
    have hspec := find_first_zero_bit_spec (buffer (a (k.map s.gds i))) (k.per s.sb)
      (fun e => hz (Or.inr (hn.symm.trans e)))
    rw [hn] at hspec
    have hclear : s.bit k i n = false := by
      rw [State.bit, contents_eq ha]
      exact hspec.2
    have hfit := h.layout.fits k
    have hlt := h.sound.clear_lt hg (by omega) hclear
    obtain ⟨t, ht, hgave⟩ := mark_spec (m := set_bit (buffer (a (k.map s.gds i))) n) h n 1
      hg (le_refl 1) (by omega) (fun j h1 h2 => by rwa [show j = n by omega])
      (fun j => by
        rw [bit_set_bit, State.bit, contents_eq ha]
        congr 2
        simp only [eq_iff_iff]
        omega) ha hb hbs
    exact ⟨_, t, ht, hgave⟩

/-- the number of words for `n` blocks, in an `int` -/
theorem longs_needed_eq {n : Nat} (hn : n < 2147483648) :
    sgn 32 ((uns 64 ((n : Int) + 31) / 32 : Nat) : Int) = (((n + 31) / 32 : Nat) : Int) := by
  have h : uns 64 ((n : Int) + 31) = n + 31 := by
    rw [show ((n : Int) + 31) = ((n + 31 : Nat) : Int) by push_cast; rfl]
    exact uns64_natCast (by omega)
  rw [h]
  exact sgn32_of_range (by omega) (by omega)

theorem contiguousIn_spec {s : State} (h : Ok s) {n : Nat} (hn : 1 ≤ n) (hlt : n < 2147483648)
    {i : Nat} (hi : i < s.groups) :
    ∃ r t, contiguousIn n i s = some (r, t) ∧ GroupGave .block n s r t := by
  unfold contiguousIn
  rw [Prog.bind_run (Prog.get_run s)]
  simp only [longs_needed_eq hlt]
  by_cases hf : (n : Int) ≤ bg_free_blocks_count s.gds i
  swap
  · rw [if_neg hf]
    exact ⟨none, s, rfl, h.quiet_refl⟩
  rw [if_pos hf]
  have hfree : 0 < Kind.free s.gds i .block := by
    show 0 < bg_free_blocks_count s.gds i
    omega
  have hg := h.sound.group hi hfree
  obtain ⟨a, ha⟩ := h.coherent
  obtain ⟨b, hrun, hb, hbs⟩ := bread_run ha (h.layout.first .block i hg) (h.layout.map_reach hg rfl)
  rw [← h.layout.sgn_map hg] at hrun
  rw [Prog.bind_run (show bread (sgn 32 (bg_block_bitmap s.gds i : Int)) s = _ from hrun)]
  generalize hfirst : findRun (buffer (a (Kind.block.map s.gds i))) ((n + 31) / 32 : Nat)
    (s_blocks_per_group s.sb / 32) (s_blocks_per_group s.sb / 32 + 1) 0 = first
  by_cases hnone : first = s_blocks_per_group s.sb / 32
  · rw [if_pos hnone]
    exact ⟨none, _, rfl, h.read _ ha hb hbs⟩
  · rw [if_neg hnone]
    have hlen : runLength ((n + 31) / 32 : Nat) = (n + 31) / 32 := by
      unfold runLength
      omega
    have hclearRun : Runs.Run (Clear (buffer (a (Kind.block.map s.gds i)))) ((n + 31) / 32)
        (s_blocks_per_group s.sb / 32) first := by
      rcases findRun_first (buffer (a (Kind.block.map s.gds i))) ((n + 31) / 32 : Nat)
        (s_blocks_per_group s.sb / 32) with ⟨hend, -⟩ | ⟨-, hfound, -⟩
      · exact absurd (hfirst.symm.trans hend) hnone
      · rwa [hlen, hfirst] at hfound
    have hrange := hclearRun.1
    have hfit : s_blocks_per_group s.sb ≤ 8192 := h.layout.fits .block
    have hclear : ∀ j, first * 32 ≤ j → j < first * 32 + n → s.bit .block i j = false := by
      intro j h1 h2
      rw [State.bit, contents_eq ha]
      exact bit_of_run hclearRun h1 (by omega)
    have hend := h.sound.clear_lt hg (j := first * 32 + n - 1) (by omega)
      (hclear _ (by omega) (by omega))
    obtain ⟨t, ht, hgave⟩ := mark_spec
      (m := setBits (buffer (a (Kind.block.map s.gds i))) (first * 32) n) h (first * 32) n hg hn (by omega) hclear
      (fun j => by rw [bit_setBits, State.bit, contents_eq ha]) ha hb hbs
    rw [Int.toNat_natCast]
    exact ⟨_, t, ht, hgave⟩

/-! ## the loop over the groups -/

theorem firstGroup_spec {f : Nat → Prog State (Option Int)} {k : Kind} {n : Nat}
    (hf : ∀ i s, Ok s → i < s.groups → ∃ r t, f i s = some (r, t) ∧ GroupGave k n s r t) (l : List Nat) :
    ∀ s, Ok s → (∀ i ∈ l, i < s.groups) → ∃ r t, firstGroup f l s = some (r, t) ∧
      ((r = 0 ∧ Ok t ∧ Quiet s t) ∨ Gave k n s r t) := by
  induction l with
  | nil =>
    intro s h _
    exact ⟨0, s, rfl, Or.inl ⟨rfl, h.quiet_refl⟩⟩
  | cons i l ih =>
    intro s h hl
    obtain ⟨r, t, ht, hgave⟩ := hf i s h (hl i List.mem_cons_self)
    unfold firstGroup
    rw [Prog.bind_run ht]
    cases r with
    | some r => exact ⟨r, t, rfl, Or.inr hgave⟩
    | none =>
      obtain ⟨hok, hq⟩ := hgave
      obtain ⟨r', u, hu, hres⟩ := ih t hok fun j hj => by
        rw [hq.groups]
        exact hl j (List.mem_cons_of_mem _ hj)
      refine ⟨r', u, hu, ?_⟩
      rcases hres with ⟨h0, hok', hq'⟩ | ⟨h0, hok', htook⟩
      · exact Or.inl ⟨h0, hok', hq.trans hq'⟩
      · exact Or.inr ⟨h0, hok', hq.took htook⟩

/-! ## freeing a block -/

theorem uns32_pred {blk : Int} (h : 1 ≤ uns 32 blk) : uns 32 (blk - 1) = uns 32 blk - 1 := by
  obtain ⟨q, hq, hq1⟩ := uns32_cases blk
  obtain ⟨r, hr, hr1⟩ := uns32_cases (blk - 1)
  omega

theorem bfree_spec {s : State} (h : Ok s) {blk : Int} (hb : s.Number .block (uns 32 blk))
    (hu : s.used .block (uns 32 blk) = true) :
    ∃ t, ext2_bfree blk s = some ((), t) ∧ Ok t ∧ Freed .block (uns 32 blk) s t := by
  obtain ⟨hb1, hb2, hb3⟩ := hb
  have hper : Kind.per s.sb .block = s_blocks_per_group s.sb := rfl
  have hpos := h.layout.pos .block
  have hfit := h.layout.fits .block
  have hsplit := Nat.div_add_mod (uns 32 blk - 1) (Kind.per s.sb .block)
  have hmodlt := Nat.mod_lt (uns 32 blk - 1) hpos
  unfold ext2_bfree
  rw [Prog.bind_run (Prog.get_run s)]
  simp only [uns32_pred hb1, ← hper]
  unfold State.used at hu
  generalize hi : (uns 32 blk - 1) / Kind.per s.sb .block = i at hb2 hb3 hu hsplit ⊢
  generalize hj : (uns 32 blk - 1) % Kind.per s.sb .block = j at hb3 hu hsplit hmodlt ⊢
  have hg : s.Group .block i := ⟨hb2, by omega⟩
  obtain ⟨a, ha⟩ := h.coherent
  obtain ⟨b, hrun, hinv, hbs⟩ := bread_run ha (h.layout.first .block i hg) (h.layout.map_reach hg rfl)
  obtain ⟨b', hrun', hinv', hbs'⟩ := bwrite_run (s := s.over b (Kind.block.map s.gds i :: s.asked)) hinv
    (h.layout.first .block i hg) (h.layout.map_reach hg hbs)
    (clear_bit (buffer (a (Kind.block.map s.gds i))) j)
  have hbs1 : b.bio_blocksize = 1024 := hbs.trans h.layout.blocksize
  have hold : ∀ j, s.bit .block i j = Bitmap.bit (buffer (a (Kind.block.map s.gds i))) j := by
    intro j
    rw [State.bit, contents_eq ha]
  have hnew : ∀ j', Bitmap.bit (clear_bit (buffer (a (Kind.block.map s.gds i))) j) j'
      = (s.bit .block i j' && decide (j' ≠ j)) := by
    intro j'
    rw [bit_clear_bit, hold]
  have hz : zeros (clear_bit (buffer (a (Kind.block.map s.gds i))) j) (Kind.block.size s.sb i)
      = Kind.free s.gds i .block + 1 := by
    rw [h.counted.free .block i hg.1, contents_eq ha]
    refine zeros_clear hb3 ?_ ?_ fun j' _ hne => ?_
    · rw [← hold]
      exact hu
    · rw [hnew]
      simp
    · rw [hnew, hold]
      simp [hne]
  have hw := update_counted (d := 1)
    (l := Kind.block.map s.gds i :: Kind.block.map s.gds i :: s.asked) h.sound hg ha (hbs1 ▸ hinv') (hbs'.trans hbs1)
    (by rw [hz]; push_cast; rfl) fun j' h1 h2 => by
      have hne : j' ≠ j := by omega
      rw [hnew, h.counted.tail .block i j' hg h1 h2]
      simp [hne]
  refine ⟨Kind.block.add i 1 (s.over b'
    (Kind.block.map s.gds i :: Kind.block.map s.gds i :: s.asked)), ?_, hw.ok h, ?_, ?_, ?_⟩
  · have hsgn := h.layout.sgn_map hg
    rw [show bg_block_bitmap s.gds i = Kind.block.map s.gds i from rfl, hsgn, Prog.bind_run hrun,
      Prog.bind_run hrun']
    rfl
  · rw [State.used, hi, hj]
    exact hu
  · rw [State.used, hw.shape.per, hi, hj, hw.bit j (by omega), hnew]
    simp
  · intro k' i' j' hg' hj' hne
    by_cases e : k' = .block ∧ i' = i
    · obtain ⟨rfl, rfl⟩ := e
      have hjj : j' ≠ j := by
        intro e
        apply hne
        refine ⟨rfl, by omega, ?_⟩
        rw [e, Nat.mul_comm]
        omega
      rw [hw.bit j' hj', hnew]
      simp [hjj]
    · exact hw.rest k' i' j' hg' e

/-! ## runs of calls -/

inductive Op where
  | balloc
  | contiguous_balloc (nblocks : Int)
  | bfree (blk : Int)
  | ialloc

def exec : Op → Prog State Int
  | .balloc => ext2_balloc
  | .contiguous_balloc n => ext2_contiguous_balloc n
  | .bfree blk => do
    ext2_bfree blk
    pure 0
  | .ialloc => ext2_ialloc

/-- one block at least is asked for, and only a block that is allocated is freed -/
def Allowed (s : State) : Op → Prop
  | .contiguous_balloc n => 1 ≤ n ∧ n < 2147483648
  | .bfree blk => s.Number .block (uns 32 blk) ∧ s.used .block (uns 32 blk) = true
  | _ => True

/-- no bit of a bitmap changes -/
def SameBits (s t : State) : Prop :=
  ∀ k i j, s.Group k i → j < 8192 → t.bit k i j = s.bit k i j

/-- what a call that returns `r` has done to the bitmaps -/
def Effect (s : State) (r : Int) (t : State) : Op → Prop
  | .balloc => if r = 0 then SameBits s t else Took .block (uns 32 r) 1 s t
  | .contiguous_balloc n => if r = 0 then SameBits s t else Took .block (uns 32 r) n.toNat s t
  | .bfree blk => Freed .block (uns 32 blk) s t
  | .ialloc => if r = 0 then SameBits s t else Took .inode (uns 32 r) 1 s t

/-- the outcome of the loop, as an effect -/
theorem effect_of {k : Kind} {n : Nat} {s t : State} {r : Int}
    (h : (r = 0 ∧ Ok t ∧ Quiet s t) ∨ Gave k n s r t) :
    Ok t ∧ if r = 0 then SameBits s t else Took k (uns 32 r) n s t := by
  rcases h with ⟨h0, hok, hq⟩ | ⟨h0, hok, ht⟩
  · rw [if_pos h0]
    exact ⟨hok, fun k i j _ _ => hq.bit k i j⟩
  · rw [if_neg h0]
    exact ⟨hok, ht⟩

/-- a call that goes through all groups, unless the file system is read-only -/
theorem groups_spec {f : Nat → Prog State (Option Int)} {k : Kind} {n : Nat}
    (hf : ∀ i s, Ok s → i < s.groups → ∃ r t, f i s = some (r, t) ∧ GroupGave k n s r t) {s : State}
    (h : Ok s) :
    ∃ r t, (do let s ← get
               if s.readonly then pure 0
               else firstGroup f (List.range s.ngroups.toNat) : Prog State Int) s = some (r, t) ∧
      Ok t ∧ if r = 0 then SameBits s t else Took k (uns 32 r) n s t := by
  rw [Prog.bind_run (Prog.get_run s)]
  cases hr : s.readonly with
  | true => exact ⟨0, s, rfl, effect_of (n := n) (k := k) (Or.inl ⟨rfl, h.quiet_refl⟩)⟩
  | false =>
    obtain ⟨r, t, ht, hres⟩ := firstGroup_spec hf (List.range s.ngroups.toNat) s h
      fun i hi => List.mem_range.mp hi
    exact ⟨r, t, ht, effect_of hres⟩

theorem exec_spec {s : State} (h : Ok s) (op : Op) (ha : Allowed s op) :
    ∃ r t, exec op s = some (r, t) ∧ Ok t ∧ Effect s r t op := by
  cases op with
  | balloc => exact groups_spec (fun i s h hi => allocIn_spec h .block 0 hi) h
  | ialloc => exact groups_spec (fun i s h hi => allocIn_spec h .inode 4 hi) h
  | contiguous_balloc n =>
    obtain ⟨m, rfl⟩ := Int.eq_ofNat_of_zero_le (show 0 ≤ n by have := ha.1; omega)
    have h1 : 1 ≤ m := by have := ha.1; omega
    have h2 : m < 2147483648 := by have := ha.2; omega
    exact groups_spec (fun i s h hi => contiguousIn_spec h h1 h2 hi) h
  | bfree blk =>
    obtain ⟨t, ht, hok, hfreed⟩ := bfree_spec h ha.1 ha.2
    refine ⟨0, t, ?_, hok, hfreed⟩
    show (ext2_bfree blk >>= fun _ => pure 0 : Prog State Int) s = some (0, t)
    rw [Prog.bind_run ht]
    rfl

/-- the states of the runs from `s₀` -/
inductive Reached (s₀ : State) : State → Prop
  | start : Reached s₀ s₀
  | call {s t : State} {op : Op} {r : Int} (h : Reached s₀ s) (ha : Allowed s op)
      (hx : exec op s = some (r, t)) : Reached s₀ t

/-- **The allocator's counts stay true.**  From a file system of 1024-byte blocks whose counts agree
with its bitmaps, with its bitmaps below 2 GB, in every state of every run of calls the counts
agree with the bitmaps; and every further call returns, the number it gives out was free and is
used afterwards, and it changes no other bit of a bitmap. -/
theorem allocator_counted (s₀ : State) (hl : Layout s₀) (hc : Counted s₀)
    (hb : ∃ a, Bio.Held s₀.bio a) (s : State) (hs : Reached s₀ s) :
    Counted s ∧ ∀ op, Allowed s op → ∃ r t, exec op s = some (r, t) ∧ Counted t ∧ Effect s r t op := by
  have hok : Ok s := by
    induction hs with
    | start => exact ⟨hl, hc, hb⟩
    | call h ha hx ih =>
      obtain ⟨r, t, ht, hok, -⟩ := exec_spec ih _ ha
      rw [hx] at ht
      obtain ⟨-, rfl⟩ := Prod.mk.inj (Option.some.inj ht)
      exact hok
  refine ⟨hok.counted, fun op ha => ?_⟩
  obtain ⟨r, t, ht, hok', he⟩ := exec_spec hok op ha
  exact ⟨r, t, ht, hok'.counted, he⟩

/-! ## file systems of `n` full groups -/

/-- the descriptor of a group: its bitmaps are its 21st and 22nd block, and nothing is free but one
block of the first group -/
def fullDesc (g : Nat) : List UInt8 :=
  ofNum (g * 8192 + 20) 4 ++ ofNum (g * 8192 + 21) 4 ++ ofNum (g * 8192 + 22) 4
    ++ ofNum (if g = 0 then 1 else 0) 2 ++ ofNum 0 18

/-- the superblock of `n` groups of 8192 blocks and 8 inodes: its counts, and what follows -/
def fullCounts (n : Nat) : List UInt8 := ofNum (n * 8) 4 ++ ofNum (n * 8192 + 1) 4 ++ ofNum 0 4

def fullRest : List UInt8 :=
  ofNum 1 4 ++ ofNum 0 4 ++ ofNum 1 4 ++ ofNum 0 8 ++ ofNum 8192 4 ++ ofNum 8192 4 ++ ofNum 8 4
    ++ ofNum 0 12 ++ ofNum 0xEF53 2

/-- every bit of the device is set, but bit 5 of block 20 -/
def fullDisk : Mem := fun x => if x = 20480 then 0xdf else 0xff

def full (n : Nat) : State where
  sb := buffer (fullCounts n ++ fullRest)
  gds := fun x => buffer (fullDesc (x / 32)) (x % 32)
  ngroups := n
  blocksize := 1024
  directlim := 11
  ind1lim := 267
  ind2lim := 65547
  ptrs_per_blk := 256
  readonly := false
  inode_table := fun _ => ⟨fun _ => 0, 0, true, 0⟩
  bio := Bio.binit 1024 ⟨0, 0, fun _ => ⟨0, 0, false, none⟩, fullDisk, 0⟩
  stack := fun _ => 0
  asked := []

/-- a number among the bytes of a buffer -/
theorem buffer_le (d : List UInt8) (off w : Nat) (h : off + w ≤ d.length) :
    (buffer d).le off w = num ((d.drop off).take w) := by
  rw [le_eq_num]
  congr 1
  apply List.ext_getElem
  · simp
    omega
  · intro j h1 h2
    rw [Mem.length_get] at h1
    simp only [Mem.get, List.getElem_map, List.getElem_range, buffer, List.getElem_take,
      List.getElem_drop]
    rw [List.getD_eq_getElem?_getD, List.getElem?_eq_getElem (by omega), Option.getD_some]

/-- a number in the descriptor of a group -/
theorem desc_le (d : Nat → List UInt8) (hl : ∀ g, (d g).length = 32) (g off w : Nat)
    (h : off + w ≤ 32) :
    Mem.le (fun x => buffer (d (x / 32)) (x % 32)) (g * 32 + off) w
      = num (((d g).drop off).take w) := by
  rw [← buffer_le (d g) off w (by rw [hl]; omega)]
  apply le_shift
  intro j hj
  have hd : (g * 32 + off + j) / 32 = g := by omega
  have hm : (g * 32 + off + j) % 32 = off + j := by omega
  simp only [hd, hm]

theorem full_gds (n g off w : Nat) (h : off + w ≤ 32) :
    (full n).gds.le (g * 32 + off) w = num (((fullDesc g).drop off).take w) :=
  desc_le fullDesc (fun g => by simp [fullDesc]) g off w h

theorem full_map (n g : Nat) (hg : g < 1000) (k : Kind) :
    k.map (full n).gds g = g * 8192 + if k = .block then 20 else 21 := by
  cases k with
  | block =>
    show (full n).gds.le (g * 32 + 0) 4 = _
    rw [full_gds n g 0 4 (by omega)]
    simp only [fullDesc, List.drop_zero, List.append_assoc, List.take_left' (length_ofNum _ 4),
      num_ofNum]
    simp
    omega
  | inode =>
    show (full n).gds.le (g * 32 + 4) 4 = _
    rw [full_gds n g 4 4 (by omega)]
    simp only [fullDesc, List.append_assoc, List.drop_left' (length_ofNum _ 4),
      List.take_left' (length_ofNum _ 4), num_ofNum]
    simp
    omega

theorem full_free (n g : Nat) (k : Kind) :
    Kind.free (full n).gds g k = if k = .block ∧ g = 0 then 1 else 0 := by
  have hdrop : (fullDesc g).drop 12 = ofNum (if g = 0 then 1 else 0) 2 ++ ofNum 0 18 := by
    rw [fullDesc, List.append_assoc]
    exact List.drop_left' (by simp)
  cases k with
  | block =>
    show (full n).gds.le (g * 32 + 12) 2 = _
    rw [full_gds n g 12 2 (by omega), hdrop, List.take_left' (length_ofNum _ 2), num_ofNum]
    by_cases h : g = 0 <;> simp [h]
  | inode =>
    show (full n).gds.le (g * 32 + 14) 2 = _
    have hdrop' : (fullDesc g).drop 14 = ofNum 0 18 := by
      rw [show 14 = 12 + 2 by rfl, ← List.drop_drop, hdrop, List.drop_left' (length_ofNum _ 2)]
    have hz : num ((ofNum 0 18).take 2) = 0 := by decide
    rw [full_gds n g 14 2 (by omega), hdrop', hz]
    simp

/-- a number in the superblock, after its counts -/
theorem full_rest (n off w : Nat) (h : off + w ≤ 46) :
    (full n).sb.le (12 + off) w = num ((fullRest.drop off).take w) := by
  have hl : (fullCounts n).length = 12 := by simp [fullCounts]
  have hr : fullRest.length = 46 := by decide
  show (buffer (fullCounts n ++ fullRest)).le (12 + off) w = _
  rw [buffer_le _ _ _ (by rw [List.length_append]; omega), ← List.drop_drop, List.drop_left' hl]

theorem full_per (n : Nat) (k : Kind) : k.per (full n).sb = if k = .block then 8192 else 8 := by
  cases k with
  | block => exact (full_rest n 20 4 (by decide)).trans (by decide)
  | inode => exact (full_rest n 28 4 (by decide)).trans (by decide)

theorem full_total (n : Nat) (k : Kind) : k.total (full n).sb = if k = .block then 1 else 0 := by
  cases k with
  | block => exact (full_rest n 0 4 (by decide)).trans (by decide)
  | inode => exact (full_rest n 4 4 (by decide)).trans (by decide)

theorem full_units (n : Nat) (hn : n < 1000) (k : Kind) :
    k.units (full n).sb = n * if k = .block then 8192 else 8 := by
  have hl : (fullCounts n ++ fullRest).length = 58 := by
    simp [fullCounts, fullRest]
  cases k with
  | block =>
    have h : (full n).sb.le 4 4 = n * 8192 + 1 := by
      show (buffer (fullCounts n ++ fullRest)).le 4 4 = _
      rw [buffer_le _ _ _ (by omega)]
      simp only [fullCounts, List.append_assoc, List.drop_left' (length_ofNum _ 4),
        List.take_left' (length_ofNum _ 4), num_ofNum]
      norm_num
      omega
    show (full n).sb.le 4 4 - 1 = _
    rw [h]
    rfl
  | inode =>
    show (buffer (fullCounts n ++ fullRest)).le 0 4 = _
    rw [buffer_le _ _ _ (by omega)]
    simp only [fullCounts, List.append_assoc, List.drop_zero, List.take_left' (length_ofNum _ 4),
      num_ofNum]
    rw [if_neg (by decide)]
    norm_num
    omega

theorem full_size (n : Nat) (hn : n < 1000) (k : Kind) (i : Nat) (hi : i < n) :
    k.size (full n).sb i = if k = .block then 8192 else 8 := by
  rw [Kind.size, full_per, full_units n hn]
  cases k <;> simp <;> omega

theorem full_contents (n : Nat) : contents (full n).bio = fun b => fullDisk.get (b * 1024) 1024 :=
  contents_eq (Bio.binit_held _ 1024)

theorem testBit_full : ∀ r < 8, (0xff : UInt8).toNat.testBit r = true ∧
    (0xdf : UInt8).toNat.testBit r = !decide (r = 5) := by
  decide

/-- the one clear bit -/
theorem full_bit (n : Nat) (k : Kind) (i j : Nat) (hi : i < 1000) (hj : j < 8192) :
    (full n).bit k i j = !decide (k = .block ∧ i = 0 ∧ j = 5) := by
  have hb : ∀ b, Bitmap.bit (buffer (fullDisk.get (b * 1024) 1024)) j = !decide (b = 20 ∧ j = 5) := by
    intro b
    have hget : buffer (fullDisk.get (b * 1024) 1024) (j / 8) = fullDisk (b * 1024 + j / 8) := by
      rw [buffer, List.getD_eq_getElem?_getD, Mem.get_getElem? _ _ _ _ (by omega), Option.getD_some]
    rw [Bitmap.bit, hget, fullDisk]
    have hm : j % 8 < 8 := Nat.mod_lt _ (by decide)
    split
    · rename_i e
      have h20 : b = 20 := by omega
      have hj8 : j % 8 = j := by omega
      rw [(testBit_full _ hm).2, hj8]
      simp [h20]
    · rename_i e
      have hne : ¬ (b = 20 ∧ j = 5) := by omega
      simp only [hne, decide_false, Bool.not_false]
      exact (testBit_full _ hm).1
  rw [State.bit, full_contents, full_map n i hi k, hb]
  congr 2
  simp only [eq_iff_iff]
  cases k <;> simp

theorem full_counted (n : Nat) (hn : 0 < n) (hlt : n < 1000) : Counted (full n) := by
  have hgr : (full n).groups = n := Int.toNat_natCast n
  have hle : ∀ (k : Kind) i, i < n → k.size (full n).sb i ≤ 8192 := by
    intro k i hi
    rw [full_size n hlt k i hi]
    split <;> omega
  have hbit : ∀ (k : Kind) i j, i < n → j < k.size (full n).sb i →
      Bitmap.bit (buffer (contents (full n).bio (k.map (full n).gds i))) j
        = !decide (k = .block ∧ i = 0 ∧ j = 5) :=
    fun k i j hi hj => full_bit n k i j (by omega) (Nat.lt_of_lt_of_le hj (hle k i hi))
  refine ⟨fun k i hi => ?_, fun k => ?_, fun k i j hg h1 h2 => ?_⟩
  · rw [hgr] at hi
    rw [full_free, zeros, Finset.filter_congr (q := fun j => k = .block ∧ i = 0 ∧ j = 5) fun j hj => by
      rw [hbit k i j hi (Finset.mem_range.mp hj)]
      simp]
    by_cases h : k = .block ∧ i = 0
    · obtain ⟨rfl, rfl⟩ := h
      rw [full_size n hlt .block 0 hi]
      rw [if_pos ⟨rfl, rfl⟩, if_pos rfl]
      have : (Finset.range 8192).filter (fun j => Kind.block = Kind.block ∧ 0 = 0 ∧ j = 5) = {5} := by
        ext j
        simp only [true_and, Finset.mem_filter, Finset.mem_range, Finset.mem_singleton]
        omega
      rw [this, Finset.card_singleton]
    · rw [if_neg h, Finset.filter_false_of_mem fun j _ => fun hj => h ⟨hj.1, hj.2.1⟩,
        Finset.card_empty]
  · rw [hgr, full_total]
    simp only [full_free]
    cases k with
    | block =>
      simp only [true_and, if_true]
      rw [Finset.sum_ite_eq', if_pos (Finset.mem_range.mpr hn)]
    | inode => simp
  · have hi : i < n := by
      have := hg.1
      omega
    rw [full_size n hlt k i hi] at h1
    rw [full_bit n k i j (by omega) h2]
    cases k with
    | block => simp at h1; omega
    | inode => simp

theorem full_plan (n : Nat) (hlt : n ≤ 1000) : Plan (full n) := by
  have hgr : (full n).groups = n := Int.toNat_natCast n
  have hi : ∀ {k i}, (full n).Group k i → i < n := by
    intro k i h
    have := h.1
    omega
  refine ⟨rfl, fun k => ?_, fun k => ?_, fun k i hg => ?_, ?_⟩
  · rw [full_per]
    split <;> decide
  · rw [full_per]
    split <;> decide
  · have := hi hg
    rw [full_map n i (by omega)]
    split <;> omega
  · intro k i k' i' hg hg' e
    have h1 := hi hg
    have h2 := hi hg'
    rw [full_map n i (by omega), full_map n i' (by omega)] at e
    cases k <;> cases k' <;> simp at e ⊢ <;> omega

theorem full_layout (n : Nat) (hlt : n ≤ 256) : Layout (full n) := by
  refine ⟨full_plan n (by omega), fun k i hg => ?_⟩
  have hgr : (full n).groups = n := Int.toNat_natCast n
  have := hg.1
  rw [full_map n i (by omega)]
  split <;> omega

theorem allocator_counted_two :
    Layout (full 2) ∧ Counted (full 2) ∧ ∃ r t, exec .balloc (full 2) = some (r, t) ∧ Counted t ∧
      Effect (full 2) r t .balloc :=
  ⟨full_layout 2 (by decide), full_counted 2 (by decide) (by decide),
    (allocator_counted (full 2) (full_layout 2 (by decide)) (full_counted 2 (by decide) (by decide))
      ⟨_, Bio.binit_held _ 1024⟩ (full 2) .start).2 .balloc trivial⟩

/-- past 4 GB: freeing block 101 of group 512 takes the bitmap of group 0 for that of group 512, and
its bit 5 is cleared as well -/
theorem far_bfree :
    Counted (full 513) ∧ Allowed (full 513) (.bfree 4194405) ∧ uns 32 4194405 = 512 * 8192 + 101 ∧
      (full 513).bit .block 512 5 = true ∧
      (exec (.bfree 4194405) (full 513)).map (fun r => r.2.bit .block 512 5) = some false := by
  have hper := full_per 513 .block
  have hb : uns 32 4194405 = 4194405 := by decide
  have hd : (4194405 - 1) / Kind.per (full 513).sb .block = 512 := by rw [hper]; decide
  have hm : (4194405 - 1) % Kind.per (full 513).sb .block = 100 := by rw [hper]; decide
  refine ⟨full_counted 513 (by decide) (by decide), ⟨?_, ?_⟩, hb, ?_, by decide +kernel⟩
  · rw [hb, State.Number, hd, hm, full_size 513 (by decide) .block 512 (by decide)]
    decide
  · rw [hb, State.used, hd, hm, full_bit 513 .block 512 100 (by decide) (by decide)]
    decide
  · rw [full_bit 513 .block 512 5 (by decide) (by decide)]
    decide

end E2
