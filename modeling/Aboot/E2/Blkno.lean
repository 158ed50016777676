import Aboot.E2.Allocate

/-!
# `ext2_blkno` with allocation

* `Overcounts`      the last block of the supply goes into an index block, and the block itself is
  counted although there is none;
* `blkno_outcome`   what a call has done;
* `blkno_alloc_iff` a call maps one block and nothing else, except in this case.
-/

set_option linter.unusedVariables false

namespace E2
open Word Bytes Bitmap
open Ext2 (s_blocks_per_group i_block i_blocks blkptr blkptr_natCast EXT2_IND_BLOCK EXT2_DIND_BLOCK)

/-- the pointers to the index blocks on the way to a block of the file -/
def indexPaths (k : Nat) : List (List Nat) :=
  if k < 12 then [] else if k < 268 then [[12]] else [[13], [(k - 268) / 256, 13]]

/-- the index blocks that are still to be allocated -/
def missing (s : State) (i : Slot) (k : Nat) : Nat :=
  (indexPaths k).countP fun p => (forest s i).ptr p = 0

/-- how often `ext2_balloc` is called at most -/
def draws (s : State) (i : Slot) (k : Nat) : Nat :=
  if (forest s i).ptr (pathOf k) = 0 then missing s i k + 1 else 0

/-- the index blocks can be allocated but the block itself cannot, and the code does not check it:
in the inode and behind the double-indirect block -/
def Overcounts (s : State) (i : Slot) (k : Nat) : Prop :=
  s.readonly = false ∧ (k < 12 ∨ 268 ≤ k) ∧ (forest s i).ptr (pathOf k) = 0 ∧
    supply s = missing s i k

/-- the pointers to the blocks of the file are not those to index blocks -/
theorem pathOf_ne {p : List Nat} {k : Nat} (hp : p ∈ indexPaths k) (j : Nat) : pathOf j ≠ p := by
  unfold indexPaths at hp
  unfold pathOf
  rintro rfl
  split at hp <;> split at hp <;> try split at hp
  all_goals try split at hp
  all_goals simp only [List.mem_cons, List.cons.injEq, List.not_mem_nil, or_false, and_true,
    and_false, reduceCtorEq, false_or, or_self] at hp
  all_goals omega

theorem Stage.count {s t : State} {i : Slot} {p₀ : List Nat} {r : Int} {N : List Nat}
    (h : Stage s i p₀ r t N) (hr : r ≠ 0) : N.length = if (forest s i).ptr p₀ = 0 then 1 else 0 := by
  rcases h.result with ⟨h0, -, rfl⟩ | ⟨h0, ⟨-, rfl⟩ | ⟨e, -⟩⟩
  · rw [if_neg h0]
    rfl
  · rw [if_pos h0]
    rfl
  · exact absurd e hr

theorem Stage.length_le {s t : State} {i : Slot} {p₀ : List Nat} {r : Int} {N : List Nat}
    (h : Stage s i p₀ r t N) : N.length ≤ 1 := by
  rcases h.result with ⟨-, -, rfl⟩ | ⟨-, ⟨-, rfl⟩ | ⟨-, rfl, -⟩⟩
  · exact Nat.zero_le 1
  · exact le_refl 1
  · exact Nat.zero_le 1

/-- the index blocks on the way to a block were found or made, `M` of them -/
structure Indexed (s : State) (i : Slot) (k : Nat) (M : List Nat) (t : State) : Prop where
  grown : Grown s i M M.length t
  ptr : ∀ j, j ≤ 65547 → (forest t i).ptr (pathOf j) = (forest s i).ptr (pathOf j)
  count : M.length = missing s i k
  ready : Ready t i (if (forest s i).ptr (pathOf k) = 0 then 1 else 0) 0

/-- the index blocks of the file are in reach -/
def IndicesNear (s : State) (i : Slot) : Prop :=
  ∀ p, Index p → (forest s i).ptr p ≠ 0 → Near (uns 32 ((forest s i).ptr p))

/-- the block is mapped, or there is a block for it and for the index blocks on the way -/
def Provided (s : State) (i : Slot) (k : Nat) : Prop :=
  (forest s i).ptr (pathOf k) ≠ 0 ∨ missing s i k < supply s

/-- what a call has done: it gave the block at `k`, or none was left, or it has counted one that it
did not get -/
def Outcome (s : State) (i : Slot) (k : Nat) (b : Int) (t : State) : Prop :=
  (¬ Overcounts s i k ∧ ∃ N, Grown s i N N.length t ∧
      (∀ j, j ≤ 65547 → (forest t i).ptr (pathOf j)
        = if j = k ∧ b ≠ 0 then b else (forest s i).ptr (pathOf j)) ∧
      (b ≠ 0 → b = (forest s i).ptr (pathOf k) ∨ uns 32 b ∈ N) ∧ (b ≠ 0 ↔ Provided s i k) ∧
      IndicesNear t i ∧ N.length ≤ missing s i k + 1) ∨
    (Overcounts s i k ∧ b = 0 ∧ ∃ N, Grown s i N (N.length + 1) t)

/-- the last stage, after the index blocks -/
theorem Indexed.last {s s₁ t : State} {i : Slot} {k : Nat} (hk : k ≤ 65547) {M : List Nat}
    (h : Indexed s i k M s₁) {checked : Bool} (hro : s.readonly = false)
    (hc : checked = false ↔ k < 12 ∨ 268 ≤ k) {b : Int} (hlast : Last checked s₁ i (pathOf k) b t) :
    Outcome s i k b t := by
  rcases hlast with ⟨N, hstage, hb⟩ | ⟨hchecked, rfl, h0, hsup, hgrown, hptr⟩
  · have hboth := h.grown.trans hstage.grown
    rw [← List.length_append] at hboth
    have htotal := hboth.supply
    have hM := h.count
    rw [List.length_append] at htotal
    refine Or.inl ⟨?_, M ++ N, hboth, fun j hj => ?_, fun hb0 => ?_, ?_, fun p hp h0 => ?_, ?_⟩
    · rintro ⟨-, hk', h0, hsup⟩
      have hcount := hstage.count (hb (hc.mpr hk'))
      rw [if_pos ((h.ptr k hk).trans h0)] at hcount
      omega
    · rw [hstage.ptr _ (pathOf_path hj)]
      by_cases e : j = k
      · rw [e, if_pos rfl]
        by_cases hb0 : b = 0
        · rw [if_neg (fun e' => e'.2 hb0), ← h.ptr k hk]
          rcases hstage.result with ⟨-, hb', -⟩ | ⟨h0, -⟩
          · exact hb'
          · rw [h0, hb0]
        · rw [if_pos ⟨rfl, hb0⟩]
      · rw [if_neg (fun e' => e (pathOf_inj e')), if_neg (fun e' => e e'.1), h.ptr j hj]
    · rcases hstage.result with ⟨-, hb', -⟩ | ⟨-, ⟨-, rfl⟩ | ⟨hb', -⟩⟩
      · exact Or.inl (hb'.trans (h.ptr k hk))
      · exact Or.inr (List.mem_append_right _ (List.mem_singleton_self _))
      · exact absurd hb' hb0
    · rw [Provided, ← h.ptr k hk]
      rcases hstage.result with ⟨h0, hb', rfl⟩ | ⟨h0, ⟨hb', rfl⟩ | ⟨hb', rfl, hsup⟩⟩
      · rw [hb']
        exact iff_of_true h0 (Or.inl h0)
      · rw [List.length_singleton] at htotal
        exact iff_of_true hb' (Or.inr (by omega))
      · have htotal' := h.grown.supply
        refine iff_of_false (fun e => e hb') ?_
        rintro (e | e)
        · exact e h0
        · omega
    · rw [hstage.ptr p hp.path, if_neg (hp.ne_leaf (pathOf_leaf hk))] at h0 ⊢
      exact h.ready.indices p hp h0
    · have hone := hstage.length_le
      rw [List.length_append]
      omega
  · have htotal := h.grown.supply
    have hM := h.count
    refine Or.inr ⟨⟨hro, hc.mp hchecked, (h.ptr k hk).symm.trans h0, by omega⟩, rfl, M, ?_⟩
    have hboth := h.grown.trans hgrown
    rwa [List.append_nil] at hboth

/-- an index block could not be allocated -/
theorem Outcome.short {s s₁ : State} {i : Slot} {k : Nat} {N : List Nat} (hgrown : Grown s i N N.length s₁)
    (hptr : ∀ j, j ≤ 65547 → (forest s₁ i).ptr (pathOf j) = (forest s i).ptr (pathOf j))
    (hsup : supply s < missing s i k) (hend : (forest s i).ptr (pathOf k) = 0)
    (hnear : IndicesNear s₁ i) : Outcome s i k 0 s₁ := by
  have htotal := hgrown.supply
  refine Or.inl ⟨?_, N, hgrown, fun j hj => ?_, fun e => absurd rfl e, ?_, hnear, by omega⟩
  · rintro ⟨-, -, -, e⟩
    omega
  · rw [if_neg (fun e => e.2 rfl), hptr j hj]
  · refine iff_of_false (fun e => e rfl) ?_
    rintro (e | e)
    · exact e hend
    · omega

theorem Stage.others {s t : State} {i : Slot} {p₀ : List Nat} {r : Int} {N : List Nat}
    (h : Stage s i p₀ r t N) {k : Nat} (hp : p₀ ∈ indexPaths k) {j : Nat} (hj : j ≤ 65547) :
    (forest t i).ptr (pathOf j) = (forest s i).ptr (pathOf j) := by
  rw [h.ptr _ (pathOf_path hj), if_neg (pathOf_ne hp j)]

/-- a new block, or the pointer that is there -/
theorem root_stage {s : State} {i : Slot} (h : Consistent s i) {n m : Nat} (hs : Ready s i n m)
    (hro : s.readonly = false) {k : Nat} (hk : k < 15)
    (hn : (forest s i).ptr [k] = 0 → 1 ≤ n ∧ 1 ≤ m) :
    ∃ r t N, (if i_block (s.inode i) k = 0 ∧ true = true then newIndirect i k
      else pure (i_block (s.inode i) k) : Prog State Int) s = some (r, t) ∧ Stage s i [k] r t N := by
  have hroot : (forest s i).ptr [k] = i_block (s.inode i) k := by
    rw [Radix.ptr_root, forest_root]
  rw [← hroot]
  by_cases h0 : (forest s i).ptr [k] = 0
  · rw [if_pos ⟨h0, rfl⟩]
    exact newIndirect_stage h hs (hn h0).1 (hn h0).2 hro hk h0
  · obtain ⟨a, ha⟩ := h.sound.coherent
    obtain rfl := contents_eq ha
    refine ⟨_, s, [], ?_, Stage.found h h0 (ReadOnly.refl ha)⟩
    rw [if_neg (fun e => h0 e.1)]
    rfl

/-- a stage without a result: the pointer was missing, and no block was left for it -/
theorem Stage.failed {s t : State} {i : Slot} {p₀ : List Nat} {r : Int} {N : List Nat}
    (h : Stage s i p₀ r t N) (hr : r = 0) : (forest s i).ptr p₀ = 0 ∧ supply s = 0 := by
  rcases h.result with ⟨h0, e, -⟩ | ⟨h0, ⟨e, -⟩ | ⟨-, -, hsup⟩⟩
  · exact absurd (e.symm.trans hr) h0
  · exact absurd hr e
  · exact ⟨h0, hsup⟩

theorem Stage.failed_near {s t : State} {i : Slot} {p₀ : List Nat} {r : Int} {N : List Nat} {n m : Nat}
    (h : Stage s i p₀ r t N) (hr : r = 0) (hs : Ready s i n m) : IndicesNear t i := by
  intro p hp h0
  rw [h.ptr p hp.path] at h0 ⊢
  split at h0
  · exact absurd hr h0
  · rename_i e
    rw [if_neg e]
    exact hs.indices p hp h0

/-- a block that is mapped has its index blocks -/
theorem missing_eq_zero {s : State} {i : Slot} {k : Nat} (hk : k ≤ 65547)
    (h : (forest s i).ptr (pathOf k) ≠ 0) : missing s i k = 0 := by
  unfold pathOf at h
  unfold missing indexPaths
  split
  · rfl
  · rename_i h1
    rw [if_neg h1] at h
    split
    · rename_i h2
      rw [if_pos h2] at h
      have h12 : (forest s i).ptr [12] ≠ 0 := mt Radix.ptr_end h
      simp [h12]
    · rename_i h2
      rw [if_neg h2] at h
      have hup : (forest s i).ptr [(k - 268) / 256, 13] ≠ 0 := mt Radix.ptr_end h
      have h13 : (forest s i).ptr [13] ≠ 0 := mt Radix.ptr_end hup
      simp [hup, h13]

theorem not_path_of_length {j' : Nat} {p : List Nat} {a : Nat} (h : levelOf a < (j' :: p).length) :
    ¬ Path (j' :: p ++ [a]) := by
  intro hj'
  have hlen := Path.length_le (p := j' :: p) hj'
  omega

section
variable {s : State} {i : Slot} {k : Nat}

/-- a direct block -/
theorem direct_outcome (h : Consistent s i) (hs : Ready s i (draws s i k) (missing s i k))
    (hro : s.readonly = false) (h1 : k < 12) :
    ∃ b t, ext2_blkno i k true s = some (b, t) ∧ Outcome s i k b t := by
  have hpath : pathOf k = [k] := by rw [pathOf, if_pos h1]
  have hmissing : missing s i k = 0 := by
    rw [missing, indexPaths, if_pos h1]
    rfl
  rw [draws, hmissing] at hs
  obtain ⟨b, t, hrun, hlast⟩ := direct_last h hro h1 fun h0 => by
    rw [hpath, if_pos h0] at hs
    exact hs.bitmaps
  have hindexed : Indexed s i k [] s := ⟨Grown.refl h, fun _ _ => rfl, hmissing.symm, hs⟩
  have hchecked : false = false ↔ k < 12 ∨ 268 ≤ k := by
    simp only [true_iff]
    omega
  rw [← hpath] at hlast
  exact ⟨b, t, hrun, hindexed.last (by omega) hro hchecked hlast⟩

/-- a block behind the index block -/
theorem indirect_outcome (h : Consistent s i) (hs : Ready s i (draws s i k) (missing s i k))
    (hro : s.readonly = false) (h1 : ¬ k < 12) (h2 : k < 268) :
    ∃ b t, ext2_blkno i k true s = some (b, t) ∧ Outcome s i k b t := by
  have hk : k ≤ 65547 := by omega
  have hpath : pathOf k = [k - 12, 12] := by rw [pathOf, if_neg h1, if_pos h2]
  have hmissing : missing s i k = if (forest s i).ptr [12] = 0 then 1 else 0 := by
    rw [missing, indexPaths, if_neg h1, if_pos h2]
    simp only [List.countP_cons, List.countP_nil, decide_eq_true_eq, Nat.zero_add]
  obtain ⟨r₁, s₁, N₁, hrun₁, hstage₁⟩ := root_stage h hs hro (k := 12) (by decide) fun h0 => by
    rw [draws, hpath, if_pos (Radix.ptr_end h0), hmissing, if_pos h0]
    omega
  have hpaths : indexPaths k = [[12]] := by rw [indexPaths, if_neg h1, if_pos h2]
  have hmem : [12] ∈ indexPaths k := by rw [hpaths]; exact List.mem_singleton_self _
  have hothers : ∀ j, j ≤ 65547 → (forest s₁ i).ptr (pathOf j) = (forest s i).ptr (pathOf j) :=
    fun j hj => hstage₁.others hmem hj
  rw [blkno_in_indirect h (fun _ => hro) (by omega) h2,
    show EXT2_IND_BLOCK = ((12 : Nat) : Int) from rfl, Prog.bind_run hrun₁]
  by_cases hr : r₁ = 0
  · -- no index block
    obtain ⟨h0, hsup⟩ := hstage₁.failed hr
    refine ⟨0, s₁, by rw [if_pos hr]; rfl, Outcome.short hstage₁.grown hothers ?_ ?_ ?_⟩
    · rw [hmissing, hsup, if_pos h0]
      exact Nat.zero_lt_one
    · rw [hpath, Radix.ptr_end h0]
    · exact hstage₁.failed_near hr hs
  have hptr₁ : (forest s₁ i).ptr [12] = r₁ := by
    rw [hstage₁.ptr _ (path_root (by decide)), if_pos rfl]
  have hcount : N₁.length = missing s i k := by rw [hstage₁.count hr, hmissing]
  have hready := hstage₁.ready (n := if (forest s i).ptr (pathOf k) = 0 then 1 else 0) (m := 0) (by
    refine hs.mono ?_ (by omega)
    rw [draws, hcount]
    split
    · omega
    · rename_i hne
      rw [missing_eq_zero hk hne])
  have hindexed : Indexed s i k N₁ s₁ := ⟨hstage₁.grown, hothers, hcount, hready⟩
  have hp := pathOf_path hk
  rw [hpath] at hp
  have hend : ∀ j', ¬ Path (j' :: (k - 12) :: 12 :: []) := fun j' =>
    not_path_of_length (p := [k - 12]) (show 1 < 2 by decide)
  obtain ⟨b, t, hrun, hlast⟩ := ptrIn_last hstage₁.grown.consistent hready
    (hstage₁.grown.readonly.trans hro) hp (Or.inl rfl) hend (by rwa [hptr₁])
    (fun h0 => by
      rw [← hpath, hothers k hk] at h0
      rw [if_pos h0]) true
  rw [hptr₁] at hrun
  have hchecked : true = false ↔ k < 12 ∨ 268 ≤ k := by
    simp only [Bool.true_eq_false, false_iff]
    omega
  rw [← hpath] at hlast
  exact ⟨b, t, by rw [if_neg hr]; exact hrun, hindexed.last hk hro hchecked hlast⟩

/-- behind the double-indirect block `r₁`, which is there now -/
theorem double_behind (hs : Ready s i (draws s i k) (missing s i k)) (hro : s.readonly = false) (h2 : 268 ≤ k) (hk : k ≤ 65547) {r₁ : Int}
    {s₁ : State} {N₁ : List Nat} (hstage₁ : Stage s i [13] r₁ s₁ N₁) (hr : r₁ ≠ 0) :
    ∃ b t, (do
      let iblkno ← indirectIn i r₁ ((k - 268) / 256 : Nat) true
      if iblkno = 0 then pure 0
      else ptrIn i iblkno ((k - 268) % 256 : Nat) true false : Prog State Int) s₁ = some (b, t) ∧
      Outcome s i k b t := by
  have hpaths : indexPaths k = [[13], [(k - 268) / 256, 13]] := by
    rw [indexPaths, if_neg (by omega), if_neg (by omega)]
  have hmem₁ : [13] ∈ indexPaths k := by rw [hpaths]; exact List.mem_cons_self
  have hmem₂ : [(k - 268) / 256, 13] ∈ indexPaths k := by
    rw [hpaths]
    exact List.mem_cons_of_mem _ (List.mem_singleton_self _)
  have hpath : pathOf k = [(k - 268) % 256, (k - 268) / 256, 13] := by
    rw [pathOf, if_neg (by omega), if_neg (by omega)]
  have hp := pathOf_path hk
  rw [hpath] at hp
  have hup := path_closed _ _ _ hp
  have hsame : (forest s₁ i).ptr [(k - 268) / 256, 13] = (forest s i).ptr [(k - 268) / 256, 13] := by
    rw [hstage₁.ptr _ hup, if_neg]
    intro e
    cases (List.cons.inj e).2
  have hptr₁ : (forest s₁ i).ptr [13] = r₁ := by
    rw [hstage₁.ptr _ (path_root (by decide)), if_pos rfl]
  have hg₁ := hstage₁.grown
  have hcount₁ := hstage₁.count hr
  have hmissing : missing s i k = (if (forest s i).ptr [13] = 0 then 1 else 0)
      + if (forest s i).ptr [(k - 268) / 256, 13] = 0 then 1 else 0 := by
    rw [missing, hpaths]
    simp only [List.countP_cons, List.countP_nil, decide_eq_true_eq, Nat.zero_add]
    rw [Nat.add_comm]
  -- what is left to draw behind the double-indirect block
  generalize hm : (if (forest s i).ptr [(k - 268) / 256, 13] = 0 then 1 else 0) = m at hmissing
  have hready₁ := hstage₁.ready (n := if (forest s i).ptr (pathOf k) = 0 then m + 1 else 0) (m := m) (by
    refine hs.mono ?_ (by omega)
    rw [draws]
    split
    · omega
    · rename_i hne
      have := missing_eq_zero hk hne
      omega)
  obtain ⟨r₂, s₂, N₂, hrun₂, hstage₂⟩ := indirectIn_stage hg₁.consistent hready₁
    (hg₁.readonly.trans hro) hup (Or.inr (Or.inl rfl)) (by rwa [hptr₁]) fun h0 => by
      rw [hsame] at h0
      rw [if_pos h0] at hm
      rw [hpath, if_pos (Radix.ptr_end h0)]
      omega
  rw [hptr₁] at hrun₂
  have hg₂ := hg₁.trans hstage₂.grown
  rw [← List.length_append] at hg₂
  have hothers : ∀ j, j ≤ 65547 → (forest s₂ i).ptr (pathOf j) = (forest s i).ptr (pathOf j) :=
    fun j hj => (hstage₂.others hmem₂ hj).trans (hstage₁.others hmem₁ hj)
  rw [Prog.bind_run hrun₂]
  by_cases hr₂ : r₂ = 0
  · -- no index block behind it
    obtain ⟨h0, hsup⟩ := hstage₂.failed hr₂
    have htotal := hg₁.supply
    rw [hsame] at h0
    refine ⟨0, s₂, by rw [if_pos hr₂]; rfl, Outcome.short hg₂ hothers ?_ ?_ ?_⟩
    · rw [if_pos h0] at hm
      omega
    · rw [hpath, Radix.ptr_end h0]
    · exact hstage₂.failed_near hr₂ hready₁
  have hcount₂ : N₂.length = m := by rw [hstage₂.count hr₂, hsame, hm]
  have hready₂ := hstage₂.ready (n := if (forest s i).ptr (pathOf k) = 0 then 1 else 0) (m := 0) (by
    refine hready₁.mono ?_ (by omega)
    rw [hcount₂]
    split
    · omega
    · rename_i hne
      have := missing_eq_zero hk hne
      omega)
  have hindexed : Indexed s i k (N₁ ++ N₂) s₂ := by
    refine ⟨hg₂, hothers, ?_, hready₂⟩
    rw [List.length_append, hcount₁, hcount₂, hmissing]
  have hptr₂ : (forest s₂ i).ptr [(k - 268) / 256, 13] = r₂ := by
    rw [hstage₂.ptr _ hup, if_pos rfl]
  have hend : ∀ j', ¬ Path (j' :: (k - 268) % 256 :: (k - 268) / 256 :: 13 :: []) := fun j' =>
    not_path_of_length (p := [(k - 268) % 256, (k - 268) / 256]) (show 2 < 3 by decide)
  obtain ⟨b, t, hrun, hlast⟩ := ptrIn_last hg₂.consistent hready₂
    (hg₂.readonly.trans hro) hp (Or.inr (Or.inr ⟨_, by omega, rfl⟩)) hend (by rwa [hptr₂])
    (fun h0 => by
      rw [← hpath, hothers k hk] at h0
      rw [if_pos h0]) false
  rw [hptr₂] at hrun
  have hchecked : false = false ↔ k < 12 ∨ 268 ≤ k := by
    simp only [true_iff]
    omega
  rw [← hpath] at hlast
  exact ⟨b, t, by rw [if_neg hr₂]; exact hrun, hindexed.last hk hro hchecked hlast⟩

/-- a block behind the double-indirect block -/
theorem double_outcome (h : Consistent s i) (hs : Ready s i (draws s i k) (missing s i k))
    (hro : s.readonly = false) (h2 : 268 ≤ k) (hk : k ≤ 65547) :
    ∃ b t, ext2_blkno i k true s = some (b, t) ∧ Outcome s i k b t := by
  have hpaths : indexPaths k = [[13], [(k - 268) / 256, 13]] := by
    rw [indexPaths, if_neg (by omega), if_neg (by omega)]
  have hpath : pathOf k = [(k - 268) % 256, (k - 268) / 256, 13] := by
    rw [pathOf, if_neg (by omega), if_neg (by omega)]
  obtain ⟨r₁, s₁, N₁, hrun₁, hstage₁⟩ := root_stage h hs hro (k := 13) (by decide) fun h0 => by
    have hmissing : 1 ≤ missing s i k := by
      rw [missing, hpaths, List.countP_cons, h0]
      simp
    rw [draws, hpath, if_pos (Radix.ptr_end (Radix.ptr_end h0))]
    omega
  rw [blkno_in_double h (fun _ => hro) h2 hk,
    show EXT2_DIND_BLOCK = ((13 : Nat) : Int) from rfl, Prog.bind_run hrun₁]
  by_cases hr : r₁ = 0
  · -- no double-indirect block
    have hmem : [13] ∈ indexPaths k := by rw [hpaths]; exact List.mem_cons_self
    obtain ⟨h0, hsup⟩ := hstage₁.failed hr
    refine ⟨0, s₁, by rw [if_pos hr]; rfl,
      Outcome.short hstage₁.grown (fun j hj => hstage₁.others hmem hj) ?_ ?_ ?_⟩
    · rw [missing, hpaths, hsup]
      simp [h0]
    · rw [hpath, Radix.ptr_end (Radix.ptr_end h0)]
    · exact hstage₁.failed_near hr hs
  · rw [if_neg hr]
    exact double_behind hs hro h2 hk hstage₁ hr

theorem blkno_outcome (h : Consistent s i) (hs : Ready s i (draws s i k) (missing s i k))
    (hro : s.readonly = false) (hk : k ≤ 65547) :
    ∃ b t, ext2_blkno i k true s = some (b, t) ∧ Outcome s i k b t := by
  by_cases h1 : k < 12
  · exact direct_outcome h hs hro h1
  by_cases h2 : k < 268
  · exact indirect_outcome h hs hro h1 h2
  · exact double_outcome h hs hro (by omega) hk

end

/-! ## one block is mapped -/

/-- the block of the device that `ext2_blkno` without allocation gives -/
def mapped (s : State) (i : Slot) (k : Nat) : Option Int := (ext2_blkno i k false s).map Prod.fst

/-- a call at `k` that returned `b` has mapped this block and nothing else: it is the old one or one
that was free, no block occurs twice, and `i_blocks` counts the blocks that were allocated; a call
that returned 0 has mapped none -/
structure Allocates (s : State) (i : Slot) (k : Nat) (b : Int) (t : State) : Prop where
  hit : b ≠ 0 → mapped t i k = some b
  miss : b = 0 → mapped t i k = mapped s i k
  others : ∀ j : Nat, j ≠ k → mapped t i j = mapped s i j
  origin : b ≠ 0 → mapped s i k = some b ∨
    (s.Number .block (uns 32 b) ∧ s.used .block (uns 32 b) = false)
  distinct : Radix.Distinct Path (forest t i)
  blocks : ∃ N : List Nat, N.Nodup ∧
    (∀ x, x ∈ N ↔ s.Number .block x ∧ s.used .block x = false ∧ t.used .block x = true) ∧
    i_blocks (t.inode i)
      = (i_blocks (s.inode i) + N.length * (s.blocksize.toNat / 512)) % 4294967296

theorem mapped_ptr {s : State} {i : Slot} (h : Consistent s i) (hs : IndicesNear s i) {k : Nat}
    (hk : k ≤ 65547) : mapped s i k = some ((forest s i).ptr (pathOf k)) := by
  obtain ⟨u, hu, -⟩ := blkno_lookup h hs hk
  rw [mapped, hu]
  rfl

/-- there are no blocks past those of the double-indirect block -/
theorem blkno_beyond {s : State} {i : Slot} (h : Consistent s i) {k : Nat} (hk : 65547 < k)
    (allocate : Bool) : ext2_blkno i k allocate s = some (0, s) := by
  unfold ext2_blkno
  rw [Prog.bind_run (Prog.get_run s)]
  by_cases hc : allocate = true ∧ s.readonly = true
  · rw [if_pos hc]
    rfl
  · rw [if_neg hc, if_neg (by rw [h.limits.directlim]; omega), if_neg (by rw [h.limits.ind1lim]; omega),
      if_neg (by rw [h.ind2lim]; omega)]
    rfl

theorem mapped_beyond {s : State} {i : Slot} (h : Consistent s i) {k : Nat} (hk : 65547 < k) :
    mapped s i k = some 0 := by
  rw [mapped, blkno_beyond h hk]
  rfl

theorem Grown.mem_iff {s t : State} {i : Slot} {N : List Nat} {c : Nat} (h : Grown s i N c t) (x : Nat) :
    x ∈ N ↔ s.Number .block x ∧ s.used .block x = false ∧ t.used .block x = true := by
  constructor
  · intro hx
    obtain ⟨hnum, hfree⟩ := h.free x hx
    exact ⟨hnum, hfree, (h.used x hnum).mpr (Or.inr hx)⟩
  · rintro ⟨hnum, hfree, hused⟩
    rcases (h.used x hnum).mp hused with hu | hx
    · rw [hfree] at hu
      cases hu
    · exact hx

theorem Outcome.allocates {s t : State} {i : Slot} (h : Consistent s i) (hs : IndicesNear s i) {k : Nat}
    (hk : k ≤ 65547) {b : Int} (ho : Outcome s i k b t) (hno : ¬ Overcounts s i k) :
    Allocates s i k b t := by
  rcases ho with ⟨-, N, hgrown, hptr, horigin, -, hts, -⟩ | ⟨hov, -⟩
  · have ht := hgrown.consistent
    have hunit : s.blocksize.toNat / 512 = 2 := by
      rw [h.limits.blocksize]
      rfl
    refine ⟨fun hb => ?_, fun hb => ?_, fun j hjk => ?_, fun hb => ?_, ht.distinct,
      N, hgrown.nodup, hgrown.mem_iff, ?_⟩
    · rw [mapped_ptr ht hts hk, hptr k hk, if_pos ⟨rfl, hb⟩]
    · rw [mapped_ptr ht hts hk, mapped_ptr h hs hk, hptr k hk, if_neg (fun e => e.2 hb)]
    · rcases Nat.lt_or_ge 65547 j with hj | hj
      · rw [mapped_beyond ht hj, mapped_beyond h hj]
      · rw [mapped_ptr ht hts hj, mapped_ptr h hs hj, hptr j hj, if_neg (fun e => hjk e.1)]
    · rcases horigin hb with e | hnew
      · exact Or.inl (by rw [mapped_ptr h hs hk, e])
      · exact Or.inr (hgrown.free _ hnew)
    · rw [hgrown.blocks, hunit, Nat.mul_comm]
  · exact absurd hov hno

/-- one block too many is counted -/
theorem Outcome.overcounts {s t : State} {i : Slot} (h : Consistent s i) {k : Nat} {b : Int}
    (ho : Outcome s i k b t) (hov : Overcounts s i k) : ¬ Allocates s i k b t := by
  rintro ⟨-, -, -, -, -, M, hM, hmem, hblocks⟩
  rcases ho with ⟨hno, -⟩ | ⟨-, -, N, hgrown⟩
  · exact hno hov
  · have hunit : s.blocksize.toNat / 512 = 2 := by
      rw [h.limits.blocksize]
      rfl
    have hperm : M.Perm N :=
      (List.perm_ext_iff_of_nodup hM hgrown.nodup).mpr fun x => (hmem x).trans (hgrown.mem_iff x).symm
    have hcount := hgrown.blocks
    rw [hblocks, hunit, hperm.length_eq] at hcount
    omega

/-- **A call of `ext2_blkno` with allocation maps one block and nothing else**, unless the last
block is used up on the way.  What the call reads and writes on a writable file system is to be in
reach: the index blocks of the file, the bitmaps that it reads, and the index blocks that it makes. -/
theorem blkno_alloc_iff {s : State} {i : Slot} (h : Consistent s i) {k : Nat}
    (hk : (k : Int) ≤ s.ind2lim)
    (hs : s.readonly = false → Ready s i (draws s i k) (missing s i k)) :
    (∃ b t, ext2_blkno i k true s = some (b, t) ∧ Allocates s i k b t) ↔ ¬ Overcounts s i k := by
  have hk : k ≤ 65547 := by
    have := h.ind2lim
    omega
  by_cases hro : s.readonly = true
  · -- nothing is allocated, and nothing is found
    have hrun : ext2_blkno i k true s = some (0, s) := by
      unfold ext2_blkno
      rw [Prog.bind_run (Prog.get_run s), if_pos ⟨rfl, hro⟩]
      rfl
    refine ⟨fun _ hov => ?_, fun _ => ⟨0, s, hrun, ?_⟩⟩
    · have := hov.1
      rw [hro] at this
      cases this
    · refine ⟨fun e => absurd rfl e, fun _ => rfl, fun _ _ => rfl, fun e => absurd rfl e, h.distinct, [],
        List.nodup_nil, (Grown.refl h).mem_iff, ?_⟩
      rw [List.length_nil, Nat.zero_mul]
      exact (Grown.refl h).blocks
  · rw [Bool.not_eq_true] at hro
    obtain ⟨b, t, hrun, ho⟩ := blkno_outcome h (hs hro) hro hk
    constructor
    · rintro ⟨b', t', hrun', ha⟩ hov
      obtain ⟨rfl, rfl⟩ := Prod.mk.inj (Option.some.inj (hrun.symm.trans hrun'))
      exact ho.overcounts h hov ha
    · intro hno
      exact ⟨b, t, hrun, ho.allocates h (hs hro).indices hk hno⟩

/-! ## a file system of more than 4 GB -/

theorem full_ptr (n : Nat) (i : Slot) (p : List Nat) : (forest (full n) i).ptr p = 0 := by
  induction p with
  | nil => rfl
  | cons j p ih =>
    cases p with
    | nil =>
      rw [Radix.ptr_root, forest_root]
      exact no_block j
    | cons k p => exact Radix.ptr_end ih

theorem full_consistent {n : Nat} (h1 : 0 < n) (h2 : n < 1000) (i : Slot) : Consistent (full n) i := by
  have hgroups : (full n).groups = n := Int.toNat_natCast n
  have hper : s_blocks_per_group (full n).sb = 8192 := full_per n .block
  refine ⟨⟨full_plan n (by omega), full_counted n h1 h2, _, Bio.binit_held _ 1024⟩, ?_, ⟨rfl, rfl, rfl⟩,
    rfl, rfl, fun k g hg hnum => ?_, fun p _ h0 => absurd (full_ptr n i p) h0,
    fun p _ h0 => absurd (full_ptr n i p) h0, fun p _ _ _ h0 => absurd (full_ptr n i p) h0⟩
  · rw [hgroups, hper]
    omega
  · have hg := hg.1
    rw [hgroups] at hg
    have hmap := full_map n g (by omega) k
    have hlow : k.map (full n).gds g = g * 8192 + 20 ∨ k.map (full n).gds g = g * 8192 + 21 := by
      rw [hmap]
      split <;> omega
    have hper' : Kind.per (full n).sb .block = 8192 := hper
    rw [State.used, hper', full_bit n .block _ _ (by omega) (Nat.mod_lt _ (by decide)),
      decide_eq_false (by omega)]
    rfl

/-- the bitmaps of the last groups are past 2 GB; they are not read -/
theorem full_ready (n : Nat) (i : Slot) (hn : n < 1000) : Ready (full n) i 1 0 where
  indices p _ h0 := absurd (full_ptr n i p) h0
  bitmaps g hg hfree _ := by
    have hfree' : bg_free_blocks_count (full n).gds g = _ := full_free n g .block
    obtain rfl : g = 0 := by
      by_contra hne
      rw [hfree', if_neg (by simp [hne])] at hfree
      omega
    have hmap : bg_block_bitmap (full n).gds 0 = _ := full_map n 0 (by decide) .block
    rw [BitmapReadable, BitmapInReach, hmap]
    decide
  made x hx := by cases hx

/-- block 0 of a file of a full 4 GB file system gets the free block -/
theorem blkno_alloc_far : ∃ b t, ext2_blkno 0 (0 : Nat) true (full 513) = some (b, t) ∧
    Allocates (full 513) 0 0 b t := by
  have h := full_consistent (n := 513) (by decide) (by decide) 0
  have hdraws : draws (full 513) 0 0 = 1 := by
    rw [draws, if_pos (full_ptr 513 0 _)]
    rfl
  refine (blkno_alloc_iff h (k := 0) (by decide) fun _ => ?_).mpr fun hov => ?_
  · rw [hdraws]
    exact full_ready 513 0 (by decide)
  · have hsup : supply (full 513) = 0 := hov.2.2.2
    have hgroups : 0 < (full 513).groups := show 0 < 513 by decide
    have hzero := Finset.sum_eq_zero_iff.mp hsup 0 (Finset.mem_range.mpr hgroups)
    have hfree : bg_free_blocks_count (full 513).gds 0 = 1 := full_free 513 0 .block
    rw [full_bit 513 .block 0 0 (by decide) (by decide), hfree] at hzero
    simp at hzero

/-! ## a file system with one free block -/

/-- two groups in which only block 6 is free, and an inode with one pointer -/
def lone (disk : Mem) (i : Slot) (k n : Nat) : State :=
  setBlock i k n { full 2 with bio := Bio.binit 1024 ⟨0, 0, fun _ => ⟨0, 0, false, none⟩, disk, 0⟩ }

theorem lone_contents (disk : Mem) (i : Slot) (k n : Nat) :
    contents (lone disk i k n).bio = fun b => disk.get (b * 1024) 1024 :=
  contents_eq (Bio.binit_held _ 1024)

theorem lone_map (disk : Mem) (i : Slot) (k n : Nat) (x : Kind) {g : Nat} (hg : g < 2) :
    x.map (lone disk i k n).gds g = g * 8192 + if x = .block then 20 else 21 :=
  full_map 2 g (by omega) x

theorem lone_number (disk : Mem) (i : Slot) (k n : Nat) {b : Nat} :
    (lone disk i k n).Number .block b ↔ 1 ≤ b ∧ b ≤ 16384 := by
  have hper : Kind.per (lone disk i k n).sb .block = 8192 := full_per 2 .block
  have hgroups : (lone disk i k n).groups = 2 := rfl
  have hsize : ∀ g, g < 2 → Kind.size (lone disk i k n).sb g .block = 8192 := fun g hg =>
    full_size 2 (by decide) .block g hg
  unfold State.Number
  rw [hper, hgroups]
  constructor
  · rintro ⟨h1, h2, -⟩
    omega
  · rintro ⟨h1, h2⟩
    have hg : (b - 1) / 8192 < 2 := by omega
    rw [hsize _ hg]
    omega

/-- the other blocks are those of `full` -/
theorem lone_same {disk : Mem} (i : Slot) (k : Nat) {n : Nat}
    (hdisk : ∀ x, x < n * 1024 ∨ (n + 1) * 1024 ≤ x → disk x = fullDisk x) {b : Nat} (hb : b ≠ n) :
    contents (lone disk i k n).bio b = contents (full 2).bio b := by
  rw [lone_contents, full_contents]
  apply Mem.get_eq_of_forall
  intro x hx
  apply hdisk
  omega

/-- the file has one pointer -/
theorem lone_ptr {disk : Mem} (i : Slot) {k n : Nat} (h1 : 23 ≤ n) (h2 : n ≤ 8192)
    (hleaf : 12 ≤ k → ∀ x, n * 1024 ≤ x → x < (n + 1) * 1024 → disk x = 0) {p : List Nat} (hp : Path p) :
    (forest (lone disk i k n) i).ptr p = if p = [k] then (n : Int) else 0 := by
  have hsgn : sgn 32 (n : Int) = n := sgn32_of_range (by omega) (by omega)
  induction p with
  | nil =>
    rw [if_neg (by simp)]
    rfl
  | cons j p ih =>
    cases p with
    | nil =>
      have h := setBlock_block i k n (full 2) j
      rw [show i_block ((full 2).inode i) j = 0 from no_block j, hsgn] at h
      rw [Radix.ptr_root, forest_root]
      refine h.trans (if_congr ?_ rfl rfl)
      simp
    | cons k' p =>
      have hup := ih (path_closed _ _ _ hp)
      rw [if_neg (by intro e; cases e)]
      by_cases e : k' :: p = [k]
      · -- an entry of the index block
        have huns : uns 32 (n : Int) = n := uns32_natCast (by omega)
        have hne : (forest (lone disk i k n) i).ptr (k' :: p) ≠ 0 := by
          rw [hup, if_pos e]
          omega
        have hlevel : 12 ≤ k := by
          rw [e] at hp
          have hlen := Path.length_le (p := [j]) hp
          rw [levelOf, List.length_singleton] at hlen
          omega
        have hj := hp.index_lt
        have hle : Mem.le (buffer (contents (lone disk i k n).bio n)) (4 * j) 4
            = Mem.le (fun _ => 0) (4 * j) 4 := by
          apply le_congr
          intro x hx
          rw [lone_contents, buffer_get_at _ (by omega)]
          exact hleaf hlevel _ (by omega) (by omega)
        rw [Radix.ptr_next hne, hup, if_pos e, forest_entry, huns, blkptr_natCast, Mem.le32, hle]
        simp [Mem.le]
        decide
      · rw [if_neg e] at hup
        exact Radix.ptr_end hup

section
variable {disk : Mem} (i : Slot) (k : Nat) {n : Nat} (h1 : 23 ≤ n) (h2 : n ≤ 8192)
  (hdisk : ∀ x, x < n * 1024 ∨ (n + 1) * 1024 ≤ x → disk x = fullDisk x)
include h1 h2 hdisk

theorem lone_sound : Sound (lone disk i k n) := by
  have hfull : Sound (full 2) :=
    ⟨full_plan 2 (by decide), full_counted 2 (by decide) (by decide), _, Bio.binit_held _ 1024⟩
  refine hfull.of_same rfl rfl rfl rfl ⟨_, Bio.binit_held _ 1024⟩ fun x g hg => ?_
  apply lone_same i k hdisk
  rw [full_map 2 g (by have : g < 2 := hg.1; omega) x]
  split <;> omega

theorem lone_bit (x : Kind) {g j : Nat} (hg : g < 2) (hj : j < 8192) :
    (lone disk i k n).bit x g j = !decide (x = .block ∧ g = 0 ∧ j = 5) := by
  have hfull := full_bit 2 x g j (by omega) hj
  have hmap : x.map (full 2).gds g = x.map (lone disk i k n).gds g := rfl
  have hne : x.map (lone disk i k n).gds g ≠ n := by
    rw [lone_map disk i k n x hg]
    split <;> omega
  rw [State.bit, hmap] at hfull
  rw [State.bit, lone_same i k hdisk hne]
  exact hfull

/-- every block is in use but block 6 -/
theorem lone_used {b : Nat} (hb1 : 1 ≤ b) (hb2 : b ≤ 16384) (h6 : b ≠ 6) :
    (lone disk i k n).used .block b = true := by
  have hper : Kind.per (lone disk i k n).sb .block = 8192 := full_per 2 .block
  rw [State.used, hper, lone_bit i k h1 h2 hdisk .block (by omega) (Nat.mod_lt _ (by decide)),
    decide_eq_false (by omega)]
  rfl

variable (hleaf : 12 ≤ k → ∀ x, n * 1024 ≤ x → x < (n + 1) * 1024 → disk x = 0)
include hleaf

theorem lone_consistent : Consistent (lone disk i k n) i := by
  have hgroups : (lone disk i k n).groups = 2 := rfl
  have hper : s_blocks_per_group (lone disk i k n).sb = 8192 := full_per 2 .block
  have hptr : ∀ p, Path p → (forest (lone disk i k n) i).ptr p ≠ 0 →
      p = [k] ∧ uns 32 ((forest (lone disk i k n) i).ptr p) = n := by
    intro p hp h0
    rw [lone_ptr i h1 h2 hleaf hp] at h0 ⊢
    by_cases e : p = [k]
    · rw [if_pos e]
      exact ⟨e, uns32_natCast (by omega)⟩
    · rw [if_neg e] at h0
      exact absurd rfl h0
  refine ⟨lone_sound i k h1 h2 hdisk, ?_, ⟨rfl, rfl, rfl⟩, rfl, rfl, fun x g hg hnum => ?_,
    fun p hp h0 => ?_, fun p hp h0 x g hg => ?_, fun p q hp hq h0 e => ?_⟩
  · rw [hgroups, hper]
    decide
  · have hlt : g < 2 := hg.1
    rw [lone_map disk i k n x hlt] at hnum ⊢
    obtain ⟨hb1, hb2⟩ := (lone_number disk i k n).mp hnum
    exact lone_used i k h1 h2 hdisk hb1 hb2 (by split <;> omega)
  · rw [(hptr p hp h0).2]
    exact ⟨(lone_number disk i k n).mpr (by omega),
      lone_used i k h1 h2 hdisk (by omega) (by omega) (by omega)⟩
  · rw [(hptr p hp h0).2, lone_map disk i k n x hg.1]
    split <;> omega
  · rw [(hptr p hp h0).1, (hptr q hq (by rwa [← e])).1]

end

theorem lone_small (disk : Mem) (i : Slot) (k n : Nat) : Small (lone disk i k n) where
  blocks b hb := by
    obtain ⟨-, h⟩ := (lone_number disk i k n).mp hb
    unfold Near
    omega
  bitmaps g hg := by
    have hmap : bg_block_bitmap (lone disk i k n).gds g = _ := lone_map disk i k n .block hg.1
    have hlt : g < 2 := hg.1
    rw [hmap, Near, if_pos rfl]
    omega

/-- block 30 is an empty index block; every other bit of the device is set, but bit 5 of block 20 -/
def gapDisk : Mem := fun x => if 30720 ≤ x ∧ x < 31744 then 0 else fullDisk x

theorem gapDisk_out (x : Nat) (hx : x < 30 * 1024 ∨ (30 + 1) * 1024 ≤ x) : gapDisk x = fullDisk x :=
  if_neg (by omega)

theorem gapDisk_in (x : Nat) (h1 : 30 * 1024 ≤ x) (h2 : x < (30 + 1) * 1024) : gapDisk x = 0 :=
  if_pos (by omega)

/-- a file with a double-indirect block and nothing else -/
def gapFile (i : Slot) : State := lone gapDisk i 13 30

theorem gapFile_consistent (i : Slot) : Consistent (gapFile i) i :=
  lone_consistent i 13 (by decide) (by decide) gapDisk_out fun _ => gapDisk_in

theorem gapFile_ptr (i : Slot) {p : List Nat} (hp : Path p) :
    (forest (gapFile i) i).ptr p = if p = [13] then 30 else 0 :=
  lone_ptr i (by decide) (by decide) (fun _ => gapDisk_in) hp

theorem gapFile_supply (i : Slot) : supply (gapFile i) = 1 := by
  have hfree : ∀ g, bg_free_blocks_count (gapFile i).gds g = if g = 0 then 1 else 0 := by
    intro g
    refine (full_free 2 g .block).trans ?_
    simp
  have hbit : ∀ g, g < 2 → (gapFile i).bit .block g 0 = true := by
    intro g hg
    refine (lone_bit i 13 (by decide) (by decide) gapDisk_out .block hg (by decide)).trans ?_
    simp
  have hsum : supply (gapFile i) = ∑ g ∈ Finset.range 2, if g = 0 then 1 else 0 := by
    apply Finset.sum_congr rfl
    intro g hg
    rw [hbit g (Finset.mem_range.mp hg), hfree, if_pos rfl]
  rw [hsum]
  rfl

/-- the free block becomes the index block of block 268, and two blocks are counted -/
theorem gapFile_overcounts (i : Slot) : Overcounts (gapFile i) i 268 := by
  refine ⟨rfl, Or.inr (le_refl _), ?_, ?_⟩
  · rw [gapFile_ptr i (pathOf_path (by decide))]
    rfl
  · have hpath : Path [(268 - 268) / 256, 13] :=
      path_closed _ _ _ (pathOf_path (k := 268) (by decide))
    rw [gapFile_supply, missing, show indexPaths 268 = [[13], [(268 - 268) / 256, 13]] from rfl]
    simp only [List.countP_cons, List.countP_nil]
    rw [gapFile_ptr i (path_root (by decide)), gapFile_ptr i hpath]
    rfl

theorem blkno_alloc_full : Consistent (gapFile 0) 0 ∧ Small (gapFile 0) ∧
    ((268 : Nat) : Int) ≤ (gapFile 0).ind2lim ∧
    ¬ ∃ b t, ext2_blkno 0 (268 : Nat) true (gapFile 0) = some (b, t) ∧
      Allocates (gapFile 0) 0 268 b t := by
  refine ⟨gapFile_consistent 0, lone_small gapDisk 0 13 30, by decide, ?_⟩
  rintro ⟨b, t, hrun, ha⟩
  obtain ⟨b', t', hrun', ho⟩ :=
    blkno_outcome (gapFile_consistent 0)
      ((lone_small gapDisk 0 13 30).ready (gapFile_consistent 0) _ _) rfl (k := 268) (by decide)
  obtain ⟨rfl, rfl⟩ := Prod.mk.inj (Option.some.inj (hrun'.symm.trans hrun))
  exact ho.overcounts (gapFile_consistent 0) (gapFile_overcounts 0) ha

end E2
