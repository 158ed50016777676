import Aboot.Machine

/-!
# utils.c: when check_memory is right

`check_memory` takes a free cluster that meets the range out of both ends of it at once, so that
nothing is left: the first cluster of the table that meets the range decides.  Only a cluster that
starts at page 0 is not the last one it looks at, because the end of the range wraps then.

* `Page`, `Cluster.Has`     the pages of a range and of a cluster;
* `Busy`, `Covered`         some page is reserved, and every page is in a cluster;
* `Verdict`                 what should be returned;
* `Right`                   when the deciding cluster gives that;
* `check_memory_iff`        `check_memory` returns the verdict exactly then.
-/

set_option linter.unusedVariables false

namespace Cluster

/-- the cluster's page range does not wrap -/
def Whole (c : Cluster) : Prop := c.start_pfn + c.numpages < 18446744073709551616

instance (c : Cluster) : Decidable c.Whole := inferInstanceAs (Decidable (_ < _))

/-- a page of the cluster -/
def Has (c : Cluster) (p : Nat) : Prop := c.start_pfn ≤ p ∧ p < c.start_pfn + c.numpages

/-- bit 0 is reserved for the console, bit 1 is non-volatile -/
def Reserved (c : Cluster) : Prop := c.usage &&& 3 ≠ 0

instance (c : Cluster) : Decidable c.Reserved := inferInstanceAs (Decidable (_ ≠ _))

/-- the overlap test of the source, for the pages `a` to `b` -/
def Meets (a b : Nat) (c : Cluster) : Prop := c.start_pfn ≤ b ∧ a < c.start_pfn + c.numpages

instance (a b : Nat) (c : Cluster) : Decidable (c.Meets a b) := inferInstanceAs (Decidable (_ ∧ _))

end Cluster

namespace Memory
open Word Cluster

/-! ## the law -/

/-- a page of the bytes from `start` on -/
def Page (start size p : Nat) : Prop := ∃ x, start ≤ x ∧ x < start + size ∧ x / 2 ^ PAGE_SHIFT = p

/-- some page of the range is in a reserved cluster -/
def Busy (clusters : List Cluster) (start size : Nat) : Prop :=
  ∃ c ∈ clusters, c.Reserved ∧ ∃ p, Page start size p ∧ c.Has p

/-- every page of the range is in some cluster -/
def Covered (clusters : List Cluster) (start size : Nat) : Prop :=
  ∀ p, Page start size p → ∃ c ∈ clusters, c.Has p

/-- the page ranges do not wrap and no two of them share a page -/
def Separate (clusters : List Cluster) : Prop :=
  (∀ c ∈ clusters, c.Whole) ∧ clusters.Pairwise fun c d => ∀ p, ¬ (c.Has p ∧ d.Has p)

/-- `r` is what `check_memory` should return -/
def Verdict (clusters : List Cluster) (start size : Nat) (r : Int) : Prop :=
  (r = -EBUSY ↔ Busy clusters start size) ∧
    (¬ Busy clusters start size → (r = 0 ↔ Covered clusters start size)) ∧
    (¬ Busy clusters start size → ¬ Covered clusters start size → r = -ENOMEM)

/-! ## when it is met -/

/-- the pages of a range that is not empty -/
def firstPage (start : Nat) : Nat := start / 2 ^ PAGE_SHIFT
def lastPage (start size : Nat) : Nat := (start + size - 1) / 2 ^ PAGE_SHIFT

/-- the table from the first cluster on that meets the range -/
def met (clusters : List Cluster) (start size : Nat) : List Cluster :=
  clusters.dropWhile fun c => ¬ c.Meets (firstPage start) (lastPage start size)

/-- the cluster that decides: the first one that meets the range or, if that one is free and starts
at page 0, the next one that ends above it -/
def decider (clusters : List Cluster) (start size : Nat) : Option Cluster :=
  match met clusters start size with
  | [] => none
  | c :: cs =>
    if ¬ c.Reserved ∧ c.start_pfn = 0 then cs.find? fun d => c.numpages < d.start_pfn + d.numpages
    else some c

/-- what the deciding cluster stands for is true of the whole range -/
def Right (clusters : List Cluster) (start size : Nat) : Prop :=
  match decider clusters start size with
  | none => ¬ Busy clusters start size ∧ ¬ Covered clusters start size
  | some c =>
    if c.Reserved then Busy clusters start size
    else ¬ Busy clusters start size ∧ Covered clusters start size

/-! ## what check_memory does -/

/-- the value that a deciding cluster leads to -/
def outcome : Option Cluster → Int
  | none => -ENOMEM
  | some c => if c.Reserved then -EBUSY else 0

theorem uns_end {c : Cluster} (h : c.Whole) :
    uns 64 ((c.start_pfn : Int) + c.numpages) = c.start_pfn + c.numpages := by
  rw [← Int.natCast_add, uns64_natCast h]

/-- a cluster that does not meet the range is passed over -/
theorem check_clusters_skip {c : Cluster} (h : c.Whole) (cs : List Cluster) {a b : Nat}
    (hm : ¬ c.Meets a b) : check_clusters (c :: cs) a b = check_clusters cs a b := by
  have hcond : b < c.start_pfn ∨ c.start_pfn + c.numpages ≤ a := by
    unfold Meets at hm
    omega
  rw [check_clusters, uns_end h, if_pos hcond]

theorem check_clusters_met {clusters : List Cluster} (h : ∀ c ∈ clusters, c.Whole) (a b : Nat) :
    check_clusters clusters a b
      = check_clusters (clusters.dropWhile fun c => ¬ c.Meets a b) a b := by
  induction clusters with
  | nil => rfl
  | cons c cs ih =>
    by_cases hm : c.Meets a b
    · rw [List.dropWhile_cons_of_neg (by simpa using hm)]
    · rw [List.dropWhile_cons_of_pos (by simpa using hm),
        check_clusters_skip (h c List.mem_cons_self) cs hm,
        ih fun d hd => h d (List.mem_cons_of_mem _ hd)]

/-- the first cluster that meets the range -/
theorem check_clusters_meets {c : Cluster} (h : c.Whole) (cs : List Cluster) {a b : Nat}
    (hm : c.Meets a b) :
    check_clusters (c :: cs) a b
      = if ¬ c.Reserved ∧ c.start_pfn = 0 then check_clusters cs c.numpages 18446744073709551615
        else outcome (some c) := by
  have hw : c.start_pfn + c.numpages < 18446744073709551616 := h
  have hcond : ¬ (b < c.start_pfn ∨ c.start_pfn + c.numpages ≤ a) := by
    unfold Meets at hm
    omega
  rw [check_clusters, uns_end h, if_neg hcond]
  by_cases hr : c.Reserved
  · rw [if_pos (show c.usage &&& 3 ≠ 0 from hr), if_neg fun hn => hn.1 hr, outcome, if_pos hr]
  · rw [if_neg (show ¬ c.usage &&& 3 ≠ 0 from hr), if_pos hm.1, if_pos hm.2]
    dsimp only
    by_cases h0 : c.start_pfn = 0
    · have hlow : uns 64 ((c.start_pfn : Int) - 1) = 18446744073709551615 := by
        rw [h0]
        decide
      rw [hlow, if_neg (by omega), if_pos ⟨hr, h0⟩, h0, Nat.zero_add]
    · have hlow : uns 64 ((c.start_pfn : Int) - 1) = c.start_pfn - 1 := by
        rw [show (c.start_pfn : Int) - 1 = (c.start_pfn - 1 : Nat) by omega,
          uns64_natCast (by omega)]
      rw [hlow, if_pos (by omega), if_neg fun hn => h0 hn.2, outcome, if_neg hr]

/-- after a cluster at page 0 the range has no upper end -/
theorem check_clusters_open {n : Nat} (cs : List Cluster) (h : ∀ c ∈ cs, c.Whole)
    (h0 : ∀ c ∈ cs, n < c.start_pfn + c.numpages → 0 < c.start_pfn) :
    check_clusters cs n 18446744073709551615
      = outcome (cs.find? fun d => n < d.start_pfn + d.numpages) := by
  induction cs with
  | nil => rfl
  | cons c cs ih =>
    have hw : c.start_pfn + c.numpages < 18446744073709551616 := h c List.mem_cons_self
    by_cases hm : n < c.start_pfn + c.numpages
    · have hpos := h0 c List.mem_cons_self hm
      rw [check_clusters_meets hw cs ⟨by omega, hm⟩, if_neg (by omega),
        List.find?_cons_of_pos (by simpa using hm)]
    · rw [check_clusters_skip hw cs fun hn => hm hn.2, List.find?_cons_of_neg (by simpa using hm)]
      exact ih (fun d hd => h d (List.mem_cons_of_mem _ hd))
        fun d hd => h0 d (List.mem_cons_of_mem _ hd)

/-- the deciding cluster decides -/
theorem check_clusters_eq {clusters : List Cluster} (h : Separate clusters) (start size : Nat) :
    check_clusters clusters (firstPage start) (lastPage start size)
      = outcome (decider clusters start size) := by
  have hsub : (met clusters start size).Sublist clusters := List.dropWhile_sublist _
  have hall : ∀ c ∈ met clusters start size, c.Whole := fun c hc => h.1 c (hsub.mem hc)
  have hpair := h.2.sublist hsub
  rw [check_clusters_met h.1]
  show check_clusters (met clusters start size) _ _ = _
  unfold decider
  cases hmet : met clusters start size with
  | nil => rfl
  | cons c cs =>
    have hm : c.Meets (firstPage start) (lastPage start size) := by
      have := List.head?_dropWhile_not
        (fun c : Cluster => decide (¬ c.Meets (firstPage start) (lastPage start size))) clusters
      unfold met at hmet
      rw [hmet] at this
      simpa using this
    rw [hmet] at hall hpair
    rw [check_clusters_meets (hall c List.mem_cons_self) cs hm]
    dsimp only
    split
    · rename_i h0
      refine check_clusters_open cs (fun d hd => hall d (List.mem_cons_of_mem _ hd))
        fun d hd hlt => Nat.pos_of_ne_zero fun hz => ?_
      have hpos : 0 < c.numpages := by
        have := hm.2
        omega
      refine (List.pairwise_cons.mp hpair).1 d hd 0 ⟨⟨by omega, by omega⟩, by omega, by omega⟩
    · rfl

theorem check_memory_eq {clusters : List Cluster} (h : Separate clusters) {start size : Nat}
    (hsize : 0 < size) (hwrap : phys_start start + size ≤ 18446744073709551616) :
    check_memory clusters start size = outcome (decider clusters (phys_start start) size) := by
  have hlast : uns 64 ((phys_start start : Int) + size - 1) = phys_start start + size - 1 := by
    generalize phys_start start = a at hwrap ⊢
    rw [show (a : Int) + size - 1 = (a + size - 1 : Nat) by omega, uns64_natCast (by omega)]
  rw [← check_clusters_eq h, check_memory, hlast]
  rfl

/-- a value that the deciding cluster leads to is the verdict when the cluster is right -/
theorem verdict_iff (clusters : List Cluster) (start size : Nat) :
    Verdict clusters start size (outcome (decider clusters start size))
      ↔ Right clusters start size := by
  have e1 : (-ENOMEM : Int) ≠ -EBUSY := by decide
  have e2 : (-ENOMEM : Int) ≠ 0 := by decide
  have e3 : (0 : Int) ≠ -EBUSY := by decide
  have e4 : (0 : Int) ≠ -ENOMEM := by decide
  unfold Verdict Right
  cases decider clusters start size with
  | none =>
    simp only [outcome, e1, e2, false_iff]
    exact ⟨fun h => ⟨h.1, h.2.1 h.1⟩, fun h => ⟨h.1, fun _ => h.2, fun _ _ => trivial⟩⟩
  | some c =>
    by_cases hr : c.Reserved
    · simp only [outcome, if_pos hr, true_iff]
      exact ⟨fun h => h.1, fun h => ⟨h, fun hn => absurd h hn, fun hn => absurd h hn⟩⟩
    · simp only [outcome, if_neg hr, e3, e4, false_iff, true_iff]
      refine ⟨fun h => ⟨h.1, h.2.1 h.1⟩, fun h => ⟨h.1, fun _ => h.2, fun _ hn => hn h.2⟩⟩

/-- **check_memory.**  For clusters in any order that share no pages and a range that is not empty
and does not wrap, `check_memory` returns the verdict exactly when its deciding cluster is right. -/
theorem check_memory_iff (clusters : List Cluster) (start size : Nat) (h : Separate clusters)
    (hsize : 0 < size) (hwrap : phys_start start + size ≤ 18446744073709551616) :
    Verdict clusters (phys_start start) size (check_memory clusters start size)
      ↔ Right clusters (phys_start start) size := by
  rw [check_memory_eq h hsize hwrap]
  exact verdict_iff clusters (phys_start start) size

/-- a free range in one cluster -/
theorem check_memory_iff_one :
    Verdict [⟨256, 64, 0⟩] (phys_start 0x210000) 0x4000
      (check_memory [⟨256, 64, 0⟩] 0x210000 0x4000) := by
  have hphys : phys_start 0x210000 = 0x210000 := by decide
  have hsep : Separate [⟨256, 64, 0⟩] :=
    ⟨fun c hc => by rw [List.mem_singleton.mp hc]; decide, List.pairwise_singleton _ _⟩
  rw [check_memory_iff _ _ _ hsep (by decide) (by rw [hphys]; decide), hphys]
  have hin : ∀ p, Page 0x210000 0x4000 p → (⟨256, 64, 0⟩ : Cluster).Has p := by
    rintro p ⟨x, h1, h2, rfl⟩
    show 256 ≤ x / 8192 ∧ x / 8192 < 256 + 64
    omega
  refine ⟨?_, fun p hp => ⟨_, List.mem_cons_self, hin p hp⟩⟩
  rintro ⟨c, hc, hr, -⟩
  rw [List.mem_singleton.mp hc] at hr
  exact absurd hr (by decide)

/-- a range that starts in a free cluster and ends in a reserved one is reported as free -/
theorem check_memory_partial :
    Separate [⟨256, 64, 0⟩, ⟨320, 64, 1⟩] ∧
    check_memory [⟨256, 64, 0⟩, ⟨320, 64, 1⟩] 0x270000 0x20000 = 0 ∧
    Busy [⟨256, 64, 0⟩, ⟨320, 64, 1⟩] (phys_start 0x270000) 0x20000 ∧
    ¬ Verdict [⟨256, 64, 0⟩, ⟨320, 64, 1⟩] (phys_start 0x270000) 0x20000
      (check_memory [⟨256, 64, 0⟩, ⟨320, 64, 1⟩] 0x270000 0x20000) := by
  have hsep : Separate [⟨256, 64, 0⟩, ⟨320, 64, 1⟩] := by
    refine ⟨fun c hc => ?_, ?_⟩
    · simp only [List.mem_cons, List.not_mem_nil, or_false] at hc
      rcases hc with rfl | rfl <;> decide
    · refine List.pairwise_cons.mpr ⟨fun d hd p hp => ?_, List.pairwise_singleton _ _⟩
      rw [List.mem_singleton.mp hd] at hp
      have h1 : p < 256 + 64 := hp.1.2
      have h2 : 320 ≤ p := hp.2.1
      omega
  have hval : check_memory [⟨256, 64, 0⟩, ⟨320, 64, 1⟩] 0x270000 0x20000 = 0 := by decide
  have hbusy : Busy [⟨256, 64, 0⟩, ⟨320, 64, 1⟩] (phys_start 0x270000) 0x20000 :=
    ⟨⟨320, 64, 1⟩, by simp, by decide, 320, ⟨0x280000, by decide, by decide, by decide⟩, by decide,
      by decide⟩
  refine ⟨hsep, hval, hbusy, fun h => ?_⟩
  have := h.1.mpr hbusy
  rw [hval] at this
  exact absurd this (by decide)

end Memory
