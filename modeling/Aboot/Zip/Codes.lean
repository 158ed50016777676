import Aboot.Zip.Build

/-!
# zip/inflate.c: huft_build

* `minLength_spec`, `maxLength_spec`, `dummies_some`   the lengths, and the codes that are missing;
* `values_slot`      the values in order of length;
* `Tabled`           tables in which every pattern of bits leads to the entry of the code it starts with;
* `huft_build_ends`  what `huft_build` returns.
-/

set_option linter.unusedVariables false

namespace Inflate
open PrefixCode Raise

/-! ## the lengths -/

section
variable {c : Nat → Nat} {g k n : Nat}

theorem minLength_spec (h : ∃ k, 1 ≤ k ∧ k ≤ BMAX ∧ c k ≠ 0) :
    1 ≤ minLength c ∧ minLength c ≤ BMAX ∧ c (minLength c) ≠ 0 ∧ ∀ k, 1 ≤ k → k < minLength c → c k = 0 := by
  unfold minLength
  cases hf : (List.range' 1 BMAX).find? fun j => c j ≠ 0 with
  | none =>
    obtain ⟨k, hk, hle, hc⟩ := h
    have hnot := List.find?_range'_eq_none.mp hf k hk (by omega)
    simp only [hc, ne_eq, not_false_eq_true, decide_true, Bool.not_true, Bool.false_eq_true] at hnot
  | some j =>
    obtain ⟨hc, hmem, hbefore⟩ := List.find?_range'_eq_some.mp hf
    have hj := List.mem_range'_1.mp hmem
    refine ⟨hj.1, by show j ≤ BMAX; omega, of_decide_eq_true hc, fun k hk hlt => ?_⟩
    have := hbefore k hk hlt
    simpa only [ne_eq, decide_not, Bool.not_not, decide_eq_true_eq] using this

theorem maxLength_spec (h : ∃ k, 1 ≤ k ∧ k ≤ BMAX ∧ c k ≠ 0) :
    1 ≤ maxLength c ∧ maxLength c ≤ BMAX ∧ c (maxLength c) ≠ 0 ∧ ∀ k, maxLength c < k → k ≤ BMAX → c k = 0 := by
  unfold maxLength
  cases hf : (List.range' 1 BMAX).reverse.find? fun i => c i ≠ 0 with
  | none =>
    obtain ⟨k, hk, hle, hc⟩ := h
    have hmem : k ∈ (List.range' 1 BMAX).reverse := List.mem_reverse.mpr (List.mem_range'_1.mpr ⟨hk, by omega⟩)
    exact absurd (decide_eq_true hc) (List.find?_eq_none.mp hf k hmem)
  | some g =>
    obtain ⟨hc, as, bs, heq, has⟩ := List.find?_eq_some_iff_append.mp hf
    have hmem : g ∈ List.range' 1 BMAX := by
      rw [← List.mem_reverse, heq]
      exact List.mem_append_right _ List.mem_cons_self
    have hg := List.mem_range'_1.mp hmem
    refine ⟨hg.1, by show g ≤ BMAX; omega, of_decide_eq_true hc, fun k hk hle => ?_⟩
    have hk' : g < k := hk
    have hin : k ∈ as ++ g :: bs := by
      rw [← heq, List.mem_reverse]
      exact List.mem_range'_1.mpr ⟨by omega, by omega⟩
    have hsorted : (as ++ g :: bs).Pairwise fun a b => b < a := by
      rw [← heq, List.pairwise_reverse]
      exact List.pairwise_lt_range'
    rcases List.mem_append.mp hin with hin | hin
    · simpa only [ne_eq, decide_not, Bool.not_not, decide_eq_true_eq] using has k hin
    · rcases List.mem_cons.mp hin with rfl | hin
      · exact absurd hk' (Nat.lt_irrefl k)
      · have := (List.pairwise_cons.mp (List.pairwise_append.mp hsorted).2.1).1 k hin
        omega

theorem over_of_lt {j : Nat} {y : Int} (hj : 1 ≤ j) (hjg : j ≤ g)
    (hy : y * weight g j + filled c g (j - 1) = 2 ^ g) (h : y - c j < 0) : 2 ^ g < filled c g g := by
  have hmono : filled c g j ≤ filled c g g := filled_mono hjg
  have hw : (0 : Int) < weight g j := Int.natCast_pos.mpr (weight_pos _ _)
  have hmul := Int.mul_lt_mul_of_pos_right (show y < c j by omega) hw
  rw [filled_pred hj] at hmono
  zify at hmono ⊢
  linarith

/-- the patterns that are left for the codes of one more bit -/
theorem left_succ {j : Nat} {y : Int} (hj : 1 ≤ j) (hjg : j < g)
    (hy : y * weight g j + filled c g (j - 1) = 2 ^ g) :
    2 * (y - c j) * weight g (j + 1) + filled c g (j + 1 - 1) = 2 ^ g := by
  rw [Nat.add_sub_cancel, filled_pred hj]
  rw [weight_succ hjg] at hy ⊢
  push_cast at hy ⊢
  linarith

/-- the codes that are missing have the patterns that are left -/
theorem dummies_some {j : Nat} {y r : Int} (hj : 1 ≤ j) (hn : j + n = g)
    (hy : y * weight g j + filled c g (j - 1) = 2 ^ g) (h : dummies c n j y = some r) :
    0 ≤ r ∧ r + filled c g g = 2 ^ g := by
  induction n generalizing j y with
  | zero =>
    obtain rfl : j = g := hn
    rw [dummies] at h
    split at h
    · cases h
    · cases h
      rw [weight_self] at hy
      rw [filled_pred hj, weight_self]
      push_cast at hy ⊢
      omega
  | succ n ih =>
    rw [dummies] at h
    split at h
    · cases h
    · exact ih (by omega) (by omega) (left_succ hj (by omega) hy) h

/-- there are too many codes -/
theorem dummies_none {j : Nat} {y : Int} (hj : 1 ≤ j) (hn : j + n = g)
    (hy : y * weight g j + filled c g (j - 1) = 2 ^ g) (h : dummies c n j y = none) : 2 ^ g < filled c g g := by
  induction n generalizing j y with
  | zero =>
    rw [dummies] at h
    split at h
    · exact over_of_lt hj (by omega) hy ‹_›
    · cases h
  | succ n ih =>
    rw [dummies] at h
    split at h
    · exact over_of_lt hj (by omega) hy ‹_›
    · exact ih (by omega) (by omega) (left_succ hj (by omega) hy) h

/-- the codes that are shorter than the first one -/
theorem filled_zero (h : ∀ j, 1 ≤ j → j ≤ k → c j = 0) : filled c g k = 0 := by
  induction k with
  | zero => rfl
  | succ k ih => rw [filled, ih fun j hj hle => h j hj (by omega), h (k + 1) (by omega) le_rfl, Nat.zero_mul]

theorem total_zero (h : ∀ j, 1 ≤ j → j ≤ k → c j = 0) : total c k = 0 := by
  induction k with
  | zero => rfl
  | succ k ih => rw [total, ih fun j hj hle => h j hj (by omega), h (k + 1) (by omega) le_rfl]

theorem offset_eq (c : Nat → Nat) (k : Nat) : offset c (k + 1) = total c k := by
  induction k with
  | zero => rfl
  | succ k ih => rw [offset, total, ih]

end

/-! ## the values in order -/

/-- where the value `q` of a list of lengths is put -/
def slot (b : List Nat) (x : Nat → Nat) (q : Nat) : Nat := x (b.getD q 0) + (b.take q).count (b.getD q 0)

/-- the counters after one length -/
def counted (j : Nat) (x : Nat → Nat) : Nat → Nat := if j ≠ 0 then Function.update x j (x j + 1) else x

section
variable {b : List Nat} {x v : Nat → Nat} {i j q o : Nat}

theorem slot_cons (hq : b.getD q 0 ≠ 0) : slot (j :: b) x (q + 1) = slot b (counted j x) q := by
  unfold slot counted
  rw [List.getD_cons_succ, List.take_succ_cons]
  by_cases hj : j = b.getD q 0
  · rw [← hj] at hq ⊢
    rw [if_pos hq, Function.update_self, List.count_cons_self]
    omega
  · rw [List.count_cons_of_ne hj]
    split
    · rw [Function.update_of_ne (Ne.symm hj)]
    · rfl

theorem values_cons (b : List Nat) (i j : Nat) (x v : Nat → Nat) :
    values (j :: b) i x v =
      values b (i + 1) (counted j x) (if j ≠ 0 then Function.update v (x j) i else v) := by
  rw [values, counted]
  split
  · rfl
  · rfl

/-- a place that no value is put into -/
theorem values_of_ne (h : ∀ q < b.length, b.getD q 0 ≠ 0 → slot b x q ≠ o) : values b i x v o = v o := by
  induction b generalizing i x v with
  | nil => rfl
  | cons j b ih =>
    rw [values_cons, ih fun q hq hne => by
      rw [← slot_cons hne]
      exact h (q + 1) (Nat.succ_lt_succ hq) hne]
    split
    · rename_i hj
      exact Function.update_of_ne (Ne.symm (h 0 (Nat.succ_pos _) hj)) _ _
    · rfl

/-- each value is in its place -/
theorem values_slot (hinj : ∀ p < b.length, ∀ q < b.length, b.getD p 0 ≠ 0 → b.getD q 0 ≠ 0 →
    slot b x p = slot b x q → p = q) (hq : q < b.length) (hne : b.getD q 0 ≠ 0) :
    values b i x v (slot b x q) = i + q := by
  induction b generalizing i x v q with
  | nil => cases hq
  | cons j b ih =>
    rw [values_cons]
    cases q with
    | zero =>
      have hj : j ≠ 0 := hne
      rw [values_of_ne fun p hp hpne heq => ?_, if_pos hj]
      · exact Function.update_self _ _ _
      · rw [← slot_cons hpne] at heq
        cases hinj (p + 1) (Nat.succ_lt_succ hp) 0 (Nat.succ_pos _) hpne hne heq
    | succ q =>
      have hne : b.getD q 0 ≠ 0 := hne
      rw [slot_cons hne, ih (fun p hp p' hp' hpne hpne' heq => ?_) (Nat.lt_of_succ_lt_succ hq) hne]
      · omega
      · rw [← slot_cons (j := j) hpne, ← slot_cons (j := j) hpne'] at heq
        exact Nat.succ.inj (hinj (p + 1) (Nat.succ_lt_succ hp) (p' + 1) (Nat.succ_lt_succ hp') hpne hpne' heq)

end

/-- the places of the values are the numbers of their codes -/
theorem slot_eq {b : List Nat} {q k : Nat} (h : b[q]? = some k) (hk : 1 ≤ k) :
    slot b (offset b.count) q = total b.count (k - 1) + (b.take q).count k := by
  obtain ⟨k, rfl⟩ := Nat.exists_eq_add_of_le' hk
  rw [slot, List.getD_eq_getElem?_getD, h]
  show offset b.count (k + 1) + _ = _
  rw [offset_eq]
  rfl

theorem slot_inj {b : List Nat} (p : Nat) (hp : p < b.length) (q : Nat) (hq : q < b.length) (hpne : b.getD p 0 ≠ 0)
    (hqne : b.getD q 0 ≠ 0) (h : slot b (offset b.count) p = slot b (offset b.count) q) : p = q := by
  have hp' : b[p]? = some (b.getD p 0) := by rw [List.getD_eq_getElem _ _ hp, List.getElem?_eq_getElem hp]
  have hq' : b[q]? = some (b.getD q 0) := by rw [List.getD_eq_getElem _ _ hq, List.getElem?_eq_getElem hq]
  generalize b.getD p 0 = k at hp' hpne
  generalize b.getD q 0 = n at hq' hqne
  rw [slot_eq hp' (by omega), slot_eq hq' (by omega)] at h
  have h1 := rank_lt_count hp'
  have h2 := rank_lt_count hq'
  have hk := total_pred (c := b.count) (k := k) (by omega)
  have hn := total_pred (c := b.count) (k := n) (by omega)
  rcases Nat.lt_trichotomy k n with hlt | rfl | hlt
  · have hmono : total b.count k ≤ total b.count (n - 1) := total_mono (by omega)
    omega
  · exact rank_inj hp' hq' (by omega)
  · have hmono : total b.count n ≤ total b.count (k - 1) := total_mono (by omega)
    omega

/-- the value whose code is the code number `m` of `k` bits -/
theorem values_rank {b : List Nat} {v : Nat → Nat} {q k : Nat} (h : b[q]? = some k) (hk : 1 ≤ k) :
    values b 0 (offset b.count) v (total b.count (k - 1) + (b.take q).count k) = q := by
  have hlt : q < b.length := (List.getElem?_eq_some_iff.mp h).1
  have hne : b.getD q 0 ≠ 0 := by
    rw [List.getD_eq_getElem?_getD, h]
    exact Nat.ne_of_gt hk
  rw [← slot_eq h hk, values_slot slot_inj hlt hne, Nat.zero_add]

/-! ## tables of any lengths -/

/-- the levels are of new tables -/
def Safe (R : Nat) (B : Build) : Prop := (∀ lev ∈ B.levels, R ≤ lev.u) ∧ (B.levels ≠ [] → R ≤ B.q)

section
variable {E : Env} {A : Args} {R k a : Nat} {B : Build} {s : State}

theorem newLevel_safe (hR : R ≤ s.tables.length) (h : Safe R B) :
    Ends (newLevel E A k a B) (fun B' s' => Frame R s s' ∧ Safe R B' ∧ B'.levels ≠ []) (NoMemory R s) s := by
  rw [newLevel]
  refine .seq (newTable_ends E _ hR) ?_ fun _ _ he => he
  rintro q s1 ⟨hq, -, hf1⟩
  have hqR : R ≤ q := hq ▸ hR
  cases hlev : B.levels with
  | nil =>
    refine .pure ⟨hf1, ⟨fun lev hmem => ?_, fun _ => hqR⟩, List.cons_ne_nil _ _⟩
    rw [List.mem_singleton.mp hmem]
    exact hqR
  | cons lev rest =>
    have hall := h.1
    rw [hlev] at hall
    refine .seq (store_ends (R := R) (E := NoMemory R s) _ _ _ (hall lev List.mem_cons_self)) ?_ fun _ _ he => he
    rintro ⟨⟩ s2 ⟨-, hf2⟩
    refine .pure ⟨hf1.trans hf2, ⟨fun lev' hmem => ?_, fun _ => hqR⟩, List.cons_ne_nil _ _⟩
    rcases List.mem_cons.mp hmem with rfl | hmem
    · exact hqR
    · exact hall lev' hmem

theorem newLevels_safe (fuel : Nat) (hR : R ≤ s.tables.length) (h : Safe R B) :
    Ends (newLevels E A k a fuel B)
      (fun B' s' => Frame R s s' ∧ Safe R B' ∧ (1 ≤ fuel → 1 ≤ k → B'.levels ≠ [])) (NoMemory R s) s := by
  induction fuel generalizing B s with
  | zero => exact .pure ⟨.refl, h, fun h => absurd h (by omega)⟩
  | succ fuel ih =>
    rw [newLevels]
    refine .ite (fun _ => ?_) fun hge => .pure ⟨.refl, h, fun _ hk hnil => hge ?_⟩
    · refine .seq (newLevel_safe hR h) ?_ fun _ _ he => he
      rintro B1 s1 ⟨hf1, h1, hne⟩
      cases fuel with
      | zero => exact .pure ⟨hf1, h1, fun _ _ => hne⟩
      | succ fuel =>
        exact (ih (hR.trans hf1.length) h1).imp
          (fun B' s' h => ⟨hf1.trans h.1, h.2.1, fun _ => h.2.2 (Nat.succ_pos _)⟩) fun e s' he => he.after hf1
    · rw [hnil]
      exact hk

theorem backup_sub (i : Nat) (L : List Level) : backup i L ⊆ L := by
  induction L with
  | nil => exact fun _ h => h
  | cons lev L ih =>
    rw [backup]
    split
    · exact fun x hx => List.mem_cons_of_mem _ (ih hx)
    · exact fun _ h => h

theorem oneCode_safe (hk : 1 ≤ k) (hR : R ≤ s.tables.length) (h : Safe R B) :
    Ends (oneCode E A k a B) (fun B' s' => Frame R s s' ∧ Safe R B') (NoMemory R s) s := by
  rw [oneCode]
  refine .seq (newLevels_safe k hR h) ?_ fun _ _ he => he
  rintro B1 s1 ⟨hf1, h1, hne⟩
  cases hlev : B1.levels with
  | nil => exact absurd hlev (hne hk hk)
  | cons lev rest =>
    have hset : ∀ b, (setEntry E A b B1).levels = B1.levels ∧ (setEntry E A b B1).q = B1.q := fun b => by
      unfold setEntry
      split
      · exact ⟨rfl, rfl⟩
      · split <;> exact ⟨rfl, rfl⟩
    obtain ⟨hl2, hq2⟩ := hset ((k - lev.w) % 256)
    have hq := h1.2 (by rw [hlev]; exact List.cons_ne_nil _ _)
    refine .seq (store_ends (R := R) (E := NoMemory R s) _ _ _ (by rw [hq2]; exact hq)) ?_ fun _ _ he => he
    rintro ⟨⟩ s2 ⟨-, hf2⟩
    refine .pure ⟨hf1.trans hf2, fun lev' hmem => ?_, fun _ => by show R ≤ (setEntry E A _ B1).q; rw [hq2]; exact hq⟩
    refine h1.1 lev' ?_
    rw [← hl2]
    exact backup_sub _ _ hmem

theorem codes_safe (hk : 1 ≤ k) (hR : R ≤ s.tables.length) (h : Safe R B) :
    Ends (codes E A k a B) (fun B' s' => Frame R s s' ∧ Safe R B') (NoMemory R s) s := by
  induction a generalizing B s with
  | zero => exact .pure ⟨.refl, h⟩
  | succ a ih =>
    rw [codes]
    refine .seq (oneCode_safe hk hR h) ?_ fun _ _ he => he
    rintro B1 s1 ⟨hf1, h1⟩
    exact (ih (hR.trans hf1.length) h1).imp (fun B' s' h => ⟨hf1.trans h.1, h.2⟩) fun e s' he => he.after hf1

theorem lengths_safe {n : Nat} (hk : 1 ≤ k) (hR : R ≤ s.tables.length) (h : Safe R B) :
    Ends (lengths E A n k B) (fun B' s' => Frame R s s' ∧ Safe R B') (NoMemory R s) s := by
  induction n generalizing k B s with
  | zero => exact .pure ⟨.refl, h⟩
  | succ n ih =>
    rw [lengths]
    refine .seq (codes_safe hk hR h) ?_ fun _ _ he => he
    rintro B1 s1 ⟨hf1, h1⟩
    exact (ih (by omega) (hR.trans hf1.length) h1).imp (fun B' s' h => ⟨hf1.trans h.1, h.2⟩) fun e s' he =>
      he.after hf1

end

/-! ## huft_build -/

/-- what the entry is to which the bits `x` lead: that of the code they start with; if there is none, one for
an invalid code, unless there are values without a code -/
def Means (E : Env) (b : List Nat) (s : Nat) (d e : List Nat) (x k : Nat) (r : Huft) : Prop :=
  (∃ v, Starts b x v k ∧ (r.e, r.v) = meaning E s d e v) ∨ (∀ v n, ¬ Starts b x v n) ∧ (0 ∉ b → r.e = 99)

/-- the table `R`, and the tables behind it -/
structure Tabled (E : Env) (b : List Nat) (s : Nat) (d e : List Nat) (M : List Table) (R l : Nat) : Prop where
  pos : 1 ≤ l
  lookup : ∀ x, ∃ k r, k ≤ BMAX ∧ Decodes M R l x k r ∧ Means E b s d e x k r

/-- the patterns of `BMAX` bits that the codes take -/
def kraft (b : List Nat) : Nat := filled b.count BMAX BMAX

/-- the lengths are from `j` to `g` bits -/
structure Span (b : List Nat) (j g : Nat) : Prop where
  pos : 1 ≤ j
  le : j ≤ g
  le_max : g ≤ BMAX
  low : b.count j ≠ 0
  high : b.count g ≠ 0
  mem : ∀ x ∈ b, x ≠ 0 → j ≤ x ∧ x ≤ g

section
variable {b : List Nat} {g j m n : Nat}

theorem span_of (hb : ∀ x ∈ b, x ≤ BMAX) (hsome : ∃ x ∈ b, x ≠ 0) :
    Span b (minLength b.count) (maxLength b.count) := by
  obtain ⟨x, hx, hne⟩ := hsome
  have hex : ∃ k, 1 ≤ k ∧ k ≤ BMAX ∧ b.count k ≠ 0 :=
    ⟨x, Nat.pos_of_ne_zero hne, hb x hx, (List.count_pos_iff.mpr hx).ne'⟩
  obtain ⟨hj1, hj2, hj3, hj4⟩ := minLength_spec hex
  obtain ⟨hg1, hg2, hg3, hg4⟩ := maxLength_spec hex
  refine ⟨hj1, ?_, hg2, hj3, hg3, fun y hy hyne => ⟨?_, ?_⟩⟩
  · by_contra hlt
    exact hj3 (hg4 _ (not_le.mp hlt) hj2)
  · by_contra hlt
    exact (List.count_pos_iff.mpr hy).ne' (hj4 y (Nat.pos_of_ne_zero hyne) (not_le.mp hlt))
  · by_contra hlt
    exact (List.count_pos_iff.mpr hy).ne' (hg4 y (not_le.mp hlt) (hb y hy))

theorem Span.count_zero (h : Span b j g) {k : Nat} (hk : 1 ≤ k) (hout : k < j ∨ g < k) : b.count k = 0 := by
  by_contra hne
  have := h.mem k (List.count_pos_iff.mp (Nat.pos_of_ne_zero hne)) (by omega)
  omega

/-- the number of the values that have a code of at most `m` bits -/
theorem total_count (b : List Nat) (m : Nat) : total b.count m = b.countP fun x => 1 ≤ x ∧ x ≤ m := by
  induction m with
  | zero =>
    refine (List.countP_eq_zero.mpr fun x _ => ?_).symm
    rw [decide_eq_true_eq]
    omega
  | succ m ih =>
    rw [total, ih]
    clear ih
    induction b with
    | nil => rfl
    | cons y b ih =>
      rw [List.countP_cons, List.countP_cons, List.count_cons, ← ih]
      by_cases hy : y = m + 1
      · subst hy
        simp
        omega
      · have hiff : (1 ≤ y ∧ y ≤ m + 1) ↔ (1 ≤ y ∧ y ≤ m) := by omega
        simp only [hiff, beq_iff_eq, hy, if_false]
        omega

theorem total_le_length (b : List Nat) (m : Nat) : total b.count m ≤ b.length := by
  rw [total_count]
  exact List.countP_le_length

theorem Span.total_eq (h : Span b j g) (hzero : 0 ∉ b) : total b.count g = b.length := by
  rw [total_count, List.countP_eq_length]
  intro x hx
  have hne : x ≠ 0 := fun h0 => hzero (h0 ▸ hx)
  rw [decide_eq_true_eq]
  exact ⟨Nat.pos_of_ne_zero hne, (h.mem x hx hne).2⟩

theorem filled_scale {c : Nat → Nat} (n : Nat) (hm : m ≤ g) : filled c (g + n) m = filled c g m * 2 ^ n := by
  induction m with
  | zero => exact (Nat.zero_mul _).symm
  | succ m ih =>
    have hw : weight (g + n) (m + 1) = weight g (m + 1) * 2 ^ n := by
      rw [weight, weight, ← Nat.pow_add]
      congr 1
      omega
    rw [filled, filled, ih (by omega), hw, Nat.add_mul, Nat.mul_assoc]

theorem Span.kraft_eq (h : Span b j g) : kraft b = filled b.count g g * 2 ^ (BMAX - g) := by
  have hgm : g + (BMAX - g) = BMAX := Nat.add_sub_cancel' h.le_max
  have hrest : ∀ m, filled b.count BMAX (g + m) = filled b.count BMAX g := fun m => by
    induction m with
    | zero => rfl
    | succ m ih =>
      rw [← Nat.add_assoc, filled, h.count_zero (by omega) (.inr (by omega)), Nat.zero_mul]
      exact ih
  rw [← filled_scale (BMAX - g) le_rfl, hgm, kraft, ← hrest (BMAX - g), hgm]

theorem Span.kraft_lt (h : Span b j g) : kraft b < 2 ^ BMAX ↔ filled b.count g g < 2 ^ g := by
  rw [h.kraft_eq, ← Nat.add_sub_cancel' h.le_max, Nat.pow_add, Nat.add_sub_cancel_left]
  exact Nat.mul_lt_mul_right (Nat.two_pow_pos _)

theorem Span.lt_kraft (h : Span b j g) : 2 ^ BMAX < kraft b ↔ 2 ^ g < filled b.count g g := by
  rw [h.kraft_eq, ← Nat.add_sub_cancel' h.le_max, Nat.pow_add, Nat.add_sub_cancel_left]
  exact Nat.mul_lt_mul_right (Nat.two_pow_pos _)

/-- a complete set of codes has at least as many of them as there are patterns of the shortest length -/
theorem Span.two_pow_le (h : Span b j g) (hfull : filled b.count g g = 2 ^ g) : 2 ^ j ≤ total b.count g := by
  have hrest := filled_rest (c := b.count) (g := g) h.le
  have hzero : ∀ k, 1 ≤ k → k ≤ j - 1 → b.count k = 0 := fun k hk hle => h.count_zero hk (.inl (by omega))
  rw [filled_pred h.pos, total_pred h.pos, filled_zero hzero, total_zero hzero, hfull, Nat.zero_add, Nat.zero_add,
    Nat.add_comm, Nat.add_le_add_iff_left, ← weight_zero, ← weight_mul (Nat.zero_le j) h.le] at hrest
  exact Nat.le_of_mul_le_mul_right hrest (weight_pos g j)

/-- the patterns at the start -/
theorem Span.start (h : Span b j g) :
    (2 ^ j : Int) * weight g j + filled b.count g (j - 1) = 2 ^ g := by
  have hzero : filled b.count g (j - 1) = 0 :=
    filled_zero fun k hk hle => h.count_zero hk (.inl (by omega))
  have hw := weight_mul (Nat.zero_le j) h.le
  rw [Nat.sub_zero, weight_zero] at hw
  rw [hzero]
  exact_mod_cast hw

/-- the codes with the missing ones added -/
def completed (b : List Nat) (g : Nat) (y : Int) : Nat → Nat :=
  Function.update b.count g (b.count g + y.toNat)

theorem completed_lt {y : Int} {k : Nat} (hk : k < g) : b.count k = completed b g y k := by
  rw [completed, Function.update_of_ne (Nat.ne_of_lt hk)]

theorem completed_self {y : Int} : completed b g y g = b.count g + y.toNat := Function.update_self _ _ _

theorem Span.good (h : Span b j g) {y : Int} (hy : 0 ≤ y) (hfull : y + filled b.count g g = 2 ^ g)
    (hfew : b.length < 2 ^ m ∨ ∀ x ∈ b, x < 2 * m) (hm : 1 ≤ m)
    (hcase : y = 0 ∨ g = 1 ∨ ∀ x ∈ b, x < 2 * m) : Good (completed b g y) g (min (max m j) g) := by
  have hpos := h.pos
  have hle := h.le
  have hg : 1 ≤ g := hpos.trans hle
  have hgb : g ∈ b := List.count_pos_iff.mp (Nat.pos_of_ne_zero h.high)
  have hlast := h.high
  have hmax := h.le_max
  refine ⟨?_, ?_, by omega, Nat.min_le_right _ _, ?_, h.le_max⟩
  · rw [filled_pred hg, ← filled_congr (c := b.count) fun k hk => completed_lt (by omega), completed_self,
      Nat.add_mul, ← Nat.add_assoc, ← filled_pred hg, weight_self]
    zify
    rw [Int.toNat_of_nonneg hy]
    linarith
  · rw [completed_self]
    omega
  · by_cases hlg : g ≤ max m j
    · right
      omega
    · have hl : min (max m j) g = max m j := by omega
      rw [hl]
      have hpow : 2 ^ m ≤ 2 ^ max m j := Nat.pow_le_pow_right (Nat.succ_pos 1) (Nat.le_max_left _ _)
      have hwide : (∀ x ∈ b, x < 2 * m) → g < 2 * max m j := fun hall => by
        have := hall g hgb
        omega
      rcases hcase with rfl | rfl | hall
      · rcases hfew with hfew | hall
        · left
          have hlen := total_le_length b g
          have htot : total (completed b g 0) g = total b.count g := by
            rw [completed, Int.toNat_zero, Nat.add_zero, Function.update_eq_self]
          omega
        · exact .inr (hwide hall)
      · omega
      · exact .inr (hwide hall)

/-- what the bits lead to, in terms of the values -/
theorem Span.means (h : Span b j g) {E : Env} {s : Nat} {d e : List Nat} {y : Int} {v : Nat → Nat} {l R x : Nat}
    {M : List Table}
    (hx : Decoded E ⟨b.length, s, d, e, values b 0 (offset b.count) v, completed b g y, g, l⟩ R M x) :
    (∃ k r, k ≤ g ∧ Decodes M R l x k r ∧ Means E b s d e x k r) ∧ (y = 0 → ∃ v k, Starts b x v k) := by
  obtain ⟨k, m, r, hk, hkg, hm, hval, hd, hr⟩ := hx
  dsimp only at hkg hm hval hd hr
  have hle : ∀ k ≤ g, b.count k ≤ completed b g y k := fun k hk => by
    rcases Nat.lt_or_eq_of_le hk with hlt | rfl
    · exact (completed_lt hlt).le
    · rw [completed_self]
      exact Nat.le_add_right _ _
  have hfirst : ∀ k ≤ g, first b.count k = first (completed b g y) k := fun k hk =>
    first_congr fun j hj => completed_lt (by omega)
  have htotal : total (completed b g y) (k - 1) = total b.count (k - 1) :=
    (total_congr fun j hj => completed_lt (by omega)).symm
  have hpred := total_pred (c := b.count) hk
  have hmono : total b.count k ≤ total b.count g := total_mono hkg
  have hlen := total_le_length b g
  rw [Right, htotal] at hr
  dsimp only at hr
  by_cases hlt : m < b.count k
  · obtain ⟨q, hq, hrank⟩ := exists_rank hlt
    have hstarts : Starts b x q k := ⟨hq, hk, by rw [codeOf_eq hq, hrank, hfirst k hkg, hval]⟩
    rw [if_neg (by omega), ← hrank, values_rank hq hk] at hr
    exact ⟨⟨k, r, hkg, hd, .inl ⟨q, hstarts, hr⟩⟩, fun _ => ⟨q, k, hstarts⟩⟩
  · have hkg' : k = g := by
      by_contra hne
      rw [← completed_lt (y := y) (show k < g by omega)] at hm
      exact hlt hm
    have hnone : ∀ u n, ¬ Starts b x u n := fun u n hs => by
      have hng := (h.mem n (List.mem_of_getElem? hs.length) (Nat.ne_of_gt hs.pos)).2
      have hcode := hs.code
      have hrank := rank_lt_count hs.length
      rw [codeOf_eq hs.length, hfirst n hng] at hcode
      obtain ⟨rfl, rfl⟩ := code_unique hk hs.pos hm (hrank.trans_le (hle n hng)) hval hcode
      exact hlt hrank
    refine ⟨⟨k, r, hkg, hd, .inr ⟨hnone, fun hzero => ?_⟩⟩, fun hy => ?_⟩
    · rw [if_pos] at hr
      · exact hr
      · have heq := h.total_eq hzero
        rw [hkg'] at hpred ⊢
        rw [hkg'] at hlt
        omega
    · rw [hkg', completed_self, hy, Int.toNat_zero, Nat.add_zero] at hm
      rw [hkg'] at hlt
      exact absurd hm hlt

end

section
variable {b : List Nat} {g j m : Nat} {y : Int}

theorem Span.incomplete (h : Span b j g) (hy : 0 ≤ y) (hfull : y + filled b.count g g = 2 ^ g) :
    y ≠ 0 ↔ kraft b < 2 ^ BMAX := by
  rw [h.kraft_lt]
  zify
  omega

theorem Span.wide (h : Span b j g) : g ≠ 1 ↔ ∃ x ∈ b, 2 ≤ x := by
  have hpos := h.pos
  have hle := h.le
  refine ⟨fun hne => ⟨g, List.count_pos_iff.mp (Nat.pos_of_ne_zero h.high), by omega⟩, fun ⟨x, hx, hx2⟩ => ?_⟩
  have := h.mem x hx (by omega)
  omega

/-- the bits of the first table -/
theorem Span.root (h : Span b j g) (x : Nat) (hx : x ∈ b) (hne : x ≠ 0) : min (max m j) g ≤ max m x := by
  have := h.mem x hx hne
  omega

theorem Span.root_le (h : Span b j g) (hm : 1 ≤ m) (hy : 0 ≤ y) (hfull : y + filled b.count g g = 2 ^ g)
    (hcase : y = 0 ∨ g = 1) (hlen : b.length < 2 ^ m) : min (max m j) g ≤ m := by
  rcases hcase with rfl | rfl
  · have hfilled : filled b.count g g = 2 ^ g := by
      zify
      linarith
    have hlt : 2 ^ j < 2 ^ m := (h.two_pow_le hfilled).trans_lt ((total_le_length b g).trans_lt hlen)
    have := (Nat.pow_lt_pow_iff_right (Nat.lt_succ_self 1)).mp hlt
    omega
  · omega

end

/-- what `huft_build` returns -/
inductive Built (E : Env) (b : List Nat) (s : Nat) (d e : List Nat) (m : Nat) (M : List Table) :
    Nat × Option Nat × Nat → Prop
  | surplus {t : Option Nat} {l : Nat} (h : 2 ^ BMAX < kraft b) : Built E b s d e m M (2, t, l)
  | empty (h : ∀ x ∈ b, x = 0) : Built E b s d e m M (0, none, 0)
  | large {t : Option Nat} {l : Nat} (h : kraft b < 2 ^ BMAX) (hlarge : ∃ x ∈ b, 2 ≤ x)
      (hm : ∃ x ∈ b, 2 * m ≤ x) : Built E b s d e m M (1, t, l)
  | tables {i R l : Nat} (h : Tabled E b s d e M R l) (hl : ∀ x ∈ b, x ≠ 0 → l ≤ max m x)
      (hi : i = if kraft b < 2 ^ BMAX ∧ ∃ x ∈ b, 2 ≤ x then 1 else 0) (hkraft : kraft b ≤ 2 ^ BMAX)
      (hfull : kraft b = 2 ^ BMAX → ∀ x, ∃ v k, Starts b x v k)
      (hlm : i = 0 → b.length < 2 ^ m → l ≤ m)
      (hroot : (∀ x ∈ b, x ≤ m) → ∀ x, ∃ k r, k ≤ l ∧ Decodes M R l x k r ∧ Means E b s d e x k r)
      (hbound : Bounded R M) : Built E b s d e m M (i, some R, l)

/-- **huft_build.** -/
theorem huft_build_ends (E : Env) (b : List Nat) (s : Nat) (d e : List Nat) (m : Nat) (st : State)
    (hb : ∀ x ∈ b, x ≤ BMAX) (hm : 1 ≤ m) (hfew : b.length < 2 ^ m ∨ ∀ x ∈ b, x < 2 * m) :
    Ends (huft_build E b s d e m)
      (fun r st' => Frame st.tables.length st st' ∧ Built E b s d e m st'.tables r)
      (NoMemory st.tables.length st) st := by
  rw [huft_build]
  refine .ite (fun hzero => .pure ⟨.refl, .empty ?_⟩) fun hzero => ?_
  · intro x hx
    exact ((List.count_eq_length.mp hzero) x hx).symm
  have hsome : ∃ x ∈ b, x ≠ 0 := by
    by_contra hnone
    refine hzero (List.count_eq_length.mpr fun x hx => ?_)
    by_contra hne
    exact hnone ⟨x, hx, Ne.symm hne⟩
  have hspan := span_of hb hsome
  generalize hj : minLength b.count = j at hspan
  generalize hg : maxLength b.count = g at hspan
  have hn := Nat.add_sub_cancel' hspan.le
  cases hd : dummies b.count (g - j) j (2 ^ j) with
  | none =>
    dsimp only
    rw [hd]
    exact .pure ⟨.refl, .surplus (hspan.lt_kraft.mpr (dummies_none hspan.pos hn hspan.start hd))⟩
  | some y =>
    obtain ⟨hy, hfull⟩ := dummies_some hspan.pos hn hspan.start hd
    have hinc := hspan.incomplete hy hfull
    have hwide := hspan.wide
    have hle := hspan.le
    have hpos := hspan.pos
    dsimp only
    rw [hd]
    dsimp only
    refine .bind (.get ?_)
    by_cases hcase : y = 0 ∨ g = 1 ∨ ∀ x ∈ b, x < 2 * m
    · have hgood := hspan.good hy hfull hfew hm hcase
      have hzero : ∀ k, 1 ≤ k → k ≤ j - 1 → completed b g y k = 0 := fun k hk hlt => by
        rw [← completed_lt (by omega)]
        exact hspan.count_zero hk (.inl (by omega))
      have hlow : completed b g y j ≠ 0 := by
        rcases Nat.lt_or_eq_of_le hle with hlt | rfl
        · rw [← completed_lt hlt]
          exact hspan.low
        · rw [completed_self]
          exact (Nat.add_pos_left (Nat.pos_of_ne_zero hspan.low) _).ne'
      rw [show g + 1 - j = g - j + 1 by omega]
      refine .seq (lengths_ends (A := ⟨b.length, s, d, e, values b 0 (offset b.count) (E.stack st.tables.length),
        completed b g y, g, min (max m j) g⟩) hgood hpos (by show j ≤ min (max m j) g; omega)
        (by show j + (g - j + 1) = g + 1; omega) hlow (filled_zero hzero) (total_zero hzero)) ?_ fun _ _ he => he
      rintro B st' ⟨hf, ht, hbound, hall⟩
      refine .pure ⟨hf, ?_⟩
      rw [ht]
      have hlook : ∀ x, ∃ k r, k ≤ g ∧ Decodes st'.tables st.tables.length (min (max m j) g) x k r ∧
          Means E b s d e x k r := fun x => (hspan.means (hall x)).1
      refine .tables ⟨hgood.pos, fun x => ?_⟩ (fun x hx hne => hspan.root x hx hne)
        (if_congr (and_congr hinc hwide) rfl rfl) ?_ (fun hk x => (hspan.means (hall x)).2 ?_) (fun hi hlen => ?_)
        (fun hmax => ?_) hbound
      · obtain ⟨k, r, hkg, hd, hmeans⟩ := hlook x
        exact ⟨k, r, hkg.trans hspan.le_max, hd, hmeans⟩
      · by_contra hlt
        have := hspan.lt_kraft.mp (not_le.mp hlt)
        zify at this
        omega
      · by_contra hne
        have := hinc.mp hne
        omega
      · refine hspan.root_le hm hy hfull ?_ hlen
        by_contra hne
        rw [if_pos (by omega)] at hi
        cases hi
      · have hgm : g ≤ m := hmax g (List.count_pos_iff.mp (Nat.pos_of_ne_zero hspan.high))
        rw [show min (max m j) g = g by omega] at hlook ⊢
        exact hlook
    · refine .seq (lengths_safe (R := st.tables.length) hpos le_rfl ⟨fun _ hmem => absurd hmem List.not_mem_nil,
        fun h => absurd rfl h⟩) ?_ fun _ _ he => he
      rintro B st' ⟨hf, -⟩
      have hne : y ≠ 0 ∧ g ≠ 1 := by omega
      refine .pure ⟨hf, ?_⟩
      rw [if_pos hne]
      refine .large (hinc.mp hne.1) (hwide.mp hne.2) ?_
      by_contra hnone
      exact hcase (.inr (.inr fun x hx => by
        by_contra hlt
        exact hnone ⟨x, hx, not_lt.mp hlt⟩))

end Inflate
