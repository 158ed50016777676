import Mathlib.Algebra.Order.Ring.Nat
import Mathlib.Tactic.Ring

/-!
# Prefix codes

The codes of a prefix code are given out by length, and those of one length in their order.  A code of `k`
bits takes `2 ^ (g - k)` of the `2 ^ g` patterns of `g` bits.

* `filled c g m`   the patterns that the codes of at most `m` bits take, of which there are `c 1, .., c m`;
* `filled_rest`    what is left is taken by codes that are not shorter;
* `first c k`      the first code of `k` bits, as a number;
* `value k i`      the code of `k` bits whose bits are read from the low end of `i`;
* `value_next`     the next code of `k` bits;
* `value_low`      its first bits, and `value_short` the codes that end with zeros;
* `mem_code`       the patterns of a code are an interval, and `nested` those of a continued code.
-/

namespace PrefixCode

/-! ## patterns -/

/-- the patterns of `g` bits that a code of `k` bits takes -/
def weight (g k : Nat) : Nat := 2 ^ (g - k)

def filled (c : Nat → Nat) (g : Nat) : Nat → Nat
  | 0 => 0
  | m + 1 => filled c g m + c (m + 1) * weight g (m + 1)

def total (c : Nat → Nat) : Nat → Nat
  | 0 => 0
  | m + 1 => total c m + c (m + 1)

variable {c : Nat → Nat} {g k m n w i j : Nat}

theorem weight_pos (g k : Nat) : 0 < weight g k := Nat.two_pow_pos _

theorem weight_self (g : Nat) : weight g g = 1 := by
  rw [weight, Nat.sub_self, pow_zero]

theorem weight_zero (g : Nat) : weight g 0 = 2 ^ g := rfl

theorem weight_mul (hw : w ≤ k) (hk : k ≤ g) : 2 ^ (k - w) * weight g k = weight g w := by
  rw [weight, weight, ← Nat.pow_add]
  congr 1
  omega

theorem weight_succ (hk : k < g) : weight g k = 2 * weight g (k + 1) := by
  rw [← weight_mul (Nat.le_add_right k 1) hk, Nat.add_sub_cancel_left, pow_one]

theorem weight_dvd (hw : w ≤ k) (hk : k ≤ g) : weight g k ∣ weight g w :=
  ⟨2 ^ (k - w), by rw [mul_comm, weight_mul hw hk]⟩

theorem weight_anti (h : w ≤ k) : weight g k ≤ weight g w :=
  Nat.pow_le_pow_right (Nat.succ_pos 1) (by omega)

theorem filled_mono (h : m ≤ n) : filled c g m ≤ filled c g n := by
  induction n with
  | zero => rw [Nat.le_zero.mp h]
  | succ n ih =>
    rcases Nat.le_succ_iff.mp h with h | rfl
    · exact (ih h).trans (Nat.le_add_right _ _)
    · exact le_rfl

theorem total_mono (h : m ≤ n) : total c m ≤ total c n := by
  induction n with
  | zero => rw [Nat.le_zero.mp h]
  | succ n ih =>
    rcases Nat.le_succ_iff.mp h with h | rfl
    · exact (ih h).trans (Nat.le_add_right _ _)
    · exact le_rfl

/-- shorter codes take whole blocks of patterns -/
theorem weight_dvd_filled (h : m ≤ n) (hn : n ≤ g) : weight g n ∣ filled c g m := by
  induction m with
  | zero => exact Nat.dvd_zero _
  | succ m ih => exact Nat.dvd_add (ih (by omega)) (Dvd.dvd.mul_left (weight_dvd h hn) _)

/-- the codes from `k` bits on take at most the patterns of codes of `k` bits -/
theorem filled_rest (h : k ≤ n) :
    filled c g n + total c k * weight g k ≤ filled c g k + total c n * weight g k := by
  induction n with
  | zero =>
    rw [Nat.le_zero.mp h]
  | succ n ih =>
    rcases Nat.le_succ_iff.mp h with h | rfl
    · have hle : c (n + 1) * weight g (n + 1) ≤ c (n + 1) * weight g k :=
        Nat.mul_le_mul_left _ (weight_anti (by omega))
      have hi := ih h
      rw [filled, total, Nat.add_mul]
      omega
    · exact le_rfl

/-- the first code of each length -/
def first (c : Nat → Nat) : Nat → Nat
  | 0 => 0
  | 1 => 0
  | k + 2 => 2 * (first c (k + 1) + c (k + 1))

/-- it comes right behind the shorter codes -/
theorem first_weight (h : k < g) : first c (k + 1) * weight g (k + 1) = filled c g k := by
  induction k with
  | zero => rw [first, filled, Nat.zero_mul]
  | succ k ih =>
    rw [first, filled, ← ih (by omega), ← Nat.add_mul, weight_succ h, Nat.mul_assoc, Nat.mul_left_comm]

theorem first_congr {c' : Nat → Nat} (h : ∀ j < k, c j = c' j) : first c k = first c' k := by
  induction k with
  | zero => rfl
  | succ k ih =>
    cases k with
    | zero => rfl
    | succ k => rw [first, first, ih fun j hj => h j (by omega), h (k + 1) (by omega)]

theorem total_congr {c' : Nat → Nat} (h : ∀ j ≤ m, c j = c' j) : total c m = total c' m := by
  induction m with
  | zero => rfl
  | succ m ih => rw [total, total, ih fun j hj => h j (by omega), h (m + 1) le_rfl]

theorem filled_congr {c' : Nat → Nat} (h : ∀ j ≤ m, c j = c' j) : filled c g m = filled c' g m := by
  induction m with
  | zero => rfl
  | succ m ih => rw [filled, filled, ih fun j hj => h j (by omega), h (m + 1) le_rfl]

/-! ## codes -/

/-- the bits of a code are read from the low end -/
def value : (k i : Nat) → Nat
  | 0, _ => 0
  | k + 1, i => 2 * value k (i % 2 ^ k) + i / 2 ^ k

/-- the code after `i`; after the last one it is 0 -/
def next : (k i : Nat) → Nat
  | 0, i => i
  | k + 1, i => if 2 ^ k ≤ i then next k (i - 2 ^ k) else i + 2 ^ k

theorem next_lt (h : i < 2 ^ k) : next k i < 2 ^ k := by
  induction k generalizing i with
  | zero => exact h
  | succ k ih =>
    rw [Nat.pow_succ] at h ⊢
    rw [next]
    split
    · have := ih (i := i - 2 ^ k) (by omega)
      omega
    · omega

theorem value_lt (h : i < 2 ^ k) : value k i < 2 ^ k := by
  induction k generalizing i with
  | zero => exact Nat.one_pos
  | succ k ih =>
    rw [Nat.pow_succ] at h ⊢
    have h1 := ih (Nat.mod_lt i (Nat.two_pow_pos k))
    have h2 : i / 2 ^ k < 2 := Nat.div_lt_of_lt_mul (by omega)
    rw [value]
    omega

/-- a code that is continued with a zero -/
theorem value_succ_of_lt (h : i < 2 ^ k) : value (k + 1) i = 2 * value k i := by
  rw [value, Nat.mod_eq_of_lt h, Nat.div_eq_of_lt h, Nat.add_zero]

/-- a code that is continued with a one -/
theorem value_succ_add (h : i < 2 ^ k) : value (k + 1) (i + 2 ^ k) = 2 * value k i + 1 := by
  rw [value, Nat.add_mod_right, Nat.mod_eq_of_lt h, Nat.add_div_right _ (Nat.two_pow_pos k),
    Nat.div_eq_of_lt h]

/-- the last bit of a code -/
theorem code_cases (h : i < 2 ^ (k + 1)) : i < 2 ^ k ∨ ∃ j, j < 2 ^ k ∧ i = j + 2 ^ k := by
  rw [Nat.pow_succ] at h
  by_cases hlt : i < 2 ^ k
  · exact .inl hlt
  · exact .inr ⟨i - 2 ^ k, by omega, by omega⟩

theorem next_of_lt (h : i < 2 ^ k) : next (k + 1) i = i + 2 ^ k := by
  rw [next, if_neg (not_le.mpr h)]

theorem next_add (j k : Nat) : next (k + 1) (j + 2 ^ k) = next k j := by
  rw [next, if_pos (Nat.le_add_left _ _), Nat.add_sub_cancel]

theorem value_next (h : i < 2 ^ k) (hlast : value k i + 1 < 2 ^ k) : value k (next k i) = value k i + 1 := by
  induction k generalizing i with
  | zero => exact absurd hlast (by simp [value])
  | succ k ih =>
    rcases code_cases h with hlt | ⟨j, hj, rfl⟩
    · rw [next_of_lt hlt, value_succ_add hlt, value_succ_of_lt hlt]
    · rw [value_succ_add hj, Nat.pow_succ] at hlast
      rw [next_add, value_succ_add hj, value_succ_of_lt (next_lt hj), ih hj (by omega)]
      ring

/-- the first `w` bits of a code -/
theorem value_low (hw : w ≤ k) (h : i < 2 ^ k) : value k i / 2 ^ (k - w) = value w (i % 2 ^ w) := by
  induction k generalizing i with
  | zero =>
    rw [Nat.le_zero.mp hw]
    exact Nat.zero_div _
  | succ k ih =>
    rcases Nat.le_succ_iff.mp hw with hw | rfl
    · have hsub : k + 1 - w = (k - w) + 1 := by omega
      have hdvd : 2 ^ w ∣ 2 ^ k := Nat.pow_dvd_pow 2 hw
      rcases code_cases h with hlt | ⟨j, hj, rfl⟩
      · rw [value_succ_of_lt hlt, hsub, Nat.pow_succ', Nat.mul_div_mul_left _ _ (Nat.succ_pos 1), ih hw hlt]
      · have hmod : (j + 2 ^ k) % 2 ^ w = j % 2 ^ w := by
          obtain ⟨q, hq⟩ := hdvd
          rw [hq, Nat.add_mul_mod_self_left]
        rw [value_succ_add hj, hsub, Nat.pow_succ', ← Nat.div_div_eq_div_mul, hmod, ← ih hw hj]
        congr 1
        omega
    · rw [Nat.sub_self, Nat.pow_zero, Nat.div_one, Nat.mod_eq_of_lt h]

theorem value_inj (hi : i < 2 ^ k) (hj : j < 2 ^ k) (h : value k i = value k j) : i = j := by
  induction k generalizing i j with
  | zero => rw [Nat.lt_one_iff.mp hi, Nat.lt_one_iff.mp hj]
  | succ k ih =>
    rcases code_cases hi with hi' | ⟨i, hi', rfl⟩ <;> rcases code_cases hj with hj' | ⟨j, hj', rfl⟩
    · rw [value_succ_of_lt hi', value_succ_of_lt hj'] at h
      exact ih hi' hj' (by omega)
    · rw [value_succ_of_lt hi', value_succ_add hj'] at h
      omega
    · rw [value_succ_add hi', value_succ_of_lt hj'] at h
      omega
    · rw [value_succ_add hi', value_succ_add hj'] at h
      rw [ih hi' hj' (by omega)]

/-- a code that ends with zeros is a shorter one -/
theorem value_short (hw : w ≤ k) (h : i < 2 ^ k) (hdvd : 2 ^ (k - w) ∣ value k i) : i < 2 ^ w := by
  induction k generalizing i with
  | zero =>
    rw [Nat.le_zero.mp hw]
    exact h
  | succ k ih =>
    rcases Nat.le_succ_iff.mp hw with hw | rfl
    · have hsub : k + 1 - w = (k - w) + 1 := by omega
      rw [hsub, Nat.pow_succ'] at hdvd
      rcases code_cases h with hlt | ⟨j, hj, rfl⟩
      · rw [value_succ_of_lt hlt] at hdvd
        exact ih hw hlt (Nat.dvd_of_mul_dvd_mul_left (Nat.succ_pos 1) hdvd)
      · rw [value_succ_add hj] at hdvd
        have h2 := dvd_trans (Dvd.intro _ rfl) hdvd
        omega
    · exact h

theorem value_pad (hw : w ≤ k) (h : i < 2 ^ w) : value k i = value w i * 2 ^ (k - w) := by
  induction k with
  | zero =>
    rw [Nat.le_zero.mp hw, Nat.sub_self, Nat.pow_zero, Nat.mul_one]
  | succ k ih =>
    rcases Nat.le_succ_iff.mp hw with hw | rfl
    · have hsub : k + 1 - w = (k - w) + 1 := by omega
      rw [value_succ_of_lt (h.trans_le (Nat.pow_le_pow_right (Nat.succ_pos 1) hw)), ih hw, hsub, Nat.pow_succ]
      ring
    · rw [Nat.sub_self, Nat.pow_zero, Nat.mul_one]

/-! ## the patterns of a code -/

theorem value_div_weight (hk : k ≤ g) (hj : j < 2 ^ g) : value g j / weight g k = value k (j % 2 ^ k) :=
  value_low hk hj

/-- the patterns that start with a code are an interval -/
theorem mem_code (hk : k ≤ g) (hi : i < 2 ^ k) (hj : j < 2 ^ g) :
    j % 2 ^ k = i ↔ value k i * weight g k ≤ value g j ∧ value g j < (value k i + 1) * weight g k := by
  have hpos := weight_pos g k
  have hdiv : value g j / weight g k = value k i ↔
      value k i * weight g k ≤ value g j ∧ value g j < (value k i + 1) * weight g k := by
    rw [Nat.div_eq_iff hpos, Nat.add_one_mul]
    omega
  rw [← hdiv, value_div_weight hk hj]
  exact ⟨fun h => by rw [h], fun h => value_inj (Nat.mod_lt _ (Nat.two_pow_pos k)) hi h⟩

/-- the patterns of a continued code are among those of the code -/
theorem nested (hw : w ≤ k) (hk : k ≤ g) (hi : i < 2 ^ k) :
    value w (i % 2 ^ w) * weight g w ≤ value k i * weight g k ∧
      (value k i + 1) * weight g k ≤ (value w (i % 2 ^ w) + 1) * weight g w := by
  have hlow := value_low hw hi
  have h1 := Nat.div_mul_le_self (value k i) (2 ^ (k - w))
  have h2 := Nat.lt_div_mul_add (a := value k i) (Nat.two_pow_pos (k - w))
  rw [hlow] at h1 h2
  rw [← weight_mul hw hk, ← Nat.mul_assoc, ← Nat.mul_assoc]
  refine ⟨Nat.mul_le_mul_right _ h1, Nat.mul_le_mul_right _ ?_⟩
  rw [Nat.add_one_mul]
  omega

/-! ## the codes of a list of lengths -/

/-- the code of `v`, as a number: behind the codes of the earlier values of its length -/
def codeOf (b : List Nat) (v : Nat) : Nat :=
  first b.count (b.getD v 0) + (b.take v).count (b.getD v 0)

/-- the bits of `x` start with the code of `v`, which has `k` bits -/
structure Starts (b : List Nat) (x v k : Nat) : Prop where
  length : b[v]? = some k
  pos : 1 ≤ k
  code : value k (x % 2 ^ k) = codeOf b v

section
variable {b : List Nat} {u v x : Nat}

theorem codeOf_eq (h : b[v]? = some k) : codeOf b v = first b.count k + (b.take v).count k := by
  rw [codeOf, List.getD_eq_getElem?_getD, h]
  rfl

/-- the values of one length -/
theorem exists_rank (h : m < b.count k) : ∃ v, b[v]? = some k ∧ (b.take v).count k = m := by
  induction b generalizing m with
  | nil => cases h
  | cons y b ih =>
    by_cases hy : y = k
    · subst hy
      rw [List.count_cons_self] at h
      cases m with
      | zero => exact ⟨0, rfl, rfl⟩
      | succ m =>
        obtain ⟨v, hv, hm⟩ := ih (m := m) (by omega)
        exact ⟨v + 1, hv, by rw [List.take_succ_cons, List.count_cons_self, hm]⟩
    · rw [List.count_cons_of_ne hy] at h
      obtain ⟨v, hv, hm⟩ := ih h
      exact ⟨v + 1, hv, by rw [List.take_succ_cons, List.count_cons_of_ne hy, hm]⟩

/-- there are more of them behind one -/
theorem rank_lt (hv : b[v]? = some k) (h : v < u) : (b.take v).count k < (b.take u).count k := by
  have hlt : v < b.length := (List.getElem?_eq_some_iff.mp hv).1
  have hsub : b.take (v + 1) <+: b.take u := List.take_prefix_take_left h
  have hle := hsub.sublist.count_le k
  rw [List.take_add_one, hv, Option.toList_some, List.count_append, List.count_singleton_self] at hle
  omega

theorem rank_lt_count (hv : b[v]? = some k) : (b.take v).count k < b.count k := by
  have hlt : v < b.length := (List.getElem?_eq_some_iff.mp hv).1
  have := rank_lt hv hlt
  rwa [List.take_length] at this

theorem rank_inj (hu : b[u]? = some k) (hv : b[v]? = some k) (h : (b.take u).count k = (b.take v).count k) :
    u = v := by
  rcases Nat.lt_trichotomy u v with hlt | rfl | hlt
  · have := rank_lt hu hlt
    omega
  · rfl
  · have := rank_lt hv hlt
    omega

/-- the patterns behind a code of `k` bits, which is the code number `m` of its length -/
theorem code_lt (hk : 1 ≤ k) (hkn : k < n) (hn : n ≤ g) (hm : m < c k) :
    (first c k + m + 1) * weight g k ≤ first c n * weight g n := by
  obtain ⟨k, rfl⟩ := Nat.exists_eq_add_of_le' hk
  obtain ⟨n, rfl⟩ := Nat.exists_eq_add_of_le' (show 1 ≤ n by omega)
  rw [first_weight (by omega), Nat.add_assoc, Nat.add_mul, first_weight (by omega)]
  have hmono : filled c g (k + 1) ≤ filled c g n := filled_mono (by omega)
  have hmul : (m + 1) * weight g (k + 1) ≤ c (k + 1) * weight g (k + 1) := Nat.mul_le_mul_right _ hm
  rw [filled] at hmono
  omega

/-- the codes are prefix free: bits start with one code only -/
theorem code_unique (hk : 1 ≤ k) (hn : 1 ≤ n) (hm : m < c k) (hw : w < c n) (hx : value k (x % 2 ^ k) = first c k + m)
    (hx' : value n (x % 2 ^ n) = first c n + w) : k = n ∧ m = w := by
  have hlt : ∀ {k n m w : Nat}, 1 ≤ k → m < c k → value k (x % 2 ^ k) = first c k + m →
      value n (x % 2 ^ n) = first c n + w → ¬ k < n := by
    intro k n m w hk hm hx hx' hkn
    have hcode := code_lt hk hkn le_rfl hm
    have hmem := (mem_code hkn.le (Nat.mod_lt x (Nat.two_pow_pos k)) (Nat.mod_lt x (Nat.two_pow_pos n))).mp
      (Nat.mod_mod_of_dvd x (Nat.pow_dvd_pow 2 hkn.le))
    rw [hx, hx'] at hmem
    rw [weight_self, Nat.mul_one] at hcode
    omega
  rcases Nat.lt_trichotomy k n with h | rfl | h
  · exact absurd h (hlt hk hm hx hx')
  · exact ⟨rfl, by omega⟩
  · exact absurd h (hlt hn hw hx' hx)

theorem Starts.lt (h : Starts b x v k) : v < b.length := (List.getElem?_eq_some_iff.mp h.length).1

theorem Starts.unique (h : Starts b x v k) (h' : Starts b x u n) : v = u ∧ k = n := by
  have hc := h.code
  have hc' := h'.code
  rw [codeOf_eq h.length] at hc
  rw [codeOf_eq h'.length] at hc'
  obtain ⟨rfl, hrank⟩ := code_unique h.pos h'.pos (rank_lt_count h.length) (rank_lt_count h'.length) hc hc'
  exact ⟨rank_inj h.length h'.length hrank, rfl⟩

end

end PrefixCode
