import Aboot.Lib.Mem
import Mathlib.Data.List.TakeWhile

/-!
# Strings in a buffer

A C string is the bytes of a buffer up to a NUL; a string as a value is a list without NULs.

* `str size m a`       the string at `a`, of a buffer of `size` bytes;
* `strcpy m a s`       the string `s` stored at `a`;
* `str_strcpy`, `str_strcpy_out`   reading back what was stored, and reading past it;
* `str_end`, `str_drop`   the NUL of a string that ends in the buffer, and a later place of it;
* `str_strcpy_at`, `str_put_out`   a store into a string, and one past its NUL;
* `IsStr m a s`        the string `s` is at `a`, in a memory without an end;
* `isStr_iff`, `IsStr.drop`, `IsStr.cut`   its bytes, a later place of it, and a NUL stored into it;
* `word`, `after`      a line up to its first blank, and past it and the blanks that follow.
-/

namespace CString

/-- the string at `a` of a buffer -/
def str (size : Nat) (m : Mem) (a : Nat) : List UInt8 := (m.get a size).takeWhile (· ≠ 0)

def strcpy (m : Mem) (a : Nat) (s : List UInt8) : Mem := m.put a (s ++ [0])

def blank : UInt8 := 32

/-- the line up to its first blank -/
def word (l : List UInt8) : List UInt8 := l.takeWhile (· ≠ blank)

/-- `p = strchr(l, ' '); while (p && *p == ' ') ++p;` -/
def after (l : List UInt8) : Option (List UInt8) :=
  if blank ∈ l then some ((l.dropWhile (· ≠ blank)).dropWhile (· = blank)) else none

theorem str_eq_of_getElem? {size : Nat} {m : Mem} {a : Nat} {s : List UInt8} (hlen : s.length < size)
    (hz : 0 ∉ s) (hs : ∀ k (h : k < s.length), m (a + k) = s[k]) (hend : m (a + s.length) = 0) :
    str size m a = s := by
  obtain ⟨n, rfl⟩ : ∃ n, size = s.length + (n + 1) := ⟨size - s.length - 1, by omega⟩
  have hget : m.get a (s.length + (n + 1)) = s ++ 0 :: m.get (a + s.length + 1) n := by
    apply List.ext_getElem
    · simp
    · intro k h1 h2
      simp only [Mem.get, List.getElem_map, List.getElem_range]
      rcases lt_trichotomy k s.length with h | h | h
      · rw [List.getElem_append_left h]
        exact hs k h
      · subst h
        simp [hend]
      · obtain ⟨j, rfl⟩ : ∃ j, k = s.length + (j + 1) := ⟨k - s.length - 1, by omega⟩
        rw [List.getElem_append_right (by omega)]
        simp only [Nat.add_sub_cancel_left, List.getElem_cons_succ, List.getElem_map,
          List.getElem_range]
        congr 1
        omega
  have hall : ∀ x ∈ s, decide (x ≠ 0) = true := by
    intro x hx
    have : x ≠ 0 := fun h => hz (h ▸ hx)
    simpa using this
  rw [str, hget, List.takeWhile_append_of_pos hall]
  simp

/-- reading back what was stored -/
theorem str_strcpy {size : Nat} {m : Mem} {a : Nat} {s : List UInt8} (hlen : s.length < size)
    (hz : 0 ∉ s) : str size (strcpy m a s) a = s := by
  refine str_eq_of_getElem? hlen hz (fun k h => ?_) ?_
  · rw [strcpy, Mem.put_in m a k _ (by simp; omega), List.getElem_append_left h]
  · rw [strcpy, Mem.put_in m a s.length _ (by simp)]
    simp

/-- a store changes nothing past its NUL -/
theorem str_strcpy_out {size : Nat} {m : Mem} {a b : Nat} {s : List UInt8}
    (h : a + s.length < b) : str size (strcpy m a s) b = str size m b := by
  unfold str strcpy
  rw [Mem.get_put_out]
  right
  simp
  omega

theorem zero_not_mem_str (size : Nat) (m : Mem) (a : Nat) : 0 ∉ str size m a := by
  intro h
  have := List.mem_takeWhile_imp h
  simp at this

theorem str_getElem {size : Nat} {m : Mem} {a k : Nat} (h : k < (str size m a).length) :
    (str size m a)[k] = m (a + k) := by
  have hp : str size m a <+: m.get a size := List.takeWhile_prefix _
  rw [hp.getElem h]
  simp [Mem.get]

/-- the byte after the leading blanks, when there is one -/
theorem str_skip {size : Nat} {m : Mem} {a : Nat}
    (hne : (str size m a).dropWhile (· = blank) ≠ []) :
    m (a + ((str size m a).takeWhile (· = blank)).length) ≠ 0 ∧
      m (a + ((str size m a).takeWhile (· = blank)).length) ≠ blank := by
  obtain ⟨x, xs, hx⟩ := List.exists_cons_of_ne_nil hne
  have hs := List.takeWhile_append_dropWhile (p := (· = blank)) (l := str size m a)
  have hb := List.head_dropWhile_not (fun x => decide (x = blank)) hne
  have hlen : ((str size m a).takeWhile (· = blank)).length < (str size m a).length := by
    have := congrArg List.length hs
    rw [List.length_append, hx, List.length_cons] at this
    omega
  have hk : (str size m a)[((str size m a).takeWhile (· = blank)).length]? = some x := by
    rw [hx] at hs
    nth_rewrite 1 [← hs]
    rw [List.getElem?_append_right (le_refl _), Nat.sub_self]
    rfl
  rw [List.getElem?_eq_getElem hlen, str_getElem hlen] at hk
  rw [Option.some.inj hk]
  refine ⟨fun h0 => zero_not_mem_str size m a ?_, ?_⟩
  · rw [← hs, hx, h0]
    simp
  · simpa [hx] using hb

theorem str_cons (size : Nat) {m : Mem} {a : Nat} (h : m a ≠ 0) :
    ∃ e, str (size + 1) m a = m a :: e := by
  rw [str, Mem.get, List.range_succ_eq_map, List.map_cons, Nat.add_zero,
    List.takeWhile_cons_of_pos (by simpa using h)]
  exact ⟨_, rfl⟩

theorem str_nil {size : Nat} {m : Mem} {a : Nat} (h : m a = 0) : str size m a = [] := by
  cases size with
  | zero => rfl
  | succ n =>
    rw [str, Mem.get, List.range_succ_eq_map, List.map_cons, Nat.add_zero,
      List.takeWhile_cons_of_neg (by simp [h])]

/-- a string that ends in the buffer has its NUL there -/
theorem str_end {size : Nat} {m : Mem} : ∀ {a : Nat}, (str size m a).length < size →
    m (a + (str size m a).length) = 0 := by
  induction size with
  | zero =>
    intro a h
    omega
  | succ n ih =>
    intro a h
    by_cases h0 : m a = 0
    · rw [str_nil h0]
      exact h0
    · have hstr : str (n + 1) m a = m a :: str n m (a + 1) := by
        rw [str, str, Nat.add_comm n 1, Mem.get_add, List.takeWhile_append_of_pos]
        · rfl
        · intro x hx
          obtain ⟨k, hk, rfl⟩ := Mem.mem_get.mp hx
          obtain rfl : k = 0 := by omega
          simpa using h0
      rw [hstr, List.length_cons] at h ⊢
      rw [← Nat.add_assoc, Nat.add_right_comm]
      exact ih (by omega)

/-- a later place of a string -/
theorem str_drop {size : Nat} {m : Mem} {a k : Nat} (h : (str size m a).length < size)
    (hk : k ≤ (str size m a).length) : str size m (a + k) = (str size m a).drop k := by
  apply str_eq_of_getElem?
  · rw [List.length_drop]
    omega
  · exact fun hm => zero_not_mem_str size m a (List.mem_of_mem_drop hm)
  · intro j hj
    rw [List.length_drop] at hj
    rw [List.getElem_drop, str_getElem (by omega), Nat.add_assoc]
  · rw [List.length_drop, Nat.add_assoc, Nat.add_sub_cancel' hk]
    exact str_end h

/-- a store past the NUL -/
theorem str_put_out {size : Nat} {m : Mem} {a b : Nat} (d : List UInt8)
    (h : (str size m a).length < size) (hb : a + (str size m a).length < b) :
    str size (m.put b d) a = str size m a := by
  apply str_eq_of_getElem? h (zero_not_mem_str size m a)
  · intro k hk
    rw [Mem.put_out _ _ _ _ (Or.inl (by omega)), str_getElem hk]
  · rw [Mem.put_out _ _ _ _ (Or.inl (by omega))]
    exact str_end h

/-- a string stored over the end of a string -/
theorem str_strcpy_at {size : Nat} {m : Mem} {a k : Nat} {t : List UInt8}
    (hk : k ≤ (str size m a).length) (hlen : k + t.length < size) (hz : 0 ∉ t) :
    str size (strcpy m (a + k) t) a = (str size m a).take k ++ t := by
  have htake : ((str size m a).take k).length = k := List.length_take_of_le hk
  apply str_eq_of_getElem?
  · rw [List.length_append, htake]
    exact hlen
  · intro hm
    rcases List.mem_append.mp hm with hm | hm
    · exact zero_not_mem_str size m a (List.mem_of_mem_take hm)
    · exact hz hm
  · intro j hj
    rw [List.length_append, htake] at hj
    rcases Nat.lt_or_ge j k with h | h
    · rw [List.getElem_append_left (by omega), List.getElem_take, strcpy,
        Mem.put_out _ _ _ _ (Or.inl (by omega)), str_getElem]
    · obtain ⟨i, rfl⟩ := Nat.exists_eq_add_of_le h
      rw [List.getElem_append_right (by omega), strcpy, ← Nat.add_assoc,
        Mem.put_in _ _ _ _ (by rw [List.length_append, List.length_singleton]; omega),
        List.getElem_append_left (by omega)]
      congr 1
      omega
  · rw [List.length_append, htake, strcpy, ← Nat.add_assoc,
      Mem.put_in _ _ _ _ (by rw [List.length_append, List.length_singleton]; omega)]
    simp

/-! ## strings in a memory -/

/-- the string `s` is at `a` -/
def IsStr (m : Mem) : (a : Nat) → (s : List UInt8) → Prop
  | a, [] => m a = 0
  | a, c :: s => m a = c ∧ c ≠ 0 ∧ IsStr m (a + 1) s

instance IsStr.decidable (m : Mem) : ∀ a s, Decidable (IsStr m a s)
  | a, [] => inferInstanceAs (Decidable (m a = 0))
  | a, c :: s =>
    have := IsStr.decidable m (a + 1) s
    inferInstanceAs (Decidable (m a = c ∧ c ≠ 0 ∧ IsStr m (a + 1) s))

section
variable {m : Mem} {a : Nat} {s t : List UInt8}

theorem IsStr.zero_not_mem (h : IsStr m a s) : 0 ∉ s := by
  induction s generalizing a with
  | nil => exact List.not_mem_nil
  | cons c s ih =>
    rw [List.mem_cons, not_or]
    exact ⟨fun e => h.2.1 e.symm, ih h.2.2⟩

/-- a string starts with the bytes of its text -/
theorem isStr_append : IsStr m a (s ++ t) ↔ m.get a s.length = s ∧ 0 ∉ s ∧ IsStr m (a + s.length) t := by
  induction s generalizing a with
  | nil => simp [Mem.get]
  | cons c s ih =>
    have hget : m.get a (s.length + 1) = m a :: m.get (a + 1) s.length := by
      rw [Nat.add_comm, Mem.get_add]
      rfl
    show m a = c ∧ c ≠ 0 ∧ IsStr m (a + 1) (s ++ t) ↔ _
    rw [ih, List.length_cons, hget, List.cons.injEq, List.mem_cons, not_or, Nat.add_right_comm]
    constructor
    · rintro ⟨h1, h2, h3, h4, h5⟩
      exact ⟨⟨h1, h3⟩, ⟨fun e => h2 e.symm, h4⟩, h5⟩
    · rintro ⟨⟨h1, h3⟩, ⟨h2, h4⟩, h5⟩
      exact ⟨h1, fun e => h2 e.symm, h3, h4, h5⟩

theorem isStr_iff : IsStr m a s ↔ m.get a s.length = s ∧ 0 ∉ s ∧ m (a + s.length) = 0 := by
  have h := @isStr_append m a s []
  rwa [List.append_nil] at h

theorem IsStr.stop (h : IsStr m a s) : m (a + s.length) = 0 := (isStr_iff.mp h).2.2

theorem IsStr.get (h : IsStr m a s) : m.get a s.length = s := (isStr_iff.mp h).1

/-- a later place of a string -/
theorem IsStr.drop (h : IsStr m a (s ++ t)) : IsStr m (a + s.length) t := (isStr_append.mp h).2.2

/-- a NUL stored into a string cuts it -/
theorem IsStr.cut (h : IsStr m a (s ++ t)) : IsStr (m.put (a + s.length) [0]) a s := by
  obtain ⟨hget, hz, -⟩ := isStr_append.mp h
  refine isStr_iff.mpr ⟨?_, hz, ?_⟩
  · rw [Mem.get_put_out _ _ _ _ _ (.inl (le_refl _)), hget]
  · exact Mem.put_in m (a + s.length) 0 [0] Nat.zero_lt_one

/-- a store below a string -/
theorem IsStr.put_below (h : IsStr m a s) {b : Nat} {d : List UInt8} (hb : b + d.length ≤ a) :
    IsStr (m.put b d) a s := by
  obtain ⟨hget, hz, hstop⟩ := isStr_iff.mp h
  refine isStr_iff.mpr ⟨?_, hz, ?_⟩
  · rw [Mem.get_put_out _ _ _ _ _ (.inr hb), hget]
  · rw [Mem.put_out _ _ _ _ (.inr (by omega)), hstop]

/-- what is read of a string that is there -/
theorem IsStr.str (h : IsStr m a s) {size : Nat} (hsize : s.length < size) : str size m a = s := by
  refine str_eq_of_getElem? hsize h.zero_not_mem (fun k hk => ?_) h.stop
  have hget := congrArg (fun l : List UInt8 => l[k]?) h.get
  rw [Mem.get_getElem? _ _ _ _ hk, List.getElem?_eq_getElem hk] at hget
  exact Option.some.inj hget

end

theorem mem_of_mem_after {l p : List UInt8} (h : after l = some p) {x : UInt8} (hx : x ∈ p) :
    x ∈ l := by
  unfold after at h
  split at h
  · rw [← Option.some.inj h] at hx
    exact (List.dropWhile_sublist _).mem ((List.dropWhile_sublist _).mem hx)
  · cases h

theorem length_after_le {l p : List UInt8} (h : after l = some p) : p.length ≤ l.length := by
  unfold after at h
  split at h
  · rw [← Option.some.inj h]
    exact ((List.dropWhile_sublist _).trans (List.dropWhile_sublist _)).length_le
  · cases h

theorem word_append_blank {l e : List UInt8} : word (l ++ blank :: e) = word l := by
  unfold word
  rw [List.takeWhile_append]
  split
  · rename_i h
    rw [List.takeWhile_cons_of_neg (by simp), List.append_nil]
    exact (((List.takeWhile_prefix _).eq_of_length h).symm)
  · rfl

theorem word_of_not_mem {l : List UInt8} (h : blank ∉ l) : word l = l := by
  rw [word, List.takeWhile_eq_self_iff]
  intro x hx
  have : x ≠ blank := fun e => h (e ▸ hx)
  simpa using this

theorem dropWhile_of_not_mem {l : List UInt8} (h : blank ∉ l) : l.dropWhile (· ≠ blank) = [] := by
  rw [List.dropWhile_eq_nil_iff]
  intro x hx
  have hne : x ≠ blank := fun e => h (e ▸ hx)
  simpa using hne

theorem length_word_le (l : List UInt8) : (word l).length ≤ l.length :=
  (List.takeWhile_sublist _).length_le

/-- a blank and more text after a line -/
theorem after_append_blank {l e : List UInt8} :
    after (l ++ blank :: e) = some (match after l with
      | none => e.dropWhile (· = blank)
      | some [] => e.dropWhile (· = blank)
      | some p => p ++ blank :: e) := by
  have hm : blank ∈ l ++ blank :: e := by simp
  unfold after
  rw [if_pos hm]
  by_cases hl : blank ∈ l
  · rw [if_pos hl, List.dropWhile_append, if_neg ?_, List.dropWhile_append]
    · cases hp : (l.dropWhile (· ≠ blank)).dropWhile (· = blank) with
      | nil => simp
      | cons x p => simp
    · rw [List.isEmpty_iff, List.dropWhile_eq_nil_iff]
      intro h
      simpa using h blank hl
  · have hall : ∀ x ∈ l, decide (x ≠ blank) = true := by
      intro x hx
      have : x ≠ blank := fun h => hl (h ▸ hx)
      simpa using this
    rw [if_neg hl, List.dropWhile_append_of_pos hall]
    simp

end CString
