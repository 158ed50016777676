import Aboot.Ext2.Impl
import Aboot.Iso.Impl
import Aboot.Lib.CString
import Aboot.Lib.Loop

/-!
# lib/string.c: strncat, strrchr and strtok

The routines as loops over pointers.  The readers use them for names and paths, where the other models
have them as functions of lists.

* `strncat_run`, `strrchr_run`, `strtok_run`   what the routines come to;
* `Joined`, `LastFound`, `Splits`   what C has them do;
* `string_routines_iff`            when they do it;
* `strncat_iso`, `strrchr_ext2`, `strrchr_iso`, `components_ext2`   the functions that the readers have
  for them.

The destination and the source of `strncat` are different objects.  The characters of `ct` are those
before its NUL.
-/

namespace Strings
open CString

/-! ## the source -/

/-- `while (*dest) dest++;` -/
def endRound (m : Mem) (dest : Nat) : Nat ⊕ Nat := if m dest ≠ 0 then .inl (dest + 1) else .inr dest

structure Copy where
  mem : Mem
  dest : Nat
  src : Nat
  count : Nat

/-- `while ((*dest++ = *src++)) { if (--count == 0) break; }` -/
def copyRound (s : Mem) (v : Copy) : Copy ⊕ Mem :=
  let m := v.mem.put v.dest [s v.src]
  if s v.src ≠ 0 then
    if v.count - 1 = 0 then .inr m else .inl ⟨m, v.dest + 1, v.src + 1, v.count - 1⟩
  else .inr m

/-- the memory of the destination after it -/
def strncat (fuel : Nat) (d : Mem) (dest : Nat) (s : Mem) (src count : Nat) : Option Mem :=
  if count ≠ 0 then do
    let e ← Loop.run (endRound d) fuel dest
    Loop.run (copyRound s) fuel ⟨d, e, src, count⟩
  else some d

structure Back where
  s : Nat
  r : Option Nat

/-- `while (*s++) if (*s == c) r = s;` -/
def backRound (m : Mem) (c : UInt8) (v : Back) : Back ⊕ Option Nat :=
  if m v.s ≠ 0 then .inl ⟨v.s + 1, if m (v.s + 1) = c then some (v.s + 1) else v.r⟩ else .inr v.r

def strrchr (fuel : Nat) (m : Mem) (s : Nat) (c : UInt8) : Option (Option Nat) :=
  Loop.run (backRound m c) fuel ⟨s, none⟩

structure Span where
  p : Nat
  count : Nat

/-- the loop of `strspn` -/
def spanRound (m : Mem) (accept : List UInt8) (v : Span) : Span ⊕ Nat :=
  if m v.p ≠ 0 then if accept.contains (m v.p) then .inl ⟨v.p + 1, v.count + 1⟩ else .inr v.count
  else .inr v.count

def strspn (fuel : Nat) (m : Mem) (s : Nat) (accept : List UInt8) : Option Nat :=
  Loop.run (spanRound m accept) fuel ⟨s, 0⟩

/-- the loop of `strpbrk` -/
def breakRound (m : Mem) (ct : List UInt8) (sc1 : Nat) : Nat ⊕ Option Nat :=
  if m sc1 ≠ 0 then if ct.contains (m sc1) then .inr (some sc1) else .inl (sc1 + 1) else .inr none

def strpbrk (fuel : Nat) (m : Mem) (cs : Nat) (ct : List UInt8) : Option (Option Nat) :=
  Loop.run (breakRound m ct) fuel cs

/-- the memory of the name, and where the next call goes on -/
structure State where
  mem : Mem
  ___strtok : Option Nat

/-- the end of `strtok`, with `send` the delimiter behind the token -/
def setNext (send : Option Nat) (v : State) : State :=
  match send with
  | none => { v with ___strtok := none }
  | some send =>
    if v.mem send ≠ 0 then ⟨v.mem.put send [0], some (send + 1)⟩ else { v with ___strtok := some send }

/-- `strtok(s, ct)`: the token, and the state after it -/
def strtok (fuel : Nat) (s : Option Nat) (ct : List UInt8) (v : State) : Option (Option Nat × State) :=
  match s.or v.___strtok with
  | none => some (none, v)
  | some sbegin => do
    let n ← strspn fuel v.mem sbegin ct
    let sbegin := sbegin + n
    if v.mem sbegin = 0 then some (none, { v with ___strtok := none })
    else do
      let send ← strpbrk fuel v.mem sbegin ct
      some (some sbegin, setNext send v)

/-- what `k` calls return, the first with `s` and the others with NULL, as strings when they return -/
def tokens (fuel : Nat) (ct : List UInt8) :
    (k : Nat) → (s : Option Nat) → State → Option (List (Option (List UInt8)))
  | 0, _, _ => some []
  | k + 1, s, v => do
    let (r, v) ← strtok fuel s ct v
    let rest ← tokens fuel ct k none v
    some (r.map (str fuel v.mem) :: rest)

/-! ## what C has them do -/

/-- the nonempty parts of a name between delimiters -/
def components (ct : List UInt8) (name : List UInt8) : List (List UInt8) :=
  (name.splitOnP (ct.contains ·)).filter fun c => c ≠ []

/-- `strncat`: at most `n` characters of `t` are put behind `s`, and a NUL -/
def Joined (d : Mem) (dest : Nat) (s : List UInt8) (e : Mem) (src : Nat) (t : List UInt8) (n : Nat) : Prop :=
  ∃ fuel m, (∀ more, strncat (fuel + more) d dest e src n = some m) ∧ IsStr m dest (s ++ t.take n)

/-- `k` is the last position of `c` -/
def IsLast (c : UInt8) (w : List UInt8) (k : Nat) : Prop :=
  w[k]? = some c ∧ ∀ j, w[j]? = some c → j ≤ k

/-- `strrchr`: the last position of `c` in the string `s`, of which the NUL is a part -/
def LastFound (m : Mem) (a : Nat) (s : List UInt8) (c : UInt8) : Prop :=
  ∃ fuel r, (∀ more, strrchr (fuel + more) m a c = some r) ∧
    (∀ p, r = some p → ∃ k, p = a + k ∧ IsLast c (s ++ [0]) k) ∧ (r = none ↔ c ∉ s ++ [0])

/-- `strtok`: call `j` returns component `j`, and NULL behind the last one -/
def Splits (v : State) (a : Nat) (ct name : List UInt8) : Prop :=
  ∀ k, ∃ fuel, ∀ more, tokens (fuel + more) ct k (some a) v
    = some ((List.range k).map fun j => (components ct name)[j]?)

/-! ## strncat -/

section
variable {d e m : Mem} {a dest src n fuel : Nat} {s t : List UInt8}

theorem end_run (h : IsStr m a s) (hfuel : s.length < fuel) :
    Loop.run (endRound m) fuel a = some (a + s.length) := by
  induction s generalizing a fuel with
  | nil =>
    obtain ⟨fuel, rfl⟩ : ∃ f, fuel = f + 1 := ⟨fuel - 1, by omega⟩
    have h0 : m a = 0 := h
    exact Loop.run_last (by rw [endRound, h0, if_neg (not_not_intro rfl)]; rfl) fuel
  | cons c s ih =>
    rw [List.length_cons] at hfuel ⊢
    obtain ⟨fuel, rfl⟩ : ∃ f, fuel = f + 1 := ⟨fuel - 1, by omega⟩
    have hnext : Loop.Next (endRound m) a (a + 1) := by
      show endRound m a = _
      rw [endRound, h.1, if_pos h.2.1]
    rw [Loop.run_next hnext, ih h.2.2 (by omega), Nat.add_right_comm, Nat.add_assoc]

/-- what is stored behind the string: there is a NUL only when all of the source fits -/
def tail (t : List UInt8) (n : Nat) : List UInt8 := t.take n ++ if t.length < n then [0] else []

theorem tail_cons (c : UInt8) (t : List UInt8) (n : Nat) : tail (c :: t) (n + 1) = c :: tail t n := by
  rw [tail, tail, List.take_succ_cons, List.length_cons, List.cons_append]
  simp

theorem copy_run (h : IsStr e src t) (hn : n ≠ 0) (hfuel : t.length < fuel) :
    Loop.run (copyRound e) fuel ⟨d, dest, src, n⟩ = some (d.put dest (tail t n)) := by
  induction t generalizing d dest src n fuel with
  | nil =>
    obtain ⟨fuel, rfl⟩ : ∃ f, fuel = f + 1 := ⟨fuel - 1, by omega⟩
    have h0 : e src = 0 := h
    have htail : tail [] n = [0] := by
      rw [tail, List.take_nil, List.length_nil, if_pos (Nat.pos_of_ne_zero hn)]
      rfl
    rw [htail]
    refine Loop.run_last ?_ fuel
    rw [copyRound, h0, if_neg (not_not_intro rfl)]
  | cons c t ih =>
    rw [List.length_cons] at hfuel
    obtain ⟨fuel, rfl⟩ : ∃ f, fuel = f + 1 := ⟨fuel - 1, by omega⟩
    obtain ⟨n, rfl⟩ : ∃ k, n = k + 1 := ⟨n - 1, by omega⟩
    have hround : copyRound e ⟨d, dest, src, n + 1⟩
        = if n = 0 then .inr (d.put dest [c]) else .inl ⟨d.put dest [c], dest + 1, src + 1, n⟩ := by
      rw [copyRound, h.1, if_pos h.2.1]
      rfl
    have htail : tail (c :: t) (n + 1) = [c] ++ tail t n := tail_cons c t n
    by_cases h0 : n = 0
    · have hlast : tail t 0 = [] := rfl
      rw [if_pos h0] at hround
      rw [Loop.run_last hround, htail, h0, hlast, List.append_nil]
    · rw [if_neg h0] at hround
      rw [Loop.run_next hround, ih h.2.2 h0 (by omega), htail]
      exact congrArg some (Mem.put_append d dest [c] (tail t n))

theorem strncat_run (hd : IsStr d dest s) (he : IsStr e src t) (hfuel : s.length + t.length < fuel) :
    strncat fuel d dest e src n = some (if n = 0 then d else d.put (dest + s.length) (tail t n)) := by
  unfold strncat
  by_cases hn : n = 0
  · rw [if_neg (not_not_intro hn), if_pos hn]
  · rw [if_pos hn, if_neg hn, end_run hd (by omega)]
    exact copy_run he hn (by omega)

/-- the copied characters are a string exactly when a NUL is behind them -/
theorem isStr_tail (he : IsStr e src t) {b : Nat} :
    IsStr (d.put b (tail t n)) b (t.take n) ↔ (n ≤ t.length → d (b + n) = 0) := by
  have hz : 0 ∉ t.take n := fun hm => he.zero_not_mem (List.mem_of_mem_take hm)
  have hget : (d.put b (tail t n)).get b (t.take n).length = t.take n := by
    rw [tail, ← Mem.put_append, Mem.get_put_out _ _ _ _ _ (.inl (le_refl _)), Mem.get_put_self]
  rw [isStr_iff, and_iff_right hget, and_iff_right hz]
  by_cases hlt : t.length < n
  · have htake : t.take n = t := List.take_of_length_le (le_of_lt hlt)
    have hstop : d.put b (tail t n) (b + t.length) = 0 := by
      rw [tail, if_pos hlt, htake, Mem.put_in _ _ _ _ (by rw [List.length_append, List.length_singleton]; omega)]
      simp
    rw [htake]
    exact iff_of_true hstop fun hle => absurd hle (by omega)
  · have hlen : (t.take n).length = n := List.length_take_of_le (by omega)
    rw [hlen, tail, if_neg hlt, List.append_nil, Mem.put_out _ _ _ _ (.inr (by rw [hlen]))]
    exact ⟨fun h _ => h, fun h => h (by omega)⟩

/-- **strncat.**  The strings are joined exactly when all of the source fits, with its NUL, or a NUL is
behind the place for it already. -/
theorem joined_iff (hd : IsStr d dest s) (he : IsStr e src t) :
    Joined d dest s e src t n ↔ (n ≠ 0 → n ≤ t.length → d (dest + s.length + n) = 0) := by
  have hrun : ∀ more, strncat (s.length + t.length + 1 + more) d dest e src n
      = some (if n = 0 then d else d.put (dest + s.length) (tail t n)) :=
    fun more => strncat_run hd he (by omega)
  have hjoined : Joined d dest s e src t n ↔
      IsStr (if n = 0 then d else d.put (dest + s.length) (tail t n)) dest (s ++ t.take n) := by
    constructor
    · rintro ⟨fuel, m, hm, hstr⟩
      have h := hm (s.length + t.length + 1)
      rw [Nat.add_comm, hrun] at h
      rwa [Option.some.inj h]
    · exact fun h => ⟨_, _, hrun, h⟩
  rw [hjoined]
  by_cases hn : n = 0
  · rw [if_pos hn, hn, List.take_zero, List.append_nil]
    exact iff_of_true hd fun h => absurd rfl h
  · have hkeep : (d.put (dest + s.length) (tail t n)).get dest s.length = s := by
      rw [Mem.get_put_out _ _ _ _ _ (.inl (le_refl _)), hd.get]
    rw [if_neg hn, isStr_append, and_iff_right hkeep, and_iff_right hd.zero_not_mem, isStr_tail he,
      forall_prop_of_true hn]

end

/-! ## strrchr -/

/-- the last position of a character, if there is one -/
def lastPos (c : UInt8) : List UInt8 → Option Nat
  | [] => none
  | x :: w =>
    match lastPos c w with
    | some k => some (k + 1)
    | none => if x = c then some 0 else none

section
variable {m : Mem} {a fuel : Nat} {c : UInt8} {s w : List UInt8}

theorem lastPos_spec (c : UInt8) (w : List UInt8) :
    match lastPos c w with
    | some k => IsLast c w k
    | none => c ∉ w := by
  induction w with
  | nil => exact List.not_mem_nil
  | cons x w ih =>
    rw [lastPos]
    cases h : lastPos c w with
    | some k =>
      rw [h] at ih
      refine ⟨ih.1, fun j hj => ?_⟩
      cases j with
      | zero => exact Nat.zero_le _
      | succ j => exact Nat.succ_le_succ (ih.2 j hj)
    | none =>
      have hw : c ∉ w := by
        rw [h] at ih
        exact ih
      dsimp only
      by_cases hx : x = c
      · rw [if_pos hx]
        refine ⟨congrArg some hx, fun j hj => ?_⟩
        cases j with
        | zero => exact le_refl _
        | succ j => exact absurd (List.mem_of_getElem? (show w[j]? = some c from hj)) hw
      · rw [if_neg hx]
        show c ∉ x :: w
        rw [List.mem_cons, not_or]
        exact ⟨fun e => hx e.symm, hw⟩

/-- a string and its NUL are not empty -/
theorem isStr_head (h : IsStr m a s) : ∃ w, s ++ [0] = m a :: w := by
  cases s with
  | nil =>
    have h0 : m a = 0 := h
    exact ⟨[], by rw [h0]; rfl⟩
  | cons x s => exact ⟨s ++ [0], by rw [h.1]; rfl⟩

/-- the positions from 1 on are looked at, with that of the NUL -/
theorem back_run (h : IsStr m a s) (hfuel : s.length < fuel) (r : Option Nat) :
    Loop.run (backRound m c) fuel ⟨a, r⟩
      = some (((lastPos c (s ++ [0]).tail).map (a + 1 + ·)).or r) := by
  induction s generalizing a fuel r with
  | nil =>
    obtain ⟨fuel, rfl⟩ : ∃ f, fuel = f + 1 := ⟨fuel - 1, by omega⟩
    have h0 : m a = 0 := h
    refine Loop.run_last ?_ fuel
    rw [backRound, h0, if_neg (not_not_intro rfl)]
    rfl
  | cons x s ih =>
    rw [List.length_cons] at hfuel
    obtain ⟨fuel, rfl⟩ : ∃ f, fuel = f + 1 := ⟨fuel - 1, by omega⟩
    have hnext : Loop.Next (backRound m c) ⟨a, r⟩ ⟨a + 1, if m (a + 1) = c then some (a + 1) else r⟩ := by
      show backRound m c ⟨a, r⟩ = _
      rw [backRound, h.1, if_pos h.2.1]
    rw [Loop.run_next hnext, ih h.2.2 (by omega)]
    obtain ⟨w, hw⟩ := isStr_head h.2.2
    have htail : (x :: s ++ [0]).tail = m (a + 1) :: w := hw
    rw [htail, hw, List.tail_cons, lastPos]
    apply congrArg some
    cases lastPos c w with
    | some k =>
      show some (a + 1 + 1 + k) = some (a + 1 + (k + 1))
      rw [Nat.add_assoc (a + 1), Nat.add_comm 1 k]
    | none =>
      by_cases hc : m (a + 1) = c
      · rw [if_pos hc, if_pos hc]
        rfl
      · rw [if_neg hc, if_neg hc]
        rfl

theorem strrchr_run (h : IsStr m a s) (hfuel : s.length < fuel) :
    strrchr fuel m a c = some ((lastPos c (s ++ [0]).tail).map (a + 1 + ·)) := by
  rw [strrchr, back_run h hfuel, Option.or_none]

/-- **strrchr.**  The last position is found unless it is 0. -/
theorem lastFound_iff (h : IsStr m a s) :
    LastFound m a s c ↔ ((s ++ [0]).head? = some c → c ∈ (s ++ [0]).tail) := by
  have hrun : ∀ more, strrchr (s.length + 1 + more) m a c
      = some ((lastPos c (s ++ [0]).tail).map (a + 1 + ·)) := fun more => strrchr_run h (by omega)
  obtain ⟨w, hw⟩ := isStr_head h
  have hfound : LastFound m a s c ↔
      (∀ p, (lastPos c (s ++ [0]).tail).map (a + 1 + ·) = some p → ∃ k, p = a + k ∧ IsLast c (s ++ [0]) k) ∧
        ((lastPos c (s ++ [0]).tail).map (a + 1 + ·) = none ↔ c ∉ s ++ [0]) := by
    constructor
    · rintro ⟨fuel, r, hr, hlast⟩
      have hr' := hr (s.length + 1)
      rw [Nat.add_comm, hrun] at hr'
      rwa [Option.some.inj hr']
    · exact fun h => ⟨_, _, hrun, h⟩
  have hspec := lastPos_spec c w
  rw [hfound, hw, List.tail_cons, List.head?_cons, List.mem_cons, not_or]
  cases hl : lastPos c w with
  | some k =>
    rw [hl] at hspec
    have hmem : c ∈ w := List.mem_of_getElem? hspec.1
    refine iff_of_true ⟨?_, iff_of_false (fun e => by cases e) fun hn => hn.2 hmem⟩ fun _ => hmem
    intro p hp
    refine ⟨k + 1, ?_, hspec.1, fun j hj => ?_⟩
    · have hpk : a + 1 + k = p := Option.some.inj hp
      omega
    · cases j with
      | zero => exact Nat.zero_le _
      | succ j => exact Nat.succ_le_succ (hspec.2 j hj)
  | none =>
    rw [hl] at hspec
    have hmem : c ∉ w := hspec
    constructor
    · rintro ⟨-, hnone⟩ hhead
      exact absurd (Option.some.inj hhead).symm (hnone.mp rfl).1
    · intro hhead
      refine ⟨fun p hp => (by cases hp), iff_of_true rfl ⟨fun e => ?_, hmem⟩⟩
      exact hmem (hhead (congrArg some e.symm))

end

/-! ## strtok -/

section
variable {ct s t u : List UInt8} {c : UInt8} {m : Mem} {a fuel : Nat}

theorem components_skip (hc : ct.contains c = true) (s : List UInt8) :
    components ct (c :: s) = components ct s := by
  rw [components, List.splitOnP_cons_eq_if_modifyHead, if_pos hc, List.filter_cons_of_neg (by simp)]
  rfl

theorem components_dropWhile (ct s : List UInt8) :
    components ct (s.dropWhile (ct.contains ·)) = components ct s := by
  induction s with
  | nil => rfl
  | cons c s ih =>
    by_cases hc : ct.contains c = true
    · rw [List.dropWhile_cons_of_pos hc, ih, components_skip hc]
    · rw [List.dropWhile_cons_of_neg hc]

/-- a word up to a delimiter -/
theorem components_word (hs : s ≠ []) (hword : ∀ x ∈ s, ct.contains x = false) (hc : ct.contains c = true)
    (t : List UInt8) : components ct (s ++ c :: t) = s :: components ct t := by
  rw [components, List.splitOnP_append_cons_of_forall_mem hword c hc, List.filter_cons_of_pos (by simpa using hs)]
  rfl

/-- a word up to the end -/
theorem components_last (hs : s ≠ []) (hword : ∀ x ∈ s, ct.contains x = false) : components ct s = [s] := by
  rw [components, List.splitOnP_eq_singleton hword, List.filter_cons_of_pos (by simpa using hs)]
  rfl

/-- the loop of `strspn` passes the delimiters -/
theorem span_run (h : IsStr m a (s ++ t)) (hs : ∀ x ∈ s, ct.contains x = true)
    (ht : ∀ x ∈ t.head?, ct.contains x = false) (hfuel : s.length < fuel) (n : Nat) :
    Loop.run (spanRound m ct) fuel ⟨a, n⟩ = some (n + s.length) := by
  induction s generalizing a n fuel with
  | nil =>
    obtain ⟨fuel, rfl⟩ : ∃ f, fuel = f + 1 := ⟨fuel - 1, by omega⟩
    refine Loop.run_last ?_ fuel
    cases t with
    | nil =>
      have h0 : m a = 0 := h
      rw [spanRound, h0, if_neg (not_not_intro rfl)]
      rfl
    | cons x t =>
      have hx := ht x rfl
      rw [spanRound, h.1, if_pos h.2.1, if_neg (by rw [hx]; decide)]
      rfl
  | cons x s ih =>
    rw [List.length_cons] at hfuel ⊢
    obtain ⟨fuel, rfl⟩ : ∃ f, fuel = f + 1 := ⟨fuel - 1, by omega⟩
    have hnext : Loop.Next (spanRound m ct) ⟨a, n⟩ ⟨a + 1, n + 1⟩ := by
      show spanRound m ct ⟨a, n⟩ = _
      rw [spanRound, h.1, if_pos h.2.1, if_pos (hs x List.mem_cons_self)]
    rw [Loop.run_next hnext, ih h.2.2 (fun y hy => hs y (List.mem_cons_of_mem x hy)) (by omega),
      Nat.add_assoc, Nat.add_comm 1]

/-- the loop of `strpbrk` passes a word -/
theorem break_run (h : IsStr m a (s ++ t)) (hs : ∀ x ∈ s, ct.contains x = false)
    (ht : ∀ x ∈ t.head?, ct.contains x = true) (hfuel : s.length < fuel) :
    Loop.run (breakRound m ct) fuel a = some (if t = [] then none else some (a + s.length)) := by
  induction s generalizing a fuel with
  | nil =>
    obtain ⟨fuel, rfl⟩ : ∃ f, fuel = f + 1 := ⟨fuel - 1, by omega⟩
    refine Loop.run_last ?_ fuel
    cases t with
    | nil =>
      have h0 : m a = 0 := h
      rw [breakRound, h0, if_neg (not_not_intro rfl)]
      rfl
    | cons x t =>
      rw [breakRound, h.1, if_pos h.2.1, if_pos (ht x rfl)]
      rfl
  | cons x s ih =>
    rw [List.length_cons] at hfuel ⊢
    obtain ⟨fuel, rfl⟩ : ∃ f, fuel = f + 1 := ⟨fuel - 1, by omega⟩
    have hnext : Loop.Next (breakRound m ct) a (a + 1) := by
      show breakRound m ct a = _
      rw [breakRound, h.1, if_pos h.2.1, if_neg (by rw [hs x List.mem_cons_self]; decide)]
    rw [Loop.run_next hnext, ih h.2.2 (fun y hy => hs y (List.mem_cons_of_mem x hy)) (by omega),
      Nat.add_assoc, Nat.add_comm 1]

/-- a name is delimiters, a word, and what is behind it -/
theorem parts (ct l : List UInt8) : ∃ s t u, l = s ++ (t ++ u) ∧ (∀ x ∈ s, ct.contains x = true) ∧
    (∀ x ∈ t, ct.contains x = false) ∧ (∀ x ∈ u.head?, ct.contains x = true) ∧ (t = [] → u = []) ∧
    components ct l = components ct (t ++ u) := by
  obtain ⟨w, hw⟩ : ∃ w, w = l.dropWhile (ct.contains ·) := ⟨_, rfl⟩
  have hhead := List.head?_dropWhile_not (ct.contains ·) l
  have hrest := List.head?_dropWhile_not (fun x => !ct.contains x) w
  have hsplit : w.takeWhile (fun x => !ct.contains x) ++ w.dropWhile (fun x => !ct.contains x) = w :=
    List.takeWhile_append_dropWhile
  refine ⟨l.takeWhile (ct.contains ·), w.takeWhile fun x => !ct.contains x,
    w.dropWhile fun x => !ct.contains x, ?_, fun x hx => List.mem_takeWhile_imp hx, ?_, ?_, ?_, ?_⟩
  · rw [hsplit, hw, List.takeWhile_append_dropWhile]
  · intro x hx
    simpa using List.mem_takeWhile_imp hx
  · intro x hx
    rw [hx] at hrest
    simpa using hrest
  · intro ht
    cases w with
    | nil => rfl
    | cons x w =>
      rw [← hw] at hhead
      rw [List.takeWhile_cons_of_pos (by simpa using hhead)] at ht
      cases ht
  · rw [hsplit, hw, components_dropWhile]

/-- what the next call goes on from: nothing is left, or the components `cs` of a string -/
def Left (N : Nat) (ct : List UInt8) (m : Mem) (next : Option Nat) (cs : List (List UInt8)) : Prop :=
  match next with
  | none => cs = []
  | some a => ∃ s, IsStr m a s ∧ s.length < N ∧ components ct s = cs

/-- a call returns the first component that is left, and leaves the others -/
theorem strtok_step {N : Nat} {cs : List (List UInt8)} {next : Option Nat} {v : State}
    (h : Left N ct v.mem (next.or v.___strtok) cs) (hfuel : N ≤ fuel) :
    ∃ r w, strtok fuel next ct v = some (r, w) ∧ r.map (str fuel w.mem) = cs.head? ∧
      Left N ct w.mem w.___strtok cs.tail := by
  unfold strtok
  cases hnext : next.or v.___strtok with
  | none =>
    rw [hnext] at h
    obtain rfl : cs = [] := h
    have hv : v.___strtok = none := (Option.or_eq_none_iff.mp hnext).2
    refine ⟨none, v, rfl, rfl, ?_⟩
    rw [hv]
    rfl
  | some a =>
    rw [hnext] at h
    obtain ⟨l, hl, hlen, hcs⟩ := h
    obtain ⟨s, t, u, rfl, hs, ht, hu, htu, hcomp⟩ := parts ct l
    rw [hcomp] at hcs
    rw [List.length_append, List.length_append] at hlen
    have hhead : ∀ x ∈ (t ++ u).head?, ct.contains x = false := by
      intro x hx
      cases t with
      | nil =>
        rw [htu rfl] at hx
        cases hx
      | cons y t =>
        obtain rfl : y = x := Option.some.inj hx
        exact ht y List.mem_cons_self
    have hspan : strspn fuel v.mem a ct = some s.length := by
      have hrun := span_run hl hs hhead (show s.length < fuel by omega) 0
      rwa [Nat.zero_add] at hrun
    have hword := hl.drop
    dsimp only
    rw [hspan, Option.bind_eq_bind, Option.bind_some]
    by_cases ht0 : t = []
    · obtain rfl := ht0
      obtain rfl := htu rfl
      have h0 : v.mem (a + s.length) = 0 := hword
      rw [if_pos h0]
      refine ⟨none, _, rfl, ?_, ?_⟩
      · rw [← hcs]
        rfl
      · show cs.tail = []
        rw [← hcs]
        rfl
    · obtain ⟨x, t', rfl⟩ := List.exists_cons_of_ne_nil ht0
      have hne : v.mem (a + s.length) ≠ 0 := by
        rw [hword.1]
        exact hword.2.1
      have hbreak := break_run hword ht hu (show (x :: t').length < fuel by omega)
      rw [if_neg hne, strpbrk, hbreak, Option.bind_eq_bind, Option.bind_some]
      refine ⟨_, _, rfl, ?_⟩
      cases u with
      | nil =>
        rw [List.append_nil] at hword hcs
        rw [if_pos rfl, ← hcs, components_last ht0 ht]
        exact ⟨congrArg some (hword.str (by omega)), rfl⟩
      | cons y u =>
        have hsend := hword.drop
        have hy : v.mem (a + s.length + (x :: t').length) ≠ 0 := by
          rw [hsend.1]
          exact hsend.2.1
        rw [if_neg (List.cons_ne_nil y u), setNext, if_pos hy, ← hcs, components_word ht0 ht (hu y rfl)]
        refine ⟨congrArg some (hword.cut.str (by omega)), u, hsend.2.2.put_below (le_refl _), ?_, rfl⟩
        rw [List.length_cons, List.length_cons] at hlen
        omega

theorem tokens_run {N : Nat} (hfuel : N ≤ fuel) (k : Nat) {cs : List (List UInt8)} {next : Option Nat}
    {v : State} (h : Left N ct v.mem (next.or v.___strtok) cs) :
    tokens fuel ct k next v = some ((List.range k).map fun j => cs[j]?) := by
  induction k generalizing cs next v with
  | zero => rfl
  | succ k ih =>
    obtain ⟨r, w, hrun, hr, hleft⟩ := strtok_step h hfuel
    have hrest : tokens fuel ct k none w = some ((List.range k).map fun j => cs.tail[j]?) := ih hleft
    rw [tokens, hrun, Option.bind_eq_bind, Option.bind_some]
    show ((tokens fuel ct k none w).bind fun rest => some (r.map (str fuel w.mem) :: rest)) = _
    rw [hrest, Option.bind_some, hr, List.range_succ_eq_map, List.map_cons, List.map_map]
    simp [Function.comp_def, List.head?_eq_getElem?]

/-- **strtok.**  A name is split into its components, whatever it is. -/
theorem splits (v : State) (h : IsStr v.mem a s) (ct : List UInt8) : Splits v a ct s := fun k =>
  ⟨s.length + 1, fun more => tokens_run (Nat.le_add_right _ more) k ⟨s, h, Nat.lt_succ_self _, rfl⟩⟩

end

/-! ## what the readers have for them -/

section
variable {d e m : Mem} {a src n fuel : Nat} {c : UInt8} {s t : List UInt8} {i : Iso.State}

theorem strEnd_iso (h : IsStr m a s) (hfuel : s.length < fuel) :
    Iso.strEnd m fuel a i = some (a + s.length, i) := by
  induction s generalizing a fuel with
  | nil =>
    obtain ⟨fuel, rfl⟩ : ∃ f, fuel = f + 1 := ⟨fuel - 1, by omega⟩
    have h0 : m a = 0 := h
    rw [Iso.strEnd, if_pos h0]
    rfl
  | cons x s ih =>
    rw [List.length_cons] at hfuel ⊢
    obtain ⟨fuel, rfl⟩ : ∃ f, fuel = f + 1 := ⟨fuel - 1, by omega⟩
    have hx : m a ≠ 0 := by
      rw [h.1]
      exact h.2.1
    rw [Iso.strEnd, if_neg hx, ih h.2.2 (by omega), Nat.add_right_comm, Nat.add_assoc]

theorem ncat_iso (h : IsStr m src t) (hfuel : t.length < fuel) :
    Iso.ncat m fuel src n i = some (tail t n, i) := by
  induction t generalizing src n fuel with
  | nil =>
    obtain ⟨fuel, rfl⟩ : ∃ f, fuel = f + 1 := ⟨fuel - 1, by omega⟩
    have h0 : m src = 0 := h
    cases n with
    | zero => rfl
    | succ n =>
      rw [Iso.ncat, if_pos h0]
      rfl
  | cons x t ih =>
    rw [List.length_cons] at hfuel
    obtain ⟨fuel, rfl⟩ : ∃ f, fuel = f + 1 := ⟨fuel - 1, by omega⟩
    cases n with
    | zero => rfl
    | succ n =>
      have hx : m src ≠ 0 := by
        rw [h.1]
        exact h.2.1
      rw [Iso.ncat, if_neg hx, Prog.bind_run (ih h.2.2 (by omega)), Prog.pure_run, tail_cons, h.1]

/-- `strncat` of the ISO reader -/
theorem strncat_iso (hd : IsStr d 0 s) (he : IsStr e src t) (hfuel : s.length + t.length < fuel) :
    (Iso.strncat fuel d e src n i).map Prod.fst = strncat fuel d 0 e src n := by
  rw [strncat_run hd he hfuel, Iso.strncat]
  by_cases hn : n = 0
  · rw [if_pos hn, if_pos hn]
    rfl
  · rw [if_neg hn, if_neg hn, Prog.bind_run (strEnd_iso hd (by omega)), Prog.bind_run (ncat_iso he (by omega))]
    rfl

/-- the search for a position from the end -/
theorem find_last (p : Nat → Bool) (n : Nat) :
    match (List.range n).reverse.find? p with
    | some k => k < n ∧ p k = true ∧ ∀ j, j < n → p j = true → j ≤ k
    | none => ∀ j, j < n → p j = false := by
  induction n with
  | zero => exact fun j hj => absurd hj (Nat.not_lt_zero j)
  | succ n ih =>
    rw [List.range_succ, List.reverse_append, List.reverse_singleton, List.singleton_append, List.find?_cons]
    cases hp : p n with
    | true => exact ⟨Nat.lt_succ_self n, hp, fun j hj _ => Nat.le_of_lt_succ hj⟩
    | false =>
      dsimp only
      have hlt : ∀ j, j < n + 1 → p j = true → j < n := by
        intro j hj hpj
        rcases Nat.lt_or_eq_of_le (Nat.le_of_lt_succ hj) with h | rfl
        · exact h
        · cases hp.symm.trans hpj
      cases hf : (List.range n).reverse.find? p with
      | some k =>
        rw [hf] at ih
        exact ⟨by omega, ih.2.1, fun j hj hpj => ih.2.2 j (hlt j hj hpj) hpj⟩
      | none =>
        rw [hf] at ih
        intro j hj
        rw [Bool.eq_false_iff]
        exact fun hpj => (Bool.eq_false_iff.mp (ih j (hlt j hj hpj))) hpj

/-- a character of a string that is not its NUL, from position 1 on -/
theorem tail_getElem? (hc : c ≠ 0) (j : Nat) : (s ++ [0]).tail[j]? = some c ↔ s[j + 1]? = some c := by
  rw [List.getElem?_tail]
  rcases Nat.lt_trichotomy (j + 1) s.length with h | h | h
  · rw [List.getElem?_append_left h]
  · rw [List.getElem?_append_right (le_of_eq h.symm), h, Nat.sub_self, List.getElem?_eq_none (le_refl _)]
    exact iff_of_false (fun e => hc (Option.some.inj e).symm) fun e => by cases e
  · rw [List.getElem?_eq_none (by rw [List.length_append, List.length_singleton]; omega),
      List.getElem?_eq_none (by omega)]

theorem strrchr_list (hc : c ≠ 0) :
    Ext2.strrchr s c = (lastPos c (s ++ [0]).tail).map (1 + ·) := by
  have hfind := find_last (fun k => decide (1 ≤ k ∧ s[k]? = some c)) s.length
  have hspec := lastPos_spec c (s ++ [0]).tail
  have hlt : ∀ {j}, s[j]? = some c → j < s.length := fun h => (List.getElem?_eq_some_iff.mp h).1
  unfold Ext2.strrchr
  cases hl : lastPos c (s ++ [0]).tail with
  | none =>
    rw [hl] at hspec
    have hnot : c ∉ (s ++ [0]).tail := hspec
    rw [List.find?_eq_none.mpr]
    · rfl
    · intro k _ hk
      obtain ⟨h1, hk⟩ := of_decide_eq_true hk
      obtain ⟨j, rfl⟩ := Nat.exists_eq_add_of_le' h1
      exact hnot (List.mem_of_getElem? ((tail_getElem? hc j).mpr hk))
  | some k =>
    rw [hl] at hspec
    have hk : s[k + 1]? = some c := (tail_getElem? hc k).mp hspec.1
    cases hf : (List.range s.length).reverse.find? fun k => decide (1 ≤ k ∧ s[k]? = some c) with
    | none =>
      rw [hf] at hfind
      have h := of_decide_eq_false (hfind (k + 1) (hlt hk))
      exact absurd ⟨Nat.le_add_left 1 k, hk⟩ h
    | some q =>
      rw [hf] at hfind
      obtain ⟨-, hq, hmax⟩ := hfind
      obtain ⟨h1, hq⟩ := of_decide_eq_true hq
      have hle := hmax (k + 1) (hlt hk) (decide_eq_true ⟨Nat.le_add_left 1 k, hk⟩)
      obtain ⟨j, rfl⟩ := Nat.exists_eq_add_of_le' h1
      have hge := hspec.2 j ((tail_getElem? hc j).mpr hq)
      show some (j + 1) = some (1 + k)
      congr 1
      omega

/-- `strrchr` of the ext2 reader -/
theorem strrchr_ext2 (h : IsStr m a s) (hc : c ≠ 0) (hfuel : s.length < fuel) :
    strrchr fuel m a c = some ((Ext2.strrchr s c).map (a + ·)) := by
  have hadd : ((a + ·) ∘ (1 + ·) : Nat → Nat) = (a + 1 + ·) := by
    funext k
    exact (Nat.add_assoc a 1 k).symm
  rw [strrchr_run h hfuel, strrchr_list hc, Option.map_map, hadd]

/-- and that of the ISO reader -/
theorem strrchr_iso (s : List UInt8) (c : UInt8) : Iso.strrchr s c = Ext2.strrchr s c := rfl

/-- the components that the ext2 reader goes through -/
theorem components_ext2 (name : List UInt8) : Ext2.components name = components ['/'.toUInt8] name := by
  have hp : (· == '/'.toUInt8) = fun x => ['/'.toUInt8].contains x := by
    funext x
    rw [List.contains_cons, List.contains_nil, Bool.or_false]
  rw [Ext2.components, components, hp]

end

/-! ## the routines that the readers use -/

def slash : UInt8 := '/'.toUInt8

/-- where the strings are that the routines get -/
structure Arguments where
  d : Mem
  dest : Nat
  e : Mem
  src : Nat
  n : Nat
  m : Mem
  a : Nat
  c : UInt8
  v : State
  p : Nat

/-- the strings themselves -/
structure Arguments.Are (x : Arguments) (s t l name : List UInt8) : Prop where
  dest : IsStr x.d x.dest s
  src : IsStr x.e x.src t
  searched : IsStr x.m x.a l
  name : IsStr x.v.mem x.p name

/-- `strncat`, `strrchr` and `strtok` do what C has them do -/
structure Keep (x : Arguments) (s t l name : List UInt8) : Prop where
  strncat : Joined x.d x.dest s x.e x.src t x.n
  strrchr : LastFound x.m x.a l x.c
  strtok : Splits x.v x.p [slash] name

/-- **The string routines.**  `strncat` does what C says exactly when all of the source fits or a NUL is
behind the place for it, `strrchr` exactly when the last position is not 0, and `strtok` always. -/
theorem string_routines_iff {x : Arguments} {s t l name : List UInt8} (h : x.Are s t l name) :
    Keep x s t l name ↔ (x.n ≠ 0 → x.n ≤ t.length → x.d (x.dest + s.length + x.n) = 0) ∧
      ((l ++ [0]).head? = some x.c → x.c ∈ (l ++ [0]).tail) := by
  constructor
  · intro hk
    exact ⟨(joined_iff h.dest h.src).mp hk.strncat, (lastFound_iff h.searched).mp hk.strrchr⟩
  · rintro ⟨hjoin, hlast⟩
    exact ⟨(joined_iff h.dest h.src).mpr hjoin, (lastFound_iff h.searched).mpr hlast,
      splits x.v h.name [slash]⟩

/-- `strncat(d, "b", n)` behind "a", a search for the NUL of "a", and the name "a" -/
def letters (junk : UInt8) (n : Nat) : Arguments :=
  { d := fun k => if k = 0 then 0x61 else if k = 1 then 0 else junk
    dest := 0
    e := fun k => if k = 0 then 0x62 else 0
    src := 0
    n := n
    m := fun k => if k = 0 then 0x61 else 0
    a := 0
    c := 0
    v := ⟨fun k => if k = 0 then 0x61 else 0, none⟩
    p := 0 }

theorem letters_are (junk : UInt8) (n : Nat) : (letters junk n).Are [0x61] [0x62] [0x61] [0x61] := by
  refine ⟨⟨rfl, ?_, rfl⟩, ⟨rfl, ?_, rfl⟩, ⟨rfl, ?_, rfl⟩, ⟨rfl, ?_, rfl⟩⟩ <;> decide

theorem letters_keep : Keep (letters 0xff 2) [0x61] [0x62] [0x61] [0x61] :=
  (string_routines_iff (letters_are 0xff 2)).mpr (by decide)

/-- one character, and no NUL -/
theorem letters_unended : ¬ ∀ (x : Arguments) (s t l name : List UInt8), x.Are s t l name →
    Keep x s t l name := by
  intro hall
  have h := (joined_iff (letters_are 0xff 1).dest (letters_are 0xff 1).src).mp
    (hall _ _ _ _ _ (letters_are 0xff 1)).strncat
  revert h
  decide

end Strings
