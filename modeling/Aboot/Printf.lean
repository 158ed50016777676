import Aboot.Lib.Loop
import Aboot.Lib.Mem

/-!
# utils.c: the newlines of printf

`printf` formats a text into its buffer, makes room for one more character for each newline, and hands
the buffer to `cons_puts`.  The text moves up in place, from its end on.

* `countRound`     the loop that counts the newlines, `expandRound` the loop that moves the text;
* `crlf`           the text with a carriage return before every newline, `lfcr` with one behind it;
* `Moved`          how far the text is moved, while the loop runs;
* `printf_run`     what the buffer holds in the end, and the length that is handed over;
* `printf_iff`     for which texts that is the expanded text.

`vsprintf` is seen through the text that it stores.
-/

namespace Printf

def sizeof_buf : Nat := 1024
def LF : UInt8 := 10
def CR : UInt8 := 13

/-! ## the source -/

/-- the loop that counts: `src` is an index of `buf` -/
structure Count where
  src : Nat
  num_lf : Nat

def countRound (buf : Mem) (v : Count) : Count ⊕ Count :=
  if buf v.src = 0 then .inr v
  else .inl ⟨v.src + 1, if buf v.src = LF then v.num_lf + 1 else v.num_lf⟩

/-- the loop that moves the text: the pointers go down to one below `buf` -/
structure Vars where
  src : Int
  dst : Int
  buf : Mem

/-- `*dst-- = c` -/
def Vars.store (v : Vars) (c : UInt8) : Vars :=
  { v with buf := v.buf.put v.dst.toNat [c], dst := v.dst - 1 }

def expandRound (v : Vars) : Vars ⊕ Mem :=
  if 0 ≤ v.src then
    let w := if v.buf v.src.toNat = LF then v.store CR else v
    let w := w.store (w.buf w.src.toNat)
    .inl { w with src := w.src - 1 }
  else .inr v.buf

/-- where the loop that moves the text starts -/
def expandStart (buf : Mem) (c : Count) : Vars := ⟨c.src, c.src + c.num_lf, buf⟩

/-- each newline is expanded, if there is one -/
def expandAll (fuel : Nat) (buf : Mem) (c : Count) : Option Mem :=
  if c.num_lf ≠ 0 then Loop.run expandRound fuel (expandStart buf c) else some buf

/-- the buffer when `vsprintf` is through -/
def formatted (buf : Mem) (text : List UInt8) : Mem := buf.put 0 (text ++ [0])

/-- `printf` of what is formatted to `text`: the buffer, and the length for `cons_puts` -/
def printf (fuel : Nat) (buf : Mem) (text : List UInt8) : Option (Mem × Nat) := do
  let buf := formatted buf text
  let c ← Loop.run (countRound buf) fuel ⟨0, 0⟩
  let buf ← expandAll fuel buf c
  pure (buf, text.length + c.num_lf)

/-! ## what it is for -/

/-- a text with other characters in the place of its newlines -/
def expand (lf : List UInt8) (text : List UInt8) : List UInt8 :=
  text.flatMap fun c => if c = LF then lf else [c]

/-- a carriage return before every newline -/
def crlf (text : List UInt8) : List UInt8 := expand [CR, LF] text

/-- a carriage return behind every newline -/
def lfcr (text : List UInt8) : List UInt8 := expand [LF, CR] text

/-- no character is overwritten before it is copied, as long as the loop runs -/
def NothingLost (buf : Mem) (text : List UInt8) : Prop :=
  ∀ v, Loop.Come expandRound (expandStart (formatted buf text) ⟨text.length, text.count LF⟩) v →
    ∀ k : Nat, k ≤ v.src → v.buf k = formatted buf text k

/-- the buffer holds the text with its newlines expanded and a NUL, nothing behind the buffer is changed,
and the length of the text is handed over -/
structure Holds (buf : Mem) (text : List UInt8) (r : Mem × Nat) : Prop where
  stored : r.1.get 0 ((crlf text).length + 1) = crlf text ++ [0]
  inside : ∀ k, sizeof_buf ≤ k → r.1 k = buf k
  length : r.2 = (crlf text).length

/-- `printf` comes to an end with the text expanded, and loses no character on the way -/
structure Expanded (buf : Mem) (text : List UInt8) : Prop where
  ends : ∃ fuel r, printf fuel buf text = some r ∧ Holds buf text r
  kept : NothingLost buf text

/-! ## expanded texts -/

section
variable {lf text : List UInt8}

theorem expand_append (lf s t : List UInt8) : expand lf (s ++ t) = expand lf s ++ expand lf t :=
  List.flatMap_append

theorem expand_cons (lf : List UInt8) (c : UInt8) (t : List UInt8) :
    expand lf (c :: t) = (if c = LF then lf else [c]) ++ expand lf t := rfl

theorem length_expand (hlf : lf.length = 2) (text : List UInt8) :
    (expand lf text).length = text.length + text.count LF := by
  induction text with
  | nil => rfl
  | cons c t ih =>
    rw [expand_cons, List.length_append, ih, List.length_cons]
    by_cases hc : c = LF
    · rw [if_pos hc, hlf, hc, List.count_cons_self]
      omega
    · rw [if_neg hc, List.length_singleton, List.count_cons_of_ne hc]
      omega

theorem expand_of_not_mem (h : LF ∉ text) : expand lf text = text := by
  induction text with
  | nil => rfl
  | cons c t ih =>
    have hc : c ≠ LF := fun e => h (e ▸ List.mem_cons_self)
    have ht : LF ∉ t := fun hm => h (List.mem_cons_of_mem c hm)
    rw [expand_cons, if_neg hc, ih ht]
    rfl

/-- the two orders differ at the first newline -/
theorem lfcr_eq_crlf_iff : lfcr text = crlf text ↔ LF ∉ text := by
  constructor
  · induction text with
    | nil => exact fun _ => List.not_mem_nil
    | cons c t ih =>
      intro h
      unfold lfcr crlf at h ih
      rw [expand_cons, expand_cons] at h
      by_cases hc : c = LF
      · rw [if_pos hc, if_pos hc] at h
        cases h
      · rw [if_neg hc, if_neg hc, List.append_cancel_left_eq] at h
        rw [List.mem_cons, not_or]
        exact ⟨fun e => hc e.symm, ih h⟩
  · intro h
    rw [lfcr, crlf, expand_of_not_mem h, expand_of_not_mem h]

/-- the text up to a character is the text before it, and what stands for the character -/
theorem expand_take_succ {n : Nat} (hn : n < text.length) :
    expand lf (text.take (n + 1)) = expand lf (text.take n) ++ if text[n] = LF then lf else [text[n]] := by
  rw [List.take_succ_eq_append_getElem hn, expand_append, expand_cons]
  exact congrArg _ (List.append_nil _)

end

/-! ## the loop that counts -/

section
variable {buf : Mem} {text : List UInt8}

theorem formatted_eq {k : Nat} (hk : k < (text ++ [0]).length) : formatted buf text k = (text ++ [0])[k] := by
  have h := Mem.put_in buf 0 k (text ++ [0]) hk
  rw [Nat.zero_add] at h
  exact h

theorem formatted_text {k : Nat} (hk : k < text.length) : formatted buf text k = text[k] := by
  rw [formatted_eq (by rw [List.length_append]; omega), List.getElem_append_left hk]

theorem formatted_end : formatted buf text text.length = 0 := by
  rw [formatted_eq (by rw [List.length_append, List.length_singleton]; omega),
    List.getElem_append_right (le_refl _)]
  simp

/-- what is counted so far -/
def Counted (text : List UInt8) (v : Count) : Prop :=
  v.src ≤ text.length ∧ v.num_lf = (text.take v.src).count LF

theorem Counted.round (h0 : 0 ∉ text) {v : Count} (h : Counted text v) :
    (∃ t, Loop.Next (countRound (formatted buf text)) v t ∧ Counted text t ∧
      text.length - t.src < text.length - v.src) ∨
    ∃ r, countRound (formatted buf text) v = .inr r ∧ r = ⟨text.length, text.count LF⟩ := by
  obtain ⟨src, num⟩ := v
  obtain ⟨hle, hnum⟩ := h
  dsimp only at hle hnum
  unfold Loop.Next countRound
  dsimp only
  rcases Nat.lt_or_eq_of_le hle with hlt | rfl
  · have hne : text[src] ≠ 0 := fun e => h0 (e ▸ List.getElem_mem hlt)
    rw [formatted_text hlt, if_neg hne]
    refine .inl ⟨_, rfl, ⟨hlt, ?_⟩, by dsimp only; omega⟩
    dsimp only
    rw [List.take_succ_eq_append_getElem hlt, List.count_append, ← hnum, List.count_singleton]
    by_cases hc : text[src] = LF
    · simp [hc]
    · simp [hc]
  · rw [formatted_end, if_pos rfl]
    refine .inr ⟨_, rfl, ?_⟩
    rw [hnum, List.take_length]

/-- `num_lf` is the number of newlines -/
theorem count_run (h0 : 0 ∉ text) {fuel : Nat} (hfuel : text.length < fuel) :
    Loop.run (countRound (formatted buf text)) fuel ⟨0, 0⟩ = some ⟨text.length, text.count LF⟩ := by
  have hstart : Counted text ⟨0, 0⟩ := ⟨Nat.zero_le _, rfl⟩
  obtain ⟨r, hr, rfl⟩ := Loop.run_spec (fun v : Count => text.length - v.src)
    (fun v => Counted.round h0) hstart hfuel
  exact hr

/-! ## the loop that moves the text -/

/-- `n` characters of the string are still to be copied: they are in their place, and what is behind
the place for them is copied -/
structure Moved (buf : Mem) (s : List UInt8) (n : Nat) (v : Vars) : Prop where
  le : n ≤ s.length
  src : v.src + 1 = n
  dst : v.dst + 1 = (lfcr (s.take n)).length
  below : ∀ k, k < n → v.buf k = buf.put 0 s k
  above : ∀ k, (lfcr (s.take n)).length ≤ k → v.buf k = buf.put 0 (lfcr s) k

variable {s : List UInt8} {n : Nat} {v : Vars}

theorem le_length_lfcr (s : List UInt8) : s.length ≤ (lfcr s).length := by
  rw [lfcr, length_expand rfl]
  exact Nat.le_add_right _ _

/-- what stands for a character is stored right below what is copied -/
theorem Moved.store {p : List UInt8} (h : Moved buf s (n + 1) v)
    (hp : lfcr (s.take (n + 1)) = lfcr (s.take n) ++ p) {w : Vars} (hsrc : w.src = v.src - 1)
    (hdst : w.dst = v.dst - p.length) (hbuf : w.buf = v.buf.put (lfcr (s.take n)).length p) :
    Moved buf s n w := by
  have hle := h.le
  have hlen : n ≤ (lfcr (s.take n)).length := by
    have := le_length_lfcr (s.take n)
    rwa [List.length_take_of_le (by omega)] at this
  have hadd := congrArg List.length hp
  rw [List.length_append] at hadd
  have hsrc' := h.src
  have hdst' := h.dst
  refine ⟨by omega, by omega, by omega, fun k hk => ?_, fun k hk => ?_⟩
  · rw [hbuf, Mem.put_out _ _ _ _ (.inl (by omega))]
    exact h.below k (by omega)
  · by_cases hin : k < (lfcr (s.take n)).length + p.length
    · obtain ⟨j, rfl⟩ := Nat.exists_eq_add_of_le hk
      have hj : j < p.length := by omega
      have hs : lfcr s = lfcr (s.take n) ++ p ++ lfcr (s.drop (n + 1)) := by
        rw [← hp, lfcr, lfcr, lfcr, ← expand_append, List.take_append_drop]
      rw [hbuf, Mem.put_in _ _ _ _ hj, hs, ← Mem.put_append, ← Mem.put_append, Mem.put_out, Nat.zero_add,
        Mem.put_in _ _ _ _ hj]
      rw [List.length_append]
      exact .inl (by omega)
    · rw [hbuf, Mem.put_out _ _ _ _ (.inr (by omega))]
      exact h.above k (by omega)

/-- two stores downwards are one store -/
theorem put_down (m : Mem) (a : Nat) (x y : UInt8) : (m.put (a + 1) [y]).put a [x] = m.put a [x, y] := by
  have hcomm := Mem.put_comm m (a := a + 1) (b := a) (d := [y]) (e := [x]) (.inr (le_refl _))
  exact hcomm.trans (Mem.put_append m a [x] [y])

/-- a round copies one character, with a carriage return above a newline -/
theorem Moved.round (h : Moved buf s (n + 1) v) :
    ∃ w, Loop.Next expandRound v w ∧ Moved buf s n w := by
  obtain ⟨src, dst, b⟩ := v
  have hle : n < s.length := h.le
  have hsrc : src + 1 = (n + 1 : Nat) := h.src
  have hdst : dst + 1 = (lfcr (s.take (n + 1))).length := h.dst
  have hn : n ≤ (lfcr (s.take n)).length := by
    have := le_length_lfcr (s.take n)
    rwa [List.length_take_of_le (by omega)] at this
  have hchar : b n = s[n] := by
    have hp := Mem.put_in buf 0 n s hle
    rw [Nat.zero_add] at hp
    exact (h.below n (Nat.lt_succ_self n)).trans hp
  obtain rfl : src = n := by omega
  have hp : lfcr (s.take (n + 1)) = lfcr (s.take n) ++ if s[n] = LF then [LF, CR] else [s[n]] :=
    expand_take_succ hle
  generalize hL : (lfcr (s.take n)).length = L at hn
  by_cases hc : s[n] = LF
  · rw [if_pos hc] at hp
    obtain rfl : dst = (L + 1 : Nat) := by
      have h2 : [LF, CR].length = 2 := rfl
      rw [hp, List.length_append, hL, h2] at hdst
      omega
    have hdown : (L : Int) - 1 = (L + 1 : Nat) - ([LF, CR].length : Nat) := by
      show (L : Int) - 1 = (L + 1 : Nat) - (2 : Nat)
      omega
    refine ⟨⟨n - 1, L - 1, b.put L [LF, CR]⟩, ?_, h.store hp rfl hdown (by rw [hL])⟩
    have hkeep : b.put (L + 1) [CR] n = LF := by
      rw [Mem.put_out _ _ _ _ (.inl (by omega)), hchar, hc]
    show expandRound _ = _
    simp only [expandRound, Vars.store, Int.natCast_nonneg, if_true, Int.toNat_natCast, hchar, hc, hkeep]
    rw [show ((L + 1 : Nat) : Int) - 1 = (L : Nat) by omega, Int.toNat_natCast, put_down]
  · rw [if_neg hc] at hp
    obtain rfl : dst = (L : Nat) := by
      rw [hp, List.length_append, hL] at hdst
      simpa using hdst
    refine ⟨⟨n - 1, L - 1, b.put L [s[n]]⟩, ?_, h.store hp rfl (by simp) (by rw [hL])⟩
    show expandRound _ = _
    simp only [expandRound, Vars.store, Int.natCast_nonneg, if_true, Int.toNat_natCast, hchar, hc, if_false]

theorem Moved.last (h : Moved buf s 0 v) : expandRound v = .inr (buf.put 0 (lfcr s)) := by
  have hsrc := h.src
  rw [expandRound, if_neg (by omega)]
  apply congrArg
  funext k
  exact h.above k (Nat.zero_le _)

/-- the text is moved -/
theorem Moved.run (h : Moved buf s n v) {fuel : Nat} (hfuel : n < fuel) :
    Loop.run expandRound fuel v = some (buf.put 0 (lfcr s)) := by
  induction n generalizing v fuel with
  | zero =>
    obtain ⟨fuel, rfl⟩ : ∃ f, fuel = f + 1 := ⟨fuel - 1, by omega⟩
    exact Loop.run_last h.last fuel
  | succ n ih =>
    obtain ⟨fuel, rfl⟩ : ∃ f, fuel = f + 1 := ⟨fuel - 1, by omega⟩
    obtain ⟨w, hw, hm⟩ := h.round
    rw [Loop.run_next hw]
    exact ih hm (by omega)

/-- every state of the loop is one in which some characters are still to be copied -/
theorem Moved.come {w : Vars} (h : Moved buf s n v) (hw : Loop.Come expandRound v w) :
    ∃ m, Moved buf s m w := by
  refine hw.keeps (I := fun w => ∃ m, Moved buf s m w) ?_ ⟨n, h⟩
  rintro t u ⟨m, hm⟩ hnext
  cases m with
  | zero => cases hm.last.symm.trans hnext
  | succ m =>
    obtain ⟨x, hx, hmx⟩ := hm.round
    obtain rfl := Sum.inl.inj (hx.symm.trans hnext)
    exact ⟨m, hmx⟩

end

/-! ## printf -/

section
variable (buf : Mem) (text : List UInt8)

theorem lfcr_end : lfcr (text ++ [0]) = lfcr text ++ [0] := expand_append _ _ _

/-- the loop starts above the string -/
theorem moved_start :
    Moved buf (text ++ [0]) (text.length + 1) (expandStart (formatted buf text) ⟨text.length, text.count LF⟩) := by
  have hlen : (text ++ [0]).length = text.length + 1 := List.length_append
  have htake : (text ++ [0]).take (text.length + 1) = text ++ [0] := List.take_of_length_le (le_of_eq hlen)
  have hcr : (lfcr (text ++ [0])).length = text.length + text.count LF + 1 := by
    rw [lfcr_end, List.length_append, lfcr, length_expand rfl]
    rfl
  refine ⟨le_of_eq hlen.symm, rfl, ?_, fun k hk => rfl, fun k hk => ?_⟩
  · rw [htake, hcr]
    rfl
  · rw [htake] at hk
    show buf.put 0 (text ++ [0]) k = _
    rw [Mem.put_out _ _ _ _ (.inr (by omega)), Mem.put_out _ _ _ _ (.inr (by omega))]

/-- no character is lost, whatever the text is -/
theorem nothing_lost : NothingLost buf text := by
  intro v hv k hk
  obtain ⟨m, hm⟩ := (moved_start buf text).come hv
  have hsrc := hm.src
  exact hm.below k (by omega)

theorem length_lfcr : (lfcr text).length = text.length + text.count LF := length_expand rfl text

theorem length_crlf : (crlf text).length = text.length + text.count LF := length_expand rfl text

theorem expandAll_run {fuel : Nat} (hfuel : text.length + 1 < fuel) :
    expandAll fuel (formatted buf text) ⟨text.length, text.count LF⟩ = some (buf.put 0 (lfcr text ++ [0])) := by
  unfold expandAll
  by_cases hn : text.count LF = 0
  · rw [if_neg (not_not_intro hn), lfcr, expand_of_not_mem (List.count_eq_zero.mp hn), formatted]
  · rw [if_pos hn, (moved_start buf text).run hfuel, lfcr_end]

theorem expandAll_add {fuel : Nat} {c : Count} {m b : Mem} (k : Nat) (h : expandAll fuel m c = some b) :
    expandAll (fuel + k) m c = some b := by
  unfold expandAll at h ⊢
  by_cases hn : c.num_lf = 0
  · rw [if_neg (not_not_intro hn)] at h ⊢
    exact h
  · rw [if_pos hn] at h ⊢
    exact Loop.run_add k h

/-- **What printf hands over.**  The carriage returns stand behind the newlines, the length is right, and
nothing behind the NUL is changed. -/
theorem printf_run {text : List UInt8} (h0 : 0 ∉ text) {fuel : Nat} (hfuel : text.length + 1 < fuel) :
    printf fuel buf text = some (buf.put 0 (lfcr text ++ [0]), text.length + text.count LF) := by
  unfold printf
  dsimp only
  rw [count_run h0 (by omega), Option.bind_eq_bind, Option.bind_some, expandAll_run buf text hfuel]
  rfl

/-- it comes to nothing else, however long it takes -/
theorem printf_some {text : List UInt8} (h0 : 0 ∉ text) {fuel : Nat} {r : Mem × Nat}
    (h : printf fuel buf text = some r) :
    r = (buf.put 0 (lfcr text ++ [0]), text.length + text.count LF) := by
  unfold printf at h
  dsimp only at h
  obtain ⟨c, hc, h⟩ := Option.bind_eq_some_iff.mp h
  obtain rfl := Loop.run_unique hc (count_run h0 (Nat.lt_succ_self _))
  obtain ⟨b, hb, h⟩ := Option.bind_eq_some_iff.mp h
  obtain rfl := Option.some.inj h
  have hadd := expandAll_add (text.length + 2) hb
  rw [expandAll_run buf text (by omega)] at hadd
  rw [Option.some.inj hadd]

/-- **Newlines in printf.**  A text is expanded right exactly when there is no newline in it. -/
theorem printf_iff (h0 : 0 ∉ text) (hroom : text.length + text.count LF < sizeof_buf) :
    Expanded buf text ↔ LF ∉ text := by
  have hget : (buf.put 0 (lfcr text ++ [0])).get 0 ((crlf text).length + 1) = lfcr text ++ [0] := by
    have h := Mem.get_put_self buf 0 (lfcr text ++ [0])
    rwa [List.length_append, length_lfcr, ← length_crlf] at h
  rw [← lfcr_eq_crlf_iff]
  constructor
  · rintro ⟨⟨fuel, r, hr, hholds⟩, -⟩
    have htext := hholds.stored
    rw [printf_some buf h0 hr, hget] at htext
    exact List.append_cancel_right htext
  · intro h
    refine ⟨⟨text.length + 2, _, printf_run buf h0 (by omega), ?_, ?_, (length_crlf text).symm⟩,
      nothing_lost buf text⟩
    · rw [hget, h]
    · intro k hk
      show buf.put 0 (lfcr text ++ [0]) k = buf k
      refine Mem.put_out _ _ _ _ (.inr ?_)
      rw [List.length_append, length_lfcr, List.length_singleton]
      omega

end

/-- a word is handed over as it is -/
theorem word_expanded : Expanded (fun _ => 0) [0x61, 0x62] :=
  (printf_iff (fun _ => 0) [0x61, 0x62] (by decide) (by decide)).mpr (by decide)

/-- a line comes out with its carriage return behind the newline -/
theorem line_swapped : ¬ Expanded (fun _ => 0) [0x61, LF] := by
  intro h
  obtain ⟨fuel, r, hr, hholds⟩ := h.ends
  have htext := hholds.stored
  rw [printf_some (fun _ => 0) (by decide) hr] at htext
  revert htext
  decide

end Printf
