import Aboot.Zip.Tables
import Mathlib.Data.Nat.Bitwise

/-!
# zip/inflate.c: the tables of a set of codes

* `Right`, `Decoded`   the entry of a code, and bits that lead to the entry of their code;
* `Ahead`, `Walk`      where `huft_build` is before a code;
* `newLevels_ends`     the tables for the code;
* `oneCode_ends`       its entries;
* `lengths_ends`       all the codes: every pattern of bits leads to the entry of its code.
-/

set_option linter.unusedVariables false

namespace Inflate
open PrefixCode Raise

/-! ## what does not change -/

/-- tables are made, from the one with the number `R` on -/
structure Frame (R : Nat) (s s' : State) : Prop where
  input : s'.input = s.input
  window : s'.window = s.window
  outcnt : s'.outcnt = s.outcnt
  bb : s'.bb = s.bb
  bk : s'.bk = s.bk
  windows : s'.windows = s.windows
  used : s'.used = s.used
  length : s.tables.length ≤ s'.tables.length
  old : ∀ id < R, s'.tables[id]? = s.tables[id]?

/-- the exit of `malloc` -/
def NoMemory (R : Nat) (s : State) (e : Exit) (s' : State) : Prop := (∃ x, e = .error x) ∧ Frame R s s'

section
variable {R : Nat} {s s' s'' : State} {e : Exit}

theorem Frame.refl : Frame R s s := ⟨rfl, rfl, rfl, rfl, rfl, rfl, rfl, le_rfl, fun _ _ => rfl⟩

theorem Frame.trans (h : Frame R s s') (h' : Frame R s' s'') : Frame R s s'' :=
  ⟨h'.input.trans h.input, h'.window.trans h.window, h'.outcnt.trans h.outcnt, h'.bb.trans h.bb,
    h'.bk.trans h.bk, h'.windows.trans h.windows, h'.used.trans h.used, h.length.trans h'.length,
    fun id hid => (h'.old id hid).trans (h.old id hid)⟩

theorem NoMemory.after (h : Frame R s s') (he : NoMemory R s' e s'') : NoMemory R s e s'' :=
  ⟨he.1, h.trans he.2⟩

/-- a new table -/
theorem newTable_ends (E : Env) (size : Nat) (hR : R ≤ s.tables.length) :
    Ends (newTable E size)
      (fun id s' => id = s.tables.length ∧ s'.tables = s.tables ++ [⟨size, fun _ => none⟩] ∧ Frame R s s')
      (NoMemory R s) s := by
  unfold newTable
  refine .bind (.get (.bind (.modify ?_)))
  refine .ite (fun _ => .throw ⟨⟨_, rfl⟩, ⟨rfl, rfl, rfl, rfl, rfl, rfl, rfl, le_rfl, fun _ _ => rfl⟩⟩) fun _ => ?_
  refine .bind (.modify (.pure ⟨rfl, rfl, rfl, rfl, rfl, rfl, rfl, rfl, rfl, ?_, fun id hid => ?_⟩))
  · show _ ≤ (s.tables ++ [_]).length
    rw [List.length_append]
    exact Nat.le_add_right _ _
  · exact List.getElem?_append_left (hid.trans_le hR)

theorem store_ends {E : Exit → State → Prop} (u : Nat) (at_ : Nat → Bool) (r : Huft) (hR : R ≤ u) :
    Ends (store u at_ r) (fun _ s' => s'.tables = stores s.tables u at_ r ∧ Frame R s s') E s := by
  refine .modify ⟨rfl, rfl, rfl, rfl, rfl, rfl, rfl, rfl, (List.length_modify ..).ge, fun id hid => ?_⟩
  exact List.getElem?_modify_ne _ _ (by omega)

end

/-! ## the entries -/

/-- the operation and the value of an entry -/
def meaning (E : Env) (s : Nat) (d e : List Nat) (v : Nat) : Nat × Next :=
  if v < s then (if v < 256 then 16 else 15, .n (v % 65536))
  else (e.getD (v - s) (E.beyond (v - s)) % 256, .n (d.getD (v - s) (E.beyond (v - s)) % 65536))

/-- the entry of the code number `o` -/
def Right (E : Env) (A : Args) (o : Nat) (r : Huft) : Prop :=
  if A.n ≤ o then r.e = 99 else (r.e, r.v) = meaning E A.s A.d A.e (A.v o)

/-- the bits `x` lead to the entry of the code that they start with -/
def Decoded (E : Env) (A : Args) (R : Nat) (M : List Table) (x : Nat) : Prop :=
  ∃ k m r, 1 ≤ k ∧ k ≤ A.g ∧ m < A.c k ∧ value k (x % 2 ^ k) = first A.c k + m ∧ Decodes M R A.l x k r ∧
    Right E A (total A.c (k - 1) + m) r

section
variable {E : Env} {A : Args} {b o : Nat} {B : Build}

theorem meaning_n (E : Env) (s : Nat) (d e : List Nat) (v : Nat) : ∃ n, (meaning E s d e v).2 = .n n := by
  unfold meaning
  split
  · exact ⟨_, rfl⟩
  · exact ⟨_, rfl⟩

theorem Right.leaf {r : Huft} (h : Right E A o r) : Leaf r := by
  unfold Right at h
  split at h
  · exact .inl h
  · obtain ⟨n, hn⟩ := meaning_n E A.s A.d A.e (A.v o)
    rw [← h] at hn
    exact .inr ⟨n, hn⟩

/-- the entry for the next value -/
theorem setEntry_spec (hp : B.p = min o A.n) :
    Right E A o (setEntry E A b B).r ∧ (setEntry E A b B).r.b = b ∧ (setEntry E A b B).p = min (o + 1) A.n ∧
      (setEntry E A b B).levels = B.levels ∧ (setEntry E A b B).q = B.q ∧ (setEntry E A b B).z = B.z ∧
      (setEntry E A b B).i = B.i ∧ (setEntry E A b B).t = B.t := by
  unfold setEntry Right
  by_cases ho : A.n ≤ o
  · rw [if_pos ho, if_pos (by omega)]
    exact ⟨rfl, rfl, by show B.p = _; omega, rfl, rfl, rfl, rfl, rfl⟩
  · have hpo : B.p = o := by omega
    rw [if_neg ho, if_neg (by omega), hpo]
    unfold meaning
    split
    · exact ⟨rfl, rfl, by show o + 1 = _; omega, rfl, rfl, rfl, rfl, rfl⟩
    · exact ⟨rfl, rfl, by show o + 1 = _; omega, rfl, rfl, rfl, rfl, rfl⟩

end

/-! ## new levels -/

/-- before a code of `k` bits, of which `a` are left: the levels are those for the code -/
structure Ahead (A : Args) (R k a : Nat) (B : Build) (M : List Table) (lev : Level) (rest : List Level) (J : Nat) :
    Prop where
  levels : B.levels = lev :: rest
  stack : Stack A.c A.g A.l R M (given A.c A.g k a) (lev :: rest) J
  fresh : Fresh A.g M (given A.c A.g k a) lev J fun _ => False
  lt : B.i < 2 ^ k
  code : given A.c A.g k a = value k B.i * weight A.g k
  inside : B.i % 2 ^ lev.w = lev.x
  w_lt : lev.w < k
  dvd : weight A.g (min k (lev.w + A.l)) ∣ given A.c A.g k a
  q : k ≤ lev.w + A.l → B.q = lev.u ∧ B.z = 2 ^ J

section
variable {E : Env} {A : Args} {R k a J : Nat} {B : Build} {M : List Table} {lev : Level} {rest : List Level}

/-- the next code is behind the deepest level -/
theorem Ahead.interval (h : Ahead A R k a B M lev rest J) (hk : k ≤ A.g) :
    lev.start A.g ≤ given A.c A.g k a ∧ given A.c A.g k a < lev.finish A.g := by
  have := (mem_low hk h.w_lt.le h.lt h.stack.lt).mp h.inside
  rw [← h.code] at this
  exact this

theorem Ahead.deep (h : Ahead A R k a B M lev rest J) (hk : k ≤ A.g) : k ≤ lev.w + J ∨ A.l ≤ J :=
  h.stack.deep hk filled_le_given (h.interval hk).2

/-- there is a code left -/
theorem given_lt (hg : Good A.c A.g A.l) (hk : 1 ≤ k) (hkg : k ≤ A.g) (ha : a ≤ A.c k) (hpos : 0 < a) :
    given A.c A.g k a < 2 ^ A.g := by
  have hadd := given_add (g := A.g) hk ha
  have hle := hg.filled_le hkg
  have hmul := Nat.mul_pos hpos (weight_pos A.g k)
  omega

/-- a block of patterns that is begun fits -/
theorem add_le_of_dvd {d m n : Nat} (hm : d ∣ m) (hn : d ∣ n) (h : m < n) : m + d ≤ n := by
  have := Nat.le_of_dvd (Nat.sub_pos_of_lt h) (Nat.dvd_sub hn hm)
  omega

/-- a level is missing: the next code ends with zeros behind it, and no entry leads there -/
structure Missing (A : Args) (k a : Nat) (B : Build) (M : List Table) (lev : Level) (j : Nat) : Prop where
  lt : B.i < 2 ^ (lev.w + A.l)
  code : given A.c A.g k a = value (lev.w + A.l) B.i * weight A.g (lev.w + A.l)
  idx : B.i / 2 ^ lev.w < 2 ^ A.l
  empty : ent M lev.u (B.i / 2 ^ lev.w) = none
  k_le : k ≤ lev.w + A.l + j
  le_g : lev.w + A.l + j ≤ A.g
  le_l : j ≤ A.l
  cover : j < min (A.g - (lev.w + A.l)) A.l →
    (value (lev.w + A.l) B.i + 1) * weight A.g (lev.w + A.l) ≤ filled A.c A.g (lev.w + A.l + j)

theorem Ahead.missing (h : Ahead A R k a B M lev rest J) (hg : Good A.c A.g A.l) (hkg : k ≤ A.g)
    (ha : a ≤ A.c k) (hpos : 0 < a) (hlt : lev.w + A.l < k) :
    A.l ≤ J ∧ Missing A k a B M lev (tableBits A.c k (lev.w + A.l) (min (A.g - (lev.w + A.l)) A.l) a) := by
  have hk : 1 ≤ k := by omega
  have hV := given_lt hg hk hkg ha hpos
  have hdvd := h.dvd
  rw [Nat.min_eq_right hlt.le] at hdvd
  have hroom : given A.c A.g k a + weight A.g (lev.w + A.l) ≤ 2 ^ A.g :=
    add_le_of_dvd hdvd (weight_dvd (Nat.zero_le _) (by omega)) hV
  have hshort := hg.short hk hkg ha (Nat.le_add_left _ _) hlt.le hroom
  obtain ⟨hb1, hb2, hb3, hb4⟩ := tableBits_spec hg (z := min (A.g - (lev.w + A.l)) A.l) hk hkg ha hlt.le hroom
    (by omega)
  have hi : B.i < 2 ^ (lev.w + A.l) := by
    refine value_short hlt.le h.lt (Nat.dvd_of_mul_dvd_mul_right (weight_pos A.g k) ?_)
    rw [weight_mul hlt.le hkg, ← h.code]
    exact hdvd
  have hcode : given A.c A.g k a = value (lev.w + A.l) B.i * weight A.g (lev.w + A.l) := by
    rw [h.code, value_pad hlt.le hi, Nat.mul_assoc, weight_mul hlt.le hkg]
  have hJ : A.l ≤ J := by
    rcases h.deep hkg with hd | hd <;> omega
  have hidx : B.i / 2 ^ lev.w < 2 ^ A.l := by
    rw [Nat.pow_add] at hi
    exact Nat.div_lt_of_lt_mul hi
  have hl : tableBits A.c k (lev.w + A.l) (min (A.g - (lev.w + A.l)) A.l) a ≤ A.l := by
    by_cases hlast : k = A.g
    · omega
    · exact (hb3 (by omega)).trans (Nat.min_le_right _ _)
  refine ⟨hJ, hi, hcode, hidx, ?_, hb1, hb2, hl, fun hz => ?_⟩
  · cases hr : ent M lev.u (B.i / 2 ^ lev.w) with
    | none => rfl
    | some r =>
      have hi' : B.i < 2 ^ A.g := h.lt.trans_le (Nat.pow_le_pow_right (Nat.succ_pos 1) hkg)
      have hmod : B.i / 2 ^ lev.w % 2 ^ J = B.i / 2 ^ lev.w :=
        Nat.mod_eq_of_lt (hidx.trans_le (Nat.pow_le_pow_right (Nat.succ_pos 1) hJ))
      have hval : value A.g B.i = given A.c A.g k a := by rw [h.code]; exact value_pad hkg h.lt
      rcases h.fresh B.i hi' h.inside r (by rw [hmod]; exact hr) with hlt' | hf
      · omega
      · exact hf.elim
  · rw [Nat.add_one_mul, ← hcode]
    exact hb4 hz

/-- the new table, and the entry that leads to it -/
theorem Missing.ahead {j : Nat} {B' : Build} (h : Ahead A R k a B M lev rest J) (hJ : A.l ≤ J)
    (hm : Missing A k a B M lev j) (hlt : lev.w + A.l < k) (hi : B'.i = B.i)
    (hlevels : B'.levels = ⟨lev.w + A.l, B.i, M.length⟩ :: lev :: rest) (hq : B'.q = M.length) (hz : B'.z = 2 ^ j) :
    Ahead A R k a B' (linked M lev.u (B.i / 2 ^ lev.w) j A.l) ⟨lev.w + A.l, B.i, M.length⟩ (lev :: rest) j := by
  have hu := h.stack.lt_length
  have hle := hm.k_le
  have hl := hm.le_l
  have hg : Grows M (linked M lev.u (B.i / 2 ^ lev.w) j A.l) := grows_linked hm.empty
  have hstack := h.stack.grows hg fun id hid idx => ent_linked_ne (j := j) (l := A.l) (i := idx) hu (by omega)
  have hpath := hstack.path
  rw [Nat.min_eq_right hJ] at hpath
  refine ⟨hlevels, ?_, ?_, hi ▸ h.lt, hi ▸ h.code, ?_, hlt, ?_, fun _ => ⟨hq, hz⟩⟩
  · refine .next hstack ?_ (size_linked hu) (.link hpath h.inside (ent_linked_self hu) hm.lt (by omega) hl) hl
      hm.le_g hu hm.lt h.inside hm.code.ge hm.cover
    intro y hy hyx r hr
    by_cases hidx : y / 2 ^ lev.w % 2 ^ J = B.i / 2 ^ lev.w
    · right
      have hmod : y / 2 ^ lev.w % 2 ^ A.l = B.i / 2 ^ lev.w := by
        rw [← Nat.mod_mod_of_dvd (y / 2 ^ lev.w) (Nat.pow_dvd_pow 2 hJ), hidx, Nat.mod_eq_of_lt hm.idx]
      show y % 2 ^ (lev.w + A.l) = B.i
      rw [Nat.pow_add, Nat.mod_mul, hyx, hmod, ← h.inside]
      exact Nat.mod_add_div B.i (2 ^ lev.w)
    · left
      rw [ent_linked_ne hu fun _ => hidx] at hr
      exact (h.fresh y hy hyx r hr).resolve_right id
  · intro y hy hyx r hr
    rw [ent_linked_ne hu (fun hid => by rw [← hid] at hu; exact absurd hu (Nat.lt_irrefl _)),
      ent_of (List.getElem?_eq_none le_rfl)] at hr
    cases hr
  · rw [hi]
    exact Nat.mod_eq_of_lt hm.lt
  · show weight A.g (min k (lev.w + A.l + A.l)) ∣ _
    rw [Nat.min_eq_left (by omega), h.code]
    exact Dvd.intro_left _ rfl

theorem newLevel_next (E : Env) (hB : B.levels = lev :: rest) {j : Nat}
    (hj : tableBits A.c k (lev.w + A.l) (min (A.g - (lev.w + A.l)) A.l) a = j) :
    newLevel E A k a B = (do
      let q ← newTable E (2 ^ j)
      store lev.u (fun x => x = B.i >>> lev.w) ⟨(16 + j) % 256, A.l % 256, .t q⟩
      pure { B with
        levels := ⟨lev.w + A.l, B.i, q⟩ :: lev :: rest, q := q, z := 2 ^ j,
        r := ⟨(16 + j) % 256, A.l % 256, .t q⟩ }) := by
  rw [newLevel, hB, ← hj]
  rfl

theorem newLevel_root (E : Env) (hB : B.levels = []) {j : Nat}
    (hj : tableBits A.c k 0 (min (A.g - 0) A.l) a = j) :
    newLevel E A k a B = (do
      let q ← newTable E (2 ^ j)
      pure { B with levels := [⟨0, 0, q⟩], q := q, z := 2 ^ j, t := some q }) := by
  rw [newLevel, hB, ← hj]
  rfl

theorem newLevels_done (fuel : Nat) (h : k ≤ reach A.l B.levels) : newLevels E A k a fuel B = pure B := by
  cases fuel with
  | zero => rfl
  | succ fuel => rw [newLevels, if_neg (not_lt.mpr h)]

/-- before the first code -/
structure First (A : Args) (R k a : Nat) (B : Build) (M : List Table) : Prop where
  levels : B.levels = []
  i : B.i = 0
  given : given A.c A.g k a = 0
  k_le : k ≤ A.l
  length : M.length = R

/-- the levels are those for the code -/
structure Reached (A : Args) (R k a : Nat) (B B' : Build) (M M' : List Table) : Prop where
  grows : Grows M M'
  bounded : Bounded R M → Bounded R M'
  ahead : ∃ lev rest J, Ahead A R k a B' M' lev rest J ∧ k ≤ lev.w + A.l
  p : B'.p = B.p
  i : B'.i = B.i
  t : B'.t = some R

theorem newLevel_next_ends (E : Env) {s : State} (hg : Good A.c A.g A.l) (hkg : k ≤ A.g) (ha : a ≤ A.c k)
    (hpos : 0 < a) (hR : R ≤ s.tables.length) (ht : B.t = some R)
    (h : Ahead A R k a B s.tables lev rest J) (hlt : lev.w + A.l < k) :
    Ends (newLevel E A k a B) (fun B' s' => Frame R s s' ∧ Reached A R k a B B' s.tables s'.tables)
      (NoMemory R s) s := by
  obtain ⟨hJ, hm⟩ := h.missing hg hkg ha hpos hlt
  generalize hj : tableBits A.c k (lev.w + A.l) (min (A.g - (lev.w + A.l)) A.l) a = j at hm
  have hmax := hg.max
  have hle := hg.le
  have hjl := hm.le_l
  have hk := hm.k_le
  rw [newLevel_next E h.levels hj]
  refine .seq (newTable_ends E (2 ^ j) hR) ?_ fun _ _ he => he
  rintro q s1 ⟨hq, ht1, hf1⟩
  refine .seq (store_ends (E := NoMemory R s) lev.u _ _ h.stack.root_le) ?_ fun _ _ he => he
  rintro ⟨⟩ s2 ⟨ht2, hf2⟩
  refine .pure ⟨hf1.trans hf2, ?_⟩
  have htables : s2.tables = linked s.tables lev.u (B.i / 2 ^ lev.w) j A.l := by
    rw [ht2, ht1, hq, Nat.mod_eq_of_lt (by omega), Nat.mod_eq_of_lt (by omega), Nat.shiftRight_eq_div_pow]
    rfl
  rw [htables]
  have hidx : B.i / 2 ^ lev.w < 2 ^ J := hm.idx.trans_le (Nat.pow_le_pow_right (Nat.succ_pos 1) hJ)
  exact ⟨grows_linked hm.empty, fun hb => (hb.append _).stores ((grows_append _).size h.stack.size)
    fun x hx => by rw [of_decide_eq_true hx]; exact hidx,
    ⟨_, _, _, hm.ahead h hJ hlt rfl (by rw [← hq]) hq rfl, by show k ≤ lev.w + A.l + A.l; omega⟩, rfl, rfl, ht⟩

theorem newLevel_root_ends (E : Env) {s : State} (hg : Good A.c A.g A.l) (hk : 1 ≤ k) (hkg : k ≤ A.g)
    (ha : a ≤ A.c k) (hpos : 0 < a) (h : First A R k a B s.tables) :
    Ends (newLevel E A k a B) (fun B' s' => Frame R s s' ∧ Reached A R k a B B' s.tables s'.tables)
      (NoMemory R s) s := by
  have hle := hg.le
  have hkl := h.k_le
  have hroom : given A.c A.g k a + weight A.g 0 ≤ 2 ^ A.g := by
    rw [h.given, weight_zero, Nat.zero_add]
  have hbits := tableBits_spec hg (z := min (A.g - 0) A.l) hk hkg ha (Nat.zero_le k) hroom (by omega)
  generalize hj : tableBits A.c k 0 (min (A.g - 0) A.l) a = j at hbits
  obtain ⟨hb1, hb2, -, hb4⟩ := hbits
  rw [h.given, weight_zero] at hb4
  simp only [Nat.zero_add] at hb1 hb2 hb4
  have hlj : A.l ≤ j := by
    by_contra hlt
    have := hg.eq_of_filled hb2 (hb4 (by omega))
    omega
  rw [newLevel_root E h.levels hj]
  refine .seq (newTable_ends E (2 ^ j) h.length.ge) ?_ fun _ _ he => he
  rintro q s1 ⟨hq, ht1, hf1⟩
  have hqR : q = R := hq.trans h.length
  refine .pure ⟨hf1, ht1 ▸ grows_append _, fun hb => ht1 ▸ hb.append _,
    ⟨⟨0, 0, R⟩, [], j, ⟨?_, ?_, ?_, ?_, ?_, ?_, hk, ?_, fun _ => ⟨hqR, rfl⟩⟩, ?_⟩, rfl, rfl, congrArg some hqR⟩
  · rw [hqR]
  · refine .root ?_ hlj hb2
    rw [ht1, ← h.length, List.getElem?_concat_length]
    rfl
  · intro y hy hyx r hr
    rw [ht1, ent_append, ent_of (List.getElem?_eq_none h.length.le)] at hr
    cases hr
  · show B.i < _
    rw [h.i]
    exact Nat.two_pow_pos k
  · show _ = value k B.i * _
    rw [h.given, h.i, value_pad (Nat.zero_le k) Nat.one_pos, value]
    simp only [Nat.zero_mul]
  · show B.i % 1 = 0
    exact Nat.mod_one _
  · rw [h.given]
    exact Nat.dvd_zero _
  · show k ≤ 0 + A.l
    omega

/-- the tables up to the level of the code -/
theorem newLevels_ends (E : Env) {s : State} (hg : Good A.c A.g A.l) (hk : 1 ≤ k) (hkg : k ≤ A.g) (ha : a ≤ A.c k)
    (hpos : 0 < a) (hR : R ≤ s.tables.length)
    (h : First A R k a B s.tables ∨ B.t = some R ∧ ∃ lev rest J, Ahead A R k a B s.tables lev rest J) :
    Ends (newLevels E A k a k B) (fun B' s' => Frame R s s' ∧ Reached A R k a B B' s.tables s'.tables)
      (NoMemory R s) s := by
  obtain ⟨fuel, rfl⟩ := Nat.exists_eq_add_of_le' hk
  have hdone : ∀ B' s', Frame R s s' ∧ Reached A R (fuel + 1) a B B' s.tables s'.tables →
      Ends (newLevels E A (fuel + 1) a fuel B')
        (fun B' s' => Frame R s s' ∧ Reached A R (fuel + 1) a B B' s.tables s'.tables) (NoMemory R s) s' := by
    rintro B' s' ⟨hf, hr⟩
    obtain ⟨lev, rest, J, hahead, hreach⟩ := hr.ahead
    rw [newLevels_done fuel (by rw [hahead.levels]; exact hreach)]
    exact .pure ⟨hf, hr⟩
  rcases h with h | ⟨ht, lev, rest, J, h⟩
  · rw [newLevels, h.levels, if_pos (show reach A.l [] < fuel + 1 from Nat.succ_pos fuel)]
    exact .seq (newLevel_root_ends E hg hk hkg ha hpos h) hdone fun _ _ he => he
  · by_cases hlt : lev.w + A.l < fuel + 1
    · rw [newLevels, h.levels, if_pos (show reach A.l (lev :: rest) < fuel + 1 from hlt)]
      exact .seq (newLevel_next_ends E hg hkg ha hpos hR ht h hlt) hdone fun _ _ he => he
    · rw [newLevels_done (fuel + 1) (by rw [h.levels]; exact not_lt.mp hlt)]
      exact .pure ⟨.refl, .refl, id, ⟨lev, rest, J, h, not_lt.mp hlt⟩, rfl, rfl, ht⟩

end

/-! ## the entries of a code -/

section
variable {E : Env} {A : Args} {R k a J i : Nat} {B : Build} {M : List Table} {lev : Level} {rest : List Level}

theorem xor_of_lt (h : i < 2 ^ k) : i ^^^ 2 ^ k = i + 2 ^ k := by
  refine Nat.eq_of_testBit_eq fun j => ?_
  rw [Nat.testBit_xor, Nat.testBit_two_pow, Nat.add_comm]
  rcases Nat.lt_trichotomy j k with hlt | rfl | hgt
  · rw [Nat.testBit_two_pow_add_gt hlt, decide_eq_false hlt.ne', Bool.xor_false]
  · rw [Nat.testBit_two_pow_add_eq, decide_eq_true rfl, Bool.xor_true]
  · have hpow : 2 ^ (k + 1) ≤ 2 ^ j := Nat.pow_le_pow_right (Nat.succ_pos 1) hgt
    rw [Nat.pow_succ] at hpow
    rw [Nat.testBit_lt_two_pow (show i < 2 ^ j by omega), Nat.testBit_lt_two_pow (show 2 ^ k + i < 2 ^ j by omega),
      decide_eq_false hgt.ne, Bool.xor_false]

/-- the backwards increment of a code gives the next one -/
theorem increment_eq (h : i < 2 ^ k) : increment k i = next k i := by
  induction k generalizing i with
  | zero => rfl
  | succ k ih =>
    have hpos := Nat.two_pow_pos k
    rw [increment, next, Nat.and_two_pow]
    by_cases hge : 2 ^ k ≤ i
    · obtain ⟨j, rfl⟩ := Nat.exists_eq_add_of_le' hge
      have hj : j < 2 ^ k := by
        rw [Nat.pow_succ] at h
        omega
      have hbit : (j + 2 ^ k).testBit k = true := by
        rw [Nat.add_comm, Nat.testBit_two_pow_add_eq, Nat.testBit_lt_two_pow hj]
        rfl
      have hxor : (j + 2 ^ k) ^^^ 2 ^ k = j := by
        rw [← xor_of_lt hj, Nat.xor_assoc, Nat.xor_self, Nat.xor_zero]
      rw [hbit, if_pos hge, hxor, Nat.add_sub_cancel, if_pos (by rw [Bool.toNat_true]; omega)]
      exact ih hj
    · have hlt := not_le.mp hge
      rw [Nat.testBit_lt_two_pow hlt, if_neg hge, xor_of_lt hlt, if_neg (by rw [Bool.toNat_false]; omega)]

/-- the tables with the entry of the code `i` of `k` bits in the table `u` of `z` entries behind `w` bits -/
def entered (M : List Table) (u z w k i : Nat) (r : Huft) : List Table :=
  stores M u (fun x => x < z ∧ i >>> w ≤ x ∧ (x - i >>> w) % 2 ^ (k - w) = 0) r

theorem entered_at {z w x : Nat} (hw : w ≤ k) (hi : i < 2 ^ k) :
    (x < z ∧ i >>> w ≤ x ∧ (x - i >>> w) % 2 ^ (k - w) = 0) ↔ x < z ∧ x % 2 ^ (k - w) = i / 2 ^ w := by
  have hlt : i / 2 ^ w < 2 ^ (k - w) := by
    refine Nat.div_lt_of_lt_mul ?_
    rw [← Nat.pow_add, Nat.add_sub_cancel' hw]
    exact hi
  rw [Nat.shiftRight_eq_div_pow]
  refine and_congr_right fun _ => ⟨fun ⟨hle, hmod⟩ => ?_, fun hmod => ?_⟩
  · rw [← Nat.sub_add_cancel hle, Nat.add_mod, hmod, Nat.zero_add, Nat.mod_mod, Nat.mod_eq_of_lt hlt]
  · have hle : i / 2 ^ w ≤ x := hmod ▸ Nat.mod_le _ _
    refine ⟨hle, ?_⟩
    rw [← hmod]
    exact Nat.sub_mod_eq_zero_of_mod_eq (Nat.mod_mod _ _).symm

theorem ent_entered {u z w id x : Nat} {r : Huft} (hu : u < M.length) (hw : w ≤ k) (hi : i < 2 ^ k) :
    ent (entered M u z w k i r) id x =
      if id = u ∧ x < z ∧ x % 2 ^ (k - w) = i / 2 ^ w then some r else ent M id x := by
  rw [entered]
  by_cases hid : id = u
  · subst hid
    rw [ent_stores hu]
    refine if_congr ?_ rfl rfl
    rw [decide_eq_true_eq, entered_at hw hi]
    exact (and_iff_right rfl).symm
  · rw [ent_stores_ne hid, if_neg fun h => hid h.1]

/-- the patterns that lead to the entry of the code -/
theorem Ahead.pattern (h : Ahead A R k a B M lev rest J) {y : Nat} :
    y % 2 ^ k = B.i ↔ y % 2 ^ lev.w = lev.x ∧ y / 2 ^ lev.w % 2 ^ (k - lev.w) = B.i / 2 ^ lev.w := by
  have hk : lev.w + (k - lev.w) = k := Nat.add_sub_cancel' h.w_lt.le
  have hsplit : y % 2 ^ k = y % 2 ^ lev.w + 2 ^ lev.w * (y / 2 ^ lev.w % 2 ^ (k - lev.w)) := by
    conv_lhs => rw [← hk, Nat.pow_add, Nat.mod_mul]
  have hi := Nat.mod_add_div B.i (2 ^ lev.w)
  rw [h.inside] at hi
  refine ⟨fun hy => ⟨?_, ?_⟩, fun ⟨h1, h2⟩ => by rw [hsplit, h1, h2, hi]⟩
  · rw [← h.inside, ← hy, Nat.mod_mod_of_dvd _ (Nat.pow_dvd_pow 2 h.w_lt.le)]
  · rw [← hy, ← hk, Nat.pow_add, Nat.mod_mul_right_div_self, hk]

/-- the entry of the code is stored where there was none -/
theorem Ahead.free (h : Ahead A R k a B M lev rest J) (hkg : k ≤ A.g) (hkJ : k ≤ lev.w + J) {x : Nat}
    (hx : x < 2 ^ J) (hmod : x % 2 ^ (k - lev.w) = B.i / 2 ^ lev.w) : ent M lev.u x = none := by
  have hbits := h.stack.bits
  have hlow := h.stack.lt
  cases hr : ent M lev.u x with
  | none => rfl
  | some r =>
    -- a pattern of the level that is looked up there
    have hy : lev.x + 2 ^ lev.w * x < 2 ^ A.g := by
      have hpow : 2 ^ (lev.w + J) ≤ 2 ^ A.g := Nat.pow_le_pow_right (Nat.succ_pos 1) hbits
      have hmul := Nat.mul_le_mul_left (2 ^ lev.w) (show x + 1 ≤ 2 ^ J from hx)
      rw [Nat.mul_add_one, ← Nat.pow_add] at hmul
      omega
    have h1 : (lev.x + 2 ^ lev.w * x) % 2 ^ lev.w = lev.x := by
      rw [Nat.add_mul_mod_self_left, Nat.mod_eq_of_lt hlow]
    have h2 : (lev.x + 2 ^ lev.w * x) / 2 ^ lev.w = x := by
      rw [Nat.add_mul_div_left _ _ (Nat.two_pow_pos _), Nat.div_eq_of_lt hlow, Nat.zero_add]
    have hcode := (mem_code hkg h.lt hy).mp (h.pattern.mpr ⟨h1, by rw [h2, hmod]⟩)
    rw [← h.code] at hcode
    rcases h.fresh _ hy h1 r (by rw [h2, Nat.mod_eq_of_lt hx, hr]) with hlt | hf
    · omega
    · exact hf.elim

/-- the entries of the code: its patterns are taken -/
theorem Ahead.entered (h : Ahead A R k a B M lev rest J) (hg : Good A.c A.g A.l) (hkg : k ≤ A.g)
    (hreach : k ≤ lev.w + A.l) {r : Huft} (hb : r.b = k - lev.w) (hleaf : Leaf r) :
    Grows M (entered M lev.u (2 ^ J) lev.w k B.i r) ∧
      Stack A.c A.g A.l R (entered M lev.u (2 ^ J) lev.w k B.i r) (given A.c A.g k a) (lev :: rest) J ∧
      Fresh A.g (entered M lev.u (2 ^ J) lev.w k B.i r) (given A.c A.g k a + weight A.g k) lev J (fun _ => False) ∧
      ∀ y, y % 2 ^ k = B.i → Decodes (entered M lev.u (2 ^ J) lev.w k B.i r) R A.l y k r := by
  have hu := h.stack.lt_length
  have hw := h.w_lt
  have hkJ : k ≤ lev.w + J := by
    rcases h.deep hkg with hd | hd <;> omega
  have hent : ∀ id x, ent (Inflate.entered M lev.u (2 ^ J) lev.w k B.i r) id x =
      if id = lev.u ∧ x < 2 ^ J ∧ x % 2 ^ (k - lev.w) = B.i / 2 ^ lev.w then some r else ent M id x :=
    fun id x => ent_entered hu hw.le h.lt
  have hgrows : Grows M (Inflate.entered M lev.u (2 ^ J) lev.w k B.i r) := by
    refine grows_stores fun x hx => ?_
    obtain ⟨hlt, hmod⟩ := (entered_at hw.le h.lt).mp (of_decide_eq_true hx)
    exact h.free hkg hkJ hlt hmod
  have hstack := h.stack.grows hgrows fun id hid idx => by rw [hent, if_neg fun h => hid.ne h.1]
  refine ⟨hgrows, hstack, ?_, fun y hy => ?_⟩
  · intro y hy hyx r' hr'
    rw [hent] at hr'
    split at hr'
    · rename_i hin
      rw [Nat.mod_mod_of_dvd _ (Nat.pow_dvd_pow 2 (show k - lev.w ≤ J by omega))] at hin
      have hcode := (mem_code hkg h.lt hy).mp (h.pattern.mpr ⟨hyx, hin.2.2⟩)
      left
      rw [h.code, ← Nat.add_one_mul]
      exact hcode.2
    · rcases h.fresh y hy hyx r' hr' with hlt | hf
      · exact .inl (hlt.trans_le (Nat.le_add_right _ _))
      · exact hf.elim
  · obtain ⟨hyx, hyi⟩ := h.pattern.mp hy
    have hk : lev.w + r.b = k := by omega
    have hmin : k - lev.w ≤ min J A.l := by omega
    have hpow : 2 ^ min J A.l ≤ 2 ^ J := Nat.pow_le_pow_right (Nat.succ_pos 1) (Nat.min_le_left _ _)
    have hd := hstack.path.decodes hg.pos hyx (.leaf (r := r) ?_ (by omega) (hb ▸ hmin) hleaf)
    · rw [hk] at hd
      exact hd
    · have hmod : y / 2 ^ lev.w % 2 ^ min J A.l % 2 ^ (k - lev.w) = B.i / 2 ^ lev.w := by
        rw [Nat.mod_mod_of_dvd _ (Nat.pow_dvd_pow 2 hmin), hyi]
      rw [hent, if_pos ⟨rfl, (Nat.mod_lt _ (Nat.two_pow_pos _)).trans_le hpow, hmod⟩]

end

/-! ## the codes -/

/-- before a code of `k` bits, of which `a` are left: the patterns that are taken lead to their entries -/
structure Walk (E : Env) (A : Args) (R k a : Nat) (B : Build) (M : List Table) : Prop where
  le : a ≤ A.c k
  p : B.p = min (total A.c (k - 1) + (A.c k - a)) A.n
  t : B.t = some R
  bounded : Bounded R M
  done : ∀ x, value A.g (x % 2 ^ A.g) < given A.c A.g k a → Decoded E A R M x
  ahead : given A.c A.g k a < 2 ^ A.g → ∃ lev rest J, Ahead A R k a B M lev rest J

section
variable {E : Env} {A : Args} {R k a J : Nat} {B : Build} {M M' : List Table} {lev : Level} {rest : List Level}

theorem Decoded.mono {x : Nat} (h : Decoded E A R M x) (hg : Grows M M') : Decoded E A R M' x := by
  obtain ⟨k, m, r, hk, hkg, hm, hval, hd, hr⟩ := h
  exact ⟨k, m, r, hk, hkg, hm, hval, hd.mono hg, hr⟩

/-- the entry of the code is stored: its patterns lead to it -/
theorem Ahead.done (h : Ahead A R k (a + 1) B M lev rest J) (hk : 1 ≤ k) (hkg : k ≤ A.g) (ha : a + 1 ≤ A.c k)
    (hgrows : Grows M M') {r : Huft} (hright : Right E A (total A.c (k - 1) + (A.c k - (a + 1))) r)
    (hnew : ∀ y, y % 2 ^ k = B.i → Decodes M' R A.l y k r)
    (hdone : ∀ x, value A.g (x % 2 ^ A.g) < given A.c A.g k (a + 1) → Decoded E A R M x) (x : Nat)
    (hx : value A.g (x % 2 ^ A.g) < given A.c A.g k a) : Decoded E A R M' x := by
  by_cases hold : value A.g (x % 2 ^ A.g) < given A.c A.g k (a + 1)
  · exact (hdone x hold).mono hgrows
  · have hmod : x % 2 ^ k = B.i := by
      rw [← Nat.mod_mod_of_dvd x (Nat.pow_dvd_pow 2 hkg)]
      refine (mem_code hkg h.lt (Nat.mod_lt _ (Nat.two_pow_pos _))).mpr ⟨?_, ?_⟩
      · rw [← h.code]
        exact not_lt.mp hold
      · rw [Nat.add_one_mul, ← h.code, ← given_succ ha]
        exact hx
    refine ⟨k, A.c k - (a + 1), r, hk, hkg, by omega, ?_, hnew x hmod, hright⟩
    refine Nat.eq_of_mul_eq_mul_right (weight_pos A.g k) ?_
    obtain ⟨k, rfl⟩ := Nat.exists_eq_add_of_le' hk
    rw [hmod, ← h.code, given, Nat.add_mul, first_weight hkg]
    rfl

/-- one code -/
theorem oneCode_ends {s : State} (hg : Good A.c A.g A.l) (hk : 1 ≤ k) (hkg : k ≤ A.g) (ha : a + 1 ≤ A.c k)
    (h : Walk E A R k (a + 1) B s.tables ∨
      First A R k (a + 1) B s.tables ∧ B.p = min (total A.c (k - 1) + (A.c k - (a + 1))) A.n) :
    Ends (oneCode E A k (a + 1) B) (fun B' s' => Frame R s s' ∧ Walk E A R k a B' s'.tables)
      (NoMemory R s) s := by
  have hmax := hg.max
  have hV := given_lt hg hk hkg ha (Nat.succ_pos a)
  have hsucc := given_succ (g := A.g) ha
  have hp : B.p = min (total A.c (k - 1) + (A.c k - (a + 1))) A.n := by
    rcases h with h | h
    · exact h.p
    · exact h.2
  have hdone : ∀ x, value A.g (x % 2 ^ A.g) < given A.c A.g k (a + 1) → Decoded E A R s.tables x := by
    rcases h with h | ⟨h, -⟩
    · exact h.done
    · intro x hx
      rw [h.given] at hx
      cases hx
  have hbound : Bounded R s.tables := by
    rcases h with h | ⟨h, -⟩
    · exact h.bounded
    · intro id idx r hid hr
      rw [ent_of (List.getElem?_eq_none (h.length.le.trans hid))] at hr
      cases hr
  have hstart : R ≤ s.tables.length ∧ (First A R k (a + 1) B s.tables ∨
      B.t = some R ∧ ∃ lev rest J, Ahead A R k (a + 1) B s.tables lev rest J) := by
    rcases h with h | ⟨h, -⟩
    · obtain ⟨lev, rest, J, hahead⟩ := h.ahead hV
      exact ⟨(hahead.stack.root_le.trans_lt hahead.stack.lt_length).le, .inr ⟨h.t, lev, rest, J, hahead⟩⟩
    · exact ⟨h.length.ge, .inl h⟩
  rw [oneCode]
  refine .seq (newLevels_ends E hg hk hkg ha (Nat.succ_pos a) hstart.1 hstart.2) ?_ fun _ _ he => he
  rintro B1 s1 ⟨hf1, hgrows1, hbound1, ⟨lev, rest, J, hahead, hreach⟩, hp1, hi1, ht1⟩
  rw [hahead.levels]
  dsimp only
  rw [Nat.mod_eq_of_lt (show k - lev.w < 256 by omega)]
  obtain ⟨hright, hb, hp2, hlevels2, hq2, hz2, hi2, ht2⟩ := setEntry_spec (E := E) (b := k - lev.w) (hp1.trans hp)
  obtain ⟨hq, hz⟩ := hahead.q hreach
  obtain ⟨hgrows2, hstack, hfresh, hnew⟩ := hahead.entered hg hkg hreach hb hright.leaf
  refine .seq (store_ends (R := R) (E := NoMemory R s) _ _ _ (by rw [hq2, hq]; exact hahead.stack.root_le)) ?_
    fun _ _ he => he
  rintro ⟨⟩ s2 ⟨htables, hf2⟩
  rw [hq2, hz2, hi2, hq, hz] at htables
  change s2.tables = entered s1.tables lev.u (2 ^ J) lev.w k B1.i (setEntry E A (k - lev.w) B1).r at htables
  refine .pure ⟨hf1.trans hf2, by omega, ?_, ?_, ?_, ?_, fun hlt => ?_⟩
  · refine hp2.trans ?_
    congr 1
    omega
  · exact ht2.trans ht1
  · rw [htables]
    exact (hbound1 hbound).stores hahead.stack.size fun x hx => (of_decide_eq_true hx).1
  · rw [htables]
    exact hahead.done hk hkg ha hgrows2 hright hnew fun x hx => (hdone x hx).mono hgrows1
  · have hcode := hahead.code
    have hlast : value k B1.i + 1 < 2 ^ k := by
      rw [hsucc, hcode, ← Nat.add_one_mul, ← weight_zero, ← weight_mul (Nat.zero_le k) hkg] at hlt
      exact Nat.lt_of_mul_lt_mul_right hlt
    have hnext : given A.c A.g k a = value k (next k B1.i) * weight A.g k := by
      rw [value_next hahead.lt hlast, Nat.add_one_mul, hsucc, hcode]
    have hend : given A.c A.g k a ≤ lev.finish A.g := by
      have hint := (hahead.interval hkg).2
      rw [hsucc]
      exact add_le_of_dvd (hcode ▸ Dvd.intro_left _ rfl)
        (Dvd.dvd.mul_left (weight_dvd hahead.w_lt.le hkg) _) hint
    have hdvd : weight A.g (min k (lev.w + A.l)) ∣ given A.c A.g k a := by
      rw [Nat.min_eq_left hreach, hnext]
      exact Dvd.intro_left _ rfl
    rw [← hsucc] at hfresh
    obtain ⟨lev', rest', J', hback, hstack', hfresh', hin', hw', hdvd', hlast'⟩ :=
      backup_spec hstack hfresh (by omega) hend (next_lt hahead.lt) hnext hkg hahead.w_lt hdvd
    rw [htables]
    refine ⟨lev', rest', J', ?_, hstack', hfresh', ?_, ?_, ?_, hw', hdvd', fun hle => ?_⟩
    · show backup (increment k (setEntry E A (k - lev.w) B1).i) (setEntry E A (k - lev.w) B1).levels = _
      rw [hi2, hlevels2, hahead.levels, increment_eq hahead.lt, hback]
    · show increment k (setEntry E A (k - lev.w) B1).i < _
      rw [hi2, increment_eq hahead.lt]
      exact next_lt hahead.lt
    · show _ = value k (increment k (setEntry E A (k - lev.w) B1).i) * _
      rw [hi2, increment_eq hahead.lt, hnext]
    · show increment k (setEntry E A (k - lev.w) B1).i % _ = _
      rw [hi2, increment_eq hahead.lt, hin']
    · rcases hlast' with ⟨rfl, rfl⟩ | hlast'
      · exact ⟨hq2.trans hq, hz2.trans hz⟩
      · omega

theorem codes_ends {s : State} (hg : Good A.c A.g A.l) (hk : 1 ≤ k) (hkg : k ≤ A.g) (h : Walk E A R k a B s.tables) :
    Ends (codes E A k a B) (fun B' s' => Frame R s s' ∧ Walk E A R k 0 B' s'.tables) (NoMemory R s) s := by
  induction a generalizing B s with
  | zero => exact .pure ⟨.refl, h⟩
  | succ a ih =>
    rw [codes]
    refine .seq (oneCode_ends hg hk hkg h.le (.inl h)) ?_ fun _ _ he => he
    rintro B1 s1 ⟨hf1, h1⟩
    exact (ih h1).imp (fun B' s' h => ⟨hf1.trans h.1, h.2⟩) fun e s' he => he.after hf1

/-- the codes of one more bit -/
theorem Walk.next (hg : Good A.c A.g A.l) (h : Walk E A R k 0 B M) (hk : 1 ≤ k) :
    Walk E A R (k + 1) (A.c (k + 1)) B M := by
  have hV : given A.c A.g (k + 1) (A.c (k + 1)) = given A.c A.g k 0 := by
    rw [given_all, given, Nat.sub_zero, ← filled_pred hk]
  refine ⟨le_rfl, ?_, h.t, h.bounded, by rw [hV]; exact h.done, fun hlt => ?_⟩
  · rw [h.p, Nat.sub_zero, ← total_pred hk, Nat.sub_self]
    rfl
  · rw [hV] at hlt
    obtain ⟨lev, rest, J, ha⟩ := h.ahead hlt
    have hpow := Nat.pow_le_pow_right (Nat.succ_pos 1) (Nat.le_succ k)
    have hkg : k < A.g := by
      by_contra hge
      have hmono : filled A.c A.g A.g ≤ filled A.c A.g k := filled_mono (not_lt.mp hge)
      rw [given, Nat.sub_zero, ← filled_pred hk] at hlt
      rw [hg.full] at hmono
      omega
    refine ⟨lev, rest, J, ha.levels, hV ▸ ha.stack, hV ▸ ha.fresh, ha.lt.trans_le hpow, ?_, ha.inside,
      ha.w_lt.trans k.lt_succ_self, ?_, fun hle => ha.q (by omega)⟩
    · rw [hV, ha.code, value_succ_of_lt ha.lt, weight_succ hkg]
      ring
    · rw [hV]
      by_cases hreach : lev.w + A.l ≤ k
      · have hd := ha.dvd
        rw [Nat.min_eq_right hreach] at hd
        rw [Nat.min_eq_right (by omega)]
        exact hd
      · rw [Nat.min_eq_left (by omega), ha.code]
        exact Dvd.dvd.mul_left (weight_dvd (Nat.le_succ k) hkg) _

/-- the codes from `k` bits on -/
theorem lengths_walk {n : Nat} {s : State} (hg : Good A.c A.g A.l) (hk : 1 ≤ k) (hn : k + n = A.g + 1)
    (h : Walk E A R k (A.c k) B s.tables) :
    Ends (lengths E A n k B)
      (fun B' s' => Frame R s s' ∧ Walk E A R (A.g + 1) (A.c (A.g + 1)) B' s'.tables) (NoMemory R s) s := by
  induction n generalizing k B s with
  | zero => exact .pure ⟨.refl, hn ▸ h⟩
  | succ n ih =>
    rw [lengths]
    refine .seq (codes_ends hg hk (by omega) h) ?_ fun _ _ he => he
    rintro B1 s1 ⟨hf1, h1⟩
    exact (ih (by omega) (by omega) (h1.next hg hk)).imp (fun B' s' h => ⟨hf1.trans h.1, h.2⟩) fun e s' he =>
      he.after hf1

/-- all the codes: every pattern of bits leads to the entry of the code that it starts with -/
theorem lengths_ends {n : Nat} {s : State} (hg : Good A.c A.g A.l) (hk : 1 ≤ k) (hkl : k ≤ A.l)
    (hn : k + (n + 1) = A.g + 1) (hc : A.c k ≠ 0) (hbefore : filled A.c A.g (k - 1) = 0)
    (hnone : total A.c (k - 1) = 0) {r : Huft} :
    Ends (lengths E A (n + 1) k ⟨[], 0, 0, 0, 0, r, none⟩)
      (fun B' s' => Frame s.tables.length s s' ∧ B'.t = some s.tables.length ∧ Bounded s.tables.length s'.tables ∧
        ∀ x, Decoded E A s.tables.length s'.tables x) (NoMemory s.tables.length s) s := by
  obtain ⟨a, ha⟩ := Nat.exists_eq_succ_of_ne_zero hc
  have hfirst : First A s.tables.length k (a + 1) ⟨[], 0, 0, 0, 0, r, none⟩ s.tables := by
    refine ⟨rfl, rfl, ?_, hkl, rfl⟩
    rw [given, hbefore, ha, Nat.sub_self, Nat.zero_mul]
  have hp : 0 = min (total A.c (k - 1) + (A.c k - (a + 1))) A.n := by
    rw [hnone, ha, Nat.sub_self]
    exact (Nat.zero_min _).symm
  rw [lengths, ha, codes, bind_assoc]
  refine .seq (oneCode_ends hg hk (by omega) ha.ge (.inr ⟨hfirst, hp⟩)) ?_ fun _ _ he => he
  rintro B1 s1 ⟨hf1, h1⟩
  refine .seq (codes_ends hg hk (by omega) h1) ?_ fun e s' he => he.after hf1
  rintro B2 s2 ⟨hf2, h2⟩
  refine (lengths_walk hg (by omega) (by omega) (h2.next hg hk)).imp ?_ fun e s' he => he.after (hf1.trans hf2)
  rintro B3 s3 ⟨hf3, h3⟩
  refine ⟨(hf1.trans hf2).trans hf3, h3.t, h3.bounded, fun x => h3.done x ?_⟩
  rw [given_all, hg.full]
  exact value_lt (Nat.mod_lt _ (Nat.two_pow_pos _))

end

end Inflate
