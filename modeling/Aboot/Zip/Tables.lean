import Aboot.Zip.Inflate
import Aboot.Lib.PrefixCode

/-!
# zip/inflate.c: what is kept while the tables are made

The codes are given out in order, and `given` is the number of patterns that they have taken so far.  The
levels of tables that are open lead to the code that is next.

* `ent`, `Grows`   the entries of the tables, and tables to which entries are added;
* `Decodes`        the entry to which the bits of the input lead, and the number of bits on the way;
* `Path`           a table is behind the bits of a pattern;
* `Good`           the numbers of codes for which the tables are made;
* `Fresh`, `Stack` the levels that are open, and what is stored in their tables;
* `tableBits_spec` the bits of a new table;
* `backup_spec`    the levels for the next code.
-/

set_option linter.unusedVariables false

namespace Inflate
open PrefixCode

/-! ## tables -/

/-- an entry of the table `id` -/
def ent (M : List Table) (id idx : Nat) : Option Huft := M[id]?.bind fun tab => tab.entry idx

/-- tables are added, and entries -/
def Grows (M M' : List Table) : Prop :=
  ∀ (id : Nat) (tab : Table), M[id]? = some tab →
    ∃ tab', M'[id]? = some tab' ∧ tab'.size = tab.size ∧ ∀ x r, tab.entry x = some r → tab'.entry x = some r

/-- from the table `R` on, entries are stored within the tables -/
def Bounded (R : Nat) (M : List Table) : Prop :=
  ∀ id idx r, R ≤ id → ent M id idx = some r → ∃ n, M[id]?.map Table.size = some n ∧ idx < n

/-- an entry that leads to no further table -/
def Leaf (r : Huft) : Prop := r.e = 99 ∨ ∃ v, r.v = .n v

section
variable {M M' M'' : List Table} {id idx : Nat} {r : Huft}

theorem ent_of (h : M[id]? = none) : ent M id idx = none := by
  rw [ent, h]
  rfl

theorem Grows.refl : Grows M M := fun id tab h => ⟨tab, h, rfl, fun x r hr => hr⟩

theorem Grows.trans (h : Grows M M') (h' : Grows M' M'') : Grows M M'' := by
  intro id tab htab
  obtain ⟨tab1, h1, hs1, he1⟩ := h id tab htab
  obtain ⟨tab2, h2, hs2, he2⟩ := h' id tab1 h1
  exact ⟨tab2, h2, hs2.trans hs1, fun x r hr => he2 x r (he1 x r hr)⟩

theorem Grows.ent (h : Grows M M') (hr : ent M id idx = some r) : ent M' id idx = some r := by
  obtain ⟨tab, htab, hr⟩ := Option.bind_eq_some_iff.mp hr
  obtain ⟨tab', htab', -, he⟩ := h id tab htab
  exact Option.bind_eq_some_iff.mpr ⟨tab', htab', he idx r hr⟩

theorem Grows.size (h : Grows M M') {n : Nat} (hn : M[id]?.map Table.size = some n) :
    M'[id]?.map Table.size = some n := by
  obtain ⟨tab, htab, hn⟩ := Option.map_eq_some_iff.mp hn
  obtain ⟨tab', htab', hs, -⟩ := h id tab htab
  exact Option.map_eq_some_iff.mpr ⟨tab', htab', hs.trans hn⟩

/-- a new table has no entries -/
theorem ent_append (size : Nat) : ent (M ++ [⟨size, fun _ => none⟩]) id idx = ent M id idx := by
  unfold ent
  rcases Nat.lt_trichotomy id M.length with hlt | rfl | hgt
  · rw [List.getElem?_append_left hlt]
  · rw [List.getElem?_concat_length, List.getElem?_eq_none le_rfl]
    rfl
  · rw [List.getElem?_eq_none (by rw [List.length_append, List.length_singleton]; omega),
      List.getElem?_eq_none (by omega)]

theorem grows_append (tab : Table) : Grows M (M ++ [tab]) := fun id t h =>
  ⟨t, by rw [List.getElem?_append_left (List.getElem?_eq_some_iff.mp h).1, h], rfl, fun x r hr => hr⟩

/-- the tables after `store` -/
def stores (M : List Table) (u : Nat) (at_ : Nat → Bool) (r : Huft) : List Table :=
  M.modify u fun tab => { tab with entry := fun x => if at_ x then some r else tab.entry x }

variable {u : Nat} {at_ : Nat → Bool}

theorem ent_stores (hu : u < M.length) : ent (stores M u at_ r) u idx = if at_ idx then some r else ent M u idx := by
  unfold ent stores
  rw [List.getElem?_modify_eq, List.getElem?_eq_getElem hu]
  rfl

theorem ent_stores_ne (hne : id ≠ u) : ent (stores M u at_ r) id idx = ent M id idx := by
  unfold ent stores
  rw [List.getElem?_modify_ne _ _ (Ne.symm hne)]

/-- entries are stored where there were none -/
theorem grows_stores (h : ∀ x, at_ x → ent M u x = none) : Grows M (stores M u at_ r) := by
  intro id tab htab
  unfold stores
  by_cases hid : id = u
  · subst hid
    refine ⟨{ tab with entry := fun x => if at_ x then some r else tab.entry x },
      by rw [List.getElem?_modify_eq, htab]; rfl, rfl, fun x r' hr' => ?_⟩
    dsimp only
    split
    · rename_i hx
      have hnone := h x hx
      rw [ent, htab] at hnone
      rw [show (some tab).bind (fun tab => tab.entry x) = tab.entry x from rfl, hr'] at hnone
      cases hnone
    · exact hr'
  · exact ⟨tab, by rw [List.getElem?_modify_ne _ _ (Ne.symm hid), htab], rfl, fun x r hr => hr⟩

theorem size_stores : (stores M u at_ r)[id]?.map Table.size = M[id]?.map Table.size := by
  unfold stores
  by_cases hid : id = u
  · subst hid
    rw [List.getElem?_modify_eq]
    cases M[id]? <;> rfl
  · rw [List.getElem?_modify_ne _ _ (Ne.symm hid)]

theorem Bounded.append {R : Nat} (h : Bounded R M) (size : Nat) : Bounded R (M ++ [⟨size, fun _ => none⟩]) := by
  intro id idx r hid hr
  rw [ent_append] at hr
  obtain ⟨n, hn, hlt⟩ := h id idx r hid hr
  exact ⟨n, (grows_append _).size hn, hlt⟩

theorem Bounded.stores {R n : Nat} (h : Bounded R M) (hn : M[u]?.map Table.size = some n)
    (hat : ∀ x, at_ x → x < n) : Bounded R (stores M u at_ r) := by
  intro id idx r' hid hr
  rw [size_stores]
  by_cases hu : id = u
  · subst hu
    obtain ⟨tab, htab, -⟩ := Option.map_eq_some_iff.mp hn
    rw [ent_stores (List.getElem?_eq_some_iff.mp htab).1] at hr
    split at hr
    · rename_i hx
      exact ⟨n, hn, hat idx hx⟩
    · exact h id idx r' hid hr
  · rw [ent_stores_ne hu] at hr
    exact h id idx r' hid hr

/-- the tables after a new one of `j` bits, with the entry that leads to it -/
def linked (M : List Table) (u idx j l : Nat) : List Table :=
  stores (M ++ [⟨2 ^ j, fun _ => none⟩]) u (fun x => x = idx) ⟨16 + j, l, .t M.length⟩

variable {j l i : Nat}

theorem ent_linked_self (hu : u < M.length) :
    ent (linked M u idx j l) u idx = some ⟨16 + j, l, .t M.length⟩ := by
  rw [linked, ent_stores (by rw [List.length_append]; omega), if_pos (decide_eq_true rfl)]

theorem ent_linked_ne (hu : u < M.length) (hne : id = u → i ≠ idx) :
    ent (linked M u idx j l) id i = ent M id i := by
  rw [linked]
  by_cases hid : id = u
  · subst hid
    rw [ent_stores (by rw [List.length_append]; omega), if_neg (by rw [decide_eq_true_eq]; exact hne rfl),
      ent_append]
  · rw [ent_stores_ne hid, ent_append]

theorem grows_linked (h : ent M u idx = none) : Grows M (linked M u idx j l) :=
  (grows_append _).trans (grows_stores fun x hx => by rw [ent_append, of_decide_eq_true hx, h])

theorem size_linked (hu : u < M.length) :
    (linked M u idx j l)[M.length]?.map Table.size = some (2 ^ j) := by
  rw [linked, stores, List.getElem?_modify_ne _ _ (by omega), List.getElem?_concat_length]
  rfl

end

/-- the bits `x` of the input, of which `bits` are looked up in the table `id`, lead to the entry `r` with
`n` bits in all -/
inductive Decodes (M : List Table) : (id bits x n : Nat) → Huft → Prop
  | leaf {id bits x : Nat} {r : Huft} (h : ent M id (x % 2 ^ bits) = some r) (hb : 1 ≤ r.b) (hle : r.b ≤ bits)
      (hleaf : Leaf r) : Decodes M id bits x r.b r
  | link {id bits x n j t : Nat} {r : Huft} (h : ent M id (x % 2 ^ bits) = some ⟨16 + j, bits, .t t⟩)
      (hl : 1 ≤ bits) (hj : 1 ≤ j) (hjl : j ≤ bits) (sub : Decodes M t j (x / 2 ^ bits) n r) :
      Decodes M id bits x (bits + n) r

/-- behind the `w` bits `x` is the table `id`, in which `j` bits are looked up -/
inductive Path (M : List Table) (R l : Nat) : (w x id j : Nat) → Prop
  | root : Path M R l 0 0 R l
  | link {w x x' id id' j : Nat} (up : Path M R l w x id l) (hx : x' % 2 ^ w = x)
      (h : ent M id (x' / 2 ^ w) = some ⟨16 + j, l, .t id'⟩) (hlt : x' < 2 ^ (w + l)) (hj : 1 ≤ j)
      (hjl : j ≤ l) : Path M R l (w + l) x' id' j

section
variable {M M' : List Table} {R l w x id j n bits X : Nat} {r : Huft}

theorem Decodes.mono (h : Decodes M id bits X n r) (hg : Grows M M') : Decodes M' id bits X n r := by
  induction h with
  | leaf h hb hle hleaf => exact .leaf (hg.ent h) hb hle hleaf
  | link h hl hj hjl _ ih => exact .link (hg.ent h) hl hj hjl ih

theorem Decodes.pos (h : Decodes M id bits X n r) : 1 ≤ n := by
  cases h with
  | leaf _ h1 _ _ => exact h1
  | link _ hl _ _ _ => omega

/-- a code that is not longer than the bits that are looked up has its entry there -/
theorem Decodes.at_root (h : Decodes M id bits X n r) (hn : n ≤ bits) :
    ent M id (X % 2 ^ bits) = some r ∧ r.b = n ∧ Leaf r := by
  cases h with
  | leaf h _ _ hleaf => exact ⟨h, rfl, hleaf⟩
  | link _ _ _ _ sub =>
    have := sub.pos
    omega

theorem Path.mono (h : Path M R l w x id j) (hg : Grows M M') : Path M' R l w x id j := by
  induction h with
  | root => exact .root
  | link _ hx h hlt hj hjl ih => exact .link ih hx (hg.ent h) hlt hj hjl

/-- what is looked up in a table is what is looked up behind its pattern -/
theorem Path.decodes (h : Path M R l w x id j) (hl : 1 ≤ l) (hX : X % 2 ^ w = x)
    (hd : Decodes M id j (X / 2 ^ w) n r) : Decodes M R l X (w + n) r := by
  induction h generalizing n r with
  | root =>
    rw [Nat.pow_zero, Nat.div_one] at hd
    rw [Nat.zero_add]
    exact hd
  | @link w x x' id id' j up hx h hlt hj hjl ih =>
    rw [Nat.add_assoc]
    refine ih ?_ (.link (j := j) (t := id') ?_ hl hj hjl ?_)
    · rw [← hx, ← hX, Nat.mod_mod_of_dvd _ (Nat.pow_dvd_pow 2 (Nat.le_add_right w l))]
    · rw [← h, ← hX, Nat.pow_add, Nat.mod_mul_right_div_self]
    · rw [Nat.div_div_eq_div_mul, ← Nat.pow_add]
      exact hd

end

/-! ## the codes -/

/-- a complete set of codes, and tables of `l` bits that are not too small for them -/
structure Good (c : Nat → Nat) (g l : Nat) : Prop where
  full : filled c g g = 2 ^ g
  last : c g ≠ 0
  pos : 1 ≤ l
  le : l ≤ g
  few : total c g < 2 ^ l ∨ g < 2 * l
  max : g ≤ 16

/-- the patterns that the codes have taken when `a` codes of `k` bits are left -/
def given (c : Nat → Nat) (g k a : Nat) : Nat := filled c g (k - 1) + (c k - a) * weight g k

section
variable {c : Nat → Nat} {g l k a : Nat}

theorem filled_pred (hk : 1 ≤ k) : filled c g k = filled c g (k - 1) + c k * weight g k := by
  obtain ⟨k, rfl⟩ := Nat.exists_eq_add_of_le' hk
  rfl

theorem total_pred (hk : 1 ≤ k) : total c k = total c (k - 1) + c k := by
  obtain ⟨k, rfl⟩ := Nat.exists_eq_add_of_le' hk
  rfl

theorem given_add (hk : 1 ≤ k) (ha : a ≤ c k) : given c g k a + a * weight g k = filled c g k := by
  rw [given, filled_pred hk, Nat.add_assoc, ← Nat.add_mul, Nat.sub_add_cancel ha]

theorem given_succ (ha : a + 1 ≤ c k) : given c g k a = given c g k (a + 1) + weight g k := by
  rw [given, given, Nat.add_assoc, ← Nat.add_one_mul]
  congr 2
  omega

theorem given_all : given c g (k + 1) (c (k + 1)) = filled c g k := by
  rw [given, Nat.sub_self, Nat.zero_mul]
  rfl

theorem filled_le_given : filled c g (k - 1) ≤ given c g k a := Nat.le_add_right _ _

theorem weight_dvd_given (hk : k ≤ g) : weight g k ∣ given c g k a :=
  Nat.dvd_add (weight_dvd_filled (Nat.sub_le k 1) hk) (Dvd.intro_left _ rfl)

theorem Good.filled_lt (h : Good c g l) (hk : k < g) : filled c g k < 2 ^ g := by
  have hmono : filled c g k ≤ filled c g (g - 1) := filled_mono (by omega)
  have hlast := filled_pred (c := c) (g := g) (k := g) (by omega)
  have hc := Nat.pos_of_ne_zero h.last
  rw [weight_self, h.full] at hlast
  omega

theorem Good.filled_le (h : Good c g l) (hk : k ≤ g) : filled c g k ≤ 2 ^ g := by
  rw [← h.full]
  exact filled_mono hk

/-- all the patterns are taken only by the last code -/
theorem Good.eq_of_filled (h : Good c g l) (hk : k ≤ g) (hf : 2 ^ g ≤ filled c g k) : k = g := by
  by_contra hne
  have := h.filled_lt (k := k) (by omega)
  omega

/-- the codes that are left are not shorter than the next one, and so there are many of them -/
theorem Good.left (h : Good c g l) (hk : 1 ≤ k) (hkg : k ≤ g) (ha : a ≤ c k) {w : Nat} (hw : w ≤ k)
    (hroom : given c g k a + weight g w ≤ 2 ^ g) : 2 ^ (k - w) ≤ a + (total c g - total c k) := by
  have hrest := filled_rest (c := c) (g := g) hkg
  have hadd := given_add (g := g) hk ha
  have hmono : total c k ≤ total c g := total_mono hkg
  rw [h.full] at hrest
  have hle : 2 ^ (k - w) * weight g k ≤ (a + (total c g - total c k)) * weight g k := by
    rw [weight_mul hw hkg, Nat.add_mul, Nat.sub_mul]
    omega
  exact Nat.le_of_mul_le_mul_right hle (weight_pos g k)

/-- the next code does not go past the next table -/
theorem Good.short (h : Good c g l) (hk : 1 ≤ k) (hkg : k ≤ g) (ha : a ≤ c k) {w : Nat} (hlw : l ≤ w)
    (hw : w ≤ k) (hroom : given c g k a + weight g w ≤ 2 ^ g) : k < w + l := by
  rcases h.few with hfew | hfew
  · have hleft := h.left hk hkg ha hw hroom
    have hmono : total c k ≤ total c g := total_mono hkg
    have htot := total_pred (c := c) hk
    have hlt : 2 ^ (k - w) < 2 ^ l := by omega
    have := (Nat.pow_lt_pow_iff_right (Nat.lt_succ_self 1)).mp hlt
    omega
  · omega

/-! ## the bits of a table -/

/-- smaller tables: the codes up to its bits fill the table, or it has `z` bits -/
theorem widen_spec {V w n f xp j z : Nat} (hn : n = z - (j + 1)) (hxp : xp = w + j)
    (hf : filled c g xp + f * weight g xp = V + weight g w) (hpos : 0 < f) (hj : j < z) (hz : w + z ≤ g) :
    j < widen c n f xp j ∧ widen c n f xp j ≤ z ∧
      (widen c n f xp j < z → V + weight g w ≤ filled c g (w + widen c n f xp j)) := by
  induction n generalizing f xp j with
  | zero =>
    rw [widen]
    exact ⟨by omega, by omega, fun h => by omega⟩
  | succ n ih =>
    have hw := weight_succ (g := g) (k := xp) (by omega)
    rw [hw, ← Nat.mul_assoc] at hf
    rw [widen]
    split
    · rename_i hle
      have hmul := Nat.mul_le_mul_right (weight g (xp + 1)) hle
      refine ⟨by omega, by omega, fun _ => ?_⟩
      have heq : w + (j + 1) = xp + 1 := by omega
      rw [heq, filled, ← hf, Nat.mul_comm 2 f] at *
      omega
    · rename_i hlt
      have hsub : 2 * f - c (xp + 1) + c (xp + 1) = f * 2 := by omega
      have hrec := @ih (2 * f - c (xp + 1)) (xp + 1) (j + 1) (by omega) (by omega)
        (by rw [filled, Nat.add_assoc, Nat.add_comm (c (xp + 1) * _), ← Nat.add_mul, hsub]; exact hf)
        (by omega) (by omega)
      exact ⟨by omega, hrec.2⟩

/-- a new table behind `w` bits: it holds the next code, and the codes up to its bits fill it unless it has as
many bits as it can -/
theorem tableBits_spec (h : Good c g l) {w z : Nat} (hk : 1 ≤ k) (hkg : k ≤ g) (ha : a ≤ c k) (hw : w ≤ k)
    (hroom : given c g k a + weight g w ≤ 2 ^ g) (hz : w + z ≤ g) :
    k ≤ w + tableBits c k w z a ∧ w + tableBits c k w z a ≤ g ∧ (k < w + z → tableBits c k w z a ≤ z) ∧
      (tableBits c k w z a < z → given c g k a + weight g w ≤ filled c g (w + tableBits c k w z a)) := by
  have hadd := given_add (g := g) hk ha
  have hmul := weight_mul hw hkg
  have hwk : w + (k - w) = k := by omega
  unfold tableBits
  dsimp only
  split
  · rename_i hfew
    have hkg' : k < g := by
      by_contra hge
      have hkeq : k = g := by omega
      subst hkeq
      have := h.left hk hkg ha hw hroom
      omega
    have hf : filled c g k + (2 ^ (k - w) - a) * weight g k = given c g k a + weight g w := by
      have := Nat.mul_le_mul_right (weight g k) hfew.le
      rw [← hadd, ← hmul, Nat.sub_mul]
      omega
    by_cases hjz : k - w < z
    · have := widen_spec (c := c) rfl hwk.symm hf (by omega) hjz hz
      exact ⟨by omega, by omega, fun _ => this.2.1, this.2.2⟩
    · rw [show z - (k - w + 1) = 0 by omega, widen]
      exact ⟨by omega, by omega, fun _ => by omega, fun _ => by omega⟩
  · rename_i hmany
    refine ⟨by omega, by omega, fun _ => by omega, fun _ => ?_⟩
    have := Nat.mul_le_mul_right (weight g k) (not_lt.mp hmany)
    rw [hwk, ← hadd, ← hmul]
    omega

end

/-! ## the levels -/

/-- the patterns behind a level of tables -/
def Level.start (g : Nat) (lev : Level) : Nat := value lev.w lev.x * weight g lev.w

def Level.finish (g : Nat) (lev : Level) : Nat := (value lev.w lev.x + 1) * weight g lev.w

/-- what is stored in a table of `J` bits is for patterns that are taken, or else `P` holds of them -/
def Fresh (g : Nat) (M : List Table) (V : Nat) (lev : Level) (J : Nat) (P : Nat → Prop) : Prop :=
  ∀ y < 2 ^ g, y % 2 ^ lev.w = lev.x → ∀ r, ent M lev.u (y / 2 ^ lev.w % 2 ^ J) = some r → value g y < V ∨ P y

/-- the levels that are open, the deepest one first, with a table of `J` bits: every table has what is stored
for the patterns that are taken, and the table that is next -/
inductive Stack (c : Nat → Nat) (g l R : Nat) (M : List Table) (V : Nat) : List Level → (J : Nat) → Prop
  | root {J : Nat} (size : M[R]?.map Table.size = some (2 ^ J)) (hl : l ≤ J) (hJ : J ≤ g) :
      Stack c g l R M V [⟨0, 0, R⟩] J
  | next {lev : Level} {rest : List Level} {J x u j : Nat} (up : Stack c g l R M V (lev :: rest) J)
      (fresh : Fresh g M V lev J fun y => y % 2 ^ (lev.w + l) = x)
      (size : M[u]?.map Table.size = some (2 ^ j)) (path : Path M R l (lev.w + l) x u j) (hl : j ≤ l)
      (hJ : lev.w + l + j ≤ g) (below : lev.u < u) (hx : x < 2 ^ (lev.w + l)) (inside : x % 2 ^ lev.w = lev.x)
      (begun : Level.start g ⟨lev.w + l, x, u⟩ ≤ V)
      (cover : j < min (g - (lev.w + l)) l →
        Level.finish g ⟨lev.w + l, x, u⟩ ≤ filled c g (lev.w + l + j)) :
      Stack c g l R M V (⟨lev.w + l, x, u⟩ :: lev :: rest) j

section
variable {c : Nat → Nat} {g l R V V' J k i : Nat} {M M' : List Table} {lev : Level} {rest : List Level}
  {P P' : Nat → Prop}

theorem Fresh.mono (h : Fresh g M V lev J P) (hV : V ≤ V')
    (hP : ∀ y < 2 ^ g, y % 2 ^ lev.w = lev.x → P y → value g y < V' ∨ P' y) : Fresh g M V' lev J P' := by
  intro y hy hx r hr
  rcases h y hy hx r hr with h | h
  · exact .inl (h.trans_le hV)
  · exact hP y hy hx h

theorem Fresh.congr (h : Fresh g M V lev J P) (hu : ∀ idx, ent M' lev.u idx = ent M lev.u idx) :
    Fresh g M' V lev J P := by
  intro y hy hx r hr
  rw [hu] at hr
  exact h y hy hx r hr

theorem Stack.lt (h : Stack c g l R M V (lev :: rest) J) : lev.x < 2 ^ lev.w := by
  cases h with
  | root => exact Nat.one_pos
  | next _ _ _ _ _ _ _ hx _ _ _ => exact hx

theorem Stack.bits (h : Stack c g l R M V (lev :: rest) J) : lev.w + J ≤ g := by
  cases h with
  | root _ _ hJ => exact (Nat.zero_add J).le.trans hJ
  | next _ _ _ _ _ hJ _ _ _ _ _ => exact hJ

theorem Stack.size (h : Stack c g l R M V (lev :: rest) J) : M[lev.u]?.map Table.size = some (2 ^ J) := by
  cases h with
  | root size _ _ => exact size
  | next _ _ size _ _ _ _ _ _ _ _ => exact size

theorem Stack.begun (h : Stack c g l R M V (lev :: rest) J) : lev.start g ≤ V := by
  cases h with
  | root =>
    rw [Level.start, value, Nat.zero_mul]
    exact Nat.zero_le V
  | next _ _ _ _ _ _ _ _ _ begun _ => exact begun

theorem Stack.cover (h : Stack c g l R M V (lev :: rest) J) (hJ : J < min (g - lev.w) l) :
    lev.finish g ≤ filled c g (lev.w + J) := by
  cases h with
  | root _ hl _ => omega
  | next _ _ _ _ _ _ _ _ _ _ cover => exact cover hJ

/-- in the table the bits are looked up that it has, and at most `l` -/
theorem Stack.path (h : Stack c g l R M V (lev :: rest) J) : Path M R l lev.w lev.x lev.u (min J l) := by
  cases h with
  | root _ hl _ =>
    rw [Nat.min_eq_right hl]
    exact .root
  | next _ _ _ path hl _ _ _ _ _ _ =>
    rw [Nat.min_eq_left hl]
    exact path

theorem Stack.root_le (h : Stack c g l R M V (lev :: rest) J) : R ≤ lev.u := by
  generalize hL : lev :: rest = L at h
  induction h generalizing lev rest with
  | root =>
    cases hL
    exact le_rfl
  | next up _ _ _ _ _ below _ _ _ _ ih =>
    cases hL
    exact (ih rfl).trans below.le

theorem Stack.lt_length (h : Stack c g l R M V (lev :: rest) J) : lev.u < M.length := by
  obtain ⟨tab, htab, -⟩ := Option.map_eq_some_iff.mp h.size
  exact (List.getElem?_eq_some_iff.mp htab).1

/-- more patterns are taken -/
theorem Stack.mono {L : List Level} (h : Stack c g l R M V L J) (hV : V ≤ V') : Stack c g l R M V' L J := by
  induction h with
  | root size hl hJ => exact .root size hl hJ
  | next _ fresh size path hl hJ below hx inside begun cover ih =>
    exact .next ih (fresh.mono hV fun y hy hyx h => .inr h) size path hl hJ below hx inside (begun.trans hV) cover

/-- entries are added to the deepest table, or to one that is not open -/
theorem Stack.grows (h : Stack c g l R M V (lev :: rest) J) (hg : Grows M M')
    (hu : ∀ id < lev.u, ∀ idx, ent M' id idx = ent M id idx) : Stack c g l R M' V (lev :: rest) J := by
  generalize hL : lev :: rest = L at h
  induction h generalizing lev rest with
  | root size hl hJ => exact .root (hg.size size) hl hJ
  | next up fresh size path hl hJ below hx inside begun cover ih =>
    cases hL
    exact .next (ih (fun id hid => hu id (hid.trans below)) rfl) (fresh.congr (hu _ below)) (hg.size size)
      (path.mono hg) hl hJ below hx inside begun cover

/-- the deepest table is not too small for the next code -/
theorem Stack.deep (h : Stack c g l R M V (lev :: rest) J) (hkg : k ≤ g) (hfilled : filled c g (k - 1) ≤ V)
    (hV : V < lev.finish g) : k ≤ lev.w + J ∨ l ≤ J := by
  by_contra hnot
  have hcover := h.cover (by omega)
  have hmono : filled c g (lev.w + J) ≤ filled c g (k - 1) := filled_mono (by omega)
  omega

/-- the patterns of a level -/
theorem Stack.mem (h : Stack c g l R M V (lev :: rest) J) {y : Nat} (hy : y < 2 ^ g) :
    y % 2 ^ lev.w = lev.x ↔ lev.start g ≤ value g y ∧ value g y < lev.finish g :=
  mem_code ((Nat.le_add_right _ _).trans h.bits) h.lt hy

end

/-! ## backing up -/

section
variable {c : Nat → Nat} {g l R V V' J k i : Nat} {M : List Table} {lev : Level} {rest : List Level}

/-- a code that is continued: its first `w` bits -/
theorem mem_low {w x : Nat} (hk : k ≤ g) (hw : w ≤ k) (hi : i < 2 ^ k) (hx : x < 2 ^ w) :
    i % 2 ^ w = x ↔ value w x * weight g w ≤ value k i * weight g k ∧
      value k i * weight g k < (value w x + 1) * weight g w := by
  have hy : i < 2 ^ g := hi.trans_le (Nat.pow_le_pow_right (Nat.succ_pos 1) hk)
  have hpad : value g i = value k i * weight g k := value_pad hk hi
  rw [mem_code (hw.trans hk) hx hy, hpad]

theorem and_mask (i w : Nat) : i &&& (2 ^ w - 1) = i % 2 ^ w := Nat.and_two_pow_sub_one_eq_mod i w

/-- the levels for the code `i` that is next, behind the patterns `V'`, which are not past the end of the
deepest level -/
theorem backup_spec (h : Stack c g l R M V (lev :: rest) J) (hfresh : Fresh g M V' lev J fun _ => False)
    (hV : V ≤ V') (hend : V' ≤ lev.finish g) (hi : i < 2 ^ k) (hcode : V' = value k i * weight g k) (hk : k ≤ g)
    (hw : lev.w < k) (hdvd : weight g (min k (lev.w + l)) ∣ V') :
    ∃ lev' rest' J', backup i (lev :: rest) = lev' :: rest' ∧ Stack c g l R M V' (lev' :: rest') J' ∧
      Fresh g M V' lev' J' (fun _ => False) ∧ i % 2 ^ lev'.w = lev'.x ∧ lev'.w < k ∧
      weight g (min k (lev'.w + l)) ∣ V' ∧ (lev' = lev ∧ J' = J ∨ lev'.w + l < k) := by
  generalize hL : lev :: rest = L at h
  induction h generalizing lev rest with
  | root size hl hJ =>
    cases hL
    refine ⟨_, _, _, ?_, .root size hl hJ, hfresh, Nat.mod_one i, hw, hdvd, .inl ⟨rfl, rfl⟩⟩
    rw [backup, and_mask]
    exact if_neg (not_not.mpr (Nat.mod_one i))
  | @next lev0 rest0 J0 x u j up fresh size path hl hJ below hx inside begun cover ih =>
    cases hL
    have hmem := mem_low (w := lev0.w + l) hk hw.le hi hx
    rw [← hcode] at hmem
    rw [backup, and_mask]
    by_cases hin : i % 2 ^ (lev0.w + l) = x
    · rw [if_neg (not_not.mpr hin)]
      exact ⟨_, _, _, rfl, (Stack.next up fresh size path hl hJ below hx inside begun cover).mono hV, hfresh, hin,
        hw, hdvd, .inl ⟨rfl, rfl⟩⟩
    · rw [if_pos hin]
      have hfin : V' = Level.finish g ⟨lev0.w + l, x, u⟩ := by
        have hge : ¬ V' < (value (lev0.w + l) x + 1) * weight g (lev0.w + l) := fun hlt =>
          hin (hmem.mpr ⟨le_trans begun hV, hlt⟩)
        exact le_antisymm hend (not_lt.mp hge)
      have hnest := (nested (g := g) (Nat.le_add_right lev0.w l) (by omega) hx).2
      rw [inside] at hnest
      have hfresh0 : Fresh g M V' lev0 J0 fun _ => False := fresh.mono hV fun y hy _ hyx => by
        have := ((mem_code (by omega) hx hy).mp hyx).2
        left
        rw [hfin]
        exact this
      have hdvd0 : weight g (min k (lev0.w + l)) ∣ V' := by
        rw [Nat.min_eq_right hw.le, hfin]
        exact Dvd.intro_left _ rfl
      have hw' : lev0.w + l < k := hw
      obtain ⟨lev', rest', J', hb, hstack, hf, hin', hlt, hd, hlast⟩ :=
        ih hfresh0 (hfin.le.trans hnest) (by omega) hdvd0 rfl
      refine ⟨lev', rest', J', hb, hstack, hf, hin', hlt, hd, .inr ?_⟩
      rcases hlast with ⟨rfl, -⟩ | hlast
      · exact hw
      · exact hlast

end

end Inflate
