import Aboot.Iso.Impl

/-!
# The ISO name of a directory record

`iso_find_entry` maps the name of a record in its place before it compares it: to lower case, without
the version 1, with a period for every other semicolon.

* `mapped`        the name that a record comes to have;
* `IsoNamed`      the names that it is found under;
* `mapName_run`   what the loop over the name leaves;
* `isoName_match` the comparison with the mapped name.
-/

namespace Iso

/-! ## the name -/

/-- a name without its version, if that is 1 -/
def dropVersion (id : List UInt8) : List UInt8 :=
  if id.drop (id.length - 2) = [';'.toUInt8, '1'.toUInt8] then id.take (id.length - 2) else id

def mapChar (c : UInt8) : UInt8 := if toLower c = ';'.toUInt8 then '.'.toUInt8 else toLower c

/-- the mapped name of a record with the name `id` -/
def mapped (id : List UInt8) : List UInt8 := (dropVersion id).map mapChar

/-- the names `.` and `..` are the bytes 0 and 1 on the disc; other names have no such byte -/
def IdFits (id : List UInt8) : Prop := id = [0] ∨ id = [1] ∨ (0 ∉ id ∧ 1 ∉ id)

instance (id : List UInt8) : Decidable (IdFits id) := inferInstanceAs (Decidable (_ ∨ _))

/-- a record with the name `id` is found under `name`, with or without a period at its end -/
def IsoNamed (id name : List UInt8) : Prop :=
  if id = [0] then name = [] ∨ name = ['.'.toUInt8]
  else if id = [1] then name = ['.'.toUInt8, '.'.toUInt8]
  else name = mapped id ∨ name ++ ['.'.toUInt8] = mapped id

instance (id name : List UInt8) : Decidable (IsoNamed id name) := by
  unfold IsoNamed
  infer_instance

/-- a letter that is mapped stays a letter -/
theorem toLower_cases (c : UInt8) : toLower c = c ∨ (65 ≤ c.toNat ∧ 65 ≤ (toLower c).toNat) := by
  unfold toLower
  split
  · rename_i hc
    have hge : c.toNat ≤ (c ||| 0x20).toNat := by
      rw [UInt8.toNat_or]
      exact Nat.left_le_or
    have hA : 65 ≤ c.toNat := UInt8.le_iff_toNat_le.mp hc.1
    exact .inr ⟨hA, hA.trans hge⟩
  · exact .inl rfl

theorem toLower_eq {c b : UInt8} (hb : b.toNat < 65) : toLower c = b ↔ c = b := by
  rcases toLower_cases c with h | ⟨h1, h2⟩
  · rw [h]
  · constructor
    · rintro rfl
      omega
    · rintro rfl
      omega

theorem mapChar_ne {c b : UInt8} (hb : b.toNat < 32) (h : mapChar c = b) : c = b := by
  unfold mapChar at h
  split at h
  · subst h
    exact absurd hb (by decide)
  · exact (toLower_eq (by omega)).mp h

theorem mapped_not_mem {id : List UInt8} {b : UInt8} (hb : b.toNat < 32) (h : b ∉ id) : b ∉ mapped id := by
  intro hm
  obtain ⟨c, hc, he⟩ := List.mem_map.mp hm
  rw [mapChar_ne hb he] at hc
  refine h ?_
  unfold dropVersion at hc
  split at hc
  · exact List.mem_of_mem_take hc
  · exact hc

/-! ## the loop over the name -/

section
variable {g m : Mem} {p dlen : Nat}

/-- the name at `p` ends with the version 1 -/
def Versioned (g : Mem) (p dlen : Nat) : Prop :=
  2 ≤ dlen ∧ g (p + dlen - 2) = ';'.toUInt8 ∧ g (p + dlen - 1) = '1'.toUInt8

theorem dropVersion_get (g : Mem) (p dlen : Nat) : dropVersion (g.get p dlen) = g.get p (dropVersion (g.get p dlen)).length ∧
    ((Versioned g p dlen ∧ (dropVersion (g.get p dlen)).length + 2 = dlen) ∨
      (¬ Versioned g p dlen ∧ (dropVersion (g.get p dlen)).length = dlen)) := by
  have hlen : (g.get p dlen).length = dlen := Mem.length_get _ _ _
  unfold dropVersion
  rw [hlen]
  by_cases h2 : 2 ≤ dlen
  · obtain ⟨n, rfl⟩ : ∃ n, dlen = n + 2 := ⟨dlen - 2, by omega⟩
    have hsub : n + 2 - 2 = n := rfl
    have hdrop : (g.get p (n + 2)).drop n = [g (p + n), g (p + n + 1)] := by
      rw [Mem.get_add, List.drop_left' (Mem.length_get _ _ _)]
      rfl
    have htake : (g.get p (n + 2)).take n = g.get p n := by
      rw [Mem.get_add, List.take_left' (Mem.length_get _ _ _)]
    have hv : Versioned g p (n + 2) ↔ [g (p + n), g (p + n + 1)] = [';'.toUInt8, '1'.toUInt8] := by
      unfold Versioned
      rw [show p + (n + 2) - 2 = p + n by omega, show p + (n + 2) - 1 = p + n + 1 by omega,
        List.cons.injEq, List.cons.injEq]
      exact ⟨fun h => ⟨h.2.1, h.2.2, rfl⟩, fun h => ⟨h2, h.1, h.2.1⟩⟩
    rw [hsub, hdrop, htake]
    split
    · rename_i hc
      rw [Mem.length_get]
      exact ⟨rfl, .inl ⟨hv.mpr hc, rfl⟩⟩
    · rename_i hc
      rw [Mem.length_get]
      exact ⟨rfl, .inr ⟨fun h => hc (hv.mp h), rfl⟩⟩
  · rw [if_neg, hlen]
    · exact ⟨rfl, .inr ⟨fun h => h2 h.1, rfl⟩⟩
    · intro h
      have := congrArg List.length h
      rw [List.length_drop, hlen] at this
      simp only [List.length_cons, List.length_nil] at this
      omega

/-- the loop from `i` on, when the characters before it are mapped -/
theorem mapName_from (n : Nat) : ∀ {i : Nat} {m : Mem}, i + n = dlen → (Versioned g p dlen → i + 2 ≤ dlen) →
    (∀ k, k < i → m (p + k) = mapChar (g (p + k))) → (∀ x, x < p ∨ p + i ≤ x → m x = g x) →
    (mapName p n i dlen m).1 = (dropVersion (g.get p dlen)).length ∧
      (∀ k, k < (mapName p n i dlen m).1 → (mapName p n i dlen m).2 (p + k) = mapChar (g (p + k))) ∧
      ∀ x, x < p ∨ p + dlen ≤ x → (mapName p n i dlen m).2 x = g x := by
  have hdrop := (dropVersion_get g p dlen).2
  induction n with
  | zero =>
    intro i m hi hv hin hout
    obtain rfl : i = dlen := by omega
    refine ⟨?_, hin, hout⟩
    rcases hdrop with ⟨hc, -⟩ | ⟨-, hlen⟩
    · have := hv hc
      omega
    · exact hlen.symm
  | succ n ih =>
    intro i m hi hv hin hout
    have hc : m (p + i) = g (p + i) := hout _ (.inr (Nat.le_refl _))
    have hc1 : m (p + i + 1) = g (p + i + 1) := hout _ (.inr (by omega))
    have hlow : toLower (g (p + i)) = ';'.toUInt8 ↔ g (p + i) = ';'.toUInt8 := toLower_eq (by decide)
    unfold mapName
    rw [hc, hc1]
    dsimp only
    by_cases hend : toLower (g (p + i)) = ';'.toUInt8 ∧ i + 2 = dlen ∧ g (p + i + 1) = '1'.toUInt8
    · rw [if_pos hend]
      obtain ⟨h1, h2, h3⟩ := hend
      have hver : Versioned g p dlen := by
        refine ⟨by omega, ?_, ?_⟩
        · rw [show p + dlen - 2 = p + i by omega]
          exact hlow.mp h1
        · rw [show p + dlen - 1 = p + i + 1 by omega]
          exact h3
      rcases hdrop with ⟨-, hlen⟩ | ⟨hn, -⟩
      · refine ⟨by omega, fun k hk => hin k (by omega), fun x hx => hout x (by omega)⟩
      · exact absurd hver hn
    · rw [if_neg hend]
      refine ih (by omega) (fun hver => ?_) (fun k hk => ?_) fun x hx => ?_
      · have hle := hv hver
        by_contra hlt
        obtain ⟨-, h2, h3⟩ := hver
        refine hend ⟨hlow.mpr ?_, by omega, ?_⟩
        · rw [← h2]
          congr 1
          omega
        · rw [← h3]
          congr 1
          omega
      · by_cases hki : k = i
        · rw [hki]
          exact Mem.put_in m (p + i) 0 [_] Nat.zero_lt_one
        · rw [Mem.put_out _ _ _ _ (.inl (by omega))]
          exact hin k (by omega)
      · rw [Mem.put_out _ _ _ _ (by simp only [List.length_singleton]; omega)]
        exact hout x (by omega)

/-- the loop over a name leaves the mapped name, and touches no other byte -/
theorem mapName_run (m : Mem) (p dlen : Nat) :
    (mapName p dlen 0 dlen m).1 = (mapped (m.get p dlen)).length ∧
      (mapName p dlen 0 dlen m).2.get p (mapped (m.get p dlen)).length = mapped (m.get p dlen) ∧
      ∀ x, x < p ∨ p + dlen ≤ x → (mapName p dlen 0 dlen m).2 x = m x := by
  obtain ⟨h1, h2, h3⟩ := mapName_from (g := m) (p := p) dlen (Nat.zero_add dlen) (fun h => h.1)
    (fun k hk => absurd hk (Nat.not_lt_zero k)) fun x _ => rfl
  have hlen : (mapped (m.get p dlen)).length = (dropVersion (m.get p dlen)).length := List.length_map _
  refine ⟨h1.trans hlen.symm, ?_, h3⟩
  rw [hlen, ← h1]
  unfold mapped
  rw [(dropVersion_get m p dlen).1, ← h1]
  unfold Mem.get
  rw [List.map_map]
  refine List.map_congr_left fun k hk => ?_
  exact h2 k (List.mem_range.mp hk)

end

/-! ## the comparison -/

section
variable {m : Mem} {p : Nat} {id name l : List UInt8}

/-- the comparison with a name that is neither `.` nor `..` on the disc -/
theorem iso_match_text (hl : m.get p l.length = l) (h0 : l ≠ [0]) (h1 : l ≠ [1]) :
    iso_match name m p l.length = true ↔ name = l := by
  have hne : ∀ b : UInt8, l ≠ [b] → ¬ (((l.length : Nat) : Int) = 1 ∧ m p = b) := by
    rintro b hb ⟨hlen, hm⟩
    have hlen : l.length = 1 := by omega
    rw [hlen] at hl
    exact hb (by rw [← hl, ← hm]; rfl)
  unfold iso_match
  rw [if_neg (hne 0 h0), if_neg (hne 1 h1), decide_eq_true_eq]
  constructor
  · rintro ⟨hlen, hget⟩
    have hlen : l.length = name.length := by omega
    rw [← hget, ← hlen, hl]
  · rintro rfl
    exact ⟨rfl, hl⟩

/-- the length that is compared: a period at the end is left out when that makes the lengths equal -/
def comparedLen (m : Mem) (p namelen dlen : Nat) : Int :=
  if m (p + dlen - 1) = '.'.toUInt8 ∧ namelen + 1 = dlen then (dlen : Int) - 1 else dlen

theorem comparedLen_one {n : Nat} (h : m p ≠ '.'.toUInt8) : comparedLen m p n 1 = 1 := by
  unfold comparedLen
  rw [Nat.add_sub_cancel, if_neg fun hc => h hc.1]
  rfl

/-- the comparison with the mapped name of a record -/
theorem isoName_match (hid : IdFits id) (hm : m.get p (mapped id).length = mapped id) :
    iso_match name m p (comparedLen m p name.length (mapped id).length) = true ↔ IsoNamed id name := by
  have hmp : (mapped id).length = 1 → mapped id = [m p] := by
    intro h
    rw [h] at hm
    exact hm.symm
  unfold IsoNamed
  rcases hid with rfl | rfl | ⟨h0, h1⟩
  · have hmap : mapped [0] = [0] := rfl
    have hb : m p = 0 := (List.cons.inj (hmp rfl)).1.symm
    rw [hmap, List.length_singleton, comparedLen_one (by rw [hb]; decide), if_pos rfl]
    unfold iso_match
    rw [if_pos ⟨rfl, hb⟩, decide_eq_true_eq]
  · have hmap : mapped [1] = [1] := rfl
    have hb : m p = 1 := (List.cons.inj (hmp rfl)).1.symm
    have h0 : ¬ ((1 : Int) = 1 ∧ m p = 0) := fun h => absurd (hb.symm.trans h.2) (by decide)
    rw [hmap, List.length_singleton, comparedLen_one (by rw [hb]; decide), if_neg (by decide), if_pos rfl]
    unfold iso_match
    rw [if_neg h0, if_pos ⟨rfl, hb⟩, decide_eq_true_eq]
  · have hne0 : id ≠ [0] := fun h => h0 (by rw [h]; exact List.mem_cons_self)
    have hne1 : id ≠ [1] := fun h => h1 (by rw [h]; exact List.mem_cons_self)
    have hl0 := mapped_not_mem (by decide) h0
    have hl1 := mapped_not_mem (by decide) h1
    rw [if_neg hne0, if_neg hne1]
    generalize mapped id = l at hm hl0 hl1
    unfold comparedLen
    rcases List.eq_nil_or_concat l with rfl | ⟨l', c, rfl⟩
    · have hlen : ¬ name.length + 1 = ([] : List UInt8).length := by simp
      rw [if_neg fun h => hlen h.2, iso_match_text hm (by decide) (by decide)]
      constructor
      · exact .inl
      · rintro (h | h)
        · exact h
        · exact absurd (congrArg List.length h) (by simp)
    · rw [List.concat_eq_append] at hm hl0 hl1 ⊢
      have hlen : (l' ++ [c]).length = l'.length + 1 := List.length_append
      rw [hlen] at hm
      rw [hlen]
      have hlast : m (p + (l'.length + 1) - 1) = c := by
        rw [Mem.get_add] at hm
        have := (List.append_inj' hm rfl).2
        rw [show p + (l'.length + 1) - 1 = p + l'.length by omega]
        exact (List.cons.inj this).1
      have hinit : m.get p l'.length = l' := by
        rw [Mem.get_add] at hm
        exact (List.append_inj hm (Mem.length_get _ _ _)).1
      rw [hlast]
      by_cases hdot : c = '.'.toUInt8 ∧ name.length + 1 = l'.length + 1
      · obtain ⟨rfl, hn⟩ := hdot
        have hbytes : ∀ b : UInt8, b ∉ l' ++ ['.'.toUInt8] → l' ≠ [b] := by
          rintro b hb rfl
          exact hb (List.mem_append_left _ List.mem_cons_self)
        rw [if_pos ⟨rfl, hn⟩, show (((l'.length + 1 : Nat) : Int) - 1) = (l'.length : Nat) by omega,
          iso_match_text hinit (hbytes 0 hl0) (hbytes 1 hl1)]
        constructor
        · rintro rfl
          exact .inr rfl
        · rintro (h | h)
          · have := congrArg List.length h
            rw [hlen] at this
            omega
          · exact (List.append_inj' h rfl).1
      · rw [if_neg hdot]
        have hl : m.get p (l' ++ [c]).length = l' ++ [c] := by rw [hlen]; exact hm
        have hbytes : ∀ b : UInt8, b ∉ l' ++ [c] → l' ++ [c] ≠ [b] := by
          intro b hb h
          exact hb (by rw [h]; exact List.mem_cons_self)
        have hmatch : iso_match name m p (l' ++ [c]).length = true ↔ name = l' ++ [c] :=
          iso_match_text hl (hbytes 0 hl0) (hbytes 1 hl1)
        rw [hlen] at hmatch
        rw [hmatch]
        constructor
        · exact .inl
        · rintro (h | h)
          · exact h
          · obtain ⟨rfl, hc⟩ := List.append_inj' h rfl
            exact absurd ⟨(List.cons.inj hc).1.symm, rfl⟩ hdot

end

end Iso
