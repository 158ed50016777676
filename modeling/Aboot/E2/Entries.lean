import Aboot.E2.Fields
import Aboot.Lib.Records

/-!
# The entries of a directory block

* `Tiles`           a block is tiled by entries;
* `tiles_setName`   an entry is stored;
* `findRoom_fit`, `findRoom_none`   `findRoom` finds the first room, and the block is tiled afterwards;
* `searchBlock_first`   `searchBlock` gives the first entry with the name.
-/

set_option linter.unusedVariables false

namespace E2
open Word Bytes
open Ext2 (d_inode d_rec_len d_name)

/-- an entry: its name, the number of its inode, and `rec_len` -/
abbrev DirRec := Records.Rec (List UInt8) Nat

/-- `EXT2_DIR_REC_LEN` of a name -/
def need (name : List UInt8) : Nat := (name.length + 8 + 3) / 4 * 4

theorem rec_len_need (name : List UInt8) : EXT2_DIR_REC_LEN name.length = (need name : Int) := rfl

/-- the entry at an offset of a block -/
structure EntryAt (m : Mem) (o : Nat) (e : DirRec) : Prop where
  inode : m.le32 o = e.val
  rec_len : m.le16 (o + 4) = e.len
  name_len : m.le16 (o + 6) = e.key.length
  name : m.get (o + 8) e.key.length = e.key
  room : need e.key ≤ e.len
  aligned : 4 ∣ e.len

/-- entries from an offset on, up to the end of the block -/
def Tiles (m : Mem) : Nat → List DirRec → Prop
  | o, [] => o = 1024
  | o, e :: es => EntryAt m o e ∧ Tiles m (o + e.len) es

instance (m : Mem) (o : Nat) (e : DirRec) : Decidable (EntryAt m o e) :=
  decidable_of_iff (m.le32 o = e.val ∧ m.le16 (o + 4) = e.len ∧ m.le16 (o + 6) = e.key.length ∧
      m.get (o + 8) e.key.length = e.key ∧ need e.key ≤ e.len ∧ 4 ∣ e.len)
    ⟨fun ⟨h1, h2, h3, h4, h5, h6⟩ => ⟨h1, h2, h3, h4, h5, h6⟩,
      fun ⟨h1, h2, h3, h4, h5, h6⟩ => ⟨h1, h2, h3, h4, h5, h6⟩⟩

instance decidableTiles (m : Mem) : ∀ (o : Nat) (es : List DirRec), Decidable (Tiles m o es)
  | o, [] => inferInstanceAs (Decidable (o = 1024))
  | o, e :: es =>
    have : Decidable (Tiles m (o + e.len) es) := decidableTiles m (o + e.len) es
    inferInstanceAs (Decidable (EntryAt m o e ∧ Tiles m (o + e.len) es))

theorem EntryAt.header {m : Mem} {o : Nat} {e : DirRec} (h : EntryAt m o e) :
    8 + e.key.length ≤ e.len := by
  have := h.room
  unfold need at this
  omega

theorem Tiles.le {m : Mem} {es : List DirRec} : ∀ {o : Nat}, Tiles m o es → o + 8 * es.length ≤ 1024 := by
  induction es with
  | nil =>
    intro o h
    exact Nat.le_of_eq h
  | cons e es ih =>
    rintro o ⟨he, hes⟩
    have := ih hes
    have := he.header
    rw [List.length_cons]
    omega

theorem Tiles.sized {m : Mem} {es : List DirRec} : ∀ {o : Nat}, Tiles m o es → Records.Sized need es := by
  induction es with
  | nil =>
    intro o h e he
    cases he
  | cons e es ih =>
    rintro o ⟨he, hes⟩ e' (_ | ⟨_, h'⟩)
    · exact he.room
    · exact ih hes e' h'

/-- an entry is made of its own bytes -/
theorem EntryAt.congr {m m' : Mem} {o : Nat} {e : DirRec} (h : EntryAt m o e)
    (hm : ∀ x, o ≤ x → x < o + e.len → m' x = m x) : EntryAt m' o e := by
  have hlen := h.header
  refine ⟨?_, ?_, ?_, ?_, h.room, h.aligned⟩
  · rw [← h.inode]
    exact Mem.le_congr fun j hj => hm _ (by omega) (by omega)
  · rw [← h.rec_len]
    exact Mem.le_congr fun j hj => hm _ (by omega) (by omega)
  · rw [← h.name_len]
    exact Mem.le_congr fun j hj => hm _ (by omega) (by omega)
  · refine Eq.trans ?_ h.name
    exact Mem.get_eq_of_forall _ _ _ _ fun j hj => hm _ (by omega) (by omega)

theorem Tiles.congr {m m' : Mem} {es : List DirRec} : ∀ {o : Nat}, Tiles m o es →
    (∀ x, o ≤ x → x < 1024 → m' x = m x) → Tiles m' o es := by
  induction es with
  | nil => exact fun h _ => h
  | cons e es ih =>
    rintro o ⟨he, hes⟩ hm
    have hle := hes.le
    exact ⟨he.congr fun x h1 h2 => hm x h1 (by omega), ih hes fun x h1 h2 => hm x (by omega) h2⟩

/-- a block has one tiling -/
theorem Tiles.unique {m : Mem} {es : List DirRec} : ∀ {es' : List DirRec} {o : Nat}, Tiles m o es →
    Tiles m o es' → es = es' := by
  induction es with
  | nil =>
    intro es' o h h'
    have h : o = 1024 := h
    cases es' with
    | nil => rfl
    | cons e es' =>
      have hle := h'.2.le
      have hlen := h'.1.header
      omega
  | cons e es ih =>
    intro es' o h h'
    cases es' with
    | nil =>
      have h' : o = 1024 := h'
      have hle := h.2.le
      have hlen := h.1.header
      omega
    | cons e' es' =>
      have hkey : e.key = e'.key := by
        rw [← h.1.name, ← h'.1.name, ← h.1.name_len, ← h'.1.name_len]
      have hval : e.val = e'.val := h.1.inode.symm.trans h'.1.inode
      have hlen : e.len = e'.len := h.1.rec_len.symm.trans h'.1.rec_len
      have he : e = e' := by
        cases e
        cases e'
        simp only at hkey hval hlen
        rw [hkey, hval, hlen]
      rw [he] at h ⊢
      rw [ih h.2 h'.2]

/-! ## storing an entry -/

theorem setName_out (m : Mem) (o : Nat) (name : List UInt8) (ino : Int) {x : Nat}
    (hx : x < o ∨ o + 8 + name.length ≤ x) : setName m o name ino x = m x := by
  unfold setName
  rw [Int.toNat_natCast, Mem.put_out _ _ _ _ (by omega), Mem.put_out _ _ _ _ (by rw [length_ofNum]; omega),
    Mem.put_out _ _ _ _ (by rw [length_ofNum]; omega)]

theorem setRecLen_out (m : Mem) (o : Nat) (len : Int) {x : Nat} (hx : x < o + 4 ∨ o + 6 ≤ x) :
    setRecLen m o len x = m x := by
  unfold setRecLen
  rw [Int.toNat_natCast, Mem.put_out _ _ _ _ (by rw [length_ofNum]; omega)]

theorem setRecLen_self (m : Mem) (o : Nat) {len : Nat} (h : len < 65536) :
    (setRecLen m o len).le16 (o + 4) = len := by
  have huns : uns 16 (len : Int) = len := by
    unfold uns
    norm_num
    omega
  have hput := le_put_self m (o + 4) len 2
  unfold setRecLen
  rw [Int.toNat_natCast, huns, Mem.le16, hput, Nat.mod_eq_of_lt (by norm_num; omega)]

/-- the entry that was stored -/
theorem setName_entry {m : Mem} {o len : Nat} (hlen : m.le16 (o + 4) = len) {name : List UInt8}
    (hneed : need name ≤ len) (h4 : 4 ∣ len) (hname : name.length ≤ 255) (ino : Int) :
    EntryAt (setName m o name ino) o ⟨name, uns 32 ino, len⟩ := by
  refine ⟨?_, ?_, ?_, ?_, hneed, h4⟩
  · unfold setName
    rw [Int.toNat_natCast, Mem.le32, le_put_out _ _ _ _ _ (by omega),
      le_put_out _ _ _ _ _ (by rw [length_ofNum]; omega)]
    exact le32_put m o ino
  · unfold setName
    rw [Int.toNat_natCast, Mem.le16, le_put_out _ _ _ _ _ (by omega),
      le_put_out _ _ _ _ _ (by rw [length_ofNum]; omega),
      le_put_out _ _ _ _ _ (by rw [length_ofNum]; omega)]
    exact hlen
  · unfold setName
    have hput := le_put_self (m.put o (ofNum (uns 32 ino) 4)) (o + 6) name.length 2
    rw [Int.toNat_natCast, Mem.le16, le_put_out _ _ _ _ _ (by omega), hput,
      Nat.mod_eq_of_lt (by norm_num; omega)]
  · unfold setName
    rw [Int.toNat_natCast]
    exact Mem.get_put_self _ _ _

/-! ## the two walks over a block -/

section
variable {m : Mem} {o : Nat} {e : DirRec} (h : EntryAt m o e)
include h

theorem EntryAt.d_inode : d_inode m o = sgn 32 e.val := by
  rw [Ext2.d_inode, Int.toNat_natCast, h.inode]

theorem EntryAt.d_rec_len : d_rec_len m o = e.len := by
  rw [Ext2.d_rec_len, Int.toNat_natCast, h.rec_len]

theorem EntryAt.d_name_len : d_name_len m o = e.key.length := by
  rw [E2.d_name_len, Int.toNat_natCast, h.name_len]

theorem EntryAt.d_name : d_name m o e.key.length = e.key := by
  rw [Ext2.d_name, Int.toNat_natCast, h.name]

theorem EntryAt.unused : Ext2.d_inode m o = 0 ↔ e.val = 0 := by
  rw [h.d_inode]
  constructor
  · intro h0
    rw [← h.inode] at h0 ⊢
    exact le32_of_sgn h0
  · intro h0
    rw [h0]
    decide

end

/-- one round of `findRoom` -/
theorem findRoom_step {m : Mem} {o : Nat} {e : DirRec} (h : EntryAt m o e) (ho : o < 1024)
    (name : List UInt8) (fuel : Nat) :
    findRoom name.length 1024 m (fuel + 1) o =
      if e.val = 0 ∧ need name ≤ e.len then some (some ((o : Int), m))
      else if e.val ≠ 0 ∧ need name ≤ e.len - need e.key then
        some (some (((o + need e.key : Nat) : Int),
          setRecLen (setRecLen m o (need e.key)) (o + need e.key : Nat) ((e.len - need e.key : Nat) : Int)))
      else findRoom name.length 1024 m fuel (o + e.len : Nat) := by
  have hroom := h.room
  have hslack : (e.len : Int) - (need e.key : Int) = ((e.len - need e.key : Nat) : Int) := by omega
  rw [findRoom, if_pos (by omega)]
  simp only [ne_eq, h.unused, h.d_rec_len, h.d_name_len, rec_len_need, hslack]
  rw [← Nat.cast_add, ← Nat.cast_add]
  simp only [Nat.cast_le]

theorem findRoom_none {m : Mem} {es : List DirRec} {name : List UInt8} {ino : Nat} :
    ∀ {o fuel : Nat}, Tiles m o es → es.length < fuel → Records.fit need name ino es = none →
      findRoom name.length 1024 m fuel o = some none := by
  induction es with
  | nil =>
    rintro o fuel h hf -
    obtain ⟨n, rfl⟩ := Nat.exists_eq_add_one_of_ne_zero (Nat.ne_of_gt hf)
    have h : o = 1024 := h
    rw [h, findRoom]
    rfl
  | cons e es ih =>
    intro o fuel h hf hfit
    obtain ⟨n, rfl⟩ := Nat.exists_eq_add_one_of_ne_zero (show fuel ≠ 0 by omega)
    rw [List.length_cons] at hf
    have hle := h.2.le
    have hlen := h.1.header
    rw [Records.fit] at hfit
    split at hfit
    · cases hfit
    · rename_i h1
      split at hfit
      · cases hfit
      · rename_i h2
        rw [findRoom_step h.1 (by omega), if_neg h1, if_neg h2]
        exact ih h.2 (by omega) (Option.map_eq_none_iff.mp hfit)

/-- an entry in use is cut to size, and another one stored in the space behind it -/
theorem split_entry {m : Mem} {o : Nat} {e : DirRec} {es : List DirRec} (h : Tiles m o (e :: es))
    {name : List UInt8} (hname : name.length ≤ 255) (ino : Int) (hspace : need name ≤ e.len - need e.key)
    {m' : Mem} (hm' : setRecLen (setRecLen m o (need e.key)) (o + need e.key : Nat)
      ((e.len - need e.key : Nat) : Int) = m') :
    Tiles (setName m' (o + need e.key : Nat) name ino) o
      ({ e with len := need e.key } :: ⟨name, uns 32 ino, e.len - need e.key⟩ :: es) ∧
      ∀ x, x < o → setName m' (o + need e.key : Nat) name ino x = m x := by
  have hroom := h.1.room
  have h16 := Mem.le16_lt m (o + 4)
  rw [h.1.rec_len] at h16
  have hheader : 8 + name.length ≤ need name := by
    unfold need
    omega
  have haligned : 4 ∣ need e.key := by
    unfold need
    exact Nat.dvd_mul_left 4 _
  have hm'out : ∀ x, (x < o + 4 ∨ o + 6 ≤ x) →
      (x < o + need e.key + 4 ∨ o + need e.key + 6 ≤ x) → m' x = m x := by
    intro x hx hx'
    rw [← hm', setRecLen_out _ _ _ hx', setRecLen_out _ _ _ hx]
  have hlen₁ : m'.le16 (o + 4) = need e.key := by
    refine Eq.trans ?_ (setRecLen_self m o (show need e.key < 65536 by omega))
    rw [← hm']
    apply Mem.le_congr
    intro j hj
    have hlow := h.1.header
    unfold need
    exact setRecLen_out _ _ _ (Or.inl (by omega))
  have hlen₂ : m'.le16 (o + need e.key + 4) = e.len - need e.key := by
    rw [← hm']
    exact setRecLen_self _ _ (by omega)
  have hkey : 8 + e.key.length ≤ need e.key := by
    unfold need
    omega
  refine ⟨⟨?_, ?_, ?_⟩, fun x hx => ?_⟩
  · -- the entry in use, cut to size
    have hkept : ∀ x, o ≤ x → x < o + need e.key → (x < o + 4 ∨ o + 6 ≤ x) →
        setName m' (o + need e.key : Nat) name ino x = m x := by
      intro x hx hx' hne
      rw [setName_out _ _ _ _ (Or.inl hx'), hm'out x hne (Or.inl (by omega))]
    refine ⟨?_, ?_, ?_, ?_, Nat.le_refl _, haligned⟩
    · rw [← h.1.inode]
      exact Mem.le_congr fun j hj => hkept _ (by omega) (by omega) (by omega)
    · rw [← hlen₁]
      exact Mem.le_congr fun j hj => setName_out _ _ _ _ (Or.inl (by omega))
    · rw [← h.1.name_len]
      exact Mem.le_congr fun j hj => hkept _ (by omega) (by omega) (by omega)
    · refine Eq.trans ?_ h.1.name
      apply Mem.get_eq_of_forall
      intro j hj
      have hj : j < e.key.length := hj
      exact hkept _ (by omega) (by omega) (by omega)
  · exact setName_entry hlen₂ hspace (Nat.dvd_sub h.1.aligned haligned) hname ino
  · have hend : o + need e.key + (e.len - need e.key) = o + e.len := by omega
    show Tiles _ (o + need e.key + (e.len - need e.key)) es
    rw [hend]
    apply h.2.congr
    intro x hx _
    rw [setName_out _ _ _ _ (Or.inr (by omega)), hm'out x (by omega) (by omega)]
  · rw [setName_out _ _ _ _ (Or.inl (by omega)), hm'out x (by omega) (by omega)]

/-- **`findRoom` finds the first room**, and with the entry stored there the block is tiled again. -/
theorem findRoom_fit {m : Mem} {es es' : List DirRec} {name : List UInt8} (hname : name.length ≤ 255)
    {ino : Int} : ∀ {o fuel : Nat}, Tiles m o es → es.length < fuel →
      Records.fit need name (uns 32 ino) es = some es' →
      ∃ dp buf, findRoom name.length 1024 m fuel o = some (some (dp, buf)) ∧
        Tiles (setName buf dp name ino) o es' ∧ ∀ x, x < o → setName buf dp name ino x = m x := by
  induction es generalizing es' with
  | nil =>
    intro o fuel h hf hfit
    cases hfit
  | cons e es ih =>
    intro o fuel h hf hfit
    obtain ⟨n, rfl⟩ := Nat.exists_eq_add_one_of_ne_zero (show fuel ≠ 0 by omega)
    rw [List.length_cons] at hf
    have hle := h.2.le
    have hlen := h.1.header
    have hheader : 8 + name.length ≤ need name := by
      unfold need
      omega
    rw [findRoom_step h.1 (by omega)]
    rw [Records.fit] at hfit
    split at hfit
    · -- an entry that is not in use
      rename_i h1
      cases hfit
      refine ⟨o, m, if_pos h1, ⟨setName_entry h.1.rec_len h1.2 h.1.aligned hname ino, ?_⟩, fun x hx => ?_⟩
      · exact h.2.congr fun x hx _ => setName_out m o name ino (by omega)
      · exact setName_out m o name ino (Or.inl hx)
    · rename_i h1
      rw [if_neg h1]
      split at hfit
      · -- the space behind an entry in use
        rename_i h2
        cases hfit
        exact ⟨(o + need e.key : Nat), _, if_pos h2, split_entry h hname ino h2.2 rfl⟩
      · rename_i h2
        rw [if_neg h2]
        obtain ⟨es'', hfit', rfl⟩ := Option.map_eq_some_iff.mp hfit
        obtain ⟨dp, buf, hfind, htiles, hbelow⟩ := ih h.2 (show es.length < n by omega) hfit'
        refine ⟨dp, buf, hfind, ⟨?_, htiles⟩, fun x hx => hbelow x (by omega)⟩
        exact h.1.congr fun x _ hx => hbelow x hx

/-- **`searchBlock` gives the first entry with the name.** -/
theorem searchBlock_first {m : Mem} {es : List DirRec} (name : List UInt8) :
    ∀ {o fuel : Nat}, Tiles m o es → es.length < fuel →
      searchBlock name 1024 m fuel o = some ((Records.first name es).map fun (v : Nat) => sgn 32 v) := by
  induction es with
  | nil =>
    intro o fuel h hf
    obtain ⟨n, rfl⟩ := Nat.exists_eq_add_one_of_ne_zero (Nat.ne_of_gt hf)
    have h : o = 1024 := h
    rw [h, searchBlock]
    rfl
  | cons e es ih =>
    intro o fuel h hf
    obtain ⟨n, rfl⟩ := Nat.exists_eq_add_one_of_ne_zero (show fuel ≠ 0 by omega)
    rw [List.length_cons] at hf
    have hle := h.2.le
    have hlen := h.1.header
    have hmatch : (d_name_len m o = name.length ∧ d_name m o name.length = name) ↔ e.key = name := by
      rw [h.1.d_name_len]
      constructor
      · rintro ⟨hl, hn⟩
        rw [← hl, h.1.d_name] at hn
        exact hn
      · rintro rfl
        exact ⟨rfl, h.1.d_name⟩
    rw [searchBlock, if_pos (by omega), Records.first]
    by_cases hkey : e.key = name
    · rw [if_pos (hmatch.mpr hkey), if_pos hkey, h.1.d_inode]
      rfl
    · rw [if_neg (fun hc => hkey (hmatch.mp hc)), if_neg hkey, h.1.d_rec_len, ← Nat.cast_add]
      exact ih h.2 (by omega)

end E2
