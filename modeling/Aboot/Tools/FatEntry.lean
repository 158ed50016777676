import Aboot.Lib.Bytes
import Aboot.Lib.Word
import Mathlib.Tactic.IntervalCases

/-!
# srmbootfat: the entries of a FAT, as C defines them

`get_fat_entry` cuts an entry of 12 bits out of two words.  There is a version for the Alpha, which
reads the words of an aligned table, and one for other machines, which puts them together from bytes.

C gives a shift of a word by its full width no meaning, and an entry number is an `unsigned`, three of
which may not fit one.

* `Entry`              what a function comes to;
* `cut`                12 bits of two words;
* `Decodes`            an entry is decoded as the format defines it;
* `wordBits`           what both versions come to;
* `get_fat_entry_iff`  for which entries both versions do so.
-/

namespace Srmbootfat
open Word

/-- a value, an exit code, or nothing that C defines -/
inductive Entry
  | value (x : Nat)
  | exit (code : Nat)
  | undefined
deriving DecidableEq

/-! ## the source -/

/-- `x >> k` of an `unsigned` -/
def shr (x k : Nat) : Option Nat := if k < 32 then some (x >>> k) else none

/-- `x << k` of an `unsigned` -/
def shl (x k : Nat) : Option Nat := if k < 32 then some ((x <<< k) % 2 ^ 32) else none

/-- `((a >> i) | (b << (32 - i))) & 0xFFF` -/
def cut (a b i : Nat) : Entry :=
  match shr a i, shl b (32 - i) with
  | some x, some y => .value ((x ||| y) &&& 0xfff)
  | _, _ => .undefined

/-- the version for the Alpha: the words at the indices `entry` and `entry + 1` of the table -/
def Alpha.get_fat_entry (fat : Mem) (fatbits entry : Nat) : Entry :=
  match fatbits with
  | 12 =>
    let entry := uns 32 (entry * 3 : Nat)
    let i := (entry &&& 7) <<< 2
    let entry := entry >>> 3
    cut (fat.le32 (4 * entry)) (fat.le32 (4 * uns 32 (entry + 1 : Nat))) i
  | 16 => .value (fat.le16 (2 * entry))
  | _ => .exit 3

/-- `_WORD` of msdos.h, an `int` -/
def _WORD (m : Mem) (x : Nat) : Nat := (m x).toNat + (m (x + 1)).toNat <<< 8

/-- `_DWORD` of msdos.h, which ends in an `unsigned`: a shift into the sign of the `int` wraps -/
def _DWORD (m : Mem) (x : Nat) : Nat := uns 32 (_WORD m x + sgn 32 (_WORD m (x + 2) <<< 16 : Nat))

/-- the version for other machines: `entry` counts bytes as an `unsigned` -/
def Portable.get_fat_entry (fat : Mem) (fatbits entry : Nat) : Entry :=
  match fatbits with
  | 12 =>
    let entry := uns 32 (entry * 3 : Nat)
    let i := (entry &&& 7) <<< 2
    let entry := entry >>> 3
    cut (_DWORD fat (uns 32 (4 * entry : Nat))) (_DWORD fat (uns 32 (4 * entry : Nat) + 4)) i
  | 16 => .value (_WORD fat (uns 32 (2 * entry : Nat)))
  | _ => .exit 3

/-! ## what it is for -/

/-- an entry of a FAT -/
def fatEntry (fat : Mem) (fatbits k : Nat) : Nat :=
  if fatbits = 12 then fat.le16 (3 * k / 2) / 16 ^ (k % 2) % 4096 else fat.le16 (2 * k)

/-- entry `e` is decoded right, and from the `n` bytes of the table alone -/
structure Decodes (get : Mem → Nat → Nat → Entry) (fat : Mem) (n e : Nat) : Prop where
  value : get fat 12 e = .value (fatEntry fat 12 e)
  inside : ∀ m : Mem, (∀ k, k < n → m k = fat k) → get m 12 e = get fat 12 e

/-- both versions decode entry `e` right, and alike -/
structure BothDecode (fat : Mem) (n e : Nat) : Prop where
  alpha : Decodes Alpha.get_fat_entry fat n e
  portable : Decodes Portable.get_fat_entry fat n e
  same : Alpha.get_fat_entry fat 12 e = Portable.get_fat_entry fat 12 e

/-! ## words -/

theorem le16_bytes (m : Mem) (a : Nat) : m.le16 a = (m a).toNat + 256 * (m (a + 1)).toNat := by
  simp only [Mem.le16, Mem.le, Nat.mul_zero, Nat.add_zero]

theorem le32_bytes (m : Mem) (a : Nat) : m.le32 a
    = (m a).toNat + 256 * (m (a + 1)).toNat + 65536 * (m (a + 2)).toNat + 16777216 * (m (a + 3)).toNat := by
  simp only [Mem.le32, Mem.le, Nat.add_assoc, Nat.reduceAdd, Nat.mul_zero, Nat.add_zero]
  omega

theorem uns_natCast (w n : Nat) : uns w (n : Int) = n % 2 ^ w := by
  have h : (n : Int) % 2 ^ w = (n % 2 ^ w : Nat) := by
    rw [Int.natCast_emod, Int.natCast_pow]
    rfl
  rw [uns, h, Int.toNat_natCast]

theorem _WORD_eq (m : Mem) (x : Nat) : _WORD m x = m.le16 x := by
  rw [le16_bytes, _WORD, Nat.shiftLeft_eq, Nat.mul_comm]

theorem _DWORD_eq (m : Mem) (x : Nat) : _DWORD m x = m.le32 x := by
  have hlow := Mem.le16_lt m x
  have hhigh := Mem.le16_lt m (x + 2)
  have hle : m.le32 x = m.le16 x + 65536 * m.le16 (x + 2) := by
    rw [le32_bytes, le16_bytes, le16_bytes, Nat.add_assoc x 2 1]
    omega
  rw [_DWORD, _WORD_eq, _WORD_eq, hle, Nat.shiftLeft_eq]
  have hs := sgn32_cases (m.le16 (x + 2) * 2 ^ 16 : Nat)
  have hu := uns32_cases (m.le16 x + sgn 32 (m.le16 (x + 2) * 2 ^ 16 : Nat))
  omega

/-- two words next to each other, shifted right together -/
theorem shift_pair {a b i : Nat} (ha : a < 4294967296) (hi : i ≤ 32) :
    (a >>> i) ||| ((b <<< (32 - i)) % 2 ^ 32) = a / 2 ^ i + 2 ^ (32 - i) * (b % 2 ^ i) := by
  have hpow : (2 : Nat) ^ 32 = 2 ^ (32 - i) * 2 ^ i := by
    rw [← Nat.pow_add]
    congr 1
    omega
  have hlow : a / 2 ^ i < 2 ^ (32 - i) := by
    apply Nat.div_lt_of_lt_mul
    rw [Nat.mul_comm, ← hpow]
    exact ha
  rw [Nat.shiftRight_eq_div_pow, Nat.shiftLeft_eq, Nat.mul_comm b, hpow, Nat.mul_mod_mul_left, Nat.or_comm,
    ← Nat.two_pow_add_eq_or_of_lt hlow]
  exact Nat.add_comm _ _

/-- the 12 bits from the `j`-th half byte on -/
def bits12 (fat : Mem) (j : Nat) : Nat := fat.le16 (j / 2) / 16 ^ (j % 2) % 4096

theorem fatEntry_twelve (fat : Mem) (k : Nat) : fatEntry fat 12 k = bits12 fat (3 * k) := by
  have hpar : k % 2 = 3 * k % 2 := by omega
  rw [fatEntry, if_pos rfl, bits12, hpar]

/-- 12 bits cut out of two words -/
theorem cut_bits (fat : Mem) (j : Nat) :
    ((fat.le32 (4 * (j / 8)) >>> (4 * (j % 8)))
      ||| ((fat.le32 (4 * (j / 8 + 1)) <<< (32 - 4 * (j % 8))) % 2 ^ 32)) &&& 0xfff = bits12 fat j := by
  have hmask (x : Nat) : x &&& 0xfff = x % 4096 := Nat.and_two_pow_sub_one_eq_mod x 12
  have hs : j % 8 < 8 := Nat.mod_lt _ (by decide)
  rw [hmask, shift_pair (Mem.le32_lt _ _) (by omega), bits12]
  obtain ⟨w, hw⟩ : ∃ w, w = j / 8 := ⟨_, rfl⟩
  have hbyte : j / 2 = 4 * w + j % 8 / 2 := by omega
  have hpar : j % 2 = j % 8 % 2 := by omega
  have hnext : 4 * (w + 1) = 4 * w + 4 := by omega
  rw [← hw, le32_bytes, le32_bytes, le16_bytes, hbyte, hpar, hnext]
  generalize j % 8 = s at hs
  have h0 := (fat (4 * w)).toNat_lt
  have h1 := (fat (4 * w + 1)).toNat_lt
  have h2 := (fat (4 * w + 2)).toNat_lt
  have h3 := (fat (4 * w + 3)).toNat_lt
  have h4 := (fat (4 * w + 4)).toNat_lt
  interval_cases s <;> norm_num [Nat.add_assoc] <;> omega

/-- where the words are that an entry is cut out of -/
theorem shift_and_seven (j : Nat) : (j &&& 7) <<< 2 = 4 * (j % 8) := by
  have h7 : j &&& 7 = j % 8 := Nat.and_two_pow_sub_one_eq_mod _ 3
  rw [h7, Nat.shiftLeft_eq]
  exact Nat.mul_comm _ _

/-! ## both versions -/

section
variable (fat : Mem)

/-- 12 bits from the half byte `j` on, unless they start with a word -/
def wordBits (j : Nat) : Entry := if j % 8 = 0 then .undefined else .value (bits12 fat j)

theorem cut_words (j : Nat) :
    cut (fat.le32 (4 * (j / 8))) (fat.le32 (4 * (j / 8 + 1))) (4 * (j % 8)) = wordBits fat j := by
  have hi : 4 * (j % 8) < 32 := by omega
  unfold cut wordBits
  by_cases h0 : j % 8 = 0
  · rw [if_pos h0, h0, shr, if_pos (by decide), shl, if_neg (by decide)]
  · rw [if_neg h0, shr, if_pos hi, shl, if_pos (by omega)]
    exact congrArg Entry.value (cut_bits fat j)

theorem alpha_eq (e : Nat) : Alpha.get_fat_entry fat 12 e = wordBits fat (3 * e % 2 ^ 32) := by
  have hj : uns 32 (e * 3 : Nat) = 3 * e % 2 ^ 32 := by rw [uns_natCast, Nat.mul_comm]
  have hlt : 3 * e % 2 ^ 32 / 8 + 1 < 4294967296 := by omega
  unfold Alpha.get_fat_entry
  dsimp only
  rw [hj, shift_and_seven, Nat.shiftRight_eq_div_pow, uns32_natCast hlt]
  exact cut_words fat _

/-- both versions are alike, but for the table they need -/
theorem portable_eq (e : Nat) : Portable.get_fat_entry fat 12 e = wordBits fat (3 * e % 2 ^ 32) := by
  have hj : uns 32 (e * 3 : Nat) = 3 * e % 2 ^ 32 := by rw [uns_natCast, Nat.mul_comm]
  have hlt : 4 * (3 * e % 2 ^ 32 / 8) < 4294967296 := by omega
  unfold Portable.get_fat_entry
  dsimp only
  rw [hj, shift_and_seven, Nat.shiftRight_eq_div_pow, uns32_natCast hlt, _DWORD_eq, _DWORD_eq]
  exact cut_words fat _

/-- the bits are in two bytes -/
theorem bits12_congr {m : Mem} {n j : Nat} (hj : j / 2 + 1 < n) (h : ∀ k, k < n → m k = fat k) :
    bits12 m j = bits12 fat j := by
  have h0 := h (j / 2) (by omega)
  have h1 := h (j / 2 + 1) hj
  rw [bits12, bits12, le16_bytes, le16_bytes, h0, h1]

theorem decodes_iff {get : Mem → Nat → Nat → Entry} {n e : Nat} (hin : 3 * e / 2 + 1 < n)
    (hget : ∀ m, get m 12 e = wordBits m (3 * e % 2 ^ 32)) :
    Decodes get fat n e ↔ e % 8 ≠ 0 ∧ bits12 fat (3 * e % 2 ^ 32) = bits12 fat (3 * e) := by
  have h8 : 3 * e % 2 ^ 32 % 8 = 0 ↔ e % 8 = 0 := by omega
  have hle : 3 * e % 2 ^ 32 ≤ 3 * e := Nat.mod_le _ _
  constructor
  · rintro ⟨hv, -⟩
    rw [hget, wordBits, fatEntry_twelve] at hv
    by_cases h0 : e % 8 = 0
    · rw [if_pos (h8.mpr h0)] at hv
      cases hv
    · rw [if_neg (fun h => h0 (h8.mp h))] at hv
      exact ⟨h0, Entry.value.inj hv⟩
  · rintro ⟨h0, hv⟩
    have hword : ∀ m : Mem, get m 12 e = .value (bits12 m (3 * e % 2 ^ 32)) := by
      intro m
      rw [hget, wordBits, if_neg (fun h => h0 (h8.mp h))]
    refine ⟨?_, fun m hm => ?_⟩
    · rw [hword, hv, fatEntry_twelve]
    · rw [hword, hword, bits12_congr fat (by omega) hm]

/-- **Entries of 12 bits.**  Both versions decode entry `e` exactly when it does not start with a word,
and its bits are those that three times its number come to as an `unsigned`. -/
theorem get_fat_entry_iff {n e : Nat} (hin : 3 * e / 2 + 1 < n) :
    BothDecode fat n e ↔ e % 8 ≠ 0 ∧ bits12 fat (3 * e % 2 ^ 32) = bits12 fat (3 * e) := by
  constructor
  · rintro ⟨ha, -, -⟩
    exact (decodes_iff fat hin fun m => alpha_eq m e).mp ha
  · intro h
    refine ⟨(decodes_iff fat hin fun m => alpha_eq m e).mpr h,
      (decodes_iff fat hin fun m => portable_eq m e).mpr h, ?_⟩
    rw [alpha_eq, portable_eq]

end

/-- entry 2 of a table of six bytes: an end mark -/
def smallTable : Mem := Bytes.record [(0, 0xfffff0, 3), (3, 0xfff, 3)]

theorem second_decoded : BothDecode smallTable 6 2 :=
  (get_fat_entry_iff smallTable (by decide)).mpr (by decide)

/-- entry 8 starts with the fourth word -/
theorem eighth_undefined : ¬ BothDecode (fun _ => 0) 16 8 := by
  rintro ⟨⟨hv, -⟩, -, -⟩
  have h : Alpha.get_fat_entry (fun _ => 0) 12 8 = .undefined := by
    rw [alpha_eq]
    rfl
  rw [h] at hv
  cases hv

end Srmbootfat
