import Aboot.Lib.Word
import Mathlib.Data.Nat.Digits.Lemmas

/-!
# lib/vsprintf.c: numbers

`number` writes a number and `simple_strtoul` reads one.  A text is the list of its characters, without the zero at
its end.

* `tmp_eq`                 the digits of a number fit into `tmp`;
* `NoWrap`                a size and a precision with which no int of `number` overflows;
* `number_eq`              what `number` writes then;
* `number_store`           what it writes on the left of a field, or behind zeros, with any size and precision;
* `strtoul_digits`         `simple_strtoul` reads digits, but none of the lower case letters that `number` writes.
-/

set_option linter.unusedVariables false

namespace Vsprintf
open Word

/-! ## characters -/

def is_digit (c : UInt8) : Bool := 48 ≤ c && c ≤ 57
def is_xdigit (c : UInt8) : Bool := is_digit c || (65 ≤ c && c ≤ 70) || (97 ≤ c && c ≤ 102)
def is_lower (c : UInt8) : Bool := 97 ≤ c && c ≤ 122

/-- it adds `'a' - 'A'` -/
def to_upper (c : UInt8) : Nat := c.toNat + 97 - 65

def SP : UInt8 := 32
def ZERO : UInt8 := 48

/-! ## reading -/

/-- `value` of a character that `is_xdigit` -/
def value (c : UInt8) : Nat :=
  if is_digit c then c.toNat - 48 else (if is_lower c then to_upper c else c.toNat) - 65 + 10

/-- the loop of `simple_strtoul`: the result, and where `cp` is in the end -/
def readDigits (base : Nat) : (result : Nat) → (cp : List UInt8) → Nat × List UInt8
  | result, [] => (result, [])
  | result, c :: cp =>
    if is_xdigit c && value c < base then readDigits base (uns 64 (result * base + value c : Nat)) cp
    else (result, c :: cp)

/-- the base, and the number behind its prefix -/
def findBase (cp : List UInt8) (base : Nat) : Nat × List UInt8 :=
  if base = 0 then
    match cp with
    | 48 :: 120 :: c :: cp => if is_xdigit c then (16, c :: cp) else (8, 120 :: c :: cp)
    | 48 :: cp => (8, cp)
    | cp => (10, cp)
  else (base, cp)

def simple_strtoul (cp : List UInt8) (base : Nat) : Nat × List UInt8 :=
  readDigits (findBase cp base).1 0 (findBase cp base).2

/-- the value, and where `*s` is in the end -/
def skip_atoi : (i : Int) → (s : List UInt8) → Int × List UInt8
  | i, [] => (i, [])
  | i, c :: s => if is_digit c then skip_atoi (sgn 32 (i * 10 + c.toNat - 48)) s else (i, c :: s)

/-! ## writing -/

/-- the bits of `type` -/
structure Flags where
  ZEROPAD : Bool := false
  SIGN : Bool := false
  PLUS : Bool := false
  SPACE : Bool := false
  LEFT : Bool := false
  SPECIAL : Bool := false
  LARGE : Bool := false

/-- `digits[i]` -/
def digits (LARGE : Bool) (i : Nat) : UInt8 :=
  UInt8.ofNat (if i < 10 then 48 + i else if LARGE then 55 + i else 87 + i)

/-- the loop that fills `tmp`, where there is room for `room` more characters; none where it is full -/
def tmpLoop (LARGE : Bool) (base : Nat) : (room num : Nat) → Option (List UInt8)
  | 0, num => if num ≠ 0 then none else some []
  | room + 1, num =>
    if num ≠ 0 then (tmpLoop LARGE base room (num / base)).map (digits LARGE (num % base) :: ·) else some []

/-- `tmp` up to `i`, the last digit first -/
def tmp (LARGE : Bool) (base num : Nat) : Option (List UInt8) :=
  if num = 0 then some [ZERO] else tmpLoop LARGE base 66 num

/-- `while (size-- > 0) *str++ = c`: what it stores, and `size` in the end -/
def pad (c : UInt8) (size : Int) : List UInt8 × Int :=
  (List.replicate size.toNat c, if 0 < size then -1 else sgn 32 (size - 1))

/-- the sign, the number without it, and the size that is left -/
def signed (type : Flags) (num size : Int) : List UInt8 × Int × Int :=
  if type.SIGN then
    if num < 0 then ([45], sgn 64 (-num), sgn 32 (size - 1))
    else if type.PLUS then ([43], num, sgn 32 (size - 1))
    else if type.SPACE then ([SP], num, sgn 32 (size - 1))
    else ([], num, size)
  else ([], num, size)

/-- `0` or `0x` -/
def special (type : Flags) (base : Nat) : List UInt8 :=
  if type.SPECIAL then
    if base = 8 then [ZERO] else if base = 16 then [ZERO, digits type.LARGE 33] else []
  else []

/-- what the loops at the end of `number` store -/
def store (type : Flags) (size precision : Int) (sign special tmp : List UInt8) : List UInt8 :=
  let c := if type.ZEROPAD then ZERO else SP
  let precision := if precision < tmp.length then (tmp.length : Int) else precision
  let size := sgn 32 (size - precision)
  let before := if type.ZEROPAD || type.LEFT then ([], size) else pad SP size
  let fill := if type.LEFT then ([], before.2) else pad c before.2
  let zeros := pad ZERO (precision - tmp.length)
  let behind := pad SP fill.2
  before.1 ++ sign ++ special ++ fill.1 ++ zeros.1 ++ tmp.reverse ++ behind.1

/-- what `number` stores at `str`; none where it returns a null pointer, or leaves `tmp` -/
def number (num : Int) (base : Nat) (size precision : Int) (type : Flags) : Option (List UInt8) :=
  let type := if type.LEFT then { type with ZEROPAD := false } else type
  if base < 2 ∨ 36 < base then none
  else
    let s := signed type num size
    let lead := special type base
    (tmp type.LARGE base (uns 64 s.2.1)).map (store type (sgn 32 (s.2.2 - lead.length)) precision s.1 lead)

/-! ## what number writes -/

/-- a number in some base, the first digit first -/
def numeral (LARGE : Bool) (base n : Nat) : List UInt8 :=
  if n = 0 then [ZERO] else ((Nat.digits base n).map (digits LARGE)).reverse

def signText (type : Flags) (num : Int) : List UInt8 :=
  if type.SIGN then
    if num < 0 then [45] else if type.PLUS then [43] else if type.SPACE then [SP] else []
  else []

def magnitude (type : Flags) (num : Int) : Nat := if type.SIGN then num.natAbs else uns 64 num

/-- the sign and the prefix -/
def head (type : Flags) (num : Int) (base : Nat) : List UInt8 := signText type num ++ special type base

/-- the digits with the zeros that the precision asks for -/
def body (type : Flags) (num : Int) (base : Nat) (precision : Int) : List UInt8 :=
  List.replicate (precision.toNat - (numeral type.LARGE base (magnitude type num)).length) ZERO ++
    numeral type.LARGE base (magnitude type num)

/-- a field of at least `size` characters -/
def field (type : Flags) (size : Int) (head body : List UInt8) : List UInt8 :=
  let k := size.toNat - (head.length + body.length)
  if type.LEFT then head ++ body ++ List.replicate k SP
  else if type.ZEROPAD then head ++ List.replicate k ZERO ++ body
  else List.replicate k SP ++ head ++ body

/-- no int overflows: the size is an int, and stays one without 64 digits, a sign, a prefix and three more steps -/
structure NoWrap (size precision : Int) : Prop where
  low : max precision 64 - 2147483642 ≤ size
  high : size < 2147483648

section
variable {LARGE : Bool} {base num room : Nat} {size precision : Int} {c : UInt8}

theorem tmpLoop_eq (hb : 1 < base) (h : num < base ^ room) :
    tmpLoop LARGE base room num = some ((Nat.digits base num).map (digits LARGE)) := by
  induction room generalizing num with
  | zero =>
    rw [Nat.pow_zero, Nat.lt_one_iff] at h
    rw [h, Nat.digits_zero]
    rfl
  | succ room ih =>
    unfold tmpLoop
    by_cases h0 : num = 0
    · rw [if_neg (not_not.mpr h0), h0, Nat.digits_zero]
      rfl
    · rw [if_pos h0, ih (Nat.div_lt_of_lt_mul (by rwa [← Nat.pow_succ'])),
        Nat.digits_def' hb (Nat.pos_of_ne_zero h0)]
      rfl

/-- `tmp` is never too short -/
theorem tmp_eq (hb : 1 < base) (h : num < 2 ^ 64) : tmp LARGE base num = some (numeral LARGE base num).reverse := by
  unfold tmp numeral
  by_cases h0 : num = 0
  · rw [if_pos h0, if_pos h0]
    rfl
  · have hroom : num < base ^ 66 := calc
      num < 2 ^ 64 := h
      _ ≤ base ^ 64 := Nat.pow_le_pow_left hb 64
      _ ≤ base ^ 66 := Nat.pow_le_pow_right (Nat.lt_of_succ_lt hb) (by decide)
    rw [if_neg h0, if_neg h0, tmpLoop_eq hb hroom, List.reverse_reverse]

theorem pad_fst (c : UInt8) (size : Int) : (pad c size).1 = List.replicate size.toNat c := rfl

/-- what the loop leaves of the size: a second one has nothing left to do -/
theorem pad_snd (c : UInt8) (h1 : -2147483648 < size) (h2 : size < 2147483648) :
    (pad c size).2 = min (size - 1) (-1) := by
  unfold pad
  dsimp only
  split
  · omega
  · rw [sgn32_of_range (by omega) (by omega)]
    omega

theorem signed_eq (type : Flags) {num : Int} (h1 : -9223372036854775808 ≤ num) (h2 : num < 9223372036854775808)
    (hs1 : -2147483648 < size) (hs2 : size < 2147483648) :
    (signed type num size).1 = signText type num ∧ uns 64 (signed type num size).2.1 = magnitude type num ∧
      (signed type num size).2.2 = size - (signText type num).length := by
  have hless : sgn 32 (size - 1) = size - 1 := sgn32_of_range (by omega) (by omega)
  unfold signed signText magnitude
  rw [hless]
  cases type.SIGN
  · exact ⟨rfl, rfl, (Int.sub_zero size).symm⟩
  · by_cases hn : num < 0
    · simp only [if_true, if_pos hn, true_and]
      refine ⟨?_, rfl⟩
      by_cases hmin : num = -9223372036854775808
      · rw [hmin]
        decide
      · rw [sgn64_of_range (by omega) (by omega)]
        have := uns64_of_range (x := -num) (by omega) (by omega)
        omega
    · have hnat : uns 64 num = num.natAbs := by
        have := uns64_of_range (x := num) (by omega) (by omega)
        omega
      simp only [if_true, if_neg hn]
      cases type.PLUS
      · cases type.SPACE
        · exact ⟨rfl, hnat, (Int.sub_zero size).symm⟩
        · exact ⟨rfl, hnat, rfl⟩
      · exact ⟨rfl, hnat, rfl⟩

theorem length_body (type : Flags) (num : Int) (base : Nat) (precision : Int) :
    (body type num base precision).length =
      max precision.toNat (numeral type.LARGE base (magnitude type num)).length := by
  unfold body
  rw [List.length_append, List.length_replicate]
  omega

/-- what is left of the size, behind the sign, the prefix and the digits -/
theorem left_eq (size precision : Int) (h x n : Nat) :
    (size - h - x - (if precision < n then (n : Int) else precision)).toNat =
      size.toNat - ((h + x) + max precision.toNat n) := by
  split <;> omega

theorem zeros_eq (precision : Int) (n : Nat) :
    ((if precision < n then (n : Int) else precision) - n).toNat = precision.toNat - n := by
  split <;> omega

theorem length_signText (type : Flags) (num : Int) : (signText type num).length ≤ 1 := by
  unfold signText
  cases type.SIGN
  · exact Nat.zero_le 1
  · rw [if_pos rfl]
    split
    · exact Nat.le_refl 1
    · cases type.PLUS <;> cases type.SPACE <;> decide

theorem length_special (type : Flags) (base : Nat) : (special type base).length ≤ 2 := by
  unfold special
  cases type.SPECIAL
  · exact Nat.zero_le 2
  · by_cases h8 : base = 8
    · rw [if_pos h8]
      decide
    · by_cases h16 : base = 16
      · rw [if_neg h8, if_pos h16]
        exact Nat.le_refl 2
      · rw [if_neg h8, if_neg h16]
        decide

theorem length_numeral (hb : 1 < base) (h : num < 2 ^ 64) : (numeral LARGE base num).length ≤ 64 := by
  unfold numeral
  split
  · decide
  · rw [List.length_reverse, List.length_map, Nat.digits_length_le_iff hb]
    exact Nat.lt_of_lt_of_le h (Nat.pow_le_pow_left hb 64)

/-- what is left of the size is an int, and three steps of the loops keep it one -/
theorem left_range (hr : NoWrap size precision) {h x n : Nat} (hh : h ≤ 1) (hx : x ≤ 2) (hn : n ≤ 64) :
    -2147483645 ≤ size - h - x - (if precision < n then (n : Int) else precision) ∧
      size - h - x - (if precision < n then (n : Int) else precision) < 2147483648 := by
  obtain ⟨hlow, hhigh⟩ := hr
  split <;> omega

theorem store_eq {type : Flags} (hz : type.LEFT → type.ZEROPAD = false) (hr : NoWrap size precision)
    {sign special digits : List UInt8} (hs : sign.length ≤ 1) (hx : special.length ≤ 2) (hd : digits.length ≤ 64) :
    store type (size - sign.length - special.length) precision sign special digits.reverse =
      field type size (sign ++ special) (List.replicate (precision.toNat - digits.length) ZERO ++ digits) := by
  obtain ⟨hlow, hhigh⟩ := left_range hr hs hx hd
  unfold store field
  simp only [List.length_reverse, List.reverse_reverse, pad_fst, zeros_eq, List.length_append, List.length_replicate]
  have hmax : precision.toNat - digits.length + digits.length = max precision.toNat digits.length := by omega
  rw [hmax, ← left_eq, sgn32_of_range (by omega) (by omega)]
  generalize size - sign.length - special.length -
    (if precision < digits.length then (digits.length : Int) else precision) = left at hlow hhigh
  have hafter := fun c => pad_snd c (by omega : -2147483648 < left) hhigh
  have hnone : (min (left - 1) (-1)).toNat = 0 := by omega
  cases hL : type.LEFT
  · cases type.ZEROPAD
    · -- the blanks in front leave nothing for the two loops behind them
      have hagain := pad_snd SP (by omega : -2147483648 < min (left - 1) (-1)) (by omega)
      simp [pad_fst, hafter, hagain, hnone]
    · simp [pad_fst, hafter, hnone, -List.replicate_append_replicate]
  · rw [hz hL]
    simp

/-- the loops write the field once `ZEROPAD` is settled -/
theorem number_settled {num : Int} (h1 : -9223372036854775808 ≤ num) (h2 : num < 9223372036854775808) (hb : 2 ≤ base)
    (hr : NoWrap size precision) (type : Flags) (hz : type.LEFT → type.ZEROPAD = false) :
    (tmp type.LARGE base (uns 64 (signed type num size).2.1)).map (store type
        (sgn 32 ((signed type num size).2.2 - (special type base).length)) precision (signed type num size).1
        (special type base)) =
      some (field type size (head type num base) (body type num base precision)) := by
  have hsmall : -2147483640 ≤ size ∧ size < 2147483648 := ⟨by have := hr.low; omega, hr.high⟩
  obtain ⟨hsign, hmag, hsize⟩ := signed_eq type h1 h2 (by omega : -2147483648 < size) hsmall.2
  have hlt : magnitude type num < 2 ^ 64 := by
    rw [← hmag]
    exact uns64_lt _
  have hhead := length_signText type num
  have hspec := length_special type base
  have hleft : sgn 32 (size - (signText type num).length - (special type base).length) =
      size - (signText type num).length - (special type base).length := sgn32_of_range (by omega) (by omega)
  rw [hsign, hmag, hsize, hleft, tmp_eq hb hlt, Option.map_some, store_eq hz hr hhead hspec (length_numeral hb hlt)]
  rfl

/-- the number is written in a field of the given size -/
theorem number_eq {num : Int} (h1 : -9223372036854775808 ≤ num) (h2 : num < 9223372036854775808) (hb : 2 ≤ base)
    (hb' : base ≤ 36) (hr : NoWrap size precision) (type : Flags) :
    number num base size precision type =
      some (field type size (head type num base) (body type num base precision)) := by
  have hbase : ¬ (base < 2 ∨ 36 < base) := by omega
  obtain ⟨Z, S, P, B, L, X, G⟩ := type
  unfold number
  rw [if_neg hbase]
  cases L
  · exact number_settled h1 h2 hb hr ⟨Z, S, P, B, false, X, G⟩ fun h => absurd h Bool.false_ne_true
  · exact number_settled h1 h2 hb hr ⟨false, S, P, B, true, X, G⟩ fun _ => rfl

end

/-! ## what simple_strtoul reads -/

theorem findBase_given {base : Nat} {cp : List UInt8} (h : base ≠ 0) : findBase cp base = (base, cp) := by
  unfold findBase
  exact if_neg h

/-- the number that digits stand for, the first one first -/
def valueOf (base : Nat) (r : Nat) (ds : List Nat) : Nat := ds.foldl (fun r d => r * base + d) r

section
variable {LARGE : Bool} {base n r : Nat} {ds rest : List UInt8}

theorem valueOf_digits (hb : 1 < base) (n : Nat) : valueOf base 0 (Nat.digits base n).reverse = n := by
  unfold valueOf
  rw [List.foldl_reverse]
  conv_rhs => rw [← Nat.ofDigits_digits base n, Nat.ofDigits_eq_foldr]
  congr 1
  funext d m
  rw [Nat.mul_comm, Nat.add_comm]
  rfl

theorem valueOf_le (hb : 0 < base) (r : Nat) (ds : List Nat) : r ≤ valueOf base r ds := by
  induction ds generalizing r with
  | nil => exact Nat.le_refl r
  | cons d ds ih => exact Nat.le_trans (Nat.le_trans (Nat.le_mul_of_pos_right r hb) (Nat.le_add_right _ d)) (ih _)

theorem valueOf_zeros (k : Nat) (ds : List Nat) : valueOf base 0 (List.replicate k 0 ++ ds) = valueOf base 0 ds := by
  induction k with
  | zero => rfl
  | succ k ih =>
    rw [List.replicate_succ, List.cons_append]
    show valueOf base (0 * base + 0) _ = _
    rw [Nat.zero_mul]
    exact ih

/-- the digits that are read -/
theorem digit_read : ∀ LARGE : Bool, ∀ d < 16, (LARGE ∨ d < 10) →
    is_xdigit (digits LARGE d) = true ∧ value (digits LARGE d) = d := by decide

/-- a lower case letter has too large a value -/
theorem letter_value : ∀ d < 16, 10 ≤ d → value (digits false d) = d + 64 := by decide

theorem uns64_mod (n : Nat) : uns 64 n = n % 18446744073709551616 := by
  unfold uns
  norm_num
  omega

theorem readDigits_map {ds : List Nat} (hb : base ≤ 16) (hd : ∀ d ∈ ds, d < base) (hl : ∀ d ∈ ds, LARGE ∨ d < 10) :
    readDigits base (uns 64 r) (ds.map (digits LARGE) ++ rest) =
      readDigits base (uns 64 (valueOf base r ds)) rest := by
  induction ds generalizing r with
  | nil => rfl
  | cons d ds ih =>
    obtain ⟨hd0, hds⟩ := List.forall_mem_cons.mp hd
    obtain ⟨hl0, hls⟩ := List.forall_mem_cons.mp hl
    obtain ⟨hx, hv⟩ := digit_read LARGE d (Nat.lt_of_lt_of_le hd0 hb) hl0
    have hwrap : uns 64 ((uns 64 r * base + d : Nat) : Int) = uns 64 ((r * base + d : Nat) : Int) := by
      rw [uns64_mod, uns64_mod, uns64_mod, Nat.add_mod, Nat.mul_mod, Nat.mod_mod, ← Nat.mul_mod, ← Nat.add_mod]
    rw [List.map_cons, List.cons_append, readDigits, hx, hv, decide_eq_true hd0, Bool.true_and, if_pos rfl, hwrap]
    exact ih hds hls

theorem readDigits_letter {d : Nat} (hb : base ≤ 16) (hd : d < base) (h10 : 10 ≤ d) :
    readDigits base r (digits false d :: rest) = (r, digits false d :: rest) := by
  have hv := letter_value d (Nat.lt_of_lt_of_le hd hb) h10
  rw [readDigits, hv, decide_eq_false (by omega : ¬ d + 64 < base), Bool.and_false, if_neg Bool.false_ne_true]

theorem readDigits_blanks (k : Nat) : readDigits base r (List.replicate k SP) = (r, List.replicate k SP) := by
  cases k with
  | zero => rfl
  | succ k => rfl

/-- the value of the digits in front of a letter is smaller than the number -/
theorem valueOf_lt {d : Nat} (hb : 1 < base) (hd : 0 < d) (pre post : List Nat) :
    valueOf base 0 pre < valueOf base 0 (pre ++ d :: post) := by
  have happ : valueOf base 0 (pre ++ d :: post) = valueOf base (valueOf base 0 pre * base + d) post :=
    List.foldl_append
  calc valueOf base 0 pre ≤ valueOf base 0 pre * base := Nat.le_mul_of_pos_right _ (Nat.lt_of_succ_lt hb)
    _ < valueOf base 0 pre * base + d := Nat.lt_add_of_pos_right hd
    _ ≤ valueOf base (valueOf base 0 pre * base + d) post := valueOf_le (Nat.lt_of_succ_lt hb) _ post
    _ = _ := happ.symm

/-- digits up to the first letter -/
theorem exists_first_letter : ∀ ds : List Nat, (∃ d ∈ ds, 10 ≤ d) →
    ∃ pre d post, ds = pre ++ d :: post ∧ (∀ e ∈ pre, e < 10) ∧ 10 ≤ d
  | [], h => by
    obtain ⟨d, hd, -⟩ := h
    exact absurd hd List.not_mem_nil
  | e :: ds, h => by
    by_cases he : 10 ≤ e
    · exact ⟨[], e, ds, rfl, fun d hd => absurd hd List.not_mem_nil, he⟩
    · obtain ⟨d, hd, h10⟩ := h
      obtain rfl | hd := List.mem_cons.mp hd
      · exact absurd h10 he
      obtain ⟨pre, d', post, rfl, hpre, h10'⟩ := exists_first_letter ds ⟨d, hd, h10⟩
      exact ⟨e :: pre, d', post, rfl, List.forall_mem_cons.mpr ⟨Nat.lt_of_not_le he, hpre⟩, h10'⟩

/-- the digits with zeros in front, as a list of numbers -/
theorem zeros_numeral (LARGE : Bool) (base k n : Nat) : ∃ z, List.replicate k ZERO ++ numeral LARGE base n =
    (List.replicate z 0 ++ (Nat.digits base n).reverse).map (digits LARGE) := by
  have hzero : digits LARGE 0 = ZERO := by cases LARGE <;> rfl
  by_cases h0 : n = 0
  · refine ⟨k + 1, ?_⟩
    rw [numeral, if_pos h0, h0, Nat.digits_zero, List.reverse_nil, List.append_nil, List.map_replicate, hzero,
      List.replicate_succ']
  · refine ⟨k, ?_⟩
    rw [numeral, if_neg h0, List.map_append, List.map_replicate, hzero, List.map_reverse]

/-- digits are read back if no lower case letter is among them -/
theorem readDigits_numeral (hb : 1 < base) (hb' : base ≤ 16) (hn : n < 18446744073709551616) (k j : Nat) :
    (readDigits base 0 (List.replicate k ZERO ++ numeral LARGE base n ++ List.replicate j SP)).1 = n ↔
      LARGE ∨ ∀ d ∈ Nat.digits base n, d < 10 := by
  obtain ⟨z, hz⟩ := zeros_numeral LARGE base k n
  have hlt : ∀ d ∈ List.replicate z 0 ++ (Nat.digits base n).reverse, d < base := fun d hd => by
    obtain hd | hd := List.mem_append.mp hd
    · rw [List.eq_of_mem_replicate hd]
      exact Nat.lt_of_succ_lt hb
    · exact Nat.digits_lt_base hb (List.mem_reverse.mp hd)
  have hval : valueOf base 0 (List.replicate z 0 ++ (Nat.digits base n).reverse) = n := by
    rw [valueOf_zeros, valueOf_digits hb]
  have hmem : (∀ d ∈ Nat.digits base n, d < 10) ↔
      ∀ d ∈ List.replicate z 0 ++ (Nat.digits base n).reverse, d < 10 := by
    refine ⟨fun h d hd => ?_, fun h d hd => h d (List.mem_append_right _ (List.mem_reverse.mpr hd))⟩
    obtain hd | hd := List.mem_append.mp hd
    · rw [List.eq_of_mem_replicate hd]
      decide
    · exact h d (List.mem_reverse.mp hd)
  rw [hz, hmem]
  generalize List.replicate z 0 ++ (Nat.digits base n).reverse = ds at hlt hval
  have hstart : (0 : Nat) = uns 64 (0 : Nat) := by decide
  constructor
  · intro h
    by_contra hno
    obtain ⟨hlarge, hletter⟩ := not_or.mp hno
    rw [Bool.not_eq_true] at hlarge
    push Not at hletter
    obtain ⟨pre, d, post, rfl, hpre, h10⟩ := exists_first_letter ds hletter
    rw [hstart, List.map_append, List.append_assoc, readDigits_map hb'
      (fun e he => hlt e (List.mem_append_left _ he)) (fun e he => .inr (hpre e he)), List.map_cons, hlarge,
      List.cons_append, readDigits_letter hb' (hlt d (List.mem_append_right _ List.mem_cons_self)) h10] at h
    have hless := valueOf_lt hb (by omega : 0 < d) pre post
    rw [uns64_mod, Nat.mod_eq_of_lt (by omega)] at h
    omega
  · intro h
    rw [hstart, readDigits_map hb' hlt (fun d hd => h.imp id fun h => h d hd), hval, readDigits_blanks, uns64_mod,
      Nat.mod_eq_of_lt hn]

theorem length_field (type : Flags) (size : Int) (head body : List UInt8) :
    (field type size head body).length = max size.toNat (head.length + body.length) := by
  unfold field
  cases type.LEFT
  · cases type.ZEROPAD <;> simp <;> omega
  · simp
    omega

/-- without a sign and a prefix, and filled with zeros or to the left, a number is digits with blanks behind them,
whatever becomes of the size -/
theorem number_store {type : Flags} (num size precision : Int) (hb : 2 ≤ base) (hb' : base ≤ 36)
    (hs : type.SIGN = false) (hx : type.SPECIAL = false) (hz : type.ZEROPAD ∨ type.LEFT) :
    ∃ k j, number num base size precision type =
      some (List.replicate k ZERO ++ numeral type.LARGE base (uns 64 num) ++ List.replicate j SP) := by
  have hbase : ¬ (base < 2 ∨ 36 < base) := by omega
  obtain ⟨Z, S, P, B, L, X, G⟩ := type
  change S = false at hs
  change X = false at hx
  subst hs hx
  unfold number
  rw [if_neg hbase]
  cases L
  · obtain rfl : Z = true := hz.resolve_right Bool.false_ne_true
    simp only [signed, special, store, tmp_eq hb (uns64_lt num), Option.map_some, pad_fst, Bool.false_eq_true, if_false,
      if_true, Bool.true_or, List.nil_append, List.reverse_reverse, ← List.replicate_add]
    exact ⟨_, _, rfl⟩
  · simp only [signed, special, store, tmp_eq hb (uns64_lt num), Option.map_some, pad_fst, Bool.false_eq_true, if_false,
      if_true, Bool.or_true, List.nil_append, List.reverse_reverse]
    exact ⟨_, _, rfl⟩

end

/-! ## the results on numbers -/

/-- the number is written in a field, for every base and flags, and every size and precision without an overflow -/
theorem number_field (num : Int) (h1 : -9223372036854775808 ≤ num) (h2 : num < 9223372036854775808) (base : Nat)
    (hb : 2 ≤ base) (hb' : base ≤ 36) (size precision : Int) (hr : NoWrap size precision) (type : Flags) :
    ∃ t, number num base size precision type = some t ∧
      t = field type size (head type num base) (body type num base precision) ∧
      t.length = max size.toNat ((head type num base).length +
        max precision.toNat (numeral type.LARGE base (magnitude type num)).length) := by
  refine ⟨_, number_eq h1 h2 hb hb' hr type, rfl, ?_⟩
  rw [length_field, length_body]

theorem number_field_min :
    ∃ t, number (-9223372036854775808) 10 25 (-1) { SIGN := true } = some t ∧
      t = field { SIGN := true } 25 (head { SIGN := true } (-9223372036854775808) 10)
        (body { SIGN := true } (-9223372036854775808) 10 (-1)) ∧
      t.length = max (25 : Int).toNat ((head { SIGN := true } (-9223372036854775808) 10).length +
        max (-1 : Int).toNat (numeral false 10 (magnitude { SIGN := true } (-9223372036854775808))).length) :=
  number_field (-9223372036854775808) (by decide) (by decide) 10 (by decide) (by decide) 25 (-1)
    ⟨by decide, by decide⟩ { SIGN := true }

/-- out of the range the size wraps round to a large one -/
example : (pad SP (sgn 32 (sgn 32 (-2147483648) - 1))).1.length = 2147483647 := by
  rw [pad_fst, List.length_replicate]
  decide

/-- `simple_strtoul` reads a number back if and only if it was written without lower case letters -/
theorem strtoul_number_iff (num : Int) (h1 : -9223372036854775808 ≤ num) (h2 : num < 9223372036854775808) (base : Nat)
    (hb : 2 ≤ base) (hb' : base ≤ 16) (size precision : Int) (type : Flags) (hs : type.SIGN = false)
    (hx : type.SPECIAL = false) (hz : type.ZEROPAD ∨ type.LEFT) :
    ∃ t, number num base size precision type = some t ∧
      ((simple_strtoul t base).1 = uns 64 num ↔ type.LARGE ∨ ∀ d ∈ Nat.digits base (uns 64 num), d < 10) := by
  obtain ⟨k, j, hnumber⟩ := number_store num size precision hb (by omega : base ≤ 36) hs hx hz
  refine ⟨_, hnumber, ?_⟩
  rw [simple_strtoul, findBase_given (by omega)]
  exact readDigits_numeral hb hb' (uns64_lt num) k j

theorem strtoul_number_iff_dead :
    ∃ t, number 0xdead 16 8 (-1) { ZEROPAD := true } = some t ∧
      ((simple_strtoul t 16).1 = uns 64 0xdead ↔ false ∨ ∀ d ∈ Nat.digits 16 (uns 64 0xdead), d < 10) :=
  strtoul_number_iff 0xdead (by decide) (by decide) 16 (by decide) (by decide) 8 (-1) { ZEROPAD := true } rfl rfl
    (.inl rfl)

end Vsprintf
