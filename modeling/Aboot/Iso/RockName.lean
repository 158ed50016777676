import Aboot.Iso.SymLink

/-!
# The Rock Ridge name of a directory record

`get_rock_ridge_filename` appends the texts of the NM entries of a record, and of its continuation
areas, to a string on the stack.

* `SuArea`, `NameChain`   the entries of a record and of the continuation areas behind it;
* `NamedBy`       the name that they make: their texts one after the other, cut at 254 characters;
* `Followed`      the continuation areas that the code reads and goes on at the start of;
* `StackZero`     the stack has a zero behind every text;
* `rock_name_iff` the name is right if and only if it has.
-/

set_option linter.unusedVariables false

namespace Iso
open Word Prog Append

/-! ## the entries on the disc -/

/-- an NM entry with flags 0 or 1 -/
def IsName (d : Mem) (k : Nat) : Prop := rr_sig d k = SIG 'N' 'M' ∧ rr_flags d k &&& 0xfe = 0

instance (d : Mem) (k : Nat) : Decidable (IsName d k) := inferInstanceAs (Decidable (_ ∧ _))

/-- the text of an NM entry -/
def nameText (d : Mem) (k : Nat) : List UInt8 := d.get (rr_body k) (rr_len d k - 5)

/-- the entry at `k`, with `len` bytes left: the bytes that are read of it lie in its area, and it does not
end the search for a name -/
structure NameFits (d : Mem) (k : Nat) (len : Int) : Prop where
  some : 3 ≤ len
  header : rr_len d k ≠ 0
  rr : rr_sig d k = SIG 'R' 'R' → 5 ≤ len ∧ rr_flags d k &&& RR_NM ≠ 0
  sp : rr_sig d k = SIG 'S' 'P' → 6 ≤ len ∧ checkSP d k = true
  ce : rr_sig d k = SIG 'C' 'E' → 24 ≤ len
  nm : rr_sig d k = SIG 'N' 'M' → 5 ≤ len
  text : IsName d k → 5 ≤ rr_len d k ∧ (rr_len d k : Int) ≤ len ∧ 0 ∉ nameText d k
  re : rr_sig d k ≠ SIG 'R' 'E'

instance (d : Mem) (k : Nat) (len : Int) : Decidable (NameFits d k len) :=
  decidable_of_iff (3 ≤ len ∧ rr_len d k ≠ 0 ∧
      (rr_sig d k = SIG 'R' 'R' → 5 ≤ len ∧ rr_flags d k &&& RR_NM ≠ 0) ∧
      (rr_sig d k = SIG 'S' 'P' → 6 ≤ len ∧ checkSP d k = true) ∧
      (rr_sig d k = SIG 'C' 'E' → 24 ≤ len) ∧ (rr_sig d k = SIG 'N' 'M' → 5 ≤ len) ∧
      (IsName d k → 5 ≤ rr_len d k ∧ (rr_len d k : Int) ≤ len ∧ 0 ∉ nameText d k) ∧
      rr_sig d k ≠ SIG 'R' 'E')
    ⟨fun ⟨h1, h2, h3, h4, h5, h6, h7, h8⟩ => ⟨h1, h2, h3, h4, h5, h6, h7, h8⟩,
      fun h => ⟨h.some, h.header, h.rr, h.sp, h.ce, h.nm, h.text, h.re⟩⟩

/-- the kinds of entries that matter for a name -/
def nameSigs : List (UInt8 × UInt8) :=
  [SIG 'R' 'R', SIG 'S' 'P', SIG 'C' 'E', SIG 'N' 'M', SIG 'R' 'E']

/-- no entry is left in an area of `len` bytes: at most one byte is, or a zero length, or two bytes whose
length lies behind the area and that are of no kind that matters -/
def AreaEnd (d : Mem) (k : Nat) (len : Int) : Prop :=
  len ≤ 1 ∨ (len = 2 ∧ rr_sig d k ∉ nameSigs) ∨ (3 ≤ len ∧ rr_len d k = 0)

instance (d : Mem) (k : Nat) (len : Int) : Decidable (AreaEnd d k len) :=
  inferInstanceAs (Decidable (_ ∨ _ ∨ _))

/-- the entries of an area of `len` bytes from `k` on -/
inductive SuArea (d : Mem) : (k : Nat) → (len : Int) → List Nat → Prop where
  | done {k : Nat} {len : Int} (h : AreaEnd d k len) : SuArea d k len []
  | entry {k : Nat} {len : Int} {es : List Nat} (h : NameFits d k len)
      (rest : SuArea d (k + rr_len d k) (len - rr_len d k) es) : SuArea d k len (k :: es)

/-- a continuation area -/
structure Area where
  extent : Nat
  offset : Nat
  size : Nat
deriving DecidableEq

/-- the area that a CE entry names -/
def ceArea (d : Mem) (k : Nat) : Area := ⟨d.le32 (k + 4), d.le32 (k + 12), d.le32 (k + 20)⟩

/-- where an area starts on the disc -/
def Area.start (c : Area) : Nat := c.extent * ISOFS_BLOCK_SIZE + c.offset

def Area.mem (E : Env) (dev : Int) (c : Area) : Mem := fun j => E.bytes dev (c.start + j : Nat)

/-- the area as the code has it -/
def Area.cont (c : Area) : Cont := ⟨sgn 32 c.extent, sgn 32 c.offset, sgn 32 c.size⟩

/-- the texts of some entries -/
def namesOf (d : Mem) (es : List Nat) : List (List UInt8) :=
  es.flatMap fun k => if IsName d k then [nameText d k] else []

/-- the continuation area that some entries name: the last CE entry of them does -/
def areaOf (d : Mem) : List Nat → Option Area
  | [] => none
  | k :: es => (areaOf d es).or (if rr_sig d k = SIG 'C' 'E' then some (ceArea d k) else none)

/-- the texts of an area and of the continuation areas behind it -/
inductive NameChain (E : Env) (dev : Int) : Mem → Nat → Int → List (List UInt8) → List Area → Prop where
  | last {d : Mem} {k : Nat} {len : Int} {es : List Nat} (h : SuArea d k len es)
      (hce : areaOf d es = none) : NameChain E dev d k len (namesOf d es) []
  | more {d : Mem} {k : Nat} {len : Int} {es : List Nat} {c : Area} {ts : List (List UInt8)}
      {cs : List Area} (h : SuArea d k len es) (hce : areaOf d es = some c)
      (rest : NameChain E dev (c.mem E dev) 0 c.size ts cs) :
      NameChain E dev d k len (namesOf d es ++ ts) (c :: cs)

/-- the name that some texts make -/
def nameOf (ts : List (List UInt8)) : List UInt8 := ts.flatten.take 254

/-- `ret` and `retname` are the name, and only 255 bytes of the stack were written -/
structure NamedBy (g : Mem) (ts : List (List UInt8)) (ret : Int) (retname : Mem) : Prop where
  length : ret = (nameOf ts).length
  text : retname.get 0 (nameOf ts).length = nameOf ts
  stop : retname (nameOf ts).length = 0
  frame : ∀ q, 255 ≤ q → retname q = g q

/-- the code goes on at the start of every area: it starts at a block below 2 GB that is not block 0,
there is memory for it, and it can be read -/
def Followed (E : Env) (dev : Int) : (n free_mem_ptr : Nat) → List Area → Prop
  | _, _, [] => True
  | n, p, c :: cs =>
    (c.extent ≠ 0 ∧ c.offset = 0 ∧ c.start < 2147483648 ∧ c.size < 2147483648 ∧
      ¬ out_of_memory (malloc E.clusters p c.size) ∧ (E.read n dev c.size c.start).ret = c.size) ∧
    Followed E dev (n + 1) (malloc E.clusters p c.size) cs

/-- the stack is zero behind every text that is not empty, or where it is cut -/
def StackZero (g : Mem) (ts : List (List UInt8)) : Prop :=
  ∀ pre t post, ts = pre ++ t :: post → t ≠ [] → pre.flatten.length < 254 →
    g (min 254 (pre.flatten.length + t.length)) = 0

theorem stackZero_nil (g : Mem) : StackZero g [] := by
  intro pre t post h
  exact absurd h.symm (by simp)

theorem stackZero_snoc {g : Mem} {ts : List (List UInt8)} {t : List UInt8} :
    StackZero g (ts ++ [t]) ↔ StackZero g ts ∧
      (t ≠ [] → ts.flatten.length < 254 → g (min 254 (ts.flatten.length + t.length)) = 0) := by
  constructor
  · intro h
    refine ⟨fun pre q post hq => h pre q (post ++ [t]) ?_, h ts t [] rfl⟩
    rw [hq, List.append_assoc, List.cons_append]
  · rintro ⟨h1, h2⟩ pre q post hq
    rcases List.eq_nil_or_concat post with rfl | ⟨post', q', rfl⟩
    · obtain ⟨rfl, h⟩ := List.append_inj' hq rfl
      obtain rfl : t = q := by simpa using h
      exact h2
    · have he : ts ++ [t] = (pre ++ q :: post') ++ [q'] := by
        rw [hq, List.concat_eq_append, List.append_assoc, List.cons_append]
      exact h1 pre q post' (List.append_inj' he rfl).1

theorem stackZero_append {g : Mem} {ts us : List (List UInt8)} (h : StackZero g (ts ++ us)) :
    StackZero g ts := by
  intro pre t post hts
  exact h pre t (post ++ us) (by rw [hts, List.append_assoc, List.cons_append])

/-! ## strings -/

section
variable {dest m : Mem} {e fuel src count : Nat} {s t : State} {b : Mem}

theorem ncat_run (count : Nat) : ∀ {fuel src : Nat}, count ≤ fuel → 0 ∉ m.get src count →
    ncat m fuel src count s = some (m.get src count, s) := by
  induction count with
  | zero =>
    intro fuel src hle hn
    unfold ncat
    rfl
  | succ count ih =>
    intro fuel src hle hn
    obtain ⟨fuel, rfl⟩ : ∃ n, fuel = n + 1 := ⟨fuel - 1, by omega⟩
    rw [get_succ] at hn ⊢
    obtain ⟨h0, hrest⟩ := not_or.mp fun h => hn (List.mem_cons.mpr h)
    unfold ncat
    rw [if_neg (Ne.symm h0), bind_run (ih (by omega) hrest), pure_run]

/-- `strncat` of a text without a NUL -/
theorem strncat_run (h : IsEnd dest e) (he : e < fuel) (hle : count ≤ fuel) (hn : 0 ∉ m.get src count) :
    strncat fuel dest m src count s = some (dest.put e (m.get src count), s) := by
  unfold strncat
  by_cases h0 : count = 0
  · rw [if_pos h0, h0, Mem.get_zero, Mem.put_nil, pure_run]
  · rw [if_neg h0, bind_run (strEnd_run h (Nat.zero_le e) (by omega)), bind_run (ncat_run count hle hn),
      pure_run]

theorem strEnd_same {p : Nat} (h : strEnd dest fuel p s = some (e, t)) : t = s := by
  induction fuel generalizing p with
  | zero => cases h
  | succ fuel ih =>
    unfold strEnd at h
    split at h
    · exact (congrArg Prod.snd (Option.some.inj h)).symm
    · exact ih h

theorem ncat_same {l : List UInt8} (h : ncat m fuel src count s = some (l, t)) : t = s := by
  induction fuel generalizing src count l t with
  | zero =>
    cases count with
    | zero => exact (congrArg Prod.snd (Option.some.inj h)).symm
    | succ count => cases h
  | succ fuel ih =>
    cases count with
    | zero => exact (congrArg Prod.snd (Option.some.inj h)).symm
    | succ count =>
      unfold ncat at h
      split at h
      · exact (congrArg Prod.snd (Option.some.inj h)).symm
      · obtain ⟨l', t', h1, h2⟩ := bind_some.mp h
        have ht : t' = t := congrArg Prod.snd (Option.some.inj h2)
        rw [← ht]
        exact ih h1

/-- what any `strncat` leaves: the bytes before the end of the string, and a text without a NUL is stored
whole -/
theorem strncat_some (he : IsEnd dest e) (h : strncat fuel dest m src count s = some (b, t)) :
    t = s ∧ (∀ q, q < e → b q = dest q) ∧ (0 ∉ m.get src count → b = dest.put e (m.get src count)) := by
  unfold strncat at h
  by_cases h0 : count = 0
  · rw [if_pos h0] at h
    obtain ⟨rfl, rfl⟩ := Prod.mk.inj (Option.some.inj h)
    refine ⟨rfl, fun q hq => rfl, fun _ => ?_⟩
    rw [h0, Mem.get_zero, Mem.put_nil]
  · rw [if_neg h0] at h
    obtain ⟨e', t1, h1, hr⟩ := bind_some.mp h
    obtain ⟨l, t2, h2, hr⟩ := bind_some.mp hr
    obtain ⟨hb, ht⟩ := Prod.mk.inj (Option.some.inj hr)
    have he' : e' = e := (strEnd_isEnd h1).unique he
    rw [he'] at hb
    rw [← hb]
    refine ⟨?_, fun q hq => Mem.put_out _ _ _ _ (.inl hq), fun hn => ?_⟩
    · rw [← ht, ncat_same h2, strEnd_same h1]
    · have htake : (m.get src count).takeWhile (fun c => c ≠ 0) = m.get src count := by
        apply List.takeWhile_eq_self_iff.mpr
        intro c hc
        exact decide_eq_true fun h0 => hn (h0 ▸ hc)
      rw [ncat_some h2, if_neg hn, List.append_nil, htake]

end

/-! ## the name so far -/

/-- the string is the name so far, and has a zero behind it -/
structure RightName (g : Mem) (ts : List (List UInt8)) (x : Name) : Prop where
  text : Over g x.retname (nameOf ts) true
  len : x.retnamlen = (nameOf ts).length
  cut : x.truncate = true ↔ 254 ≤ ts.flatten.length

/-- the string is longer than the name -/
def WrongName (ts : List (List UInt8)) (x : Name) : Prop :=
  (x.truncate = false ∧ x.retnamlen = ts.flatten.length ∧
    ∃ l, ts.flatten.length < l ∧ ∀ q, q < l → x.retname q ≠ 0) ∨
  (x.truncate = true ∧ ((∀ q, q < 255 → x.retname q ≠ 0) ∨
    (x.retnamlen < 254 ∧ ∀ q, q < 254 → x.retname q ≠ 0)))

/-- the string after some texts -/
def NameSoFar (g : Mem) (ts : List (List UInt8)) (x : Name) : Prop :=
  (StackZero g ts ∧ RightName g ts x) ∨ (¬ StackZero g ts ∧ WrongName ts x)

section
variable {g : Mem} {ts : List (List UInt8)} {t : List UInt8} {x y : Name}

theorem nameOf_length (ts : List (List UInt8)) : (nameOf ts).length = min 254 ts.flatten.length :=
  List.length_take

theorem nameOf_snoc (ts : List (List UInt8)) (t : List UInt8) (h : ts.flatten.length ≤ 254) :
    nameOf (ts ++ [t]) = nameOf ts ++ t.take (254 - ts.flatten.length) := by
  unfold nameOf
  rw [List.flatten_append, List.flatten_cons, List.flatten_nil, List.append_nil, List.take_append,
    List.take_of_length_le h]

/-- the name is right if and only if the stack is zero behind the texts -/
theorem NameSoFar.named (h : NameSoFar g ts x) : NamedBy g ts x.retnamlen x.retname ↔ StackZero g ts := by
  have hle := nameOf_length ts
  rcases h with ⟨hz, hx⟩ | ⟨hz, hx⟩
  · refine iff_of_true ⟨hx.len, hx.text.text, hx.text.stop, fun q hq => hx.text.rest q (by omega)⟩ hz
  · refine iff_of_false (fun hn => ?_) hz
    have hstop := hn.stop
    have hlen := hn.length
    rcases hx with ⟨-, -, l, hl, hne⟩ | ⟨-, hne | ⟨hlt, hne⟩⟩
    · exact hne _ (by omega) hstop
    · exact hne _ (by omega) hstop
    · exact hne _ (by omega) hstop

/-- the first zero of a right string -/
theorem RightName.isEnd (h : RightName g ts x) : IsEnd x.retname (nameOf ts).length :=
  ⟨h.text.stop, fun q hq => h.text.ne_zero hq⟩

/-- a text without a NUL leaves no zero before its end -/
theorem put_ne_zero {b : Mem} {e : Nat} (h : ∀ q, q < e → b q ≠ 0) (ht : 0 ∉ t) :
    ∀ q, q < e + t.length → b.put e t q ≠ 0 := by
  intro q hq
  by_cases he : q < e
  · rw [Mem.put_out _ _ _ _ (.inl he)]
    exact h q he
  · obtain ⟨k, rfl⟩ := Nat.exists_eq_add_of_le (not_lt.mp he)
    rw [Mem.put_in b e k t (by omega)]
    exact fun h0 => ht (h0 ▸ List.getElem_mem _)

/-! ## one text -/

variable {m : Mem} {a depth : Nat} {s u : State}

/-- what an NM entry does: its text is stored, or cut, or stored behind a string that is too long -/
theorem nameAppend_some (h5 : 5 ≤ rr_len m a) (ht : nameText m a = t) (hn : 0 ∉ t)
    (h : nameAppend depth m a x s = some (y, u)) : u = s ∧ y.cont = x.cont ∧ ∃ e, IsEnd x.retname e ∧
      ((uns 64 ((e + t.length : Nat) : Int) < 254 ∧ y.truncate = x.truncate ∧
          y.retnamlen = x.retnamlen + t.length ∧ y.retname = x.retname.put e t) ∨
        (e ≤ 254 ∧ 254 ≤ e + t.length ∧ y.truncate = true ∧ y.retnamlen = x.retnamlen + (254 - e) ∧
          y.retname = x.retname.put e (t.take (254 - e))) ∨
        (254 < e ∧ y.truncate = true ∧ ∀ q, q < e → y.retname q = x.retname q)) := by
  have hlen : t.length = rr_len m a - 5 := by
    rw [← ht]
    exact Mem.length_get _ _ _
  have hlt : rr_len m a < 256 := (m (a + 2)).toNat_lt
  unfold nameAppend at h
  obtain ⟨e, s1, h1, hr⟩ := bind_some.mp h
  have hend := strEnd_isEnd h1
  rw [strEnd_same h1] at hr
  have hsum : (e : Int) + rr_len m a - 5 = (e + t.length : Nat) := by omega
  have hcount : ((rr_len m a : Int) - 5) = (t.length : Nat) := by omega
  rw [hsum, hcount, uns64_natCast (by omega : t.length < 18446744073709551616)] at hr
  split at hr
  · rename_i hcut
    obtain ⟨b, s2, h2, hr⟩ := bind_some.mp hr
    obtain ⟨hs2, hbefore, hput⟩ := strncat_some hend h2
    obtain ⟨rfl, rfl⟩ := Prod.mk.inj (Option.some.inj hr)
    refine ⟨hs2, rfl, e, hend, ?_⟩
    by_cases he : e ≤ 254
    · have hi : sgn 32 (254 - (e : Int)) = (254 - e : Nat) := by
        rw [sgn32_of_range (by omega) (by omega)]
        omega
      rw [uns64_natCast (by omega)] at hcut
      rw [hi, uns64_natCast (by omega)] at hput
      have htake : m.get (rr_body a) (254 - e) = t.take (254 - e) := by
        rw [← ht, nameText, show rr_len m a - 5 = 254 - e + (rr_len m a - 5 - (254 - e)) by omega, Mem.get_add,
          List.take_left' (Mem.length_get _ _ _)]
      rw [htake] at hput
      refine .inr (.inl ⟨he, hcut, rfl, ?_, hput fun h0 => hn (List.mem_of_mem_take h0)⟩)
      show x.retnamlen + sgn 32 (254 - (e : Int)) = _
      rw [hi]
      omega
    · exact .inr (.inr ⟨by omega, rfl, hbefore⟩)
  · rename_i hcut
    obtain ⟨b, s2, h2, hr⟩ := bind_some.mp hr
    obtain ⟨hs2, hbefore, hput⟩ := strncat_some hend h2
    obtain ⟨rfl, rfl⟩ := Prod.mk.inj (Option.some.inj hr)
    have htext : m.get (rr_body a) t.length = t := by
      rw [hlen]
      exact ht
    rw [htext] at hput
    refine ⟨hs2, rfl, e, hend, .inl ⟨not_le.mp hcut, rfl, ?_, hput hn⟩⟩
    show x.retnamlen + rr_len m a - 5 = _
    omega

/-- behind a right string the text can be stored -/
theorem nameAppend_runs (h5 : 5 ≤ rr_len m a) (hn : 0 ∉ nameText m a) {e : Nat} (he : IsEnd x.retname e)
    (hlt : e < 254) (hd : 255 ≤ depth) : ∃ r, nameAppend depth m a x s = some r := by
  have hlen : rr_len m a < 256 := (m (a + 2)).toNat_lt
  have hsum : (e : Int) + rr_len m a - 5 = (e + (rr_len m a - 5) : Nat) := by omega
  have hcount : ((rr_len m a : Int) - 5) = (rr_len m a - 5 : Nat) := by omega
  have hi : sgn 32 (254 - (e : Int)) = (254 - e : Nat) := by
    rw [sgn32_of_range (by omega) (by omega)]
    omega
  unfold nameAppend
  rw [bind_run (strEnd_run he (Nat.zero_le e) (by omega)), hsum, hcount, uns64_natCast (by omega),
    uns64_natCast (by omega)]
  split
  · rename_i hcut
    have htake : 0 ∉ m.get (rr_body a) (254 - e) := by
      intro h0
      apply hn
      rw [nameText, show rr_len m a - 5 = 254 - e + (rr_len m a - 5 - (254 - e)) by omega, Mem.get_add]
      exact List.mem_append_left _ h0
    dsimp only
    rw [hi, uns64_natCast (by omega), bind_run (strncat_run he (by omega) (by omega) htake)]
    exact ⟨_, rfl⟩
  · rw [bind_run (strncat_run he (by omega) (by omega) hn)]
    exact ⟨_, rfl⟩

/-- a text stored behind a right string -/
theorem RightName.append (hx : RightName g ts x) (hz : StackZero g ts) (hlt : ts.flatten.length < 254)
    (hn : 0 ∉ t) (hname : y.retname = x.retname.put ts.flatten.length (t.take (254 - ts.flatten.length)))
    (hlen : y.retnamlen = x.retnamlen + (t.take (254 - ts.flatten.length)).length)
    (hcut : y.truncate = true ↔ 254 ≤ ts.flatten.length + t.length) : NameSoFar g (ts ++ [t]) y := by
  have hL : (nameOf ts).length = ts.flatten.length := by
    rw [nameOf_length]
    omega
  have hflat : (ts ++ [t]).flatten.length = ts.flatten.length + t.length := by
    rw [List.flatten_append, List.length_append, List.flatten_cons, List.flatten_nil, List.append_nil]
  have hsnoc := nameOf_snoc ts t (by omega)
  have htotal : (nameOf ts ++ t.take (254 - ts.flatten.length)).length
      = min 254 (ts.flatten.length + t.length) := by
    rw [List.length_append, List.length_take, hL]
    omega
  have hretnamlen : y.retnamlen = (nameOf (ts ++ [t])).length := by
    rw [hsnoc, hlen, hx.len, List.length_append]
    push_cast
    rfl
  by_cases ht : t = []
  · refine .inl ⟨stackZero_snoc.mpr ⟨hz, fun h => absurd ht h⟩, ?_, hretnamlen, by rw [hflat]; exact hcut⟩
    rw [hsnoc, hname, ht, List.take_nil, Mem.put_nil, List.append_nil]
    exact hx.text
  · have hpos : 0 < t.length := List.length_pos_iff.mpr ht
    have hover := hx.text.append (p := ⟨t.take (254 - ts.flatten.length), false⟩)
      ⟨fun h0 => hn (List.mem_of_mem_take h0), fun hnil => by
        have := congrArg List.length hnil
        rw [List.length_take, List.length_nil] at this
        omega⟩
    have hstored : (⟨t.take (254 - ts.flatten.length), false⟩ : Piece).stored
        = t.take (254 - ts.flatten.length) := List.append_nil _
    rw [hstored, hL, ← hname] at hover
    have hstop := hover.stop
    dsimp only at hover hstop
    rw [if_neg Bool.false_ne_true, htotal] at hstop
    by_cases hg : g (min 254 (ts.flatten.length + t.length)) = 0
    · refine .inl ⟨stackZero_snoc.mpr ⟨hz, fun _ _ => hg⟩, ?_, hretnamlen, by rw [hflat]; exact hcut⟩
      rw [hsnoc]
      refine ⟨hover.text, hover.nonul, ?_, hover.rest⟩
      rw [if_pos rfl, htotal, hstop, hg]
    · refine .inr ⟨fun h => hg ((stackZero_snoc.mp h).2 ht hlt), ?_⟩
      have hne : ∀ q, q < min 254 (ts.flatten.length + t.length) + 1 → y.retname q ≠ 0 := by
        intro q hq
        by_cases hlast : q = min 254 (ts.flatten.length + t.length)
        · rw [hlast, hstop]
          exact hg
        · exact hover.ne_zero (by omega)
      by_cases h254 : 254 ≤ ts.flatten.length + t.length
      · exact .inr ⟨hcut.mpr h254, .inl fun q hq => hne q (by omega)⟩
      · refine .inl ⟨Bool.eq_false_iff.mpr fun h => h254 (hcut.mp h), ?_,
          ts.flatten.length + t.length + 1, by omega, fun q hq => hne q (by omega)⟩
        rw [hretnamlen, nameOf_length, hflat]
        omega

/-- an NM entry keeps what is known of the string -/
theorem nameAppend_soFar (h5 : 5 ≤ rr_len m a) (ht : nameText m a = t) (hn : 0 ∉ t)
    (hx : NameSoFar g ts x) (hcut : x.truncate = false) (h : nameAppend depth m a x s = some (y, u)) :
    NameSoFar g (ts ++ [t]) y := by
  have hlen : t.length < 256 := by
    have := (m (a + 2)).toNat_lt
    rw [← ht, nameText, Mem.length_get]
    unfold rr_len
    omega
  obtain ⟨-, -, e, he, hcases⟩ := nameAppend_some h5 ht hn h
  rcases hx with ⟨hz, hx⟩ | ⟨hz, hx⟩
  · -- the string is right: its end is the end of the name
    have hlt : ts.flatten.length < 254 := by
      by_contra hge
      rw [hx.cut.mpr (by omega)] at hcut
      cases hcut
    have hL : e = ts.flatten.length := by
      rw [he.unique hx.isEnd, nameOf_length]
      omega
    rcases hcases with ⟨hsum, htr, hl, hname⟩ | ⟨-, hsum, htr, hl, hname⟩ | ⟨hgt, -, -⟩
    · rw [uns64_natCast (by omega)] at hsum
      have htake : t.take (254 - ts.flatten.length) = t := List.take_of_length_le (by omega)
      refine hx.append hz hlt hn (by rw [htake, hname, hL]) (by rw [htake]; exact hl) ?_
      rw [htr, hcut]
      exact iff_of_false Bool.false_ne_true (by omega)
    · refine hx.append hz hlt hn (by rw [hname, hL]) ?_ ?_
      · rw [hl, List.length_take]
        omega
      · rw [htr]
        exact iff_of_true rfl (by omega)
    · omega
  · -- the string is too long, and stays so
    refine .inr ⟨fun h => hz (stackZero_append h), ?_⟩
    have hflat : (ts ++ [t]).flatten.length = ts.flatten.length + t.length := by
      rw [List.flatten_append, List.length_append, List.flatten_cons, List.flatten_nil, List.append_nil]
    rcases hx with ⟨-, hl0, l, hlt, hne⟩ | ⟨htr, -⟩
    · have hle : l ≤ e := not_lt.mp fun hlt => hne e hlt he.zero
      rcases hcases with ⟨hsum, htr, hl, hname⟩ | ⟨h254, hsum, htr, hl, hname⟩ | ⟨hgt, htr, hsame⟩
      · refine .inl ⟨htr.trans hcut, by rw [hl, hl0, hflat]; push_cast; rfl, e + t.length, by omega, ?_⟩
        rw [hname]
        exact put_ne_zero he.before hn
      · refine .inr ⟨htr, .inr ⟨by omega, fun q hq => ?_⟩⟩
        rw [hname]
        refine put_ne_zero he.before (fun h0 => hn (List.mem_of_mem_take h0)) q ?_
        rw [List.length_take]
        omega
      · refine .inr ⟨htr, .inl fun q hq => ?_⟩
        rw [hsame q (by omega)]
        exact he.before q (by omega)
    · rw [hcut] at htr
      cases htr

/-- the continuation area does not matter -/
theorem NameSoFar.setCont (hx : NameSoFar g ts x) (c : Cont) : NameSoFar g ts { x with cont := c } := by
  rcases hx with ⟨hz, hx⟩ | ⟨hz, hx⟩
  · exact .inl ⟨hz, hx.text, hx.len, hx.cut⟩
  · exact .inr ⟨hz, hx⟩

/-- behind a cut name nothing is added -/
theorem NameSoFar.cut (hx : NameSoFar g ts x) (hcut : x.truncate = true) (t : List UInt8) :
    NameSoFar g (ts ++ [t]) x := by
  rcases hx with ⟨hz, hx⟩ | ⟨hz, hx⟩
  · have hge := hx.cut.mp hcut
    have hname : nameOf (ts ++ [t]) = nameOf ts := by
      unfold nameOf
      rw [List.flatten_append, List.take_append_of_le_length hge]
    refine .inl ⟨stackZero_snoc.mpr ⟨hz, fun _ hlt => by omega⟩, ?_, ?_, ?_⟩
    · rw [hname]
      exact hx.text
    · rw [hname]
      exact hx.len
    · rw [List.flatten_append, List.length_append]
      exact iff_of_true hcut (by omega)
  · refine .inr ⟨fun h => hz (stackZero_append h), ?_⟩
    rcases hx with ⟨hfalse, -⟩ | hx
    · rw [hcut] at hfalse
      cases hfalse
    · exact .inr hx

end

/-! ## the entries of an area -/

/-- the continuation area after an entry -/
def contAfter (d : Mem) (k : Nat) (c : Cont) : Cont :=
  if rr_sig d k = SIG 'C' 'E' then (ceArea d k).cont else c

section
variable {g d m : Mem} {a k depth n : Nat} {len : Int} {es : List Nat} {ts : List (List UInt8)}
  {x y : Name} {s t : State} {r : Flow Name}

theorem sig_agree (h : Agree m a d k len) (h2 : 2 ≤ len) : rr_sig m a = rr_sig d k :=
  Prod.ext (h 0 (by omega)) (h 1 (by omega))

theorem flags_agree (h : Agree m a d k len) (h5 : 5 ≤ len) : rr_flags m a = rr_flags d k :=
  congrArg UInt8.toNat (h 4 (by omega))

theorem nameText_agree (h : Agree m a d k len) (h5 : 5 ≤ rr_len d k) (hin : (rr_len d k : Int) ≤ len) :
    nameText m a = nameText d k := by
  have hlen : rr_len m a = rr_len d k := rr_len_agree h (by omega)
  unfold nameText
  rw [hlen]
  exact (h.drop 5).get (by push_cast [h5]; omega)

/-- one entry, as it is on the disc -/
theorem nameStep_eq (h : Agree m a d k len) (hf : NameFits d k len) (x : Name) :
    nameStep depth m a x = if IsName d k ∧ x.truncate = false then
        (do let y ← nameAppend depth m a x; pure (.next y))
      else pure (.next { x with cont := contAfter d k x.cont }) := by
  have hsig := sig_agree h (by have := hf.some; omega)
  have hother : rr_sig d k ≠ SIG 'N' 'M' → ¬ (IsName d k ∧ x.truncate = false) := fun h4 hc => h4 hc.1.1
  unfold nameStep contAfter
  rw [hsig]
  by_cases h1 : rr_sig d k = SIG 'R' 'R'
  · obtain ⟨h5, hnm⟩ := hf.rr h1
    rw [if_neg (hother (by rw [h1]; decide)), flags_agree h h5, h1, if_pos rfl, if_neg hnm,
      if_neg (by decide)]
  by_cases h2 : rr_sig d k = SIG 'S' 'P'
  · obtain ⟨h6, hsp⟩ := hf.sp h2
    have hmagic : checkSP m a = checkSP d k := by
      rw [checkSP, checkSP, SP_magic, SP_magic, h 4 (by omega), h 5 (by omega)]
    rw [if_neg (hother (by rw [h2]; decide)), hmagic, h2, if_neg (by decide), if_pos rfl, if_pos hsp,
      if_neg (by decide)]
  by_cases h3 : rr_sig d k = SIG 'C' 'E'
  · have h28 := hf.ce h3
    have hce : checkCE m a = (ceArea d k).cont := by
      rw [checkCE, h.num 4 (by omega), h.num 12 (by omega), h.num 20 (by omega)]
      rfl
    rw [if_neg (hother (by rw [h3]; decide)), hce, h3, if_neg (by decide), if_neg (by decide), if_pos rfl,
      if_pos rfl]
  rw [if_neg h1, if_neg h2, if_neg h3, if_neg h3]
  by_cases h4 : rr_sig d k = SIG 'N' 'M'
  · rw [if_pos h4, flags_agree h (hf.nm h4)]
    by_cases hname : rr_flags d k &&& 0xfe = 0 ∧ x.truncate = false
    · have h6 : rr_flags d k &&& 6 = 0 := by
        have he : (0xfe : Nat) &&& 6 = 6 := by decide
        rw [← he, ← Nat.and_assoc, hname.1, Nat.zero_and]
      have hskip : ¬ (x.truncate = true ∨ rr_flags d k &&& 6 ≠ 0 ∨ rr_flags d k &&& 0xfe ≠ 0) := by
        rw [hname.2, h6, hname.1]
        decide
      rw [if_neg hskip, if_pos ⟨⟨h4, hname.1⟩, hname.2⟩]
    · have hskip : x.truncate = true ∨ rr_flags d k &&& 6 ≠ 0 ∨ rr_flags d k &&& 0xfe ≠ 0 := by
        by_cases hf0 : rr_flags d k &&& 0xfe = 0
        · exact .inl (Bool.of_not_eq_false fun hc => hname ⟨hf0, hc⟩)
        · exact .inr (.inr hf0)
      rw [if_pos hskip, if_neg fun hc => hname ⟨hc.1.2, hc.2⟩]
  · rw [if_neg h4, if_neg hf.re, if_neg (hother h4)]

/-- an entry keeps what is known of the string -/
theorem nameStep_soFar (h : Agree m a d k len) (hf : NameFits d k len) (hx : NameSoFar g ts x)
    (hr : nameStep depth m a x s = some (r, t)) : t = s ∧ ∃ y, r = .next y ∧
      NameSoFar g (ts ++ namesOf d [k]) y ∧ y.cont = contAfter d k x.cont := by
  rw [nameStep_eq h hf] at hr
  have hnames : namesOf d [k] = if IsName d k then [nameText d k] else [] := by
    unfold namesOf
    rw [List.flatMap_cons, List.flatMap_nil, List.append_nil]
  rw [hnames]
  by_cases hname : IsName d k
  · have hce : contAfter d k x.cont = x.cont := by
      unfold contAfter
      rw [hname.1, if_neg (by decide)]
    obtain ⟨h5, hin, hnul⟩ := hf.text hname
    rw [if_pos hname]
    by_cases hcut : x.truncate = false
    · rw [if_pos ⟨hname, hcut⟩] at hr
      obtain ⟨y, u, happ, hr⟩ := bind_some.mp hr
      obtain ⟨rfl, rfl⟩ := Prod.mk.inj (Option.some.inj hr)
      have htext := nameText_agree h h5 hin
      have hm5 : 5 ≤ rr_len m a := by
        rw [rr_len_agree h hf.some]
        exact h5
      obtain ⟨rfl, hcont, -⟩ := nameAppend_some hm5 htext hnul happ
      exact ⟨rfl, y, rfl, nameAppend_soFar hm5 htext hnul hx hcut happ, by rw [hcont, hce]⟩
    · rw [if_neg fun hc => hcut hc.2] at hr
      obtain ⟨rfl, rfl⟩ := Prod.mk.inj (Option.some.inj hr)
      exact ⟨rfl, _, rfl, (hx.cut (Bool.of_not_eq_false hcut) _).setCont _, rfl⟩
  · rw [if_neg fun hc => hname hc.1] at hr
    obtain ⟨rfl, rfl⟩ := Prod.mk.inj (Option.some.inj hr)
    rw [if_neg hname, List.append_nil]
    exact ⟨rfl, _, rfl, hx.setCont _, rfl⟩

/-- an entry behind a right string is handled -/
theorem nameStep_runs (h : Agree m a d k len) (hf : NameFits d k len) (hx : RightName g ts x)
    (hd : 255 ≤ depth) : ∃ p, nameStep depth m a x s = some p := by
  rw [nameStep_eq h hf]
  split
  · rename_i hc
    obtain ⟨h5, hin, hnul⟩ := hf.text hc.1
    have hm5 : 5 ≤ rr_len m a := by
      rw [rr_len_agree h hf.some]
      exact h5
    have hn : 0 ∉ nameText m a := by
      rw [nameText_agree h h5 hin]
      exact hnul
    have hlt : (nameOf ts).length < 254 := by
      rw [nameOf_length]
      by_contra hge
      have hcut := hx.cut.mpr (by omega)
      rw [hc.2] at hcut
      cases hcut
    obtain ⟨⟨y, u⟩, hy⟩ := nameAppend_runs hm5 hn hx.isEnd hlt hd (s := s)
    rw [bind_run hy]
    exact ⟨_, rfl⟩
  · exact ⟨_, rfl⟩

theorem namesOf_cons (d : Mem) (k : Nat) (es : List Nat) : namesOf d (k :: es) = namesOf d [k] ++ namesOf d es := by
  unfold namesOf
  rw [List.flatMap_cons, List.flatMap_cons, List.flatMap_nil, List.append_nil]

theorem areaOf_cons (d : Mem) (k : Nat) (es : List Nat) (c : Cont) :
    (areaOf d (k :: es)).elim c Area.cont = (areaOf d es).elim (contAfter d k c) Area.cont := by
  unfold contAfter
  rw [areaOf]
  cases areaOf d es with
  | none =>
    rw [Option.none_or, Option.elim_none]
    by_cases hce : rr_sig d k = SIG 'C' 'E'
    · rw [if_pos hce, if_pos hce, Option.elim_some]
    · rw [if_neg hce, if_neg hce, Option.elim_none]
  | some area => rw [Option.some_or, Option.elim_some, Option.elim_some]

/-- an entry of a kind that does not matter -/
theorem nameStep_other (h : rr_sig m a ∉ nameSigs) (x : Name) : nameStep depth m a x = pure (.next x) := by
  unfold nameSigs at h
  simp only [List.mem_cons, List.not_mem_nil, or_false, not_or] at h
  obtain ⟨h1, h2, h3, h4, h5⟩ := h
  unfold nameStep
  rw [if_neg h1, if_neg h2, if_neg h3, if_neg h4, if_neg h5]

/-- the walk at the end of an area -/
theorem walkArea_end (hag : Agree m a d k len) (h : AreaEnd d k len) (hn : len.toNat ≤ n) (x : Name) (s : State) :
    walkArea Flow.next (nameStep depth) m n a len x s = some (.next x, s) := by
  have hshort : ∀ n' a' len' s', len' ≤ 1 →
      walkArea Flow.next (nameStep depth) m n' a' len' x s' = some (.next x, s') := by
    intro n' a' len' s' h1
    cases n' with
    | zero => rfl
    | succ n' =>
      unfold walkArea
      rw [if_pos h1]
      rfl
  rcases h with h1 | ⟨h2, hsig⟩ | ⟨h3, h0⟩
  · exact hshort n a len s h1
  · obtain ⟨n, rfl⟩ : ∃ j, n = j + 1 := ⟨n - 1, by omega⟩
    rw [← sig_agree hag (by omega)] at hsig
    unfold walkArea
    rw [if_neg (by omega)]
    by_cases hz : rr_len m a = 0
    · rw [if_pos hz]
      rfl
    · rw [if_neg hz, nameStep_other hsig]
      exact hshort n _ _ s (by omega)
  · obtain ⟨n, rfl⟩ : ∃ j, n = j + 1 := ⟨n - 1, by omega⟩
    unfold walkArea
    rw [if_neg (by omega), if_pos ((rr_len_agree hag h3).trans h0)]
    rfl

/-- an area keeps what is known of the string -/
theorem area_soFar (h : SuArea d k len es) : ∀ {a n : Nat} {ts : List (List UInt8)} {x : Name} {s t : State},
    Agree m a d k len → len.toNat ≤ n → NameSoFar g ts x →
    walkArea Flow.next (nameStep depth) m n a len x s = some (r, t) → t = s ∧ ∃ y, r = .next y ∧
      NameSoFar g (ts ++ namesOf d es) y ∧ y.cont = (areaOf d es).elim x.cont Area.cont := by
  induction h with
  | @done k len h1 =>
    intro a n ts x s t hag hn hx hr
    have hpure : walkArea Flow.next (nameStep depth) m n a len x s = some (.next x, s) :=
      walkArea_end hag h1 hn x s
    obtain ⟨rfl, rfl⟩ := Prod.mk.inj (Option.some.inj (hpure.symm.trans hr))
    refine ⟨rfl, x, rfl, ?_, rfl⟩
    rw [namesOf, List.flatMap_nil, List.append_nil]
    exact hx
  | @entry k len es hf rest ih =>
    intro a n ts x s t hag hn hx hr
    have hsome := hf.some
    have hhead := hf.header
    have hlen : rr_len m a = rr_len d k := rr_len_agree hag hsome
    obtain ⟨n, rfl⟩ : ∃ j, n = j + 1 := ⟨n - 1, by omega⟩
    unfold walkArea at hr
    rw [if_neg (by omega), if_neg (by omega)] at hr
    obtain ⟨f, u, hstep, hr⟩ := bind_some.mp hr
    obtain ⟨rfl, y, rfl, hy, hcont⟩ := nameStep_soFar hag hf hx hstep
    dsimp only at hr
    rw [hlen] at hr
    obtain ⟨rfl, z, rfl, hz, hlast⟩ := ih (hag.drop (rr_len d k)) (by omega) hy hr
    refine ⟨rfl, z, rfl, ?_, ?_⟩
    · rw [namesOf_cons, ← List.append_assoc]
      exact hz
    · rw [areaOf_cons, hlast, hcont]

/-- an area behind a right string is walked, where the stack is zero behind its texts -/
theorem area_runs (h : SuArea d k len es) : ∀ {a n : Nat} {ts : List (List UInt8)} {x : Name} {s : State},
    Agree m a d k len → len.toNat ≤ n → RightName g ts x → StackZero g (ts ++ namesOf d es) →
    255 ≤ depth → ∃ p, walkArea Flow.next (nameStep depth) m n a len x s = some p := by
  induction h with
  | done h1 =>
    intro a n ts x s hag hn hx hz hd
    exact ⟨_, walkArea_end hag h1 hn x s⟩
  | @entry k len es hf rest ih =>
    intro a n ts x s hag hn hx hz hd
    have hsome := hf.some
    have hhead := hf.header
    have hlen : rr_len m a = rr_len d k := rr_len_agree hag hsome
    obtain ⟨n, rfl⟩ : ∃ j, n = j + 1 := ⟨n - 1, by omega⟩
    rw [namesOf_cons, ← List.append_assoc] at hz
    have hz1 := stackZero_append hz
    obtain ⟨⟨f, u⟩, hstep⟩ := nameStep_runs (s := s) hag hf hx hd
    obtain ⟨rfl, y, rfl, hy, -⟩ := nameStep_soFar hag hf (.inl ⟨stackZero_append hz1, hx⟩) hstep
    have hy := (hy.resolve_right fun hc => hc.1 hz1).2
    obtain ⟨p, hp⟩ := ih (s := u) (hag.drop (rr_len d k)) (by omega : _ ≤ n) hy hz hd
    refine ⟨p, ?_⟩
    unfold walkArea
    rw [if_neg (by omega), if_neg (by omega), bind_run hstep]
    dsimp only
    rw [hlen]
    exact hp

end

/-! ## the continuation areas -/

/-- the device read of an area -/
def Area.read (c : Area) : Read := ⟨c.size, c.start, c.size⟩

/-- what the code leaves when it goes on in an area: the heap has its buffer, and it was read -/
def Area.follow (E : Env) (c : Area) (s : State) : State :=
  { s with free_mem_ptr := malloc E.clusters s.free_mem_ptr c.size, log := s.log ++ [c.read] }

/-- the areas of a chain one after the other -/
def followAll (E : Env) (cs : List Area) (s : State) : State := cs.foldl (fun s c => c.follow E s) s

theorem followAll_log (E : Env) (cs : List Area) (s : State) :
    (followAll E cs s).log = s.log ++ cs.map Area.read := by
  induction cs generalizing s with
  | nil => exact (List.append_nil _).symm
  | cons c cs ih =>
    refine (ih (c.follow E s)).trans ?_
    rw [Area.follow, List.append_assoc]
    rfl

section
variable {E : Env} {g d m : Mem} {a k depth fuel : Nat} {len : Int} {ts us : List (List UInt8)}
  {cs : List Area} {c : Area} {x : Name} {s t : State} {r : Flow Name}

/-- the numbers of an area that is followed, as the code has them -/
theorem followed_cont (hoff : c.offset = 0) (hstart : c.start < 2147483648) (hsize : c.size < 2147483648) :
    c.cont = ⟨c.extent, 0, c.size⟩ := by
  have hext : c.extent < 2147483648 := by
    unfold Area.start ISOFS_BLOCK_SIZE at hstart
    omega
  unfold Area.cont
  rw [hoff, sgn32_of_range (by omega) (by omega), sgn32_of_range (by omega) (by omega),
    sgn32_of_range (by omega) (by omega)]
  rfl

theorem alloc_enough {n : Nat} (hn : n < 18446744073709551616)
    (hmem : ¬ out_of_memory (malloc E.clusters s.free_mem_ptr n)) :
    alloc E n s = some (E.ram (malloc E.clusters s.free_mem_ptr n),
      { s with free_mem_ptr := malloc E.clusters s.free_mem_ptr n }) := by
  unfold alloc
  rw [bind_run (get_run s), uns64_natCast hn]
  rw [if_neg hmem, bind_run (modify_run _ s), pure_run]

theorem followed_extent (hext : c.extent ≠ 0) (hoff : c.offset = 0) (hstart : c.start < 2147483648)
    (hsize : c.size < 2147483648) : ¬ c.cont.extent = 0 := by
  rw [followed_cont hoff hstart hsize]
  show ¬ (c.extent : Int) = 0
  omega

/-- an area that is followed is read into a buffer -/
theorem maybeContinue_followed (h : Followed E s.cd_device s.log.length s.free_mem_ptr (c :: cs)) :
    ∃ b, maybeContinue E c.cont s = some (some b, c.follow E s) ∧
      Agree b 0 (c.mem E s.cd_device) 0 c.size ∧
      Followed E s.cd_device (c.follow E s).log.length (c.follow E s).free_mem_ptr cs := by
  obtain ⟨⟨hext, hoff, hstart, hsize, hmem, hret⟩, hrest⟩ := h
  have haddr : sgn 32 ((c.extent : Int) * ISOFS_BLOCK_SIZE + 0) = (c.start : Nat) := by
    have hs : ((c.extent : Int) * ISOFS_BLOCK_SIZE + 0) = (c.start : Nat) := by
      unfold Area.start
      rw [hoff]
      push_cast
      rfl
    rw [hs]
    exact sgn32_of_range (by omega) (by omega)
  unfold maybeContinue Area.follow Area.read
  rw [if_neg (followed_extent hext hoff hstart hsize), followed_cont hoff hstart hsize, bind_run (alloc_enough (by omega) hmem), haddr]
  generalize malloc E.clusters s.free_mem_ptr c.size = p at hrest
  generalize hr : E.read s.log.length s.cd_device c.size c.start = res at hret
  have hread : iso_dev_read E (c.start : Nat) c.size { s with free_mem_ptr := p }
      = some (res, { s with free_mem_ptr := p, log := s.log ++ [⟨c.size, c.start, res.ret⟩] }) := by
    rw [← hr]
    rfl
  rw [bind_run hread, if_pos hret, pure_run, hret]
  refine ⟨_, rfl, fun j hj => ?_, ?_⟩
  · rw [Nat.zero_add, ← hr]
    rw [← hr] at hret
    rw [E.put_read_exact hret _ hj]
    unfold Area.mem
    push_cast
    rfl
  · show Followed E s.cd_device (s.log ++ [_]).length p cs
    rw [List.length_append]
    exact hrest

/-- the areas keep what is known of the string, and are the only ones that are read -/
theorem nameAreas_soFar {dev : Int} (h : NameChain E dev d k len ts cs) :
    ∀ {m : Mem} {a fuel : Nat} {us : List (List UInt8)} {x : Name} {s t : State}, Agree m a d k len →
      NameSoFar g us x → x.cont = noCont → s.cd_device = dev →
      Followed E s.cd_device s.log.length s.free_mem_ptr cs →
      nameAreas E depth fuel m a len x s = some (r, t) →
      (∃ y, r = .next y ∧ NameSoFar g (us ++ ts) y) ∧ t = followAll E cs s := by
  induction h with
  | @last d k len es hsu hce =>
    intro m a fuel us x s t hag hx hcont hdev hf hr
    cases fuel with
    | zero => cases hr
    | succ fuel =>
      unfold nameAreas at hr
      obtain ⟨f, u, hwalk, hr⟩ := bind_some.mp hr
      obtain ⟨rfl, y, rfl, hy, hlast⟩ := area_soFar hsu hag (Nat.le_refl _) hx hwalk
      rw [hce, hcont] at hlast
      have h0 : y.cont.extent = 0 := by
        rw [hlast]
        rfl
      dsimp only at hr
      rw [if_pos h0] at hr
      obtain ⟨rfl, rfl⟩ := Prod.mk.inj (Option.some.inj hr)
      exact ⟨⟨y, rfl, hy⟩, rfl⟩
  | @more d k len es c ts cs hsu hce rest ih =>
    intro m a fuel us x s t hag hx hcont hdev hf hr
    cases fuel with
    | zero => cases hr
    | succ fuel =>
      unfold nameAreas at hr
      obtain ⟨f, u, hwalk, hr⟩ := bind_some.mp hr
      obtain ⟨rfl, y, rfl, hy, hlast⟩ := area_soFar hsu hag (Nat.le_refl _) hx hwalk
      rw [hce, Option.elim_some] at hlast
      obtain ⟨b, hmc, hagb, hfv⟩ := maybeContinue_followed hf
      obtain ⟨⟨hext, hoff, hstart, hsize, -⟩, -⟩ := hf
      have hnum := followed_cont hoff hstart hsize
      dsimp only at hr
      rw [hlast, if_neg (followed_extent hext hoff hstart hsize), bind_run hmc, hnum] at hr
      rw [hdev] at hagb
      have hnext := ih (s := c.follow E u) hagb (hy.setCont noCont) rfl hdev hfv hr
      rw [List.append_assoc] at hnext
      exact hnext

/-- the areas behind a right string are walked, where the stack is zero behind their texts -/
theorem nameAreas_runs {dev : Int} (h : NameChain E dev d k len ts cs) :
    ∀ {m : Mem} {a fuel : Nat} {us : List (List UInt8)} {x : Name} {s : State}, Agree m a d k len →
      RightName g us x → x.cont = noCont → s.cd_device = dev → StackZero g (us ++ ts) →
      Followed E s.cd_device s.log.length s.free_mem_ptr cs → 255 ≤ depth → cs.length < fuel →
      ∃ p, nameAreas E depth fuel m a len x s = some p := by
  induction h with
  | @last d k len es hsu hce =>
    intro m a fuel us x s hag hx hcont hdev hz hf hd hfuel
    obtain ⟨fuel, rfl⟩ : ∃ n, fuel = n + 1 := ⟨fuel - 1, by omega⟩
    obtain ⟨⟨f, u⟩, hwalk⟩ := area_runs (s := s) hsu hag (Nat.le_refl _) hx hz hd
    obtain ⟨rfl, y, rfl, -, hlast⟩ := area_soFar hsu hag (Nat.le_refl _)
      (.inl ⟨stackZero_append hz, hx⟩) hwalk
    rw [hce, hcont] at hlast
    have h0 : y.cont.extent = 0 := by
      rw [hlast]
      rfl
    unfold nameAreas
    rw [bind_run hwalk]
    dsimp only
    rw [if_pos h0]
    exact ⟨_, rfl⟩
  | @more d k len es c ts cs hsu hce rest ih =>
    intro m a fuel us x s hag hx hcont hdev hz hf hd hfuel
    obtain ⟨fuel, rfl⟩ : ∃ n, fuel = n + 1 := ⟨fuel - 1, by omega⟩
    rw [← List.append_assoc] at hz
    have hz1 := stackZero_append hz
    obtain ⟨⟨f, u⟩, hwalk⟩ := area_runs (s := s) hsu hag (Nat.le_refl _) hx hz1 hd
    obtain ⟨rfl, y, rfl, hy, hlast⟩ := area_soFar hsu hag (Nat.le_refl _)
      (.inl ⟨stackZero_append hz1, hx⟩) hwalk
    rw [hce, Option.elim_some] at hlast
    have hy := (hy.resolve_right fun hc => hc.1 hz1).2
    obtain ⟨b, hmc, hagb, hfv⟩ := maybeContinue_followed hf
    obtain ⟨⟨hext, hoff, hstart, hsize, -⟩, -⟩ := hf
    have hnum := followed_cont hoff hstart hsize
    rw [hdev] at hagb
    obtain ⟨p, hp⟩ := @ih b 0 fuel _ { y with cont := noCont } (c.follow E u) hagb
      ⟨hy.text, hy.len, hy.cut⟩ rfl hdev hz hfv hd (Nat.lt_of_succ_lt_succ hfuel)
    refine ⟨p, ?_⟩
    unfold nameAreas
    rw [bind_run hwalk]
    dsimp only
    rw [hlast, if_neg (followed_extent hext hoff hstart hsize), bind_run hmc, hnum]
    exact hp

end

/-! ## the name of a record -/

/-- with fuel enough `get_rock_ridge_filename` gives the name, and reads the continuation areas and
nothing else -/
def GivesName (E : Env) (m : Mem) (de : Nat) (s : State) (ts : List (List UInt8)) (cs : List Area) : Prop :=
  ∃ n, ∀ fuel, n ≤ fuel → ∃ ret retname t,
    get_rock_ridge_filename E fuel m de s = some ((ret, retname), t) ∧
      NamedBy (E.stack s.log.length) ts ret retname ∧ t.log = s.log ++ cs.map Area.read

theorem rightName_nil (g : Mem) : RightName g [] ⟨g.put 0 [0], 0, false, noCont⟩ := by
  refine ⟨⟨rfl, List.not_mem_nil, Mem.put_in g 0 0 [0] Nat.zero_lt_one, fun q hq => ?_⟩, rfl, ?_⟩
  · exact Mem.put_out g 0 q [0] (.inr hq)
  · exact iff_of_false Bool.false_ne_true (by decide)

section
variable {E : Env} {d m : Mem} {de k : Nat} {ts : List (List UInt8)} {cs : List Area} {s : State}

/-- the system-use area of a record that is somewhere in memory -/
theorem record_area (hag : Agree m de d k (de_length d k)) (h33 : 33 ≤ de_length d k) :
    (de_length m de : Int) - setupLen m de = (de_length d k : Int) - setupLen d k ∧
      Agree m (de + setupLen m de) d (k + setupLen d k) ((de_length d k : Int) - setupLen d k) := by
  have hlen : de_length m de = de_length d k := congrArg UInt8.toNat (hag 0 (by omega))
  have hsetup : setupLen m de = setupLen d k := setupLen_agree hag (by omega)
  rw [hsetup, hlen]
  exact ⟨rfl, hag.drop (setupLen d k)⟩

/-- a run of `get_rock_ridge_filename` gives the name of the areas if and only if the stack is zero behind
the texts, and follows the areas of the chain -/
theorem filename_soFar (hrock : s.sb.s_rock = true) {su : Nat} {len : Int}
    (harea : Agree m (de + setupLen m de) d su len) (hlen : (de_length m de : Int) - setupLen m de = len)
    (hchain : NameChain E s.cd_device d su len ts cs)
    (hf : Followed E s.cd_device s.log.length s.free_mem_ptr cs) {fuel : Nat} {ret : Int} {retname : Mem}
    {t : State} (h : get_rock_ridge_filename E fuel m de s = some ((ret, retname), t)) :
    (NamedBy (E.stack s.log.length) ts ret retname ↔ StackZero (E.stack s.log.length) ts) ∧
      t = followAll E cs s := by
  have hright := rightName_nil (E.stack s.log.length)
  unfold get_rock_ridge_filename at h
  rw [bind_run (get_run s), if_pos hrock, hlen] at h
  obtain ⟨f, u, hareas, h⟩ := bind_some.mp h
  obtain ⟨⟨y, rfl, hy⟩, hu⟩ := nameAreas_soFar hchain harea (.inl ⟨stackZero_nil _, hright⟩) rfl rfl hf
    hareas
  obtain ⟨hret, rfl⟩ := Prod.mk.inj (Option.some.inj h)
  obtain ⟨rfl, rfl⟩ := Prod.mk.inj hret
  exact ⟨hy.named, hu⟩

/-- where the stack is zero behind the texts, `get_rock_ridge_filename` comes back -/
theorem filename_runs (hrock : s.sb.s_rock = true) {su : Nat} {len : Int}
    (harea : Agree m (de + setupLen m de) d su len) (hlen : (de_length m de : Int) - setupLen m de = len)
    (hchain : NameChain E s.cd_device d su len ts cs)
    (hf : Followed E s.cd_device s.log.length s.free_mem_ptr cs)
    (hz : StackZero (E.stack s.log.length) ts) {fuel : Nat} (hle : 255 + cs.length + 1 ≤ fuel) :
    ∃ ret retname t, get_rock_ridge_filename E fuel m de s = some ((ret, retname), t) := by
  have hright := rightName_nil (E.stack s.log.length)
  obtain ⟨⟨f, u⟩, hareas⟩ := nameAreas_runs hchain harea hright rfl rfl hz hf
    (by omega : 255 ≤ fuel) (by omega : cs.length < fuel)
  obtain ⟨⟨y, rfl, -⟩, -⟩ := nameAreas_soFar hchain harea (.inl ⟨stackZero_nil _, hright⟩) rfl rfl hf hareas
  refine ⟨y.retnamlen, y.retname, u, ?_⟩
  unfold get_rock_ridge_filename
  rw [bind_run (get_run s), if_pos hrock, hlen, bind_run hareas]
  rfl

/-- the areas of a record give its name if and only if the stack is zero behind the texts -/
theorem area_name_iff (hrock : s.sb.s_rock = true) {su : Nat} {len : Int}
    (harea : Agree m (de + setupLen m de) d su len) (hlen : (de_length m de : Int) - setupLen m de = len)
    (hchain : NameChain E s.cd_device d su len ts cs)
    (hf : Followed E s.cd_device s.log.length s.free_mem_ptr cs) :
    GivesName E m de s ts cs ↔ StackZero (E.stack s.log.length) ts := by
  constructor
  · rintro ⟨n, hn⟩
    obtain ⟨ret, retname, t, h, hnamed, -⟩ := hn n (Nat.le_refl n)
    exact (filename_soFar hrock harea hlen hchain hf h).1.mp hnamed
  · intro hz
    refine ⟨255 + cs.length + 1, fun fuel hle => ?_⟩
    obtain ⟨ret, retname, t, h⟩ := filename_runs hrock harea hlen hchain hf hz hle
    obtain ⟨hnamed, rfl⟩ := filename_soFar hrock harea hlen hchain hf h
    exact ⟨ret, retname, _, h, hnamed.mpr hz, followAll_log E cs s⟩

/-- `get_rock_ridge_filename` gives the name of a record, whose bytes are in memory at `de`, if and only if
the stack is zero behind the texts -/
theorem rock_name_iff (hrock : s.sb.s_rock = true) (hag : Agree m de d k (de_length d k))
    (h33 : 33 ≤ de_length d k) (hchain : NameChain E s.cd_device d (k + setupLen d k)
      ((de_length d k : Int) - setupLen d k) ts cs)
    (hf : Followed E s.cd_device s.log.length s.free_mem_ptr cs) :
    GivesName E m de s ts cs ↔ StackZero (E.stack s.log.length) ts := by
  obtain ⟨hlen, harea⟩ := record_area hag h33
  exact area_name_iff hrock harea hlen hchain hf

end

/-! ## a name in two areas -/

/-- a record with the name `ab`, which goes on with `c` in a continuation area -/
def nameDisc : Mem := Bytes.record
  [(0, 69, 1), (32, 1, 1), (33, 0x41, 1),
   (34, 0x4d4e, 2), (36, 7, 1), (39, 0x6261, 2), (41, 0x4543, 2), (43, 28, 1), (45, 20, 4), (61, 6, 4),
   (40960, 0x4d4e, 2), (40962, 6, 1), (40965, 0x63, 1)]

/-- the disc in a machine whose stack holds the byte `b` everywhere -/
def nameEnv (b : UInt8) : Env :=
  { Machine.faultless (fun _ p => nameDisc p.toNat) (fun _ _ => 0) [] with stack := fun _ _ => b }

def nameStart : State := { tinyStart with sb := { tinyStart.sb with s_rock := true } }

theorem name_chain (b : UInt8) :
    NameChain (nameEnv b) 0 nameDisc (0 + setupLen nameDisc 0)
      ((de_length nameDisc 0 : Int) - setupLen nameDisc 0) [[0x61, 0x62], [0x63]] [⟨20, 0, 6⟩] := by
  have hsetup : setupLen nameDisc 0 = 34 := by decide +kernel
  have hlen : de_length nameDisc 0 = 69 := by decide +kernel
  have hnm : rr_len nameDisc 34 = 7 := by decide +kernel
  have hce : rr_len nameDisc 41 = 28 := by decide +kernel
  have harea : SuArea nameDisc 34 35 [34, 41] := by
    refine .entry (by decide +kernel) ?_
    rw [hnm]
    refine .entry (by decide +kernel) ?_
    rw [hce]
    exact .done (.inl (by decide))
  have hcont : SuArea ((⟨20, 0, 6⟩ : Area).mem (nameEnv b) 0) 0 (6 : Nat) [0] := by
    refine .entry ?_ (.done ?_)
    · show NameFits (fun j => nameDisc (Int.toNat (40960 + j : Nat))) 0 6
      decide +kernel
    · refine .inl ?_
      show ((6 : Nat) : Int) - rr_len (fun j => nameDisc (Int.toNat (40960 + j : Nat))) 0 ≤ 1
      decide +kernel
  have hfirst : namesOf nameDisc [34, 41] = [[0x61, 0x62]] := by decide +kernel
  have hsecond : namesOf ((⟨20, 0, 6⟩ : Area).mem (nameEnv b) 0) [0] = [[0x63]] := by
    show namesOf (fun j => nameDisc (Int.toNat (40960 + j : Nat))) [0] = _
    decide +kernel
  have hnone : areaOf ((⟨20, 0, 6⟩ : Area).mem (nameEnv b) 0) [0] = none := by
    show areaOf (fun j => nameDisc (Int.toNat (40960 + j : Nat))) [0] = none
    decide +kernel
  have hsome : areaOf nameDisc [34, 41] = some ⟨20, 0, 6⟩ := by
    decide +kernel
  have hrest : NameChain (nameEnv b) 0 _ 0 _ _ [] := .last hcont hnone
  rw [hsecond] at hrest
  have hchain := NameChain.more harea hsome hrest
  rw [hfirst] at hchain
  rw [hsetup, hlen]
  exact hchain

theorem name_followed (b : UInt8) : Followed (nameEnv b) nameStart.cd_device nameStart.log.length
    nameStart.free_mem_ptr [⟨20, 0, 6⟩] := by
  refine ⟨⟨by decide, rfl, by decide, by decide, ?_, rfl⟩, trivial⟩
  show ¬ out_of_memory (malloc [] 0 6) = true
  decide +kernel

/-- on a cleared stack the name is `abc` -/
theorem name_abc : GivesName (nameEnv 0) nameDisc 0 nameStart [[0x61, 0x62], [0x63]] [⟨20, 0, 6⟩] := by
  refine (rock_name_iff (d := nameDisc) (k := 0) rfl (fun j hj => rfl) (by decide +kernel) (name_chain 0)
    (name_followed 0)).mpr ?_
  intro pre t post h hne hlt
  rfl

/-- on a stack that holds the letter `x` the name is not `abc` -/
theorem name_overrun : ¬ ∀ (E : Env) (s : State) (m : Mem) (de : Nat) (ts : List (List UInt8))
    (cs : List Area), s.sb.s_rock = true → 33 ≤ de_length m de →
    NameChain E s.cd_device m (de + setupLen m de) ((de_length m de : Int) - setupLen m de) ts cs →
    Followed E s.cd_device s.log.length s.free_mem_ptr cs → GivesName E m de s ts cs := by
  intro hall
  have h := hall (nameEnv 0x78) nameStart nameDisc 0 _ _ rfl (by decide +kernel) (name_chain 0x78)
    (name_followed 0x78)
  have hz := (area_name_iff rfl (fun j hj => rfl) rfl (name_chain 0x78) (name_followed 0x78)).mp h
  have h2 := hz [] [0x61, 0x62] [[0x63]] rfl (List.cons_ne_nil _ _) (by decide)
  exact absurd h2 (by decide)

end Iso
