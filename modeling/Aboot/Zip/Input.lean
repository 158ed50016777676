import Aboot.Machine

/-!
# zip/misc.c, zip/gzip.h: the input buffer

`get_byte` takes the next byte of the buffer; `fill_inbuf` reads the next `INBUFSIZ` bytes of the
file into it.  The decompressor asks for bytes one after the other, and may give back the one it has
asked for last.

* `Input`, `get_byte`, `back`   the buffer with its cursor;
* `delivered`      the bytes that `bread` has delivered;
* `Exact`          what is returned are these bytes, in order, and nothing else;
* `Within`         no byte is asked for past those of the first `bread` that came back short;
* `get_byte_exact_iff`   the first holds exactly when the second does.

After a short read the whole buffer counts as filled: what it held before is returned as data.
-/

namespace Zip
open Word

def INBUFSIZ : Nat := 0x20000

/-- the variables of misc.c, and how many times `bread` was called since `clear_bufs` -/
structure Input where
  inbuf : Mem
  insize : Nat
  inptr : Nat
  block_number : Int
  nreads : Nat

/-- the part of `clear_bufs` that is about the input -/
def clear_bufs (s : Input) : Input :=
  { s with insize := 0, inptr := 0, block_number := 0, nreads := 0 }

section
variable (blocksize : Nat) (bread : Nat → BlockRead INBUFSIZ)

/-- `fill_inbuf`; an error is the message of `unzip_error` -/
def fill_inbuf (s : Input) : Except String UInt8 × Input :=
  if INBUFSIZ % blocksize ≠ 0 then (.error "bad block-size", s)
  else if s.block_number < 0 then (.error "attempted to read past eof", s)
  else
    let nblocks := INBUFSIZ / blocksize
    let r := bread s.nreads
    let s := { s with inbuf := s.inbuf.put 0 r.data, nreads := s.nreads + 1 }
    if r.ret ≠ (nblocks * blocksize : Nat) then
      if r.ret < (nblocks * blocksize : Nat) then
        (.ok (s.inbuf 0), { s with insize := nblocks * blocksize, block_number := -1, inptr := 1 })
      else (.error "read error", s)
    else
      (.ok (s.inbuf 0),
        { s with
          block_number := sgn 32 (s.block_number + nblocks)
          insize := INBUFSIZ
          inptr := 1 })

/-- `get_byte` -/
def get_byte (s : Input) : Except String UInt8 × Input :=
  if s.inptr < s.insize then (.ok (s.inbuf s.inptr), { s with inptr := s.inptr + 1 })
  else fill_inbuf blocksize bread s

/-- a byte is given back: `inptr--` -/
def back (s : Input) : Input := { s with inptr := uns 32 ((s.inptr : Int) - 1) }

/-- what the decompressor does with the input -/
inductive Op
  | get
  | back
deriving DecidableEq, Repr

/-- the bytes that the first `n` calls of `bread` have delivered -/
def delivered (n : Nat) : List UInt8 :=
  (List.range n).flatMap fun t => (bread t).data.take (bread t).ret.toNat

/-- from the position `pos` on, every byte returned is the one at that position of the bytes delivered
so far; where there is none, the call leaves through `unzip_error` -/
def Exact : List Op → Input → (pos : Nat) → Prop
  | [], _, _ => True
  | .get :: ops, s, pos =>
    match (delivered bread (get_byte blocksize bread s).2.nreads)[pos]? with
    | some b =>
      (get_byte blocksize bread s).1 = .ok b ∧ Exact ops (get_byte blocksize bread s).2 (pos + 1)
    | none => ∃ x, (get_byte blocksize bread s).1 = .error x
  | .back :: ops, s, pos => Exact ops (back s) (pos - 1)

/-- a byte is given back only right after it was asked for -/
def Legal : List Op → (got : Bool) → Prop
  | [], _ => True
  | .get :: ops, _ => Legal ops true
  | .back :: ops, got => got = true ∧ Legal ops false

/-- one past the last position that is asked for -/
def peak : List Op → (pos : Nat) → Nat
  | [], _ => 0
  | .get :: ops, pos => max (pos + 1) (peak ops (pos + 1))
  | .back :: ops, pos => peak ops (pos - 1)

/-- the first call of `bread` that does not fill the buffer; the block number of a longer file does
not fit into an `int` -/
def FirstShort (j : Nat) : Prop :=
  (∀ i < j, (bread i).ret = INBUFSIZ) ∧ (bread j).ret ≠ INBUFSIZ ∧
    j * (INBUFSIZ / blocksize) < 2147483648

/-- no byte is asked for past those of the first short read -/
def Within (ops : List Op) (pos : Nat) : Prop :=
  ∀ j, FirstShort blocksize bread j → peak ops pos ≤ j * INBUFSIZ + (bread j).ret.toNat

end

/-! ## the bytes delivered -/

section
variable {blocksize : Nat} {bread : Nat → BlockRead INBUFSIZ}

theorem delivered_succ (n : Nat) :
    delivered bread (n + 1) = delivered bread n ++ (bread n).data.take (bread n).ret.toNat := by
  rw [delivered, List.range_succ, List.flatMap_append, List.flatMap_singleton]
  rfl

theorem length_delivered {n : Nat} (h : ∀ i < n, (bread i).ret = INBUFSIZ) :
    (delivered bread n).length = n * INBUFSIZ := by
  induction n with
  | zero => rw [Nat.zero_mul]; rfl
  | succ n ih =>
    have hn := h n (Nat.lt_succ_self n)
    have hlen := (bread n).stored
    rw [hn] at hlen
    rw [delivered_succ, List.length_append, ih fun i hi => h i (Nat.lt_succ_of_lt hi), hn,
      List.length_take_of_le hlen, Nat.succ_mul]
    rfl

/-- a position in the part that the last call has delivered -/
theorem delivered_at {m : Nat} (h : ∀ i < m, (bread i).ret = INBUFSIZ) (k : Nat) :
    (delivered bread (m + 1))[m * INBUFSIZ + k]? = ((bread m).data.take (bread m).ret.toNat)[k]? := by
  have hlen := length_delivered h
  rw [delivered_succ, List.getElem?_append_right (by omega), hlen, Nat.add_sub_cancel_left]

end

/-! ## the buffer -/

/-- the buffer after the call `m` of `bread`, the calls before it having filled it -/
structure Filled (blocksize : Nat) (bread : Nat → BlockRead INBUFSIZ) (m : Nat) (s : Input) (pos : Nat) :
    Prop where
  nreads : s.nreads = m + 1
  insize : s.insize = INBUFSIZ
  full : ∀ i < m, (bread i).ret = INBUFSIZ
  small : m * (INBUFSIZ / blocksize) < 2147483648
  place : pos = m * INBUFSIZ + s.inptr
  ptr_le : s.inptr ≤ (bread m).ret.toNat
  bytes : ∀ k, k < (bread m).ret.toNat → (bread m).data[k]? = some (s.inbuf k)
  more : (bread m).ret = INBUFSIZ → (m + 1) * (INBUFSIZ / blocksize) < 2147483648 →
    s.block_number = ((m + 1) * (INBUFSIZ / blocksize) : Nat)
  last : (bread m).ret ≠ INBUFSIZ ∨ 2147483648 ≤ (m + 1) * (INBUFSIZ / blocksize) → s.block_number < 0

/-- nothing was read yet -/
structure Empty (s : Input) (pos : Nat) : Prop where
  nreads : s.nreads = 0
  insize : s.insize = 0
  inptr : s.inptr = 0
  block_number : s.block_number = 0
  pos : pos = 0

section
variable {blocksize : Nat} {bread : Nat → BlockRead INBUFSIZ} {s : Input} {pos m : Nat}

/-- there is no byte behind the last one delivered -/
theorem Filled.none_at (h : Filled blocksize bread m s pos) (hend : (bread m).ret.toNat ≤ s.inptr) :
    (delivered bread s.nreads)[pos]? = none := by
  rw [h.nreads, h.place, delivered_at h.full, List.getElem?_eq_none]
  rw [List.length_take_of_le (bread m).stored]
  exact hend

/-- the byte at the cursor is the one at the position -/
theorem Filled.at_ptr (h : Filled blocksize bread m s pos) (hlt : s.inptr < (bread m).ret.toNat) :
    (delivered bread s.nreads)[pos]? = some (s.inbuf s.inptr) := by
  rw [h.nreads, h.place, delivered_at h.full, List.getElem?_take_of_lt hlt, h.bytes _ hlt]

/-- only the last call can be short -/
theorem Filled.firstShort (h : Filled blocksize bread m s pos) {j : Nat}
    (hj : FirstShort blocksize bread j) : m ≤ j ∧ ((bread m).ret ≠ INBUFSIZ → j = m) := by
  obtain ⟨hfull, hshort, -⟩ := hj
  have hle : m ≤ j := by
    by_contra hlt
    exact hshort (h.full j (by omega))
  refine ⟨hle, fun hm => ?_⟩
  by_contra hne
  exact hm (hfull m (by omega))

/-- a byte of the last call is before the end of a short read -/
theorem Filled.before (h : Filled blocksize bread m s pos) {j : Nat} (hj : FirstShort blocksize bread j)
    {k : Nat} (hk : k ≤ m * INBUFSIZ + (bread m).ret.toNat) :
    k ≤ j * INBUFSIZ + (bread j).ret.toNat := by
  obtain ⟨hle, heq⟩ := h.firstShort hj
  by_cases hm : j = m
  · rw [hm]
    exact hk
  · have hret : (bread m).ret = INBUFSIZ := by
      by_contra hne
      exact hm (heq hne)
    have hmul : (m + 1) * INBUFSIZ ≤ j * INBUFSIZ := Nat.mul_le_mul_right _ (by omega)
    rw [hret, Nat.add_one_mul] at *
    omega

variable (bread s) in
/-- a call of `bread` that is made: `fill_inbuf` has read the buffer once more -/
theorem fill_inbuf_read (hdvd : blocksize ∣ INBUFSIZ) (hblock : 0 ≤ s.block_number) :
    ∃ t, fill_inbuf blocksize bread s = (.ok (t.inbuf 0), t) ∧ t.inptr = 1 ∧
      t.nreads = s.nreads + 1 ∧ t.insize = INBUFSIZ ∧ t.inbuf = s.inbuf.put 0 (bread s.nreads).data ∧
      t.block_number = if (bread s.nreads).ret = INBUFSIZ
        then sgn 32 (s.block_number + (INBUFSIZ / blocksize : Nat)) else -1 := by
  have hmul : INBUFSIZ / blocksize * blocksize = INBUFSIZ := Nat.div_mul_cancel hdvd
  have hmod : INBUFSIZ % blocksize = 0 := Nat.mod_eq_zero_of_dvd hdvd
  have hle := (bread s.nreads).ret_le
  unfold fill_inbuf
  rw [if_neg (not_not.mpr hmod), if_neg (by omega)]
  dsimp only
  rw [hmul]
  by_cases hret : (bread s.nreads).ret = INBUFSIZ
  · rw [if_neg (not_not.mpr hret), if_pos hret]
    exact ⟨⟨s.inbuf.put 0 (bread s.nreads).data, INBUFSIZ, 1,
      sgn 32 (s.block_number + (INBUFSIZ / blocksize : Nat)), s.nreads + 1⟩, rfl, rfl, rfl, rfl, rfl, rfl⟩
  · rw [if_pos hret, if_pos (by omega), if_neg hret]
    exact ⟨⟨s.inbuf.put 0 (bread s.nreads).data, INBUFSIZ, 1, -1, s.nreads + 1⟩, rfl, rfl, rfl, rfl, rfl,
      rfl⟩

variable (bread s) in
/-- at the end of the file, and where the block number has run over -/
theorem fill_inbuf_eof (hdvd : blocksize ∣ INBUFSIZ) (hblock : s.block_number < 0) :
    fill_inbuf blocksize bread s = (.error "attempted to read past eof", s) := by
  have hmod : INBUFSIZ % blocksize = 0 := Nat.mod_eq_zero_of_dvd hdvd
  unfold fill_inbuf
  rw [if_neg (not_not.mpr hmod), if_pos hblock]

/-- a number that has run over -/
theorem sgn32_neg {n : Nat} (h1 : 2147483648 ≤ n) (h2 : n < 4294967296) : sgn 32 (n : Int) < 0 := by
  obtain ⟨q, hq, hlo, hhi⟩ := sgn32_cases n
  omega

/-- the next byte is to be read from the file -/
structure Ready (blocksize : Nat) (bread : Nat → BlockRead INBUFSIZ) (m : Nat) (s : Input) (pos : Nat) :
    Prop where
  nreads : s.nreads = m
  full : ∀ i < m, (bread i).ret = INBUFSIZ
  small : m * (INBUFSIZ / blocksize) < 2147483648
  block_number : s.block_number = (m * (INBUFSIZ / blocksize) : Nat)
  pos : pos = m * INBUFSIZ

/-- the buffer after a call of `bread` that has delivered a byte -/
theorem Ready.filled (h : Ready blocksize bread m s pos) {t : Input}
    (hptr : t.inptr = 1) (hreads : t.nreads = s.nreads + 1) (hsize : t.insize = INBUFSIZ)
    (hbuf : t.inbuf = s.inbuf.put 0 (bread s.nreads).data)
    (hblock : t.block_number = if (bread s.nreads).ret = INBUFSIZ
      then sgn 32 (s.block_number + (INBUFSIZ / blocksize : Nat)) else -1)
    (hsome : 0 < (bread m).ret.toNat) : Filled blocksize bread m t (pos + 1) := by
  have hnb : INBUFSIZ / blocksize ≤ 131072 := Nat.div_le_self _ _
  have hsucc := Nat.add_one_mul m (INBUFSIZ / blocksize)
  have hadd : s.block_number + (INBUFSIZ / blocksize : Nat) = ((m + 1) * (INBUFSIZ / blocksize) : Nat) := by
    rw [h.block_number, hsucc]
    push_cast
    ring
  rw [hadd, h.nreads] at hblock
  have hsmall := h.small
  refine ⟨by rw [hreads, h.nreads], hsize, h.full, h.small, by rw [hptr, h.pos], by omega, ?_, ?_, ?_⟩
  · intro k hk
    have hlen := (bread m).stored
    have hp := Mem.put_in s.inbuf 0 k (bread m).data (by omega)
    rw [Nat.zero_add] at hp
    rw [hbuf, h.nreads, hp, List.getElem?_eq_getElem (by omega)]
  · intro hret hlt
    rw [hblock, if_pos hret, sgn32_of_range (by omega) (by omega)]
  · rintro (hret | hge)
    · rw [hblock, if_neg hret]
      decide
    · rw [hblock]
      split
      · exact sgn32_neg (by omega) (by omega)
      · decide

/-- a call of `bread` that has delivered nothing -/
theorem Ready.none_at (h : Ready blocksize bread m s pos) (hnone : (bread m).ret.toNat = 0) :
    (delivered bread (m + 1))[pos]? = none := by
  rw [h.pos, ← Nat.add_zero (m * INBUFSIZ), delivered_at h.full 0, hnone]
  rfl

/-- the buffer is empty, or it holds what the last call of `bread` has delivered -/
def Inv (blocksize : Nat) (bread : Nat → BlockRead INBUFSIZ) (s : Input) (pos : Nat) : Prop :=
  Empty s pos ∨ ∃ m, Filled blocksize bread m s pos

/-- what a call of `get_byte` can do at a position: it returns the byte there, which is before the end
of every short read; or it returns a byte past such an end; or it leaves where there is no byte and no
short read -/
inductive Outcome (blocksize : Nat) (bread : Nat → BlockRead INBUFSIZ) (pos : Nat) :
    Except String UInt8 × Input → Prop
  | next {b : UInt8} {t : Input} (hb : (delivered bread t.nreads)[pos]? = some b) (hptr : 0 < t.inptr)
      (ht : Inv blocksize bread t (pos + 1))
      (hbefore : ∀ j, FirstShort blocksize bread j → pos + 1 ≤ j * INBUFSIZ + (bread j).ret.toNat) :
      Outcome blocksize bread pos (.ok b, t)
  | stale {b : UInt8} {t : Input} (hb : (delivered bread t.nreads)[pos]? = none) {j : Nat}
      (hj : FirstShort blocksize bread j) (hend : j * INBUFSIZ + (bread j).ret.toNat ≤ pos) :
      Outcome blocksize bread pos (.ok b, t)
  | eof {x : String} {t : Input} (hb : (delivered bread t.nreads)[pos]? = none)
      (hnone : ∀ j, ¬ FirstShort blocksize bread j) : Outcome blocksize bread pos (.error x, t)

/-- the file is read once more -/
theorem Ready.outcome (h : Ready blocksize bread m s pos) (hdvd : blocksize ∣ INBUFSIZ) :
    Outcome blocksize bread pos (fill_inbuf blocksize bread s) := by
  obtain ⟨t, hfill, hptr, hreads, hsize, hbuf, hblock⟩ :=
    fill_inbuf_read bread s hdvd (by rw [h.block_number]; omega)
  have hm : t.nreads = m + 1 := by rw [hreads, h.nreads]
  have hpos := h.pos
  rw [hfill]
  by_cases hsome : 0 < (bread m).ret.toNat
  · have hfilled := h.filled hptr hreads hsize hbuf hblock hsome
    refine .next ?_ (by omega) (Or.inr ⟨m, hfilled⟩) fun j hj => hfilled.before hj (by omega)
    rw [hm, hpos, ← Nat.add_zero (m * INBUFSIZ), delivered_at h.full 0, List.getElem?_take_of_lt hsome,
      hfilled.bytes 0 hsome]
  · have hzero : (bread m).ret.toNat = 0 := Nat.eq_zero_of_not_pos hsome
    refine .stale (by rw [hm]; exact h.none_at hzero) ⟨h.full, fun hret => ?_, h.small⟩ (by omega)
    rw [hret] at hzero
    cases hzero

theorem Empty.outcome (h : Empty s pos) (hdvd : blocksize ∣ INBUFSIZ) :
    Outcome blocksize bread pos (get_byte blocksize bread s) := by
  have hready : Ready blocksize bread 0 s pos := by
    refine ⟨h.nreads, fun i hi => absurd hi (Nat.not_lt_zero i), ?_, ?_, ?_⟩
    · rw [Nat.zero_mul]
      decide
    · rw [h.block_number, Nat.zero_mul]
      rfl
    · rw [h.pos, Nat.zero_mul]
  rw [get_byte, h.inptr, h.insize, if_neg (Nat.lt_irrefl 0)]
  exact hready.outcome hdvd

/-- a byte that is in the buffer -/
theorem Filled.outcome_of_lt (h : Filled blocksize bread m s pos) (hlt : s.inptr < INBUFSIZ) :
    Outcome blocksize bread pos (get_byte blocksize bread s) := by
  have hplace := h.place
  rw [get_byte, if_pos (by rw [h.insize]; exact hlt)]
  by_cases hvalid : s.inptr < (bread m).ret.toNat
  · refine .next (h.at_ptr hvalid) (Nat.succ_pos _) (Or.inr ⟨m, ?_⟩) fun j hj => h.before hj (by omega)
    exact ⟨h.nreads, h.insize, h.full, h.small, by rw [hplace, Nat.add_assoc], hvalid, h.bytes, h.more, h.last⟩
  · refine .stale (h.none_at (by omega)) ⟨h.full, fun hret => ?_, h.small⟩ (by omega)
    rw [hret] at hvalid
    exact hvalid hlt

/-- the buffer is used up: the last call of `bread` had filled it -/
theorem Filled.outcome_of_ge (h : Filled blocksize bread m s pos) (hdvd : blocksize ∣ INBUFSIZ)
    (hge : INBUFSIZ ≤ s.inptr) : Outcome blocksize bread pos (get_byte blocksize bread s) := by
  have hle := h.ptr_le
  have hmax := (bread m).ret_le
  have hsize : INBUFSIZ = 131072 := rfl
  have hret : (bread m).ret = INBUFSIZ := by omega
  have hplace := h.place
  have hmul := Nat.add_one_mul m INBUFSIZ
  have hfull : ∀ i < m + 1, (bread i).ret = INBUFSIZ := fun i hi => by
    rcases Nat.lt_succ_iff_lt_or_eq.mp hi with hi | rfl
    · exact h.full i hi
    · exact hret
  rw [get_byte, h.insize, if_neg (not_lt.mpr hge)]
  by_cases hsmall : (m + 1) * (INBUFSIZ / blocksize) < 2147483648
  · have hready : Ready blocksize bread (m + 1) s pos :=
      ⟨h.nreads, hfull, hsmall, h.more hret hsmall, by omega⟩
    exact hready.outcome hdvd
  · rw [fill_inbuf_eof bread s hdvd (h.last (Or.inr (by omega)))]
    refine .eof (h.none_at (by omega)) ?_
    rintro j ⟨-, hshort, hj⟩
    have hjm : m + 1 ≤ j := by
      by_contra hlt
      exact hshort (hfull j (by omega))
    have hmono : (m + 1) * (INBUFSIZ / blocksize) ≤ j * (INBUFSIZ / blocksize) :=
      Nat.mul_le_mul_right _ hjm
    omega

theorem get_byte_outcome (hdvd : blocksize ∣ INBUFSIZ) (h : Inv blocksize bread s pos) :
    Outcome blocksize bread pos (get_byte blocksize bread s) := by
  rcases h with h | ⟨m, h⟩
  · exact h.outcome hdvd
  · by_cases hlt : s.inptr < INBUFSIZ
    · exact h.outcome_of_lt hlt
    · exact h.outcome_of_ge hdvd (not_lt.mp hlt)

/-- a byte is given back from the buffer -/
theorem Inv.back (h : Inv blocksize bread s pos) (hptr : 0 < s.inptr) :
    Inv blocksize bread (back s) (pos - 1) := by
  rcases h with h | ⟨m, h⟩
  · rw [h.inptr] at hptr
    cases hptr
  · have hle := h.ptr_le
    have hmax := (bread m).ret_le
    have hplace := h.place
    have hsize : INBUFSIZ = 131072 := rfl
    have hdec : uns 32 ((s.inptr : Int) - 1) = s.inptr - 1 := by
      rw [show (s.inptr : Int) - 1 = (s.inptr - 1 : Nat) by omega, uns32_natCast (by omega)]
    refine Or.inr ⟨m, h.nreads, h.insize, h.full, h.small, ?_, ?_, h.bytes, h.more, h.last⟩
    · show pos - 1 = m * INBUFSIZ + uns 32 ((s.inptr : Int) - 1)
      omega
    · show uns 32 ((s.inptr : Int) - 1) ≤ _
      omega

theorem exact_iff (hdvd : blocksize ∣ INBUFSIZ) (ops : List Op) : ∀ (s : Input) (pos : Nat) (got : Bool),
    Legal ops got → Inv blocksize bread s pos → (got = true → 0 < s.inptr) →
    (Exact blocksize bread ops s pos ↔ Within blocksize bread ops pos) := by
  induction ops with
  | nil => exact fun s pos got _ _ _ => iff_of_true trivial fun j _ => Nat.zero_le _
  | cons op ops ih =>
    intro s pos got hlegal hinv hgot
    cases op with
    | get =>
      have hout := get_byte_outcome hdvd hinv
      rw [Exact]
      cases hget : get_byte blocksize bread s with
      | mk r t =>
        rw [hget] at hout
        dsimp only
        cases hout with
        | next hb hptr ht hbefore =>
          rw [hb]
          refine (and_iff_right rfl).trans ((ih t (pos + 1) true hlegal ht fun _ => hptr).trans ?_)
          refine forall_congr' fun j => imp_congr_right fun hj => ?_
          exact (and_iff_right (hbefore j hj)).symm.trans max_le_iff.symm
        | stale hb hj hend =>
          rw [hb]
          refine iff_of_false (fun h => ?_) fun h => ?_
          · obtain ⟨x, hx⟩ := h
            cases hx
          · have hpeak := h _ hj
            have : pos + 1 ≤ peak (.get :: ops) pos := le_max_left _ _
            omega
        | eof hb hnone =>
          rw [hb]
          exact iff_of_true ⟨_, rfl⟩ fun j hj => absurd hj (hnone j)
    | back =>
      exact ih (back s) (pos - 1) false hlegal.2 (hinv.back (hgot hlegal.1)) fun h => by cases h

end

/-- **get_byte.**  From an empty buffer, and with a byte given back only right after it was asked for,
every byte that is returned is the next one of the bytes that `bread` has delivered, and a call that
asks for more leaves through `unzip_error`, exactly when no byte is asked for past those of the first
`bread` that comes back short. -/
theorem get_byte_exact_iff (blocksize : Nat) (bread : Nat → BlockRead INBUFSIZ) (s : Input)
    (ops : List Op) (hdvd : blocksize ∣ INBUFSIZ) (hlegal : Legal ops false) :
    Exact blocksize bread ops (clear_bufs s) 0 ↔ Within blocksize bread ops 0 :=
  exact_iff hdvd ops (clear_bufs s) 0 false hlegal (Or.inl ⟨rfl, rfl, rfl, rfl, rfl⟩) fun h => by cases h

/-- a file of three bytes -/
def threeBytes (_ : Nat) : BlockRead INBUFSIZ where
  ret := 3
  data := [1, 2, 3]
  ret_ge := by decide
  ret_le := by decide
  stored := by decide

theorem threeBytes_firstShort : FirstShort 1024 threeBytes 0 :=
  ⟨fun i hi => absurd hi (Nat.not_lt_zero i), by decide, by decide⟩

/-- the three bytes, the second one given back once -/
theorem get_byte_exact_three :
    Exact 1024 threeBytes [.get, .get, .back, .get, .get] (clear_bufs ⟨fun _ => 7, 0, 0, 0, 0⟩) 0 := by
  refine (get_byte_exact_iff 1024 threeBytes ⟨fun _ => 7, 0, 0, 0, 0⟩ [.get, .get, .back, .get, .get]
    (by decide) ⟨rfl, trivial⟩).mpr fun j hj => ?_
  have hle : j * INBUFSIZ + (threeBytes j).ret.toNat = j * INBUFSIZ + 3 := rfl
  have hpeak : peak [.get, .get, .back, .get, .get] 0 = 3 := by decide
  omega

/-- a fourth byte is asked for: what the buffer held before is returned -/
theorem get_byte_stale :
    ¬ ∀ (blocksize : Nat) (bread : Nat → BlockRead INBUFSIZ) (s : Input) (ops : List Op),
      blocksize ∣ INBUFSIZ → Legal ops false → Exact blocksize bread ops (clear_bufs s) 0 := by
  intro h
  have hlegal : Legal [.get, .get, .get, .get] false := trivial
  have hwithin := (exact_iff (by decide) _ _ _ false hlegal (Or.inl ⟨rfl, rfl, rfl, rfl, rfl⟩)
    fun h => by cases h).mp (h 1024 threeBytes ⟨fun _ => 7, 0, 0, 0, 0⟩ _ (by decide) hlegal)
  exact absurd (hwithin 0 threeBytes_firstShort) (by decide)

end Zip
