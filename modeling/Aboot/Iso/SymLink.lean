import Aboot.Iso.LinkText
import Aboot.Iso.Table

/-!
# The length of a symbolic link and its text

`parse_rock_ridge_inode` and `get_rock_ridge_symlink` walk over the same entries of a directory record
and of its continuation areas, in memories of their own.

* `Agree`            two memories hold the same bytes;
* `EntryFits`        an entry lies in its area, with what its signature makes the code read of it;
* `link_area`, `parse_area`   the two walks over one area, as the entries of the disc have it;
* `recordEntries`    the entries of a record and of its continuation areas;
* `symlink_text`     the text has the length that was counted, if and only if the fresh memory of its
                     buffer is zero after every component.
-/

set_option linter.unusedVariables false

namespace Iso
open Word Prog Append

/-! ## two memories -/

/-- `m` from `a` on is `d` from `k` on, for `len` bytes -/
def Agree (m : Mem) (a : Nat) (d : Mem) (k : Nat) (len : Int) : Prop :=
  ∀ j : Nat, (j : Int) < len → m (a + j) = d (k + j)

variable {m d : Mem} {a k : Nat} {len : Int}

theorem Agree.drop (h : Agree m a d k len) (n : Nat) : Agree m (a + n) d (k + n) (len - n) := by
  intro j hj
  rw [Nat.add_assoc, Nat.add_assoc]
  exact h (n + j) (by push_cast; omega)

theorem Agree.mono (h : Agree m a d k len) {len' : Int} (hl : len' ≤ len) : Agree m a d k len' :=
  fun j hj => h j (by omega)

theorem Agree.get (h : Agree m a d k len) {n : Nat} (hn : (n : Int) ≤ len) : m.get a n = d.get k n := by
  apply List.map_congr_left
  intro j hj
  have := List.mem_range.mp hj
  exact h j (by omega)

theorem Agree.num (h : Agree m a d k len) (n : Nat) (hn : (n : Int) + 4 ≤ len) :
    isonum_733 m (a + n) = isonum_733 d (k + n) := by
  have hle : m.le32 (a + n) = d.le32 (k + n) := Mem.le_congr fun j hj => by
    rw [Nat.add_assoc, Nat.add_assoc]
    exact h (n + j) (by push_cast; omega)
  rw [isonum_733, isonum_733, hle]

/-! ## the components of an entry -/

/-- the text of every component lies in the entry -/
def CompsFit (d : Mem) (cs : List (Int × Nat)) : Prop := ∀ c ∈ cs, (slp_len d c.2 : Int) + 2 ≤ c.1

instance (d : Mem) (cs : List (Int × Nat)) : Decidable (CompsFit d cs) :=
  inferInstanceAs (Decidable (∀ c ∈ cs, _))

theorem slp_agree (h : Agree m a d k len) (hl : 2 ≤ len) :
    slp_flags m a = slp_flags d k ∧ slp_len m a = slp_len d k := by
  have h0 := h 0 (by omega)
  have h1 := h 1 (by omega)
  exact ⟨congrArg UInt8.toNat h0, congrArg UInt8.toNat h1⟩

theorem slpSize_agree (hf : slp_flags m a = slp_flags d k) (hl : slp_len m a = slp_len d k) :
    slpSize m a = slpSize d k := by
  unfold slpSize
  rw [hf, hl]

theorem slpPiece_agree (h : Agree m a d k len) (hf : slp_flags m a = slp_flags d k)
    (hl : slp_len m a = slp_len d k) (hfit : (slp_len d k : Int) + 2 ≤ len) :
    slpPiece m a = slpPiece d k := by
  have hs : span m (slp_text a) (slp_len m a) = span d (slp_text k) (slp_len d k) := by
    have hg : m.get (slp_text a) (slp_len d k) = d.get (slp_text k) (slp_len d k) :=
      (h.drop 2).get (by push_cast; omega)
    unfold span
    rw [hl, hg]
  unfold slpPiece
  rw [hf, hs]

theorem slashOf_agree {rr rr' : Nat} (hr : rr_flags m rr = rr_flags d rr')
    (hf : slp_flags m a = slp_flags d k) (hl : slp_len m a = slp_len d k) (slen : Int) :
    slashOf m rr slen a = slashOf d rr' slen k := by
  unfold slashOf lastComp slashEnd slashAfter
  rw [hr, hf, hl]

theorem comps_agree {rr rr' : Nat} (hr : rr_flags m rr = rr_flags d rr') {fuel : Nat}
    (h : Agree m a d k len) (hfit : CompsFit d (comps d fuel len k)) :
    compWeight m rr (comps m fuel len a) = compWeight d rr' (comps d fuel len k) ∧
      compPieces m rr (comps m fuel len a) = compPieces d rr' (comps d fuel len k) := by
  induction fuel generalizing a k len with
  | zero => exact ⟨rfl, rfl⟩
  | succ fuel ih =>
    unfold comps at hfit ⊢
    by_cases h1 : len ≤ 1
    · rw [if_pos h1, if_pos h1]
      exact ⟨rfl, rfl⟩
    · rw [if_neg h1] at hfit ⊢
      rw [if_neg h1]
      obtain ⟨hf, hl⟩ := slp_agree h (by omega)
      have hin : (slp_len d k : Int) + 2 ≤ len := hfit (len, k) List.mem_cons_self
      have hlast : lastComp m len a = lastComp d len k := by rw [lastComp, lastComp, hl]
      rw [compWeight_cons, compWeight_cons, compPieces, compPieces, List.flatMap_cons,
        List.flatMap_cons, hlast, slpSize_agree hf hl, slashOf_agree hr hf hl,
        slpPiece_agree h hf hl hin]
      by_cases h2 : lastComp d len k = true
      · rw [if_pos h2, if_pos h2]
        exact ⟨rfl, rfl⟩
      · rw [if_neg h2] at hfit ⊢
        rw [if_neg h2]
        have hd : Agree m (a + slp_len m a + 2) d (k + slp_len d k + 2) (len - (slp_len d k + 2)) := by
          rw [hl]
          exact h.drop (slp_len d k + 2)
        have hi := ih hd (fun c hc => hfit c (List.mem_cons_of_mem _ hc))
        rw [hl] at hi ⊢
        exact ⟨by rw [hi.1], by rw [← compPieces, ← compPieces, hi.2]⟩

/-! ## one entry -/

/-- the pieces that an entry appends to the text -/
def entryPieces (m : Mem) (rr : Nat) : List Piece :=
  if rr_sig m rr = SIG 'S' 'L' then compPieces m rr (slComps m rr) else []

/-- the characters that an entry counts -/
def entryWeight (m : Mem) (rr : Nat) : Nat :=
  if rr_sig m rr = SIG 'S' 'L' then compWeight m rr (slComps m rr) else 0

/-- the continuation area after an entry -/
def entryCont (m : Mem) (rr : Nat) (c : Cont) : Cont :=
  if rr_sig m rr = SIG 'C' 'E' then checkCE m rr else c

/-- `get_rock_ridge_symlink` goes on after an entry -/
def Passes (m : Mem) (rr : Nat) : Prop :=
  (rr_sig m rr = SIG 'R' 'R' → rr_flags m rr &&& RR_SL ≠ 0) ∧
    (rr_sig m rr = SIG 'S' 'P' → checkSP m rr = true)

/-- the entry at `k`, with `len` bytes left, lies in its area, with what is read of it -/
structure EntryFits (d : Mem) (k : Nat) (len : Int) : Prop where
  header : 4 ≤ rr_len d k
  inside : (rr_len d k : Int) ≤ len
  rr : rr_sig d k = SIG 'R' 'R' → 5 ≤ rr_len d k
  sp : rr_sig d k = SIG 'S' 'P' → 6 ≤ rr_len d k
  ce : rr_sig d k = SIG 'C' 'E' → 24 ≤ rr_len d k
  sl : rr_sig d k = SIG 'S' 'L' → 5 ≤ rr_len d k ∧ CompsFit d (slComps d k)

instance (d : Mem) (k : Nat) (len : Int) : Decidable (EntryFits d k len) :=
  decidable_of_iff (4 ≤ rr_len d k ∧ (rr_len d k : Int) ≤ len ∧
      (rr_sig d k = SIG 'R' 'R' → 5 ≤ rr_len d k) ∧ (rr_sig d k = SIG 'S' 'P' → 6 ≤ rr_len d k) ∧
      (rr_sig d k = SIG 'C' 'E' → 24 ≤ rr_len d k) ∧
      (rr_sig d k = SIG 'S' 'L' → 5 ≤ rr_len d k ∧ CompsFit d (slComps d k)))
    ⟨fun ⟨h1, h2, h3, h4, h5, h6⟩ => ⟨h1, h2, h3, h4, h5, h6⟩,
      fun h => ⟨h.header, h.inside, h.rr, h.sp, h.ce, h.sl⟩⟩

/-- two entries that the walks cannot tell apart -/
structure Alike (m : Mem) (a : Nat) (d : Mem) (k : Nat) : Prop where
  sig : rr_sig m a = rr_sig d k
  passes : Passes m a ↔ Passes d k
  cont : ∀ c, entryCont m a c = entryCont d k c
  weight : entryWeight m a = entryWeight d k
  pieces : entryPieces m a = entryPieces d k

theorem rr_len_agree (h : Agree m a d k len) (hl : 3 ≤ len) : rr_len m a = rr_len d k :=
  congrArg UInt8.toNat (h 2 (by omega))

theorem alike (h : Agree m a d k len) (hf : EntryFits d k len) : Alike m a d k := by
  have hin := hf.inside
  have hhead := hf.header
  have hsig : rr_sig m a = rr_sig d k := by
    have h0 := h 0 (by omega)
    have h1 := h 1 (by omega)
    exact Prod.ext h0 h1
  have hlen : rr_len m a = rr_len d k := rr_len_agree h (by omega)
  have hflags : 5 ≤ rr_len d k → rr_flags m a = rr_flags d k := fun h5 =>
    congrArg UInt8.toNat (h 4 (by omega))
  have hsl : rr_sig d k = SIG 'S' 'L' →
      compWeight m a (slComps m a) = compWeight d k (slComps d k) ∧
        compPieces m a (slComps m a) = compPieces d k (slComps d k) := by
    intro hs
    obtain ⟨h5, hfit⟩ := hf.sl hs
    unfold slComps at hfit ⊢
    rw [hlen]
    exact comps_agree (hflags h5) ((h.drop 5).mono (by push_cast; omega)) hfit
  refine ⟨hsig, ?_, fun c => ?_, ?_, ?_⟩
  · unfold Passes
    rw [hsig]
    refine and_congr (forall_congr' fun hs => ?_) (forall_congr' fun hs => ?_)
    · rw [hflags (hf.rr hs)]
    · have h6 := hf.sp hs
      have h4 := h 4 (by omega)
      have h5 := h 5 (by omega)
      rw [checkSP, checkSP, SP_magic, SP_magic, h4, h5]
  · unfold entryCont
    rw [hsig]
    split
    · rename_i hs
      have h24 := hf.ce hs
      rw [checkCE, checkCE, h.num 4 (by omega), h.num 12 (by omega), h.num 20 (by omega)]
    · rfl
  · unfold entryWeight
    rw [hsig]
    split
    · rename_i hs
      exact (hsl hs).1
    · rfl
  · unfold entryPieces
    rw [hsig]
    split
    · rename_i hs
      exact (hsl hs).2
    · rfl

/-! ## one step of each walk -/

variable {E : Env} {depth size : Nat} {s t : State}

/-- one step for the text, unless it gives up -/
theorem linkStep_next {rr : Nat} {x y : Link}
    (h : linkStep E depth size m rr x s = some (.next y, t)) :
    Passes m rr ∧ y.cont = entryCont m rr x.cont ∧
      ∀ p ps, LinkBuf E size p ps s x.rpnt → LinkBuf E size p (ps ++ entryPieces m rr) t y.rpnt := by
  unfold linkStep at h
  unfold Passes entryCont entryPieces
  by_cases h1 : rr_sig m rr = SIG 'R' 'R'
  · rw [if_pos h1, pure_run, Option.some.injEq, Prod.mk.injEq] at h
    by_cases hz : rr_flags m rr &&& RR_SL = 0
    · rw [if_pos hz] at h
      cases h.1
    · rw [if_neg hz] at h
      obtain rfl : x = y := by simpa using h.1
      rw [h1, if_neg (by decide), if_neg (by decide)]
      refine ⟨⟨fun _ => hz, fun hs => absurd hs (by decide)⟩, rfl, fun p ps hb => ?_⟩
      rwa [List.append_nil, ← h.2]
  rw [if_neg h1] at h
  by_cases h2 : rr_sig m rr = SIG 'S' 'P'
  · rw [if_pos h2, pure_run, Option.some.injEq, Prod.mk.injEq] at h
    by_cases hz : checkSP m rr = true
    · rw [if_pos hz] at h
      obtain rfl : x = y := by simpa using h.1
      rw [h2, if_neg (by decide), if_neg (by decide)]
      refine ⟨⟨fun hs => absurd hs (by decide), fun _ => hz⟩, rfl, fun p ps hb => ?_⟩
      rwa [List.append_nil, ← h.2]
    · rw [if_neg hz] at h
      cases h.1
  rw [if_neg h2] at h
  by_cases h3 : rr_sig m rr = SIG 'S' 'L'
  · rw [if_pos h3] at h
    obtain ⟨r, t1, h4, h5⟩ := bind_some.mp h
    rw [pure_run, Option.some.injEq, Prod.mk.injEq] at h5
    obtain rfl : { x with rpnt := r } = y := by simpa using h5.1
    rw [h3, if_neg (by decide), if_pos rfl]
    refine ⟨⟨fun hs => absurd hs (by decide), fun hs => absurd hs (by decide)⟩, rfl, fun p ps hb => ?_⟩
    rw [← h5.2]
    exact slText_buf hb h4
  rw [if_neg h3] at h
  by_cases h4 : rr_sig m rr = SIG 'C' 'E'
  · rw [if_pos h4, pure_run, Option.some.injEq, Prod.mk.injEq] at h
    obtain rfl : { x with cont := checkCE m rr } = y := by simpa using h.1
    rw [h4, if_pos rfl, if_neg (by decide)]
    refine ⟨⟨fun hs => absurd hs (by decide), fun hs => absurd hs (by decide)⟩, rfl, fun p ps hb => ?_⟩
    rwa [List.append_nil, ← h.2]
  · rw [if_neg h4, pure_run, Option.some.injEq, Prod.mk.injEq] at h
    obtain rfl : x = y := by simpa using h.1
    rw [if_neg h4, if_neg h3]
    refine ⟨⟨fun hs => absurd hs h1, fun hs => absurd hs h2⟩, rfl, fun p ps hb => ?_⟩
    rwa [List.append_nil, ← h.2]

/-- one step for the text comes to an end, where the memory is zero after the pieces and holds the buffer -/
theorem linkStep_runs {rr p : Nat} {ps : List Piece} {x : Link} (hb : LinkBuf E size p ps s x.rpnt)
    (hz : Zeroed (fresh E size p) (ps ++ entryPieces m rr))
    (hmem : entryPieces m rr ≠ [] → ¬ out_of_memory (behindText E size ps (entryPieces m rr) s.free_mem_ptr))
    (hd : (text (ps ++ entryPieces m rr)).length + 256 ≤ depth) :
    ∃ f t, linkStep E depth size m rr x s = some (f, t) ∧
      t.free_mem_ptr = behindText E size ps (entryPieces m rr) s.free_mem_ptr := by
  unfold linkStep
  by_cases h3 : rr_sig m rr = SIG 'S' 'L'
  · rw [entryPieces, if_pos h3] at hz hmem hd ⊢
    obtain ⟨r, t, hrun, hheap⟩ := slText_runs hb hz hmem hd
    rw [h3, if_neg (by decide), if_neg (by decide), if_pos rfl, bind_run hrun]
    exact ⟨_, t, rfl, hheap⟩
  · have hnil : entryPieces m rr = [] := if_neg h3
    rw [hnil, behindText_nil]
    split
    · exact ⟨_, s, rfl, rfl⟩
    · split
      · exact ⟨_, s, rfl, rfl⟩
      · split
        · exact ⟨_, s, rfl, rfl⟩
        · exact ⟨_, s, rfl, rfl⟩

/-- what a step of `parse_rock_ridge_inode` adds: the characters of the entry, and the size follows
their sum from the first SL entry on -/
structure Adds (w : Nat) (sl : Prop) (x y : Parsed) : Prop where
  len : y.symlink_len = (x.symlink_len + w) % 2 ^ 32
  size : sl ∨ x.size = x.symlink_len → y.size = y.symlink_len

/-- one step for the inode, where the walk for the text goes on -/
theorem parseStep_passes {rr : Nat} (x : Parsed) (hx : x.symlink_len < 2 ^ 32) (hp : Passes m rr) :
    (rr_sig m rr = SIG 'R' 'E' → parseStep m rr x s = some (.out x, s)) ∧
    (rr_sig m rr ≠ SIG 'R' 'E' → ∃ y, parseStep m rr x s = some (.next y, s) ∧
      y.cont = entryCont m rr x.cont ∧
      Adds (entryWeight m rr) (rr_sig m rr = SIG 'S' 'L') x y) := by
  have hsame : ∀ (sl : Prop) (y : Parsed), ¬ sl → y.symlink_len = x.symlink_len → y.size = x.size →
      Adds 0 sl x y := by
    intro sl y hsl hy hz
    refine ⟨?_, fun h => ?_⟩
    · rw [hy, Nat.add_zero, Nat.mod_eq_of_lt hx]
    · rw [hy, hz]
      exact h.resolve_left hsl
  unfold parseStep entryCont entryWeight
  refine ⟨fun hre => ?_, fun hre => ?_⟩
  · rw [hre]
    rfl
  · by_cases h1 : rr_sig m rr = SIG 'R' 'R'
    · have hz : rr_flags m rr &&& (RR_PX ||| RR_TF ||| RR_SL ||| RR_CL) ≠ 0 := by
        intro h0
        apply hp.1 h1
        have he : (RR_PX ||| RR_TF ||| RR_SL ||| RR_CL) &&& RR_SL = RR_SL := by decide
        rw [← he, ← Nat.and_assoc, h0, Nat.zero_and]
      rw [h1, if_pos rfl, if_neg hz, if_neg (by decide), if_neg (by decide)]
      exact ⟨x, rfl, rfl, hsame _ x (by decide) rfl rfl⟩
    by_cases h2 : rr_sig m rr = SIG 'S' 'P'
    · rw [h2, if_neg (by decide), if_pos rfl, if_pos (hp.2 h2), if_neg (by decide), if_neg (by decide)]
      exact ⟨x, rfl, rfl, hsame _ x (by decide) rfl rfl⟩
    by_cases h3 : rr_sig m rr = SIG 'C' 'E'
    · rw [h3, if_neg (by decide), if_neg (by decide), if_pos rfl, if_pos rfl, if_neg (by decide)]
      exact ⟨{ x with cont := checkCE m rr }, rfl, rfl, hsame _ _ (by decide) rfl rfl⟩
    by_cases h4 : rr_sig m rr = SIG 'P' 'X'
    · rw [h4, if_neg (by decide), if_neg (by decide), if_neg (by decide), if_pos rfl,
        if_neg (by decide), if_neg (by decide)]
      exact ⟨{ x with mode := PX_mode m rr, nlink := PX_n_links m rr }, rfl, rfl, hsame _ _ (by decide) rfl rfl⟩
    by_cases h5 : rr_sig m rr = SIG 'S' 'L'
    · rw [h5, if_neg (by decide), if_neg (by decide), if_neg (by decide), if_neg (by decide), if_pos rfl,
        if_neg (by decide), if_pos rfl, slLen_eq hx]
      exact ⟨_, rfl, rfl, rfl, fun _ => rfl⟩
    · rw [if_neg h1, if_neg h2, if_neg h3, if_neg h4, if_neg h5, if_neg hre, if_neg h3, if_neg h5]
      exact ⟨x, rfl, rfl, hsame _ x h5 rfl rfl⟩

/-! ## one area -/

/-- the entries of an area of `len` bytes from `k` on -/
def areaEntries (d : Mem) : (n : Nat) → (k : Nat) → (len : Int) → List (Mem × Nat)
  | 0, _, _ => []
  | n + 1, k, len =>
    if len ≤ 1 then [] else (d, k) :: areaEntries d n (k + rr_len d k) (len - rr_len d k)

/-- every entry of an area lies in it, up to one of length 0 -/
def AreaFits (d : Mem) : (n : Nat) → (k : Nat) → (len : Int) → Prop
  | 0, _, _ => True
  | n + 1, k, len => 1 < len → (3 ≤ len ∧ rr_len d k = 0) ∨
    (EntryFits d k len ∧ AreaFits d n (k + rr_len d k) (len - rr_len d k))

instance decAreaFits (d : Mem) : (n k : Nat) → (len : Int) → Decidable (AreaFits d n k len)
  | 0, _, _ => .isTrue trivial
  | n + 1, k, len =>
    have := decAreaFits d n (k + rr_len d k) (len - rr_len d k)
    inferInstanceAs (Decidable (1 < len → _ ∨ (_ ∧ _)))

/-- `get_rock_ridge_symlink` comes through an area -/
def Through (d : Mem) : (n : Nat) → (k : Nat) → (len : Int) → Prop
  | 0, _, _ => True
  | n + 1, k, len => 1 < len →
    rr_len d k ≠ 0 ∧ Passes d k ∧ Through d n (k + rr_len d k) (len - rr_len d k)

/-- the continuation area after some entries -/
def contOf (es : List (Mem × Nat)) (c : Cont) : Cont :=
  es.foldl (fun (c : Cont) e => entryCont e.1 e.2 c) c

/-- the pieces of some entries -/
def piecesOf (es : List (Mem × Nat)) : List Piece := es.flatMap fun e => entryPieces e.1 e.2

/-- the characters of some entries -/
def weightOf (es : List (Mem × Nat)) : Nat := (es.map fun e => entryWeight e.1 e.2).sum

theorem piecesOf_append (es es' : List (Mem × Nat)) :
    piecesOf (es ++ es') = piecesOf es ++ piecesOf es' := List.flatMap_append

def IsSL (e : Mem × Nat) : Prop := rr_sig e.1 e.2 = SIG 'S' 'L'
def IsRE (e : Mem × Nat) : Prop := rr_sig e.1 e.2 = SIG 'R' 'E'

instance (e : Mem × Nat) : Decidable (IsSL e) := inferInstanceAs (Decidable (_ = _))
instance (e : Mem × Nat) : Decidable (IsRE e) := inferInstanceAs (Decidable (_ = _))

/-- the entries before the first RE, where `parse_rock_ridge_inode` gives up -/
def beforeRE (es : List (Mem × Nat)) : List (Mem × Nat) := es.takeWhile fun e => ¬ IsRE e

theorem link_area {n : Nat} {x y : Link} (h : Agree m a d k len) (hf : AreaFits d n k len)
    (hr : walkArea Flow.out (linkStep E depth size) m n a len x s = some (.next y, t)) :
    Through d n k len ∧ y.cont = contOf (areaEntries d n k len) x.cont ∧
      ∀ p ps, LinkBuf E size p ps s x.rpnt →
        LinkBuf E size p (ps ++ piecesOf (areaEntries d n k len)) t y.rpnt := by
  induction n generalizing a k len x s with
  | zero =>
    rw [walkArea, pure_run, Option.some.injEq, Prod.mk.injEq] at hr
    obtain rfl : x = y := by simpa using hr.1
    refine ⟨trivial, rfl, fun p ps hb => ?_⟩
    rwa [areaEntries, piecesOf, List.flatMap_nil, List.append_nil, ← hr.2]
  | succ n ih =>
    unfold walkArea at hr
    unfold Through areaEntries
    by_cases h1 : len ≤ 1
    · rw [if_pos h1, pure_run, Option.some.injEq, Prod.mk.injEq] at hr
      obtain rfl : x = y := by simpa using hr.1
      rw [if_pos h1]
      refine ⟨fun hl => absurd h1 (by omega), rfl, fun p ps hb => ?_⟩
      rwa [piecesOf, List.flatMap_nil, List.append_nil, ← hr.2]
    · rw [if_neg h1] at hr ⊢
      have hl : rr_len m a = rr_len d k := by
        refine rr_len_agree h ?_
        obtain ⟨h3, -⟩ | ⟨he, -⟩ := hf (by omega)
        · exact h3
        · have := he.header
          have := he.inside
          omega
      by_cases h2 : rr_len m a = 0
      · rw [if_pos h2, pure_run, Option.some.injEq, Prod.mk.injEq] at hr
        cases hr.1
      · rw [if_neg h2] at hr
        obtain ⟨he, hnext⟩ := (hf (by omega)).resolve_left fun hz => h2 (hl.trans hz.2)
        have ha := alike h he
        obtain ⟨z, t1, hstep, hr⟩ := bind_some.mp hr
        cases z with
        | out z => cases congrArg Prod.fst (Option.some.inj hr)
        | next z =>
          obtain ⟨hp, hc, hb⟩ := linkStep_next hstep
          have hd := h.drop (rr_len d k)
          rw [hl] at hr
          obtain ⟨i1, i2, i3⟩ := ih hd hnext hr
          refine ⟨fun _ => ⟨hl ▸ h2, ha.passes.mp hp, i1⟩, ?_, fun p ps hps => ?_⟩
          · rw [i2, hc, ha.cont]
            rfl
          · have := i3 p _ (hb p ps hps)
            rw [List.append_assoc, ha.pieces] at this
            exact this

theorem piecesOf_cons (e : Mem × Nat) (es : List (Mem × Nat)) :
    piecesOf (e :: es) = entryPieces e.1 e.2 ++ piecesOf es := List.flatMap_cons

/-- the walk over an area comes to an end -/
theorem link_area_runs {n p : Nat} {ps : List Piece} {x : Link} (h : Agree m a d k len)
    (hf : AreaFits d n k len) (hb : LinkBuf E size p ps s x.rpnt)
    (hz : Zeroed (fresh E size p) (ps ++ piecesOf (areaEntries d n k len)))
    (hmem : piecesOf (areaEntries d n k len) ≠ [] →
      ¬ out_of_memory (behindText E size ps (piecesOf (areaEntries d n k len)) s.free_mem_ptr))
    (hd : (text (ps ++ piecesOf (areaEntries d n k len))).length + 256 ≤ depth) :
    ∃ f t, walkArea Flow.out (linkStep E depth size) m n a len x s = some (f, t) ∧ ∀ y, f = .next y →
      t.free_mem_ptr = behindText E size ps (piecesOf (areaEntries d n k len)) s.free_mem_ptr := by
  induction n generalizing a k len x s ps with
  | zero => exact ⟨_, s, rfl, fun _ _ => (behindText_nil E size ps _).symm⟩
  | succ n ih =>
    by_cases h1 : len ≤ 1
    · unfold walkArea areaEntries
      rw [if_pos h1, if_pos h1]
      exact ⟨_, s, rfl, fun _ _ => (behindText_nil E size ps _).symm⟩
    · have hl : rr_len m a = rr_len d k := by
        refine rr_len_agree h ?_
        obtain ⟨h3, -⟩ | ⟨he, -⟩ := hf (by omega)
        · exact h3
        · have := he.header
          have := he.inside
          omega
      unfold walkArea
      rw [if_neg h1, hl]
      by_cases h2 : rr_len d k = 0
      · rw [if_pos h2]
        exact ⟨_, s, rfl, fun y hy => by cases hy⟩
      · obtain ⟨he, hnext⟩ := (hf (by omega)).resolve_left fun hz => h2 hz.2
        have ha := alike h he
        rw [areaEntries, if_neg h1, piecesOf_cons] at hz hmem hd ⊢
        rw [← List.append_assoc] at hz hd
        have hlen := hd
        rw [text_append, List.length_append] at hlen
        rw [← behindText_append] at hmem ⊢
        rw [if_neg h2]
        have hmem1 : entryPieces d k ≠ [] →
            ¬ out_of_memory (behindText E size ps (entryPieces d k) s.free_mem_ptr) := by
          intro hne
          have hnil : ps ++ entryPieces d k ≠ [] := fun h => hne (List.append_eq_nil_iff.mp h).2
          have hmem := hmem fun h => hne (List.append_eq_nil_iff.mp h).1
          rw [behindText, if_neg fun hc => hnil hc.1] at hmem
          exact hmem
        rw [← ha.pieces] at hz hmem1 hlen
        obtain ⟨f, t1, hstep, hheap⟩ := linkStep_runs hb hz.left hmem1
          (show _ + 256 ≤ depth by omega)
        rw [bind_run hstep]
        cases f with
        | out z => exact ⟨_, t1, rfl, fun y hy => by cases hy⟩
        | next z =>
          obtain ⟨-, -, hbuf⟩ := linkStep_next hstep
          have hbuf := hbuf p ps hb
          rw [ha.pieces] at hheap hz hbuf
          rw [← hheap] at hmem ⊢
          exact ih (h.drop (rr_len d k)) hnext hbuf hz
            (fun hne => hmem fun h => hne (List.append_eq_nil_iff.mp h).2) hd

/-! ### the inode -/

variable {es es' : List (Mem × Nat)}

/-- what the entries up to the first RE add to the inode -/
def Added (es : List (Mem × Nat)) (x y : Parsed) : Prop :=
  Adds (weightOf (beforeRE es)) (∃ e ∈ beforeRE es, IsSL e) x y

theorem Adds.trans {w w' : Nat} {sl sl' : Prop} {x y z : Parsed} (h : Adds w sl x y)
    (h' : Adds w' sl' y z) : Adds (w + w') (sl ∨ sl') x z := by
  refine ⟨?_, fun hs => h'.size ?_⟩
  · rw [h'.len, h.len]
    omega
  · obtain (hs | hs) | hs := hs
    · exact .inr (h.size (.inl hs))
    · exact .inl hs
    · exact .inr (h.size (.inr hs))

theorem Adds.lt {w : Nat} {sl : Prop} {x y : Parsed} (h : Adds w sl x y) : y.symlink_len < 2 ^ 32 := by
  rw [h.len]
  exact Nat.mod_lt _ (by decide)

theorem added_nil (x : Parsed) (hx : x.symlink_len < 2 ^ 32) : Added [] x x :=
  ⟨(Nat.mod_eq_of_lt hx).symm, fun h => h.resolve_left fun ⟨e, he, _⟩ => absurd he List.not_mem_nil⟩

theorem beforeRE_cons_re {e : Mem × Nat} (h : IsRE e) : beforeRE (e :: es) = [] := by
  simp [beforeRE, h]

theorem beforeRE_cons {e : Mem × Nat} (h : ¬ IsRE e) : beforeRE (e :: es) = e :: beforeRE es := by
  simp [beforeRE, h]

theorem added_cons {e : Mem × Nat} (he : ¬ IsRE e) {x y z : Parsed}
    (h : Adds (entryWeight e.1 e.2) (IsSL e) x y) (h' : Added es y z) : Added (e :: es) x z := by
  have ht := h.trans h'
  unfold Added
  rw [beforeRE_cons he]
  refine ⟨?_, fun hs => ht.size (hs.imp_left ?_)⟩
  · rw [ht.len]
    simp [weightOf]
  · rintro ⟨e', he', hsl⟩
    obtain rfl | he' := List.mem_cons.mp he'
    · exact .inl hsl
    · exact .inr ⟨e', he', hsl⟩

theorem parse_area {n : Nat} (h : Agree m a d k len) (hf : AreaFits d n k len)
    (ht : Through d n k len) (x : Parsed) (hx : x.symlink_len < 2 ^ 32) :
    ∃ y, Added (areaEntries d n k len) x y ∧
      ((∀ e ∈ areaEntries d n k len, ¬ IsRE e) →
        walkArea Flow.out parseStep m n a len x s = some (.next y, s) ∧
          y.cont = contOf (areaEntries d n k len) x.cont) ∧
      ((∃ e ∈ areaEntries d n k len, IsRE e) →
        walkArea Flow.out parseStep m n a len x s = some (.out y, s)) := by
  induction n generalizing a k len x with
  | zero =>
    refine ⟨x, added_nil x hx, fun _ => ⟨rfl, rfl⟩, ?_⟩
    rintro ⟨e, he, _⟩
    exact absurd he List.not_mem_nil
  | succ n ih =>
    unfold walkArea areaEntries
    by_cases h1 : len ≤ 1
    · rw [if_pos h1, if_pos h1]
      refine ⟨x, added_nil x hx, fun _ => ⟨rfl, rfl⟩, ?_⟩
      rintro ⟨e, he, _⟩
      exact absurd he List.not_mem_nil
    · obtain ⟨h2, hp, hthrough⟩ := ht (by omega)
      obtain ⟨he, hnext⟩ := (hf (by omega)).resolve_left fun hz => h2 hz.2
      have ha := alike h he
      have hl : rr_len m a = rr_len d k := by
        have := he.header
        have := he.inside
        exact rr_len_agree h (by omega)
      rw [if_neg h1, if_neg h1, hl, if_neg h2]
      have hstep := parseStep_passes (s := s) x hx (ha.passes.mpr hp)
      by_cases hre : rr_sig d k = SIG 'R' 'E'
      · refine ⟨x, ?_, fun hno => absurd hre (hno (d, k) List.mem_cons_self), fun _ => ?_⟩
        · unfold Added
          rw [beforeRE_cons_re (e := (d, k)) hre]
          exact added_nil x hx
        · rw [bind_run (hstep.1 (ha.sig.trans hre))]
          rfl
      · obtain ⟨y, hrun, hc, hadd⟩ := hstep.2 (fun hs => hre (ha.sig.symm.trans hs))
        obtain ⟨z, hz, hz1, hz2⟩ := ih (h.drop (rr_len d k)) hnext hthrough y hadd.lt
        rw [ha.weight, ha.sig] at hadd
        refine ⟨z, added_cons (e := (d, k)) hre hadd hz, fun hno => ?_, ?_⟩
        · obtain ⟨i1, i2⟩ := hz1 fun e he => hno e (List.mem_cons_of_mem _ he)
          refine ⟨(bind_run hrun).trans i1, ?_⟩
          rw [i2, hc, ha.cont]
          rfl
        · rintro ⟨e, he, hr⟩
          refine (bind_run hrun).trans (hz2 ?_)
          obtain rfl | he := List.mem_cons.mp he
          · exact absurd hr hre
          · exact ⟨e, he, hr⟩

/-! ## continuation areas -/

/-- the bytes of a device from `offset` on -/
def disc (E : Env) (dev offset : Int) : Mem := fun k => E.bytes dev (offset + k)

/-- the continuation area that a CE entry names, if it can be read -/
def nextArea (E : Env) (dev : Int) (c : Cont) : Option (Mem × Int) :=
  if c.extent = 0 then none
  else if (E.read 0 dev c.size (sgn 32 (c.extent * ISOFS_BLOCK_SIZE + c.offset))).ret = c.size then
    some (disc E dev (sgn 32 (c.extent * ISOFS_BLOCK_SIZE + c.offset)), c.size)
  else none

/-- the entries of an area and of the areas that continue it -/
def recordEntries (E : Env) (dev : Int) :
    (fuel : Nat) → (d : Mem) → (k : Nat) → (len : Int) → List (Mem × Nat)
  | 0, _, _, _ => []
  | fuel + 1, d, k, len =>
    areaEntries d len.toNat k len ++
      (nextArea E dev (contOf (areaEntries d len.toNat k len) noCont)).elim []
        fun x => recordEntries E dev fuel x.1 0 x.2

/-- the entries of all areas lie in them -/
def RecordFits (E : Env) (dev : Int) : (fuel : Nat) → (d : Mem) → (k : Nat) → (len : Int) → Prop
  | 0, _, _, _ => True
  | fuel + 1, d, k, len => AreaFits d len.toNat k len ∧
    (nextArea E dev (contOf (areaEntries d len.toNat k len) noCont)).elim True
      fun x => RecordFits E dev fuel x.1 0 x.2

instance decRecordFits (E : Env) (dev : Int) :
    (fuel : Nat) → (d : Mem) → (k : Nat) → (len : Int) → Decidable (RecordFits E dev fuel d k len)
  | 0, _, _, _ => .isTrue trivial
  | fuel + 1, d, k, len =>
    have : (c : Option (Mem × Int)) → Decidable (c.elim True fun x => RecordFits E dev fuel x.1 0 x.2)
      | none => .isTrue trivial
      | some x => decRecordFits E dev fuel x.1 0 x.2
    inferInstanceAs (Decidable (_ ∧ _))

/-- `get_rock_ridge_symlink` comes through all areas -/
def RecordThrough (E : Env) (dev : Int) : (fuel : Nat) → (d : Mem) → (k : Nat) → (len : Int) → Prop
  | 0, _, _, _ => False
  | fuel + 1, d, k, len => Through d len.toNat k len ∧
    (nextArea E dev (contOf (areaEntries d len.toNat k len) noCont)).elim True
      fun x => RecordThrough E dev fuel x.1 0 x.2

/-- the chain of the continuation areas ends -/
def RecordEnds (E : Env) (dev : Int) : (fuel : Nat) → (d : Mem) → (k : Nat) → (len : Int) → Prop
  | 0, _, _, _ => False
  | fuel + 1, d, k, len => (nextArea E dev (contOf (areaEntries d len.toNat k len) noCont)).elim True
      fun x => RecordEnds E dev fuel x.1 0 x.2

instance decRecordEnds (E : Env) (dev : Int) :
    (fuel : Nat) → (d : Mem) → (k : Nat) → (len : Int) → Decidable (RecordEnds E dev fuel d k len)
  | 0, _, _, _ => .isFalse id
  | fuel + 1, d, k, len =>
    have : (c : Option (Mem × Int)) → Decidable (c.elim True fun x => RecordEnds E dev fuel x.1 0 x.2)
      | none => .isTrue trivial
      | some x => decRecordEnds E dev fuel x.1 0 x.2
    this _

/-- the heap has the buffers that `get_rock_ridge_symlink` allocates for the areas and for a text of `size`
characters, of which the pieces `ps` are there already -/
def LinkMemory (E : Env) (dev : Int) (size : Nat) :
    (fuel : Nat) → (d : Mem) → (k : Nat) → (len : Int) → (ps : List Piece) → (free_mem_ptr : Nat) → Prop
  | 0, _, _, _, _, _ => True
  | fuel + 1, d, k, len, ps, p =>
    let es := areaEntries d len.toNat k len
    let q := behindText E size ps (piecesOf es) p
    let c := contOf es noCont
    (piecesOf es ≠ [] → ¬ out_of_memory q) ∧
      (c.extent ≠ 0 → ¬ out_of_memory (malloc E.clusters q (uns 64 c.size))) ∧
      (nextArea E dev c).elim True
        fun x => LinkMemory E dev size fuel x.1 0 x.2 (ps ++ piecesOf es) (malloc E.clusters q (uns 64 c.size))

instance decLinkMemory (E : Env) (dev : Int) (size : Nat) : (fuel : Nat) → (d : Mem) → (k : Nat) → (len : Int) →
    (ps : List Piece) → (p : Nat) → Decidable (LinkMemory E dev size fuel d k len ps p)
  | 0, _, _, _, _, _ => .isTrue trivial
  | fuel + 1, d, k, len, ps, p =>
    have : (c : Option (Mem × Int)) → (ps : List Piece) → (q : Nat) →
        Decidable (c.elim True fun x => LinkMemory E dev size fuel x.1 0 x.2 ps q)
      | none, _, _ => .isTrue trivial
      | some x, ps, q => decLinkMemory E dev size fuel x.1 0 x.2 ps q
    inferInstanceAs (Decidable (_ ∧ _ ∧ _))

/-- the heap where the buffer of the text is allocated: every area before the first text takes its own
buffer first -/
def textHeap (E : Env) (dev : Int) :
    (fuel : Nat) → (d : Mem) → (k : Nat) → (len : Int) → (free_mem_ptr : Nat) → Nat
  | 0, _, _, _, p => p
  | fuel + 1, d, k, len, p =>
    if piecesOf (areaEntries d len.toNat k len) ≠ [] then p
    else (nextArea E dev (contOf (areaEntries d len.toNat k len) noCont)).elim p
      fun x => textHeap E dev fuel x.1 0 x.2 (malloc E.clusters p (uns 64 x.2))

/-- what is known of a record whose chain ends does not depend on how far it may go on -/
theorem RecordEnds.more {dev : Int} {n : Nat} (h : RecordEnds E dev n d k len) : ∀ {fuel : Nat}, n ≤ fuel →
    recordEntries E dev fuel d k len = recordEntries E dev n d k len ∧ RecordEnds E dev fuel d k len ∧
      (RecordFits E dev n d k len → RecordFits E dev fuel d k len) ∧
      (∀ p, textHeap E dev fuel d k len p = textHeap E dev n d k len p) ∧
      ∀ z ps p, LinkMemory E dev z n d k len ps p → LinkMemory E dev z fuel d k len ps p := by
  induction n generalizing d k len with
  | zero => exact h.elim
  | succ n ih =>
    intro fuel hle
    obtain ⟨fuel, rfl⟩ : ∃ j, fuel = j + 1 := ⟨fuel - 1, by omega⟩
    unfold RecordEnds at h ⊢
    unfold recordEntries RecordFits textHeap LinkMemory
    cases hn : nextArea E dev (contOf (areaEntries d len.toNat k len) noCont) with
    | none => exact ⟨rfl, trivial, id, fun _ => rfl, fun z ps p hm => ⟨hm.1, hm.2.1, by rw [hn]; trivial⟩⟩
    | some x =>
      rw [hn] at h
      obtain ⟨h1, h2, h3, h4, h5⟩ := ih h (Nat.le_of_succ_le_succ hle)
      refine ⟨?_, h2, fun hf => ⟨hf.1, h3 hf.2⟩, fun p => ?_, fun z ps p hm => ⟨hm.1, hm.2.1, ?_⟩⟩
      · rw [Option.elim_some, Option.elim_some, h1]
      · rw [Option.elim_some, Option.elim_some, h4]
      · have hm3 := hm.2.2
        rw [hn] at hm3 ⊢
        exact h5 _ _ _ hm3

/-- `MAYBE_CONTINUE` comes to an end -/
theorem maybeContinue_runs {c : Cont}
    (hmem : c.extent ≠ 0 → ¬ out_of_memory (malloc E.clusters s.free_mem_ptr (uns 64 c.size))) :
    ∃ r t, maybeContinue E c s = some (r, t) := by
  unfold maybeContinue
  by_cases h0 : c.extent = 0
  · rw [if_pos h0]
    exact ⟨none, s, rfl⟩
  · rw [if_neg h0, bind_run (alloc_runs (hmem h0))]
    exact ⟨_, _, rfl⟩

/-- `MAYBE_CONTINUE` reads the next area -/
theorem maybeContinue_run (hE : ∀ n, E.read n = E.read 0) {c : Cont} {r : Option Mem}
    (h : maybeContinue E c s = some (r, t)) :
    (nextArea E s.cd_device c = none ∧ r = none) ∨
      ∃ d b, nextArea E s.cd_device c = some (d, c.size) ∧ r = some b ∧ Agree b 0 d 0 c.size ∧
        t.free_mem_ptr = malloc E.clusters s.free_mem_ptr (uns 64 c.size) := by
  unfold maybeContinue at h
  unfold nextArea
  by_cases h0 : c.extent = 0
  · rw [if_pos h0, pure_run, Option.some.injEq, Prod.mk.injEq] at h
    rw [if_pos h0]
    exact .inl ⟨rfl, h.1.symm⟩
  · rw [if_neg h0] at h ⊢
    obtain ⟨buffer, t1, h1, h⟩ := bind_some.mp h
    have hdev : t1.cd_device = s.cd_device := (alloc_reads _ s buffer t1 h1).cd_device
    obtain ⟨r0, t2, h2, h⟩ := bind_some.mp h
    have hr0 : r0 = E.read 0 s.cd_device c.size
        (sgn 32 (c.extent * ISOFS_BLOCK_SIZE + c.offset)) := by
      rw [iso_dev_read_eq h2, hdev, hE]
    rw [pure_run, Option.some.injEq, Prod.mk.injEq] at h
    rw [← hr0]
    by_cases hret : r0.ret = c.size
    · rw [if_pos hret] at h ⊢
      refine .inr ⟨_, buffer.put 0 r0.data, rfl, h.1.symm, fun j hj => ?_, ?_⟩
      · rw [Nat.zero_add, hr0]
        rw [hr0] at hret
        exact E.put_read_exact hret buffer hj
      · rw [← h.2, iso_dev_read_heap h2]
        exact (alloc_run h1).2
    · rw [if_neg hret] at h ⊢
      exact .inl ⟨rfl, h.1.symm⟩

theorem link_areas (hE : ∀ n, E.read n = E.read 0) {fuel : Nat} {x y : Link}
    (h : Agree m a d k len) (hf : RecordFits E s.cd_device fuel d k len) (hc : x.cont = noCont)
    (hr : walkAreas E Link.cont clearLink (linkStep E depth size) fuel m a len x s
      = some (.next y, t)) :
    RecordThrough E s.cd_device fuel d k len ∧ ∀ p ps b, LinkBuf E size p ps s x.rpnt →
      y.rpnt = some b → ps ++ piecesOf (recordEntries E s.cd_device fuel d k len) ≠ [] ∧
        Grown (fresh E size (if ps = [] then textHeap E s.cd_device fuel d k len p else p))
          (ps ++ piecesOf (recordEntries E s.cd_device fuel d k len)) b := by
  induction fuel generalizing m a d k len x s with
  | zero => cases hr
  | succ fuel ih =>
    obtain ⟨z, t1, h1, hr⟩ := bind_some.mp hr
    cases z with
    | out z => cases congrArg Prod.fst (Option.some.inj hr)
    | next z =>
      have hdev : t1.cd_device = s.cd_device :=
        (walkArea_reads (linkStep_reads depth size) m _ a len x s _ t1 h1).cd_device
      obtain ⟨i1, i2, i3⟩ := link_area h hf.1 h1
      obtain ⟨b, t2, h2, hr⟩ := bind_some.mp hr
      have hnext := maybeContinue_run hE h2
      rw [hdev, i2, hc] at hnext
      have hf2 := hf.2
      unfold RecordThrough recordEntries textHeap
      obtain ⟨hn, rfl⟩ | ⟨d', b', hn, rfl, hagree, hheap⟩ := hnext
      · have hr := Prod.mk.inj (Option.some.inj hr)
        obtain rfl : z = y := by simpa using hr.1
        rw [hn]
        refine ⟨⟨i1, trivial⟩, fun p ps b hps hz => ?_⟩
        have hbuf := i3 p ps hps
        rw [hz] at hbuf
        rw [Option.elim_none, Option.elim_none, List.append_nil, ite_self, ite_self]
        exact hbuf
      · have hdev2 : t2.cd_device = s.cd_device :=
          (maybeContinue_reads _ t1 _ t2 h2).cd_device.trans hdev
        rw [hn] at hf2 ⊢
        rw [← hdev2] at hf2 ⊢
        have hz : z.cont.size = (contOf (areaEntries d len.toNat k len) noCont).size := by
          rw [i2, hc]
        rw [← hz] at hf2 hagree
        obtain ⟨j1, j2⟩ := ih (x := clearLink z) hagree hf2 rfl hr
        rw [hz] at j1 j2
        refine ⟨⟨i1, j1⟩, fun p ps b hps hy => ?_⟩
        have hbuf := i3 p ps hps
        rw [Option.elim_some, Option.elim_some, piecesOf_append, ← List.append_assoc]
        cases hrp : z.rpnt with
        | none =>
          rw [hrp] at hbuf
          obtain ⟨rfl, hpieces⟩ := List.append_eq_nil_iff.mp hbuf.1
          have hbuf' : LinkBuf E size (malloc E.clusters p (uns 64 z.cont.size)) [] t2 (clearLink z).rpnt := by
            show LinkBuf _ _ _ _ _ z.rpnt
            rw [hrp]
            exact ⟨rfl, by rw [hheap, hbuf.2, hz]⟩
          have := j2 _ [] b hbuf' hy
          rw [if_pos rfl, hz] at this
          rw [hpieces, if_pos rfl, if_neg (not_not.mpr rfl)]
          exact this
        | some b0 =>
          have hne : ps ++ piecesOf (areaEntries d len.toNat k len) ≠ [] := by
            rw [hrp] at hbuf
            exact hbuf.1
          have hbuf' : LinkBuf E size p (ps ++ piecesOf (areaEntries d len.toNat k len)) t2
              (clearLink z).rpnt := by
            show LinkBuf _ _ _ _ _ z.rpnt
            rw [hrp] at hbuf ⊢
            exact hbuf
          have := j2 p _ b hbuf' hy
          rw [if_neg hne] at this
          have hp : (if ps = [] then
              if piecesOf (areaEntries d len.toNat k len) ≠ [] then p
              else textHeap E t2.cd_device fuel d' 0 (contOf (areaEntries d len.toNat k len) noCont).size
                (malloc E.clusters p (uns 64 (contOf (areaEntries d len.toNat k len) noCont).size))
            else p) = p := by
            by_cases hnil : ps = []
            · rw [if_pos hnil, if_pos]
              rw [hnil] at hne
              exact hne
            · exact if_neg hnil
          rw [hp]
          exact this

/-- the walk over an area and the areas that continue it comes to an end -/
theorem link_areas_runs (hE : ∀ n, E.read n = E.read 0) {fuel p : Nat} {ps : List Piece} {x : Link}
    (h : Agree m a d k len) (hends : RecordEnds E s.cd_device fuel d k len)
    (hf : RecordFits E s.cd_device fuel d k len) (hc : x.cont = noCont) (hb : LinkBuf E size p ps s x.rpnt)
    (hz : Zeroed (fresh E size (if ps = [] then textHeap E s.cd_device fuel d k len p else p))
      (ps ++ piecesOf (recordEntries E s.cd_device fuel d k len)))
    (hmem : LinkMemory E s.cd_device size fuel d k len ps s.free_mem_ptr)
    (hd : (text (ps ++ piecesOf (recordEntries E s.cd_device fuel d k len))).length + 256 ≤ depth) :
    ∃ f t, walkAreas E Link.cont clearLink (linkStep E depth size) fuel m a len x s = some (f, t) := by
  induction fuel generalizing m a d k len x s p ps with
  | zero => exact hends.elim
  | succ fuel ih =>
    unfold RecordEnds at hends
    unfold recordEntries at hz hd
    rw [piecesOf_append, ← List.append_assoc] at hz hd
    obtain ⟨hmem1, hmem2, hmem3⟩ := hmem
    have hf2 := hf.2
    generalize hes : areaEntries d len.toNat k len = es at hends hz hd hmem1 hmem2 hmem3 hf2
    have hlen := hd
    rw [text_append, List.length_append] at hlen
    -- the buffer of the text is the one of the pieces so far, as soon as there is a piece
    have hplace : ps ++ piecesOf es ≠ [] →
        (if ps = [] then textHeap E s.cd_device (fuel + 1) d k len p else p) = p := by
      intro hne
      by_cases hnil : ps = []
      · rw [hnil, List.nil_append] at hne
        rw [if_pos hnil, textHeap, hes, if_pos hne]
      · rw [if_neg hnil]
    have hzero : Zeroed (fresh E size p) (ps ++ piecesOf es) := by
      by_cases hnil : ps ++ piecesOf es = []
      · rw [hnil]
        exact zeroed_nil _
      · rw [hplace hnil] at hz
        exact hz.left
    have hroom : (text (ps ++ piecesOf es)).length + 256 ≤ depth := by omega
    rw [← hes] at hzero hmem1 hroom
    obtain ⟨f, t1, h1, hheap⟩ := link_area_runs h hf.1 hb hzero hmem1 hroom
    rw [hes] at hmem1 hheap
    unfold walkAreas
    rw [bind_run h1]
    cases f with
    | out z => exact ⟨_, t1, rfl⟩
    | next z =>
      have hheap := hheap z rfl
      have hdev : t1.cd_device = s.cd_device :=
        (walkArea_reads (linkStep_reads depth size) m _ a len x s _ t1 h1).cd_device
      have harea := link_area h hf.1 h1
      rw [hes, hc] at harea
      obtain ⟨-, i2, i3⟩ := harea
      have hbuf := i3 p ps hb
      rw [← i2] at hends hmem2 hmem3 hf2
      rw [← hheap] at hmem2 hmem3
      obtain ⟨r, t2, h2⟩ := maybeContinue_runs hmem2
      dsimp only
      rw [bind_run h2]
      have hnext := maybeContinue_run hE h2
      rw [hdev] at hnext
      obtain ⟨hn, rfl⟩ | ⟨d', b', hn, rfl, hagree, hheap2⟩ := hnext
      · exact ⟨_, t2, rfl⟩
      · have hdev2 : t2.cd_device = s.cd_device :=
          (maybeContinue_reads _ t1 _ t2 h2).cd_device.trans hdev
        rw [hn] at hends hmem3 hf2
        rw [← i2, hn, Option.elim_some] at hz hd
        rw [Option.elim_some, ← hheap2] at hmem3
        rw [← hdev2] at hends hmem3 hf2 hz hd
        -- while there is no piece, the buffer of the area moves the place of the text
        have hbuf2 : LinkBuf E size (if ps ++ piecesOf es = [] then t2.free_mem_ptr else p)
            (ps ++ piecesOf es) t2 (clearLink z).rpnt := by
          show LinkBuf _ _ _ _ _ z.rpnt
          cases hr : z.rpnt with
          | none =>
            rw [hr] at hbuf
            exact ⟨hbuf.1, by rw [if_pos hbuf.1]⟩
          | some b =>
            rw [hr] at hbuf
            rw [if_neg hbuf.1]
            exact hbuf
        refine ih (x := clearLink z) hagree hends hf2 rfl hbuf2 ?_ hmem3 hd
        by_cases hnil : ps ++ piecesOf es = []
        · obtain ⟨hps, hpieces⟩ := List.append_eq_nil_iff.mp hnil
          have hp : s.free_mem_ptr = p := by
            cases hr : x.rpnt with
            | none =>
              rw [hr] at hb
              exact hb.2
            | some b =>
              rw [hr] at hb
              exact absurd hps hb.1
          rw [hpieces, behindText_nil, hp] at hheap
          rw [← hdev2] at hn
          rw [if_pos hps, textHeap, hes, hpieces, if_neg (not_not.mpr rfl), ← i2, hn, Option.elim_some] at hz
          rw [if_pos hnil, if_pos hnil, hpieces, hheap2, hheap]
          exact hz
        · rw [if_neg hnil]
          rw [← hdev2] at hplace
          rw [hplace hnil] at hz
          rw [if_neg hnil]
          exact hz

/-- more entries, when none of the first ones is an RE -/
theorem added_append {x y z : Parsed} (hno : ∀ e ∈ es, ¬ IsRE e) (h : Added es x y)
    (h' : Added es' (clearParsed y) z) : Added (es ++ es') x z := by
  have hes : beforeRE es = es := by
    unfold beforeRE
    rw [List.takeWhile_eq_self_iff]
    simpa using hno
  have happ : beforeRE (es ++ es') = es ++ beforeRE es' := by
    have hlen : (beforeRE es).length = es.length := by rw [hes]
    unfold beforeRE at hlen ⊢
    rw [List.takeWhile_append, if_pos hlen]
  unfold Added at h
  rw [hes] at h
  have ht := h.trans (y := y) ⟨h'.len, h'.size⟩
  unfold Added
  rw [happ]
  refine ⟨?_, fun hs => ht.size (hs.imp_left ?_)⟩
  · rw [ht.len]
    simp [weightOf]
  · rintro ⟨e, he, hsl⟩
    exact (List.mem_append.mp he).imp (fun he => ⟨e, he, hsl⟩) fun he => ⟨e, he, hsl⟩

/-- more entries after an RE are not looked at -/
theorem added_append_re {x y : Parsed} (hre : ∃ e ∈ es, IsRE e) (h : Added es x y) :
    Added (es ++ es') x y := by
  have happ : beforeRE (es ++ es') = beforeRE es := by
    unfold beforeRE
    rw [List.takeWhile_append, if_neg]
    intro hlen
    obtain ⟨e, he, hre⟩ := hre
    have hall := (List.takeWhile_sublist fun e => decide (¬ IsRE e)).eq_of_length hlen
    have := List.takeWhile_eq_self_iff.mp hall e he
    simp [hre] at this
  unfold Added at h ⊢
  rw [happ]
  exact h

theorem parse_areas (hE : ∀ n, E.read n = E.read 0) {fuel n : Nat} {x : Parsed} {r : Flow Parsed}
    (h : Agree m a d k len) (hf : RecordFits E s.cd_device fuel d k len)
    (ht : RecordThrough E s.cd_device fuel d k len) (hc : x.cont = noCont)
    (hx : x.symlink_len < 2 ^ 32)
    (hr : walkAreas E Parsed.cont clearParsed parseStep n m a len x s = some (r, t)) :
    ∃ y, (r = .next y ∨ r = .out y) ∧ Added (recordEntries E s.cd_device fuel d k len) x y := by
  induction fuel generalizing n m a d k len x s with
  | zero => exact ht.elim
  | succ fuel ih =>
    cases n with
    | zero => cases hr
    | succ n =>
      obtain ⟨y, hy, hy1, hy2⟩ := parse_area (s := s) h hf.1 ht.1 x hx
      obtain ⟨z, t1, h1, hr⟩ := bind_some.mp hr
      unfold recordEntries
      by_cases hre : ∃ e ∈ areaEntries d len.toNat k len, IsRE e
      · obtain ⟨rfl, rfl⟩ := Prod.mk.inj (Option.some.inj ((hy2 hre).symm.trans h1))
        have hr := congrArg Prod.fst (Option.some.inj hr)
        exact ⟨y, .inr hr.symm, added_append_re hre hy⟩
      · have hno : ∀ e ∈ areaEntries d len.toNat k len, ¬ IsRE e := fun e he hr => hre ⟨e, he, hr⟩
        obtain ⟨hw, hcont⟩ := hy1 hno
        obtain ⟨rfl, rfl⟩ := Prod.mk.inj (Option.some.inj (hw.symm.trans h1))
        obtain ⟨b, t2, h2, hr⟩ := bind_some.mp hr
        have hnext := maybeContinue_run hE h2
        rw [hcont, hc] at hnext
        have hf2 := hf.2
        have ht2 := ht.2
        obtain ⟨hn, rfl⟩ | ⟨d', b', hn, rfl, hagree, -⟩ := hnext
        · have hr := congrArg Prod.fst (Option.some.inj hr)
          rw [hn, Option.elim_none, List.append_nil]
          exact ⟨y, .inl hr.symm, hy⟩
        · have hdev2 : t2.cd_device = s.cd_device := (maybeContinue_reads _ s _ t2 h2).cd_device
          rw [hn] at hf2 ht2 ⊢
          rw [← hdev2] at hf2 ht2 ⊢
          have hz : y.cont.size = (contOf (areaEntries d len.toNat k len) noCont).size := by
            rw [hcont, hc]
          rw [← hz] at hf2 ht2 hagree
          obtain ⟨w, hw, hadd⟩ := ih (x := clearParsed y) hagree hf2 ht2 rfl hy.lt hr
          rw [hz] at hadd
          exact ⟨w, hw, added_append hno hy hadd⟩

/-! ## the record -/

/-- a block of the device in `data_block` -/
theorem readBlock_true {block : Int} (hb : s.sb.s_blocksize = 1024)
    (h : readBlock E block s = some (true, t)) :
    t.big_data_block = s.big_data_block ∧
      Agree t.data_block 0 (disc E s.cd_device (uns 32 (block * 1024))) 0 1024 := by
  unfold readBlock at h
  rw [bind_run (get_run s)] at h
  obtain ⟨r, t1, h1, h⟩ := bind_some.mp h
  rw [bind_run (modify_run _ t1), pure_run, Option.some.injEq, Prod.mk.injEq] at h
  obtain ⟨hok, ht⟩ := h
  have hret : r.ret = 1024 := by
    have := of_decide_eq_true hok
    rw [hb] at this
    exact this
  have hr := iso_dev_read_eq h1
  rw [hb] at hr
  have hbig : t1.big_data_block = s.big_data_block := by
    unfold iso_dev_read at h1
    rw [modifyGet_run, Option.some.injEq, Prod.mk.injEq] at h1
    rw [← h1.2]
  rw [← ht]
  refine ⟨hbig, fun j hj => ?_⟩
  rw [Nat.zero_add]
  rw [hr] at hret
  show t1.data_block.put 0 r.data j = _
  rw [hr]
  exact E.put_read_exact hret _ hj

/-- the block of an inode number, and the place in it -/
theorem ino_block {ino : Int} (h0 : 0 ≤ ino) (h1 : ino < 2147483648) :
    ((uns 32 (ino / 2 ^ 10 * 1024) : Nat) : Int) = ino / 1024 * 1024 ∧
    ((uns 32 ((ino / 2 ^ 10 + 1) * 1024) : Nat) : Int) = ino / 1024 * 1024 + 1024 ∧
    ((uns 32 ino &&& (1024 - 1) : Nat) : Int) = ino % 1024 := by
  have hu : uns 32 ino = ino.toNat := by
    unfold uns
    omega
  have hand : uns 32 ino &&& (1024 - 1) = ino.toNat % 1024 := by
    rw [hu]
    exact Nat.and_two_pow_sub_one_eq_mod _ 10
  refine ⟨?_, ?_, ?_⟩
  · unfold uns
    omega
  · unfold uns
    omega
  · rw [hand]
    omega

/-- a record of `l` bytes that starts `o` bytes into a block, put together from two blocks -/
theorem glue_in (big d1 d2 : Mem) {o l j : Nat} (hl : 1024 ≤ o + l) (hj : j < l) :
    ((big.put 0 (d1.get o (1024 - o))).put (1024 - o) (d2.get 0 (o + l - 1024))) j
      = if j < 1024 - o then d1 (o + j) else d2 (j - (1024 - o)) := by
  by_cases hlt : j < 1024 - o
  · rw [if_pos hlt, Mem.put_out _ _ _ _ (.inl hlt)]
    have := Mem.put_in big 0 j (d1.get o (1024 - o)) (by rw [Mem.length_get]; exact hlt)
    rw [Nat.zero_add] at this
    rw [this]
    simp [Mem.get]
  · rw [if_neg hlt]
    have := Mem.put_in (big.put 0 (d1.get o (1024 - o))) (1024 - o) (j - (1024 - o))
      (d2.get 0 (o + l - 1024)) (by rw [Mem.length_get]; omega)
    rw [show 1024 - o + (j - (1024 - o)) = j by omega] at this
    rw [this]
    simp [Mem.get]

/-- the record of an inode, in one block or put together from two, is the one of the disc -/
theorem rawInode_agree {ino : Int} (h0 : 0 ≤ ino) (h1 : ino < 2147483648)
    (hb : s.sb.s_blocksize = 1024) (hbits : s.sb.s_blocksize_bits = 10) {de : Nat}
    (h : rawInode E ino s = some (some (m, de), t)) :
    Agree m de (disc E s.cd_device ino) 0 (max 1 (de_length m de)) := by
  obtain ⟨hblk, hblk1, hoff⟩ := ino_block h0 h1
  unfold rawInode at h
  rw [bind_run (get_run s), hb, hbits] at h
  generalize ho : uns 32 ino &&& (1024 - 1) = o at h hoff
  dsimp only at h
  obtain ⟨ok, t1, e1, h⟩ := bind_some.mp h
  cases ok with
  | false => cases congrArg Prod.fst (Option.some.inj h)
  | true =>
    have hr1 := readBlock_reads _ s true t1 e1
    obtain ⟨hbig1, hd1⟩ := readBlock_true hb e1
    have hbyte : ∀ j : Nat, j < 1024 → t1.data_block j = E.bytes s.cd_device (ino / 1024 * 1024 + j) := by
      intro j hj
      have := hd1 j (by omega)
      rw [Nat.zero_add] at this
      rw [this, disc, hblk]
    rw [if_pos rfl, bind_run (get_run t1), hr1.sb, hb] at h
    by_cases hlong : 1024 < o + de_length t1.data_block o
    · rw [if_pos hlong, bind_run (modify_run _ t1)] at h
      obtain ⟨ok2, t2, e2, h⟩ := bind_some.mp h
      cases ok2 with
      | false => cases congrArg Prod.fst (Option.some.inj h)
      | true =>
        have hr2 := readBlock_reads _ _ true t2 e2
        have hsb2 : t2.sb.s_blocksize = 1024 := by rw [hr2.sb, hr1.sb, hb]
        obtain ⟨hbig2, hd2⟩ := readBlock_true (by rw [hr1.sb, hb]) e2
        rw [if_pos rfl, bind_run (modify_run _ t2), bind_run (get_run _), pure_run, Option.some.injEq,
          Prod.mk.injEq] at h
        obtain ⟨hm, rfl⟩ := Prod.mk.inj (Option.some.inj h.1)
        dsimp only at hm hbig2 hd2
        rw [hsb2, hbig2] at hm
        have hfirst : de_length m 0 = de_length t1.data_block o := by
          rw [de_length, de_length, isonum_711, isonum_711, ← hm, glue_in _ _ _ hlong.le (by omega),
            if_pos (by omega), Nat.add_zero]
        intro j hj
        rw [hfirst] at hj
        have hj : j < de_length t1.data_block o := by omega
        rw [Nat.zero_add, ← hm, glue_in _ _ _ hlong.le hj, disc]
        by_cases hlt : j < 1024 - o
        · rw [if_pos hlt, hbyte (o + j) (by omega)]
          congr 1
          push_cast
          omega
        · have h255 : de_length t1.data_block o < 256 := UInt8.toNat_lt _
          have := hd2 (j - (1024 - o)) (by omega)
          rw [Nat.zero_add] at this
          rw [if_neg hlt, this, disc, hblk1, hr1.cd_device]
          congr 1
          omega
    · rw [if_neg hlong, pure_run, Option.some.injEq, Prod.mk.injEq] at h
      obtain ⟨rfl, rfl⟩ := Prod.mk.inj (Option.some.inj h.1)
      intro j hj
      rw [hbyte (o + j) (by omega), Nat.zero_add, disc]
      congr 1
      push_cast
      omega

theorem cruft_rock (sb : SuperBlock) (n : Nat) : (cruft sb n).s_rock = sb.s_rock := by
  unfold cruft
  split
  · rfl
  · rfl

/-- what `iso_iget` gets: the record, and what `parse_rock_ridge_inode` made of it -/
theorem iso_iget_parse {fuel : Nat} {ino : Int} {i : Slot}
    (h : iso_iget E fuel ino s = some (some i, t)) :
    ∃ m de s1 mode nlink sz x s2, rawInode E ino s = some (some (m, de), s1) ∧
      parse_rock_ridge_inode E fuel m de mode nlink sz
        { s1 with sb := cruft s1.sb (uns 32 (de_size m de)) } = some (x, s2) ∧
      (t.inode_table i).size = x.size ∧ (t.inode_table i).inumber = ino ∧
      t.cd_device = s.cd_device := by
  unfold iso_iget igetOr at h
  rw [bind_run (get_run s)] at h
  cases hf : freeSlot s with
  | none =>
    rw [hf] at h
    cases congrArg Prod.fst (Option.some.inj h)
  | some i' =>
    rw [hf] at h
    obtain ⟨r, s1, h1, h⟩ := bind_some.mp h
    cases r with
    | none => cases congrArg Prod.fst (Option.some.inj h)
    | some r =>
      obtain ⟨_, s3, h2, h⟩ := bind_some.mp h
      rw [pure_run, Option.some.injEq, Prod.mk.injEq, Option.some.injEq] at h
      obtain ⟨rfl, rfl⟩ := h
      unfold fillInode at h2
      rw [bind_run (modify_run _ s1), bind_run (get_run _)] at h2
      obtain ⟨x, s2, h3, h4⟩ := bind_some.mp h2
      rw [modify_run, Option.some.injEq, Prod.mk.injEq] at h4
      have hdev2 := (parse_rock_ridge_inode_reads _ _ _ _ _ _ _ x s2 h3).cd_device
      have hdev1 := (rawInode_reads ino s _ s1 h1).cd_device
      refine ⟨r.1, r.2, s1, _, _, _, x, s2, h1, h3, ?_, ?_, ?_⟩
      · rw [← h4.2]
        exact congrArg Entry.size (Function.update_self i' _ s2.inode_table)
      · rw [← h4.2]
        exact congrArg Entry.inumber (Function.update_self i' _ s2.inode_table)
      · rw [← h4.2]
        exact hdev2.trans hdev1

/-- where the system-use area of a record starts -/
theorem setupLen_agree (h : Agree m a d k len) (hl : 33 ≤ len) : setupLen m a = setupLen d k := by
  have hn : de_name_len m a = de_name_len d k := congrArg UInt8.toNat (h 32 (by omega))
  rw [setupLen, setupLen, hn]

/-- the record of the inode number `ino` on the disc -/
def record (E : Env) (dev ino : Int) : Mem := disc E dev ino

/-- the length of the system-use area of a record -/
def suLen (d : Mem) : Int := (de_length d 0 : Int) - setupLen d 0

/-- the system-use entries of the record `ino`, and of its continuation areas -/
def suEntries (E : Env) (dev : Int) (fuel : Nat) (ino : Int) : List (Mem × Nat) :=
  recordEntries E dev fuel (record E dev ino) (setupLen (record E dev ino) 0)
    (suLen (record E dev ino))

/-- the record `ino` is well-formed: it has its fixed fields, and its entries lie in their areas -/
structure RecordFine (E : Env) (dev : Int) (fuel : Nat) (ino : Int) : Prop where
  fixed : 33 ≤ de_length (record E dev ino) 0
  fits : RecordFits E dev fuel (record E dev ino) (setupLen (record E dev ino) 0)
    (suLen (record E dev ino))

/-- the chain of the continuation areas of the record `ino` has at most `n` areas, its own one counted -/
def ChainEnds (E : Env) (dev : Int) (n : Nat) (ino : Int) : Prop :=
  RecordEnds E dev n (record E dev ino) (setupLen (record E dev ino) 0) (suLen (record E dev ino))

instance (E : Env) (dev : Int) (n : Nat) (ino : Int) : Decidable (ChainEnds E dev n ino) :=
  inferInstanceAs (Decidable (RecordEnds _ _ _ _ _ _))

theorem RecordFine.more {dev ino : Int} {n fuel : Nat} (h : RecordFine E dev n ino) (hends : ChainEnds E dev n ino)
    (hle : n ≤ fuel) : RecordFine E dev fuel ino :=
  ⟨h.fixed, (RecordEnds.more hends hle).2.2.1 h.fits⟩

/-- the system-use area in the memory that holds the record -/
theorem agree_su (hag : Agree m a d 0 (max 1 (de_length m a))) (hfix : 33 ≤ de_length d 0) :
    Agree m (a + setupLen m a) d (setupLen d 0) ((de_length m a : Int) - setupLen m a) ∧
      (de_length m a : Int) - setupLen m a = suLen d := by
  have hlen : de_length m a = de_length d 0 := congrArg UInt8.toNat (hag 0 (by omega))
  have hsetup : setupLen m a = setupLen d 0 := setupLen_agree hag (by omega)
  have hmono : Agree m a d 0 (de_length m a) := hag.mono (by omega)
  have hdrop := hmono.drop (setupLen m a)
  rw [Nat.zero_add] at hdrop
  refine ⟨?_, by rw [suLen, hlen, hsetup]⟩
  rw [← hsetup]
  exact hdrop

/-- what `parse_rock_ridge_inode` makes of the record: its size is the sum of the SL entries up to the
first RE -/
theorem parse_size (hE : ∀ n, E.read n = E.read 0) {n fuel : Nat} {de : Nat} {mode nlink : Int} {sz : Nat}
    {x : Parsed} {ino : Int} (hrock : s.sb.s_rock = true)
    (hag : Agree m de (record E s.cd_device ino) 0 (max 1 (de_length m de)))
    (hf : RecordFine E s.cd_device fuel ino)
    (ht : RecordThrough E s.cd_device fuel (record E s.cd_device ino)
      (setupLen (record E s.cd_device ino) 0) (suLen (record E s.cd_device ino)))
    (h : parse_rock_ridge_inode E n m de mode nlink sz s = some (x, t)) :
    Added (suEntries E s.cd_device fuel ino) ⟨mode, nlink, sz, 0, noCont⟩ x := by
  obtain ⟨hsu, hlen⟩ := agree_su hag hf.fixed
  unfold parse_rock_ridge_inode at h
  rw [bind_run (get_run s), if_pos hrock] at h
  obtain ⟨r, t1, h1, h⟩ := bind_some.mp h
  rw [hlen] at hsu h1
  obtain ⟨y, hy, hadd⟩ := parse_areas hE hsu hf.fits ht rfl (Nat.two_pow_pos 32) h1
  have hx : x = y := by
    obtain rfl | rfl := hy
    · exact (congrArg Prod.fst (Option.some.inj h)).symm
    · exact (congrArg Prod.fst (Option.some.inj h)).symm
  rw [hx]
  exact hadd

/-- the sector of a record in the buffer of `get_rock_ridge_symlink` -/
theorem sector_agree {ino : Int} (h0 : 0 ≤ ino) (h1 : ino < 2147483648) {n : Nat} {dev : Int} {buf : Mem}
    (hret : (E.read n dev ISOFS_BLOCK_SIZE (sgn 32 (ino / 2 ^ ISOFS_BLOCK_BITS * 2 ^ ISOFS_BLOCK_BITS))).ret
      = ISOFS_BLOCK_SIZE) {l : Int} (hl : ((uns 32 ino % ISOFS_BLOCK_SIZE : Nat) : Int) + l ≤ 2048) :
    Agree (buf.put 0 (E.read n dev ISOFS_BLOCK_SIZE
        (sgn 32 (ino / 2 ^ ISOFS_BLOCK_BITS * 2 ^ ISOFS_BLOCK_BITS))).data)
      (uns 32 ino % ISOFS_BLOCK_SIZE) (record E dev ino) 0 l := by
  have hoff : ((uns 32 ino % ISOFS_BLOCK_SIZE : Nat) : Int) = ino % 2048 := by
    unfold uns ISOFS_BLOCK_SIZE
    omega
  have hblk : ino / 2 ^ ISOFS_BLOCK_BITS * 2 ^ ISOFS_BLOCK_BITS = ino / 2048 * 2048 := rfl
  have hsgn : sgn 32 (ino / 2048 * 2048) = ino / 2048 * 2048 :=
    sgn32_of_range (by omega) (by omega)
  rw [hblk, hsgn] at hret ⊢
  intro j hj
  have hlt : ((uns 32 ino % ISOFS_BLOCK_SIZE + j : Nat) : Int) < (ISOFS_BLOCK_SIZE : Int) := by
    show _ < (2048 : Int)
    push_cast
    omega
  rw [E.put_read_exact hret buf hlt, Nat.zero_add, record, disc]
  congr 1
  push_cast
  omega

/-- the heap where `get_rock_ridge_symlink` allocates the buffer of the text -/
def linkHeap (E : Env) (dev : Int) (fuel : Nat) (ino : Int) (free_mem_ptr : Nat) : Nat :=
  textHeap E dev fuel (record E dev ino) (setupLen (record E dev ino) 0) (suLen (record E dev ino))
    (malloc E.clusters free_mem_ptr (uns 64 ISOFS_BLOCK_SIZE))

/-- the heap has the buffers that `get_rock_ridge_symlink` allocates: the one of the sector, those of the
areas, and the one of a text of `size` characters -/
def LinkRoom (E : Env) (dev : Int) (size n : Nat) (ino : Int) (free_mem_ptr : Nat) : Prop :=
  ¬ out_of_memory (malloc E.clusters free_mem_ptr (uns 64 ISOFS_BLOCK_SIZE)) ∧
    LinkMemory E dev size n (record E dev ino) (setupLen (record E dev ino) 0) (suLen (record E dev ino)) []
      (malloc E.clusters free_mem_ptr (uns 64 ISOFS_BLOCK_SIZE))

instance (E : Env) (dev : Int) (size n : Nat) (ino : Int) (p : Nat) : Decidable (LinkRoom E dev size n ino p) :=
  inferInstanceAs (Decidable (_ ∧ _))

/-- the sector of the record `ino`, as the `n`-th read gives it -/
def sectorRes (E : Env) (dev : Int) (n : Nat) (ino : Int) : ReadRes :=
  E.read n dev ISOFS_BLOCK_SIZE (sgn 32 (ino / 2 ^ ISOFS_BLOCK_BITS * 2 ^ ISOFS_BLOCK_BITS))

/-- the system-use area of a record that lies in its sector -/
theorem sector_area {ino : Int} (h0 : 0 ≤ ino) (h1 : ino < 2147483648) {n : Nat} {dev : Int} {buf : Mem}
    (hret : (sectorRes E dev n ino).ret = ISOFS_BLOCK_SIZE) (hfix : 33 ≤ de_length (record E dev ino) 0)
    (hspan : ¬ ISOFS_BLOCK_SIZE < uns 32 ino % ISOFS_BLOCK_SIZE
      + de_length (buf.put 0 (sectorRes E dev n ino).data) (uns 32 ino % ISOFS_BLOCK_SIZE)) :
    let m := buf.put 0 (sectorRes E dev n ino).data
    let a := uns 32 ino % ISOFS_BLOCK_SIZE
    Agree m (a + setupLen m a) (record E dev ino) (setupLen (record E dev ino) 0)
        ((de_length m a : Int) - setupLen m a) ∧
      (de_length m a : Int) - setupLen m a = suLen (record E dev ino) := by
  have hmod : uns 32 ino % ISOFS_BLOCK_SIZE < 2048 := Nat.mod_lt _ (by decide)
  have hspan : uns 32 ino % ISOFS_BLOCK_SIZE
      + de_length (buf.put 0 (sectorRes E dev n ino).data) (uns 32 ino % ISOFS_BLOCK_SIZE) ≤ 2048 :=
    Nat.le_of_not_lt hspan
  refine agree_su ?_ hfix
  generalize de_length (buf.put 0 (sectorRes E dev n ino).data) (uns 32 ino % ISOFS_BLOCK_SIZE) = l at hspan ⊢
  exact sector_agree h0 h1 hret (by omega)

/-- `get_rock_ridge_symlink` comes to an end -/
theorem symlink_runs (hE : ∀ n, E.read n = E.read 0) {fuel : Nat} {i : Slot} {ino : Int}
    (hino : (s.inode_table i).inumber = ino) (h0 : 0 ≤ ino) (h1 : ino < 2147483648)
    (hends : ChainEnds E s.cd_device fuel ino) (hf : RecordFine E s.cd_device fuel ino)
    (hmem : LinkRoom E s.cd_device (s.inode_table i).size fuel ino s.free_mem_ptr)
    (hz : Zeroed (fresh E (s.inode_table i).size (linkHeap E s.cd_device fuel ino s.free_mem_ptr))
      (piecesOf (suEntries E s.cd_device fuel ino)))
    (hd : (text (piecesOf (suEntries E s.cd_device fuel ino))).length + 256 ≤ fuel) :
    ∃ r v, get_rock_ridge_symlink E fuel i s = some (r, v) := by
  unfold get_rock_ridge_symlink
  rw [bind_run (get_run s), hino]
  by_cases hrock : s.sb.s_rock = true
  · have hread : ∀ t : State, t.cd_device = s.cd_device →
        iso_dev_read E (sgn 32 (ino / 2 ^ ISOFS_BLOCK_BITS * 2 ^ ISOFS_BLOCK_BITS)) ISOFS_BLOCK_SIZE t
          = some (sectorRes E s.cd_device t.log.length ino, { t with
            log := t.log ++ [⟨ISOFS_BLOCK_SIZE, sgn 32 (ino / 2 ^ ISOFS_BLOCK_BITS * 2 ^ ISOFS_BLOCK_BITS),
              (sectorRes E s.cd_device t.log.length ino).ret⟩] }) := by
      intro t ht
      rw [← ht]
      rfl
    rw [if_pos hrock, bind_run (alloc_runs hmem.1)]
    refine Exists.imp (fun r => Exists.imp fun v => Eq.trans (bind_run (hread _ rfl))) ?_
    dsimp only
    generalize E.ram (malloc E.clusters s.free_mem_ptr (uns 64 ISOFS_BLOCK_SIZE)) = buf
    generalize s.log.length = n
    by_cases hret : (sectorRes E s.cd_device n ino).ret ≠ ISOFS_BLOCK_SIZE
    · rw [if_pos hret]
      exact ⟨none, _, rfl⟩
    · rw [if_neg hret]
      by_cases hspan : ISOFS_BLOCK_SIZE < uns 32 ino % ISOFS_BLOCK_SIZE
          + de_length (buf.put 0 (sectorRes E s.cd_device n ino).data) (uns 32 ino % ISOFS_BLOCK_SIZE)
      · rw [if_pos hspan]
        exact ⟨none, _, rfl⟩
      · rw [if_neg hspan]
        obtain ⟨hsu, hlen⟩ := sector_area h0 h1 (not_not.mp hret) hf.fixed hspan
        rw [hlen] at hsu ⊢
        generalize hu : ({ s with
          free_mem_ptr := malloc E.clusters s.free_mem_ptr (uns 64 ISOFS_BLOCK_SIZE)
          log := _ } : State) = u
        have hdev : u.cd_device = s.cd_device := by rw [← hu]
        have hheap : u.free_mem_ptr = malloc E.clusters s.free_mem_ptr (uns 64 ISOFS_BLOCK_SIZE) := by rw [← hu]
        have hfits := hf.fits
        have hroom := hmem.2
        unfold ChainEnds at hends
        unfold linkHeap suEntries at hz
        unfold suEntries at hd
        rw [← hdev] at hends hfits hroom hsu hz hd ⊢
        rw [← hheap] at hroom hz
        obtain ⟨f, t, hareas⟩ : ∃ f t, walkAreas E Link.cont clearLink (linkStep E fuel (s.inode_table i).size) fuel
            _ _ _ ⟨none, noCont⟩ u = some (f, t) :=
          link_areas_runs hE hsu hends hfits rfl ⟨rfl, rfl⟩ hz hroom hd
        rw [bind_run hareas]
        cases f with
        | out z => exact ⟨none, t, rfl⟩
        | next z => exact ⟨z.rpnt, t, rfl⟩
  · rw [if_neg hrock]
    exact ⟨none, s, rfl⟩

/-- the text that `get_rock_ridge_symlink` makes -/
theorem symlink_buf (hE : ∀ n, E.read n = E.read 0) {fuel : Nat} {i : Slot} {b : Mem} {ino : Int}
    (hino : (s.inode_table i).inumber = ino) (h0 : 0 ≤ ino) (h1 : ino < 2147483648)
    (hf : RecordFine E s.cd_device fuel ino)
    (h : get_rock_ridge_symlink E fuel i s = some (some b, t)) :
    RecordThrough E s.cd_device fuel (record E s.cd_device ino)
        (setupLen (record E s.cd_device ino) 0) (suLen (record E s.cd_device ino)) ∧
      piecesOf (suEntries E s.cd_device fuel ino) ≠ [] ∧
      Grown (fresh E (s.inode_table i).size (linkHeap E s.cd_device fuel ino s.free_mem_ptr))
        (piecesOf (suEntries E s.cd_device fuel ino)) b := by
  unfold get_rock_ridge_symlink at h
  rw [bind_run (get_run s), hino] at h
  by_cases hrock : s.sb.s_rock = true
  · rw [if_pos hrock] at h
    obtain ⟨buf, t1, e1, h⟩ := bind_some.mp h
    obtain ⟨r, t2, e2, h⟩ := bind_some.mp h
    have hdev1 : t1.cd_device = s.cd_device := (alloc_reads _ s buf t1 e1).cd_device
    have hdev2 : t2.cd_device = s.cd_device := (iso_dev_read_reads _ _ t1 r t2 e2).cd_device.trans hdev1
    have hr := iso_dev_read_eq e2
    rw [hdev1] at hr
    by_cases hret : r.ret ≠ ISOFS_BLOCK_SIZE
    · rw [if_pos hret] at h
      cases congrArg Prod.fst (Option.some.inj h)
    · rw [if_neg hret] at h
      have hret : r.ret = ISOFS_BLOCK_SIZE := not_not.mp hret
      by_cases hspan : ISOFS_BLOCK_SIZE < uns 32 ino % ISOFS_BLOCK_SIZE
          + de_length (buf.put 0 r.data) (uns 32 ino % ISOFS_BLOCK_SIZE)
      · rw [if_pos hspan] at h
        cases congrArg Prod.fst (Option.some.inj h)
      · rw [if_neg hspan] at h
        obtain ⟨z, t3, e3, h⟩ := bind_some.mp h
        cases z with
        | out z => cases congrArg Prod.fst (Option.some.inj h)
        | next z =>
          have hz : z.rpnt = some b := congrArg Prod.fst (Option.some.inj h)
          rw [hr] at hret hspan e3
          obtain ⟨hsu, hlen⟩ := sector_area h0 h1 hret hf.fixed hspan
          rw [hlen] at hsu
          rw [← sectorRes, hlen] at e3
          have hfits := hf.fits
          rw [← hdev2] at hfits hsu e3 ⊢
          obtain ⟨j1, j2⟩ := link_areas hE hsu hfits rfl e3
          refine ⟨j1, ?_⟩
          have hheap : t2.free_mem_ptr = malloc E.clusters s.free_mem_ptr (uns 64 ISOFS_BLOCK_SIZE) := by
            rw [iso_dev_read_heap e2]
            exact (alloc_run e1).2
          have := j2 _ [] b ⟨rfl, hheap⟩ hz
          rw [List.nil_append, if_pos rfl] at this
          exact this
  · rw [if_neg hrock] at h
    cases congrArg Prod.fst (Option.some.inj h)

/-! ## length and text -/

/-- no component of the SL entries has a zero in its text -/
def NoNulIn (es : List (Mem × Nat)) : Prop := ∀ e ∈ es, IsSL e → NoNul e.1 (slComps e.1 e.2)

theorem weightOf_cons (e : Mem × Nat) (es : List (Mem × Nat)) :
    weightOf (e :: es) = entryWeight e.1 e.2 + weightOf es := by
  simp [weightOf]

theorem text_piecesOf_cons (e : Mem × Nat) (es : List (Mem × Nat)) :
    (text (piecesOf (e :: es))).length
      = (text (entryPieces e.1 e.2)).length + (text (piecesOf es)).length := by
  simp only [piecesOf, text, List.flatMap_cons, List.flatMap_append, List.length_append]

theorem text_entryPieces_le (m : Mem) (rr : Nat) :
    (text (entryPieces m rr)).length ≤ entryWeight m rr := by
  unfold entryPieces entryWeight
  split
  · exact text_compPieces_le _ _ _
  · exact Nat.le_refl 0

theorem text_entryPieces_eq {e : Mem × Nat} (h : IsSL e → NoNul e.1 (slComps e.1 e.2)) :
    (text (entryPieces e.1 e.2)).length = entryWeight e.1 e.2 := by
  unfold entryPieces entryWeight
  split
  · rename_i hs
    exact text_compPieces_eq _ (h hs)
  · rfl

theorem text_piecesOf_le (es : List (Mem × Nat)) : (text (piecesOf es)).length ≤ weightOf es := by
  induction es with
  | nil => exact Nat.le_refl 0
  | cons e es ih =>
    have := text_entryPieces_le e.1 e.2
    rw [text_piecesOf_cons, weightOf_cons]
    omega

theorem text_piecesOf_eq {es : List (Mem × Nat)} (h : NoNulIn es) :
    (text (piecesOf es)).length = weightOf es := by
  induction es with
  | nil => rfl
  | cons e es ih =>
    have h1 := text_entryPieces_eq (h e List.mem_cons_self)
    have h2 := ih fun e he => h e (List.mem_cons_of_mem _ he)
    rw [text_piecesOf_cons, weightOf_cons]
    omega

/-- there is text only where there is an SL entry -/
theorem exists_isSL (h : piecesOf es ≠ []) : ∃ e ∈ es, IsSL e := by
  by_contra hno
  refine h (List.flatMap_eq_nil_iff.mpr fun e he => ?_)
  exact if_neg fun hs => hno ⟨e, he, hs⟩

/-- no SL entry follows an RE entry -/
def NoSLAfterRE (es : List (Mem × Nat)) : Prop := es.Pairwise fun e e' => IsRE e → ¬ IsSL e'

theorem entryWeight_zero {e : Mem × Nat} (h : ¬ IsSL e) : entryWeight e.1 e.2 = 0 := if_neg h

theorem weightOf_zero (h : ∀ e ∈ es, ¬ IsSL e) : weightOf es = 0 := by
  induction es with
  | nil => rfl
  | cons e es ih =>
    rw [weightOf_cons, entryWeight_zero (h e List.mem_cons_self),
      ih fun e he => h e (List.mem_cons_of_mem _ he)]

/-- then the entries up to the first RE have all the SL entries -/
theorem noSL_rest (h : NoSLAfterRE es) : ∀ e ∈ es.dropWhile (fun e => ¬ IsRE e), ¬ IsSL e := by
  induction es with
  | nil => exact fun e he => absurd he List.not_mem_nil
  | cons e es ih =>
    intro e' he'
    by_cases hre : IsRE e
    · rw [List.dropWhile_cons_of_neg (by simpa using hre)] at he'
      obtain rfl | he' := List.mem_cons.mp he'
      · intro hsl
        have : SIG 'R' 'E' = SIG 'S' 'L' := hre.symm.trans hsl
        exact absurd this (by decide)
      · exact List.rel_of_pairwise_cons h he' hre
    · rw [List.dropWhile_cons_of_pos (by simpa using hre)] at he'
      exact ih (List.Pairwise.of_cons h) e' he'

theorem weightOf_beforeRE (h : NoSLAfterRE es) : weightOf (beforeRE es) = weightOf es := by
  have hsplit : beforeRE es ++ es.dropWhile (fun e => ¬ IsRE e) = es := List.takeWhile_append_dropWhile
  have hsum : weightOf (beforeRE es ++ es.dropWhile (fun e => ¬ IsRE e))
      = weightOf (beforeRE es) + weightOf (es.dropWhile fun e => ¬ IsRE e) := by
    simp [weightOf]
  rw [hsplit, weightOf_zero (noSL_rest h), Nat.add_zero] at hsum
  exact hsum.symm

theorem sl_beforeRE (h : NoSLAfterRE es) {e : Mem × Nat} (he : e ∈ es) (hs : IsSL e) :
    e ∈ beforeRE es := by
  have hsplit : beforeRE es ++ es.dropWhile (fun e => ¬ IsRE e) = es := List.takeWhile_append_dropWhile
  rw [← hsplit] at he
  exact (List.mem_append.mp he).resolve_right fun hr => noSL_rest h e hr hs

/-- the string in `b`, that was made in the fresh memory `g`: it ends after at most `n` characters,
after `n` if no component has a zero in it, and nothing was stored past its place for `n` characters -/
def TextFits (es : List (Mem × Nat)) (n : Nat) (g b : Mem) : Prop :=
  ∃ e, IsEnd b e ∧ e ≤ n ∧ (NoNulIn es → e = n) ∧ ∀ q, n < q → b q = g q

/-- the size of a link whose text is given is the number of the counted characters -/
theorem link_size (hE : ∀ n, E.read n = E.read 0) {ino : Int} (h0 : 0 ≤ ino) (h1 : ino < 2147483648)
    {s t u v : State} {i : Slot} {n fuel : Nat} {b : Mem}
    (hbs : s.sb.s_blocksize = 1024) (hbits : s.sb.s_blocksize_bits = 10)
    (hget : iso_iget E n ino s = some (some i, t))
    (hrock : u.sb.s_rock = s.sb.s_rock) (hi : u.inode_table i = t.inode_table i)
    (hdev : u.cd_device = s.cd_device)
    (hrun : get_rock_ridge_symlink E fuel i u = some (some b, v))
    (hfine : RecordFine E u.cd_device fuel ino)
    (hthrough : RecordThrough E u.cd_device fuel (record E u.cd_device ino)
      (setupLen (record E u.cd_device ino) 0) (suLen (record E u.cd_device ino)))
    (hre : NoSLAfterRE (suEntries E u.cd_device fuel ino))
    (hsmall : weightOf (suEntries E u.cd_device fuel ino) + 1 < 2 ^ 32)
    (hne : piecesOf (suEntries E u.cd_device fuel ino) ≠ []) :
    (u.inode_table i).size = weightOf (suEntries E u.cd_device fuel ino) := by
  obtain ⟨m, de, s1, mode, nlink, sz, x, s2, hraw, hparse, hsize, -, -⟩ := iso_iget_parse hget
  have hrockt : u.sb.s_rock = true := by
    by_contra hn
    unfold get_rock_ridge_symlink at hrun
    rw [bind_run (get_run u), if_neg hn] at hrun
    cases congrArg Prod.fst (Option.some.inj hrun)
  have hdev1 : s1.cd_device = u.cd_device := (rawInode_reads ino s _ s1 hraw).cd_device.trans hdev.symm
  have hsb1 := (rawInode_reads ino s _ s1 hraw).sb
  have hag := rawInode_agree h0 h1 hbs hbits hraw
  rw [← hdev] at hag
  have hadd : Added (suEntries E u.cd_device fuel ino) ⟨mode, nlink, sz, 0, noCont⟩ x := by
    rw [← hdev1] at hag hfine hthrough ⊢
    refine parse_size (s := { s1 with sb := cruft s1.sb (uns 32 (de_size m de)) }) hE ?_ hag hfine
      hthrough hparse
    rw [cruft_rock, hsb1, ← hrock]
    exact hrockt
  obtain ⟨e, he, hsl⟩ := exists_isSL hne
  have hlen := hadd.len
  rw [weightOf_beforeRE hre, Nat.zero_add, Nat.mod_eq_of_lt (Nat.lt_of_succ_lt hsmall)] at hlen
  rw [hi, hsize, hadd.size (.inl ⟨e, sl_beforeRE hre he hsl, hsl⟩), hlen]

/-- **length and text of a link.** An inode is got from a well-formed record in the first 2 GB, whose chain
of continuation areas ends, with fewer than 2^32 - 1 characters of link text and no SL entry after an RE
entry, from a device whose reads do not change, and the heap has the buffers.  Then, if the memory of the
text is zero after every component that `strncat` leaves open, `get_rock_ridge_symlink` comes back with no
text, or with one that fits the block that `malloc` gave for its size; and, unless a component has a zero in
it, a text fits only then. -/
theorem symlink_text (hE : ∀ n, E.read n = E.read 0) {ino : Int} (h0 : 0 ≤ ino) (h1 : ino < 2147483648)
    {s t u : State} {i : Slot} {n k : Nat}
    (hbs : s.sb.s_blocksize = 1024) (hbits : s.sb.s_blocksize_bits = 10)
    (hget : iso_iget E n ino s = some (some i, t))
    (hrock : u.sb.s_rock = s.sb.s_rock) (hi : u.inode_table i = t.inode_table i)
    (hdev : u.cd_device = s.cd_device)
    (hends : ChainEnds E u.cd_device k ino) (hfine : RecordFine E u.cd_device k ino)
    (hre : NoSLAfterRE (suEntries E u.cd_device k ino))
    (hsmall : weightOf (suEntries E u.cd_device k ino) + 1 < 2 ^ 32)
    (hroom : LinkRoom E u.cd_device (u.inode_table i).size k ino u.free_mem_ptr) :
    (Zeroed (fresh E (u.inode_table i).size (linkHeap E u.cd_device k ino u.free_mem_ptr))
        (piecesOf (suEntries E u.cd_device k ino)) →
      ∀ fuel, k + weightOf (suEntries E u.cd_device k ino) + 256 ≤ fuel →
        ∃ r v, get_rock_ridge_symlink E fuel i u = some (r, v) ∧
          (r = none ∨ ∃ b, r = some b ∧ (u.inode_table i).size + 1 < 2 ^ 32 ∧
            TextFits (suEntries E u.cd_device k ino) (u.inode_table i).size
              (fresh E (u.inode_table i).size (linkHeap E u.cd_device k ino u.free_mem_ptr)) b)) ∧
      (NoNulIn (suEntries E u.cd_device k ino) →
        ∀ fuel b v, k ≤ fuel → get_rock_ridge_symlink E fuel i u = some (some b, v) →
          TextFits (suEntries E u.cd_device k ino) (u.inode_table i).size
            (fresh E (u.inode_table i).size (linkHeap E u.cd_device k ino u.free_mem_ptr)) b →
          Zeroed (fresh E (u.inode_table i).size (linkHeap E u.cd_device k ino u.free_mem_ptr))
            (piecesOf (suEntries E u.cd_device k ino))) := by
  have hino : (u.inode_table i).inumber = ino := by
    obtain ⟨-, -, -, -, -, -, -, -, -, -, -, hinum, -⟩ := iso_iget_parse hget
    rw [hi, hinum]
  -- a text that is given has the pieces of the record
  have htext : ∀ fuel b v, k ≤ fuel → get_rock_ridge_symlink E fuel i u = some (some b, v) →
      (u.inode_table i).size = weightOf (suEntries E u.cd_device k ino) ∧
        Grown (fresh E (u.inode_table i).size (linkHeap E u.cd_device k ino u.free_mem_ptr))
          (piecesOf (suEntries E u.cd_device k ino)) b := by
    intro fuel b v hle hrun
    obtain ⟨hentries, -, -, hheap, -⟩ := RecordEnds.more hends hle
    have hfine := hfine.more hends hle
    obtain ⟨hthrough, hne, hgrown⟩ := symlink_buf hE hino h0 h1 hfine hrun
    have hsize := link_size hE h0 h1 hbs hbits hget hrock hi hdev hrun hfine hthrough
      (by rw [suEntries, hentries]; exact hre) (by rw [suEntries, hentries]; exact hsmall) hne
    rw [suEntries, hentries, linkHeap, hheap] at hgrown
    rw [suEntries, hentries] at hsize
    exact ⟨hsize, hgrown⟩
  refine ⟨fun hz fuel hle => ?_, fun hnul fuel b v hle hrun hfits => ?_⟩
  · obtain ⟨hentries, hends', -, hheap, hmore⟩ := RecordEnds.more hends (by omega : k ≤ fuel)
    have hle' := text_piecesOf_le (suEntries E u.cd_device k ino)
    obtain ⟨r, v, hrun⟩ := symlink_runs hE hino h0 h1 hends' (hfine.more hends (by omega))
      ⟨hroom.1, hmore _ _ _ hroom.2⟩ (by rw [suEntries, hentries, linkHeap, hheap]; exact hz)
      (by rw [suEntries, hentries]; unfold suEntries at hle hle'; omega)
    refine ⟨r, v, hrun, ?_⟩
    cases r with
    | none => exact .inl rfl
    | some b =>
      obtain ⟨hn, hgrown⟩ := htext fuel b v (by omega) hrun
      obtain ⟨hend, -, hrest⟩ := hgrown.zeroed hz
      rw [hn] at hrest ⊢
      exact .inr ⟨b, rfl, hsmall, _, hend, hle', text_piecesOf_eq,
        fun q hq => hrest q (Nat.lt_of_le_of_lt hle' hq)⟩
  · obtain ⟨hn, hgrown⟩ := htext fuel b v hle hrun
    obtain ⟨e, hend, -, heq, -⟩ := hfits
    refine (hgrown.isEnd hend).2 ?_
    rw [heq hnul, hn, text_piecesOf_eq hnul]

/-- a disc with a link in its root directory, whose record has the fields `fields` behind a PX entry -/
def linkDisc (len : Nat) (fields : List (Nat × Nat × Nat)) : Mem := Bytes.record
  ([(32768, 1, 1), (32769, 0x3130304443, 5), (32896, 2048, 2), (32926, 20, 4),
   (40960, 34, 1), (40962, 20, 4), (40970, 34 + len, 4), (40985, 2, 1), (40992, 1, 1),
   (40994, len, 1), (41026, 1, 1), (41027, 0x41, 1),
   (41028, 0x5850, 2), (41030, 36, 1), (41031, 1, 1), (41032, 0xa1ff, 4), (41040, 1, 4)] ++ fields)

/-- the disc in a machine whose memory above the heap is `ram` -/
def linkEnv (disc ram : Mem) : Env :=
  { Machine.faultless (fun _ p => disc p.toNat) (fun _ => ram) [] with stack := fun _ _ => 0 }

def linkMounted (E : Env) : State := ((iso_read_super E tinyStart).map Prod.snd).getD tinyStart

/-- an inode is got, and the text of the link that it is is made -/
def linkRun (E : Env) (fuel : Nat) (ino : Int) (s : State) : Option (Entry × State × Mem) := do
  let (i, t) ← iso_iget E fuel ino s
  let i ← i
  let (b, _) ← get_rock_ridge_symlink E fuel i t
  let b ← b
  pure (t.inode_table i, t, b)

theorem linkRun_some {E : Env} {fuel : Nat} {ino : Int} {s t : State} {b : Mem} {e : Entry}
    (h : linkRun E fuel ino s = some (e, t, b)) :
    ∃ i v, iso_iget E fuel ino s = some (some i, t) ∧
      get_rock_ridge_symlink E fuel i t = some (some b, v) ∧ t.inode_table i = e := by
  unfold linkRun at h
  obtain ⟨⟨i, t'⟩, hget, h1⟩ := Option.bind_eq_some_iff.mp h
  obtain ⟨i, rfl, h2⟩ := Option.bind_eq_some_iff.mp h1
  obtain ⟨⟨b', v⟩, hlink, h3⟩ := Option.bind_eq_some_iff.mp h2
  obtain ⟨b', rfl, h4⟩ := Option.bind_eq_some_iff.mp h3
  obtain ⟨rfl, rfl, rfl⟩ : t'.inode_table i = e ∧ t' = t ∧ b' = b := by simpa using h4
  exact ⟨i, v, hget, hlink, rfl⟩

theorem linkMounted_run {E : Env} (h : (iso_read_super E tinyStart).isSome = true) :
    ∃ ret, iso_read_super E tinyStart = some (ret, linkMounted E) := by
  obtain ⟨⟨ret, t⟩, hr⟩ := Option.isSome_iff_exists.mp h
  exact ⟨ret, by rw [linkMounted, hr, Option.map_some, Option.getD_some]⟩

/-- the link to `../ab/t/u` in zeroed memory: three components in the record, and one in a continuation
area -/
def partsEnv : Env := linkEnv (linkDisc 112
  [(41064, 0x4c53, 2), (41066, 14, 1), (41067, 1, 1), (41068, 1, 1), (41069, 4, 1),
   (41072, 2, 1), (41073, 0x6261, 2), (41076, 1, 1), (41077, 0x74, 1),
   (41078, 0x4543, 2), (41080, 28, 1), (41081, 1, 1), (41082, 21, 4), (41098, 8, 4),
   (43008, 0x4c53, 2), (43010, 8, 1), (43011, 1, 1), (43014, 1, 1), (43015, 0x75, 1)]) fun _ => 0

theorem parts_fine : ChainEnds partsEnv 0 2 40994 ∧ RecordFine partsEnv 0 2 40994 ∧
    NoSLAfterRE (suEntries partsEnv 0 2 40994) ∧ weightOf (suEntries partsEnv 0 2 40994) = 9 := by
  refine ⟨by decide +kernel, ⟨by decide +kernel, by decide +kernel⟩, ?_, by decide +kernel⟩
  unfold NoSLAfterRE
  decide +kernel

/-- in zeroed memory the text fits -/
theorem symlink_text_zeroed : ∃ (i : Slot) (t v : State) (b : Mem),
    iso_iget partsEnv 267 40994 (linkMounted partsEnv) = some (some i, t) ∧
      get_rock_ridge_symlink partsEnv 267 i t = some (some b, v) ∧
      TextFits (suEntries partsEnv 0 2 40994) 9
        (fresh partsEnv 9 (linkHeap partsEnv 0 2 40994 t.free_mem_ptr)) b := by
  have h : (linkRun partsEnv 267 40994 (linkMounted partsEnv)).map
      (fun r => (r.1.size, r.2.1.sb.s_rock, r.2.1.cd_device,
        decide (LinkRoom partsEnv 0 9 2 40994 r.2.1.free_mem_ptr))) = some (9, true, 0, true) := by decide +kernel
  obtain ⟨⟨e, t, b⟩, hrun, h⟩ := Option.map_eq_some_iff.mp h
  obtain ⟨i, v, hget, hlink, he⟩ := linkRun_some hrun
  obtain ⟨hsize, hrock, hdev, hroom⟩ : e.size = 9 ∧ t.sb.s_rock = true ∧ t.cd_device = 0 ∧
      LinkRoom partsEnv 0 9 2 40994 t.free_mem_ptr := by simpa using h
  have hm : ((linkMounted partsEnv).sb.s_blocksize = 1024 ∧
      (linkMounted partsEnv).sb.s_blocksize_bits = 10) ∧
      (linkMounted partsEnv).sb.s_rock = true ∧ (linkMounted partsEnv).cd_device = 0 := by
    decide +kernel
  obtain ⟨hends, hfine, hre, hweight⟩ := parts_fine
  have hsmall : weightOf (suEntries partsEnv 0 2 40994) + 1 < 2 ^ 32 := by
    rw [hweight]
    decide
  rw [← hsize, ← he] at hroom
  rw [← hdev] at hends hfine hre hweight hsmall hroom ⊢
  have hright := (symlink_text (fun _ => rfl) (by decide) (by decide) hm.1.1 hm.1.2 hget
    (hrock.trans hm.2.1.symm) rfl (hdev.trans hm.2.2.symm) hends hfine hre hsmall hroom).1
    (fun _ _ _ _ _ => rfl) 267 (by rw [hweight])
  obtain ⟨r, v', hrun', hright⟩ := hright
  obtain ⟨rfl, -⟩ := Prod.mk.inj (Option.some.inj (hlink.symm.trans hrun'))
  obtain hnone | ⟨b', hb', -, hfits⟩ := hright
  · cases hnone
  · cases hb'
    rw [he, hsize] at hfits
    exact ⟨i, t, v, b, hget, hlink, hfits⟩

/-- the link to `t` in memory that holds `aaaa` -/
def staleEnv : Env := linkEnv (linkDisc 78
  [(41064, 0x4c53, 2), (41066, 8, 1), (41067, 1, 1), (41070, 1, 1), (41071, 0x74, 1)])
  (Bytes.record [(0, 0x61616161, 4)])

/-- in memory that holds `aaaa` the text goes on after the one component, past the end of the block -/
theorem symlink_text_overrun : ¬ ∀ (E : Env) (s0 s t v : State) (ret : Int) (i : Slot) (fuel : Nat)
    (ino : Int) (b : Mem), iso_read_super E s0 = some (ret, s) →
    iso_iget E fuel ino s = some (some i, t) → S_ISLNK (t.inode_table i).mode = true →
    get_rock_ridge_symlink E fuel i t = some (some b, v) → ∃ e ≤ (t.inode_table i).size, b e = 0 := by
  intro hall
  have h : (linkRun staleEnv 8 40994 (linkMounted staleEnv)).map
      (fun r => (r.1.size, S_ISLNK r.1.mode, r.2.2.get 0 2)) = some (1, true, [0x74, 0x61]) := by
    decide +kernel
  obtain ⟨⟨e, t, b⟩, hrun, h⟩ := Option.map_eq_some_iff.mp h
  obtain ⟨i, v, hget, hlink, he⟩ := linkRun_some hrun
  obtain ⟨hsize, hmode, htext⟩ : e.size = 1 ∧ S_ISLNK e.mode = true ∧ b.get 0 2 = [0x74, 0x61] := by
    simpa using h
  obtain ⟨ret, hsuper⟩ := linkMounted_run (E := staleEnv) (by decide +kernel)
  obtain ⟨k, hk, hz⟩ := hall _ _ _ t v _ i 8 40994 b hsuper hget (he ▸ hmode) hlink
  have hget2 : b.get 0 2 = [b 0, b 1] := rfl
  rw [he, hsize] at hk
  rw [hget2] at htext
  obtain rfl | rfl : k = 0 ∨ k = 1 := by omega
  · simp [hz] at htext
  · simp [hz] at htext

end Iso
