import Aboot.Iso.Frame
import Aboot.Lib.Append
import Mathlib.Data.List.TakeWhile

/-!
# The text of a symbolic link, entry by entry

`slText` appends the components of an SL entry to a string in fresh memory, `slLen` adds up their
lengths.

* `span`        what `strncat` of lib/string.c stores: it ends the text only if it comes to a zero;
* `slPieces`    the pieces that an SL entry appends, and `slWeight` the characters it counts;
* `slText_buf`  the text of an entry;
* `slLen_eq`    its length, as an `unsigned`;
* `text_slPieces_le`, `text_slPieces_eq`   the text is not longer than what is counted, and as long if
                no component has a zero in it.
-/

set_option linter.unusedVariables false

namespace Iso
open Word Prog Append

/-! ## strings -/

theorem strEnd_some {m : Mem} {fuel p e : Nat} {s t : State} (h : strEnd m fuel p s = some (e, t)) :
    p ≤ e ∧ m e = 0 ∧ ∀ q, p ≤ q → q < e → m q ≠ 0 := by
  induction fuel generalizing p with
  | zero => cases h
  | succ fuel ih =>
    unfold strEnd at h
    by_cases h0 : m p = 0
    · rw [if_pos h0, pure_run, Option.some.injEq, Prod.mk.injEq] at h
      rw [← h.1]
      exact ⟨Nat.le_refl p, h0, fun q hq hlt => absurd hlt (by omega)⟩
    · rw [if_neg h0] at h
      obtain ⟨h1, h2, h3⟩ := ih h
      refine ⟨by omega, h2, fun q hq hlt => ?_⟩
      by_cases hqp : q = p
      · rw [hqp]
        exact h0
      · exact h3 q (by omega) hlt

theorem strEnd_isEnd {m : Mem} {fuel e : Nat} {s t : State} (h : strEnd m fuel 0 s = some (e, t)) :
    IsEnd m e :=
  ⟨(strEnd_some h).2.1, fun q hq => (strEnd_some h).2.2 q (Nat.zero_le q) hq⟩

theorem strEnd_run {m : Mem} {e : Nat} {s : State} (h : IsEnd m e) :
    ∀ {fuel p : Nat}, p ≤ e → e < p + fuel → strEnd m fuel p s = some (e, s) := by
  intro fuel
  induction fuel with
  | zero =>
    intro p hp hlt
    omega
  | succ fuel ih =>
    intro p hp hlt
    unfold strEnd
    by_cases he : p = e
    · rw [he, if_pos h.zero, pure_run]
    · rw [if_neg (h.before p (by omega))]
      exact ih (by omega) (by omega)

/-- what `strncat` appends of `count` characters at `src` -/
def span (m : Mem) (src count : Nat) : Piece :=
  ⟨(m.get src count).takeWhile fun c => c ≠ 0, count = 0 ∨ 0 ∈ m.get src count⟩

theorem get_succ (m : Mem) (a n : Nat) : m.get a (n + 1) = m a :: m.get (a + 1) n := by
  rw [Nat.add_comm, Mem.get_add]
  rfl

theorem span_fine (m : Mem) (src count : Nat) : (span m src count).Fine := by
  refine ⟨fun h0 => ?_, fun hnil => ?_⟩
  · simpa using List.mem_takeWhile_imp h0
  · cases count with
    | zero => rfl
    | succ n =>
      have h0 : m src = 0 := by
        by_contra hne
        simp [span, get_succ, hne] at hnil
      simp [span, get_succ, h0]

theorem ncat_some {m : Mem} {fuel src count : Nat} {l : List UInt8} {s t : State}
    (h : ncat m fuel src count s = some (l, t)) :
    l = ((m.get src count).takeWhile fun c => c ≠ 0)
      ++ if 0 ∈ m.get src count then [0] else [] := by
  induction fuel generalizing src count l t with
  | zero =>
    cases count with
    | zero => exact (congrArg Prod.fst (Option.some.inj h)).symm
    | succ count => cases h
  | succ fuel ih =>
    cases count with
    | zero => exact (congrArg Prod.fst (Option.some.inj h)).symm
    | succ count =>
      unfold ncat at h
      by_cases h0 : m src = 0
      · rw [if_pos h0, pure_run, Option.some.injEq, Prod.mk.injEq] at h
        rw [← h.1, get_succ]
        simp [h0]
      · rw [if_neg h0] at h
        obtain ⟨l', t', h1, h2⟩ := bind_some.mp h
        rw [pure_run, Option.some.injEq, Prod.mk.injEq] at h2
        rw [← h2.1, ih h1, get_succ]
        simp [h0, Ne.symm h0]

/-- a text of at most `count` characters is copied -/
theorem ncat_runs (m : Mem) (s : State) (count : Nat) : ∀ {fuel : Nat} (src : Nat), count ≤ fuel →
    ∃ l, ncat m fuel src count s = some (l, s) := by
  induction count with
  | zero =>
    intro fuel src hle
    cases fuel <;> exact ⟨[], rfl⟩
  | succ count ih =>
    intro fuel src hle
    obtain ⟨fuel, rfl⟩ : ∃ n, fuel = n + 1 := ⟨fuel - 1, by omega⟩
    unfold ncat
    by_cases h0 : m src = 0
    · rw [if_pos h0]
      exact ⟨[0], rfl⟩
    · obtain ⟨l, hl⟩ := ih (src + 1) (Nat.le_of_succ_le_succ hle)
      rw [if_neg h0, bind_run hl]
      exact ⟨_, rfl⟩

variable {g b b' : Mem} {ps : List Piece} {s t : State}

theorem grown_strncat (h : Grown g ps b) {fuel : Nat} {m : Mem} {src count : Nat}
    (hr : strncat fuel b m src count s = some (b', t)) : Grown g (ps ++ [span m src count]) b' := by
  unfold strncat at hr
  by_cases hc : count = 0
  · rw [if_pos hc, pure_run, Option.some.injEq, Prod.mk.injEq] at hr
    subst hc
    rw [← hr.1]
    exact h.skip
  · rw [if_neg hc] at hr
    obtain ⟨e, t1, h1, hr⟩ := bind_some.mp hr
    obtain ⟨l, t2, h2, hr⟩ := bind_some.mp hr
    rw [pure_run, Option.some.injEq, Prod.mk.injEq] at hr
    have hl : l = (span m src count).stored := by
      rw [ncat_some h2]
      simp [span, Piece.stored, hc]
    rw [← hr.1, hl]
    exact h.snoc (strEnd_isEnd h1) (span_fine m src count)

theorem grown_strcat (h : Grown g ps b) {fuel : Nat} {l : List UInt8} (hl : 0 ∉ l)
    (hr : strcat fuel b l s = some (b', t)) : Grown g (ps ++ [⟨l, true⟩]) b' := by
  obtain ⟨e, t1, h1, hr⟩ := bind_some.mp hr
  rw [pure_run, Option.some.injEq, Prod.mk.injEq] at hr
  rw [← hr.1]
  exact h.snoc (strEnd_isEnd h1) ⟨hl, fun _ => rfl⟩

/-! ## one entry -/

/-- what a component appends -/
def slpPiece (m : Mem) (slp : Nat) : Piece :=
  match slp_flags m slp &&& 0xfe with
  | 0 => span m (slp_text slp) (slp_len m slp)
  | 2 => ⟨['.'.toUInt8], true⟩
  | 4 => ⟨['.'.toUInt8, '.'.toUInt8], true⟩
  | 8 => ⟨['/'.toUInt8], true⟩
  | _ => ⟨[], true⟩

/-- a slash, under a condition -/
def slashPiece (c : Bool) : Piece := ⟨if c then ['/'.toUInt8] else [], true⟩

def slashWeight (c : Bool) : Nat := if c then 1 else 0

/-- whether the last component of an entry has been reached -/
def lastComp (m : Mem) (slen : Int) (slp : Nat) : Bool := slen - (slp_len m slp + 2) < 2

/-- the slash after a component -/
def slashOf (m : Mem) (rr : Nat) (slen : Int) (slp : Nat) : Bool :=
  if lastComp m slen slp then slashEnd m rr slp else slashAfter m slp

/-- the components of an entry: what is left of it at each, and where it is -/
def comps (m : Mem) : (fuel : Nat) → (slen : Int) → (slp : Nat) → List (Int × Nat)
  | 0, _, _ => []
  | fuel + 1, slen, slp =>
    if slen ≤ 1 then []
    else (slen, slp) ::
      if lastComp m slen slp then []
      else comps m fuel (slen - (slp_len m slp + 2)) (slp + slp_len m slp + 2)

/-- the pieces that some components append -/
def compPieces (m : Mem) (rr : Nat) (cs : List (Int × Nat)) : List Piece :=
  cs.flatMap fun c => [slpPiece m c.2, slashPiece (slashOf m rr c.1 c.2)]

/-- the characters that some components count -/
def compWeight (m : Mem) (rr : Nat) (cs : List (Int × Nat)) : Nat :=
  (cs.map fun c => slpSize m c.2 + slashWeight (slashOf m rr c.1 c.2)).sum

/-- the components of the SL entry `rr` -/
def slComps (m : Mem) (rr : Nat) : List (Int × Nat) :=
  comps m (rr_len m rr) (rr_len m rr - 5) (rr_body rr)

theorem compWeight_cons (m : Mem) (rr : Nat) (c : Int × Nat) (cs : List (Int × Nat)) :
    compWeight m rr (c :: cs)
      = slpSize m c.2 + slashWeight (slashOf m rr c.1 c.2) + compWeight m rr cs := by
  simp [compWeight]

/-- one more character under a condition, in an `unsigned` -/
theorem uns32_slash (c : Bool) (n : Nat) :
    (if c then uns 32 ((uns 32 (n : Int) + 1 : Nat) : Int) else uns 32 (n : Int))
      = (n + slashWeight c) % 2 ^ 32 := by
  unfold uns slashWeight
  cases c with
  | true =>
    simp only [if_true]
    omega
  | false =>
    simp only [Bool.false_eq_true, if_false]
    omega

/-- the length of an entry, added up in an `unsigned` -/
theorem slLen_eq {m : Mem} {rr : Nat} {fuel : Nat} {slen : Int} {slp size : Nat}
    (hs : size < 2 ^ 32) :
    slLen m rr fuel slen slp size = (size + compWeight m rr (comps m fuel slen slp)) % 2 ^ 32 := by
  induction fuel generalizing slen slp size with
  | zero => exact (Nat.mod_eq_of_lt hs).symm
  | succ fuel ih =>
    unfold slLen comps
    by_cases h1 : slen ≤ 1
    · rw [if_pos h1, if_pos h1]
      exact (Nat.mod_eq_of_lt hs).symm
    · rw [if_neg h1, if_neg h1, compWeight_cons]
      dsimp only
      by_cases h2 : slen - (slp_len m slp + 2) < 2
      · have hl : lastComp m slen slp = true := by simpa [lastComp] using h2
        have ho : slashOf m rr slen slp = slashEnd m rr slp := by rw [slashOf, if_pos hl]
        rw [if_pos h2, if_pos hl, ho, uns32_slash]
        simp only [compWeight, List.map_nil, List.sum_nil]
        omega
      · have hl : ¬ lastComp m slen slp = true := by simpa [lastComp] using h2
        have ho : slashOf m rr slen slp = slashAfter m slp := by rw [slashOf, if_neg hl]
        rw [if_neg h2, if_neg hl, ho, uns32_slash, ih (Nat.mod_lt _ (by decide))]
        omega

/-! ## the buffer -/

/-- the fresh memory of a block that `malloc` gives for a text of `size` characters -/
def fresh (E : Env) (size free_mem_ptr : Nat) : Mem :=
  E.ram (malloc E.clusters free_mem_ptr (uns 64 (uns 32 ((size + 1 : Nat) : Int) : Nat)))

/-- the buffer of a link text after some pieces, where the first of them took it from the heap at
`free_mem_ptr`: none as long as there is no piece -/
def LinkBuf (E : Env) (size free_mem_ptr : Nat) (ps : List Piece) (s : State) : Option Mem → Prop
  | none => ps = [] ∧ s.free_mem_ptr = free_mem_ptr
  | some b => ps ≠ [] ∧ Grown (fresh E size free_mem_ptr) ps b

variable {E : Env} {size free_mem_ptr : Nat}

theorem alloc_run {n : Int} (h : alloc E n s = some (b, t)) :
    b = E.ram (malloc E.clusters s.free_mem_ptr (uns 64 n)) ∧
      t.free_mem_ptr = malloc E.clusters s.free_mem_ptr (uns 64 n) := by
  unfold alloc at h
  rw [bind_run (get_run s)] at h
  split at h
  · cases h
  · rw [bind_run (modify_run _ s), pure_run, Option.some.injEq, Prod.mk.injEq] at h
    exact ⟨h.1.symm, h.2 ▸ rfl⟩

theorem linkBuffer_buf {r : Option Mem} (h : LinkBuf E size free_mem_ptr ps s r)
    (hr : linkBuffer E size r s = some (b, t)) : Grown (fresh E size free_mem_ptr) ps b := by
  cases r with
  | some b0 =>
    have hb : b0 = b := congrArg Prod.fst (Option.some.inj hr)
    rw [← hb]
    exact h.2
  | none =>
    obtain ⟨buffer, t1, h1, hr⟩ := bind_some.mp hr
    rw [pure_run, Option.some.injEq, Prod.mk.injEq] at hr
    obtain ⟨hps, hfree⟩ : ps = [] ∧ s.free_mem_ptr = free_mem_ptr := h
    rw [hps, ← hr.1, (alloc_run h1).1, hfree]
    exact grown_nil _

theorem slpText_other {fuel : Nat} {m : Mem} {slp : Nat} (h0 : slp_flags m slp &&& 0xfe ≠ 0)
    (h2 : slp_flags m slp &&& 0xfe ≠ 2) (h4 : slp_flags m slp &&& 0xfe ≠ 4)
    (h8 : slp_flags m slp &&& 0xfe ≠ 8) : slpText fuel b m slp = pure b := by
  unfold slpText
  split
  · exact (h0 ‹_›).elim
  · exact (h2 ‹_›).elim
  · exact (h4 ‹_›).elim
  · exact (h8 ‹_›).elim
  · rfl

theorem slpText_buf {g : Mem} (h : Grown g ps b) {fuel : Nat} {m : Mem} {slp : Nat}
    (hr : slpText fuel b m slp s = some (b', t)) : Grown g (ps ++ [slpPiece m slp]) b' := by
  unfold slpPiece
  split
  · rename_i h0
    rw [slpText, h0] at hr
    exact grown_strncat h hr
  · rename_i h0
    rw [slpText, h0] at hr
    exact grown_strcat h (by decide) hr
  · rename_i h0
    rw [slpText, h0] at hr
    exact grown_strcat h (by decide) hr
  · rename_i h0
    rw [slpText, h0] at hr
    exact grown_strcat h (by decide) hr
  · rename_i h0 h2 h4 h8
    rw [slpText_other h0 h2 h4 h8, pure_run, Option.some.injEq, Prod.mk.injEq] at hr
    rw [← hr.1]
    exact h.skip

theorem slash_buf {g : Mem} (h : Grown g ps b) {fuel : Nat} {c : Bool}
    (hr : slash fuel c b s = some (b', t)) : Grown g (ps ++ [slashPiece c]) b' := by
  cases c with
  | true => exact grown_strcat h (by decide) hr
  | false =>
    have hb : b = b' := congrArg Prod.fst (Option.some.inj hr)
    rw [← hb]
    exact h.skip

/-! ### with fuel enough -/

theorem strncat_runs {e fuel : Nat} (he : IsEnd b e) (hlt : e < fuel) {m : Mem} {src count : Nat}
    (hle : count ≤ fuel) : ∃ b', strncat fuel b m src count s = some (b', s) := by
  unfold strncat
  by_cases h0 : count = 0
  · rw [if_pos h0]
    exact ⟨b, rfl⟩
  · obtain ⟨l, hl⟩ := ncat_runs m s count src hle
    rw [if_neg h0, bind_run (strEnd_run he (Nat.zero_le e) (by omega)), bind_run hl]
    exact ⟨_, rfl⟩

theorem strcat_runs {e fuel : Nat} (he : IsEnd b e) (hlt : e < fuel) (l : List UInt8) :
    ∃ b', strcat fuel b l s = some (b', s) := by
  unfold strcat
  rw [bind_run (strEnd_run he (Nat.zero_le e) (by omega))]
  exact ⟨_, rfl⟩

theorem slpText_runs {e fuel : Nat} (he : IsEnd b e) (hlt : e < fuel) (h256 : 256 ≤ fuel) (m : Mem)
    (slp : Nat) : ∃ b', slpText fuel b m slp s = some (b', s) := by
  have hlen : slp_len m slp < 256 := UInt8.toNat_lt _
  by_cases h0 : slp_flags m slp &&& 0xfe = 0
  · rw [slpText, h0]
    exact strncat_runs he hlt (by omega)
  by_cases h2 : slp_flags m slp &&& 0xfe = 2
  · rw [slpText, h2]
    exact strcat_runs he hlt _
  by_cases h4 : slp_flags m slp &&& 0xfe = 4
  · rw [slpText, h4]
    exact strcat_runs he hlt _
  by_cases h8 : slp_flags m slp &&& 0xfe = 8
  · rw [slpText, h8]
    exact strcat_runs he hlt _
  rw [slpText_other h0 h2 h4 h8]
  exact ⟨b, rfl⟩

theorem slash_runs {e fuel : Nat} (he : IsEnd b e) (hlt : e < fuel) (c : Bool) :
    ∃ b', slash fuel c b s = some (b', s) := by
  unfold slash
  split
  · exact strcat_runs he hlt _
  · exact ⟨b, rfl⟩

theorem alloc_runs {n : Int} (hmem : ¬ out_of_memory (malloc E.clusters s.free_mem_ptr (uns 64 n))) :
    alloc E n s = some (E.ram (malloc E.clusters s.free_mem_ptr (uns 64 n)),
      { s with free_mem_ptr := malloc E.clusters s.free_mem_ptr (uns 64 n) }) := by
  unfold alloc
  rw [bind_run (get_run s), if_neg hmem, bind_run (modify_run _ s), pure_run]

/-- the heap pointer behind the pieces `qs`, when the pieces `ps` came before them: the first piece of all
takes the buffer of the text -/
def behindText (E : Env) (size : Nat) (ps qs : List Piece) (p : Nat) : Nat :=
  if ps = [] ∧ qs ≠ [] then malloc E.clusters p (uns 64 (uns 32 ((size + 1 : Nat) : Int) : Nat)) else p

theorem behindText_nil (E : Env) (size : Nat) (ps : List Piece) (p : Nat) : behindText E size ps [] p = p :=
  if_neg fun h => h.2 rfl

theorem behindText_append (E : Env) (size : Nat) (ps qs rs : List Piece) (p : Nat) :
    behindText E size (ps ++ qs) rs (behindText E size ps qs p) = behindText E size ps (qs ++ rs) p := by
  unfold behindText
  by_cases hps : ps = []
  · by_cases hqs : qs = []
    · simp [hps, hqs]
    · simp [hps, hqs]
  · simp [hps]

/-- the buffer of the text is at hand, or can be allocated -/
theorem linkBuffer_runs {r : Option Mem} (h : LinkBuf E size free_mem_ptr ps s r) {qs : List Piece}
    (hqs : qs ≠ []) (hmem : ¬ out_of_memory (behindText E size ps qs s.free_mem_ptr)) :
    ∃ b t, linkBuffer E size r s = some (b, t) ∧ t.free_mem_ptr = behindText E size ps qs s.free_mem_ptr := by
  cases r with
  | some b =>
    refine ⟨b, s, rfl, ?_⟩
    rw [behindText, if_neg fun hc => h.1 hc.1]
  | none =>
    rw [behindText, if_pos ⟨h.1, hqs⟩] at hmem ⊢
    unfold linkBuffer
    dsimp only
    rw [bind_run (alloc_runs hmem)]
    exact ⟨_, _, rfl, rfl⟩

/-- the text of an entry -/
theorem slText_buf {r r' : Option Mem} {depth : Nat} {m : Mem} {rr fuel : Nat} {slen : Int} {slp : Nat}
    (h : LinkBuf E size free_mem_ptr ps s r)
    (hr : slText E depth size m rr fuel slen slp r s = some (r', t)) :
    LinkBuf E size free_mem_ptr (ps ++ compPieces m rr (comps m fuel slen slp)) t r' := by
  induction fuel generalizing slen slp r s ps with
  | zero =>
    rw [slText, pure_run, Option.some.injEq, Prod.mk.injEq] at hr
    rw [← hr.1, ← hr.2, comps, compPieces, List.flatMap_nil, List.append_nil]
    exact h
  | succ fuel ih =>
    unfold slText at hr
    unfold comps
    by_cases h1 : slen ≤ 1
    · rw [if_pos h1, pure_run, Option.some.injEq, Prod.mk.injEq] at hr
      rw [if_pos h1, ← hr.1, ← hr.2, compPieces, List.flatMap_nil, List.append_nil]
      exact h
    · rw [if_neg h1] at hr ⊢
      obtain ⟨b0, t0, e0, hr⟩ := bind_some.mp hr
      obtain ⟨b1, t1, e1, hr⟩ := bind_some.mp hr
      have hb1 := slpText_buf (linkBuffer_buf h e0) e1
      by_cases h2 : slen - (slp_len m slp + 2) < 2
      · have hl : lastComp m slen slp = true := by simpa [lastComp] using h2
        have ho : slashOf m rr slen slp = slashEnd m rr slp := by rw [slashOf, if_pos hl]
        rw [if_pos h2] at hr
        obtain ⟨b2, t2, e2, hr⟩ := bind_some.mp hr
        rw [pure_run, Option.some.injEq, Prod.mk.injEq] at hr
        have hb2 := slash_buf hb1 e2
        rw [if_pos hl, ← hr.1, compPieces, List.flatMap_cons, List.flatMap_nil, List.append_nil, ho]
        rw [List.append_assoc] at hb2
        exact ⟨by simp, hb2⟩
      · have hl : ¬ lastComp m slen slp = true := by simpa [lastComp] using h2
        have ho : slashOf m rr slen slp = slashAfter m slp := by rw [slashOf, if_neg hl]
        rw [if_neg h2] at hr
        obtain ⟨b2, t2, e2, hr⟩ := bind_some.mp hr
        have hb2 := ih (r := some b2) (s := t2) ⟨by simp, slash_buf hb1 e2⟩ hr
        rw [if_neg hl, compPieces, List.flatMap_cons, ho]
        rw [List.append_assoc, List.append_assoc] at hb2
        exact hb2

/-- one component of an entry can be appended, where the memory is zero after the pieces and holds the
buffer -/
theorem comp_runs {r : Option Mem} {depth : Nat} {m : Mem} {slp : Nat} {c : Bool}
    (h : LinkBuf E size free_mem_ptr ps s r)
    (hz : Zeroed (fresh E size free_mem_ptr) (ps ++ [slpPiece m slp, slashPiece c]))
    (hmem : ¬ out_of_memory (behindText E size ps [slpPiece m slp, slashPiece c] s.free_mem_ptr))
    (hd : (text (ps ++ [slpPiece m slp, slashPiece c])).length + 256 ≤ depth) :
    ∃ b0 b1 b2 t, linkBuffer E size r s = some (b0, t) ∧ slpText depth b0 m slp t = some (b1, t) ∧
      slash depth c b1 t = some (b2, t) ∧
      LinkBuf E size free_mem_ptr (ps ++ [slpPiece m slp, slashPiece c]) t (some b2) ∧
      t.free_mem_ptr = behindText E size ps [slpPiece m slp, slashPiece c] s.free_mem_ptr := by
  obtain ⟨b0, t, e0, hheap⟩ := linkBuffer_runs h (List.cons_ne_nil _ _) hmem
  have hg0 := linkBuffer_buf h e0
  rw [List.append_cons] at hz hd
  rw [text_append, List.length_append, text_append, List.length_append] at hd
  have hend0 := (hg0.zeroed hz.left.left).1
  obtain ⟨b1, e1⟩ := slpText_runs (s := t) hend0 (by omega) (by omega : 256 ≤ depth) m slp
  have hg1 := slpText_buf hg0 e1
  have hend1 := (hg1.zeroed hz.left).1
  obtain ⟨b2, e2⟩ : ∃ b2, slash depth c b1 t = some (b2, t) :=
    slash_runs hend1 (by rw [text_append, List.length_append]; omega) c
  have hg2 := slash_buf hg1 e2
  rw [← List.append_cons] at hg2
  exact ⟨b0, b1, b2, t, e0, e1, e2, ⟨by simp, hg2⟩, hheap⟩

/-- the text of an entry can be made -/
theorem slText_runs {r : Option Mem} {depth : Nat} {m : Mem} {rr fuel : Nat} {slen : Int} {slp : Nat}
    (h : LinkBuf E size free_mem_ptr ps s r)
    (hz : Zeroed (fresh E size free_mem_ptr) (ps ++ compPieces m rr (comps m fuel slen slp)))
    (hmem : compPieces m rr (comps m fuel slen slp) ≠ [] →
      ¬ out_of_memory (behindText E size ps (compPieces m rr (comps m fuel slen slp)) s.free_mem_ptr))
    (hd : (text (ps ++ compPieces m rr (comps m fuel slen slp))).length + 256 ≤ depth) :
    ∃ r' t, slText E depth size m rr fuel slen slp r s = some (r', t) ∧
      t.free_mem_ptr = behindText E size ps (compPieces m rr (comps m fuel slen slp)) s.free_mem_ptr := by
  induction fuel generalizing slen slp r s ps with
  | zero => exact ⟨r, s, rfl, (behindText_nil E size ps _).symm⟩
  | succ fuel ih =>
    by_cases h1 : slen ≤ 1
    · unfold comps slText
      rw [if_pos h1, if_pos h1]
      exact ⟨r, s, rfl, (behindText_nil E size ps _).symm⟩
    · have hsplit : compPieces m rr (comps m (fuel + 1) slen slp)
          = [slpPiece m slp, slashPiece (slashOf m rr slen slp)] ++ compPieces m rr (if lastComp m slen slp
            then [] else comps m fuel (slen - (slp_len m slp + 2)) (slp + slp_len m slp + 2)) := by
        rw [comps, if_neg h1, compPieces, List.flatMap_cons, ← compPieces]
      rw [hsplit] at hz hmem hd ⊢
      unfold slText
      rw [if_neg h1]
      rw [← List.append_assoc] at hz hd
      have hlen := hd
      rw [text_append, List.length_append] at hlen
      have hmem := hmem (by simp)
      rw [← behindText_append] at hmem ⊢
      have hmem1 : ¬ out_of_memory (behindText E size ps
          [slpPiece m slp, slashPiece (slashOf m rr slen slp)] s.free_mem_ptr) := by
        have hps : ps ++ [slpPiece m slp, slashPiece (slashOf m rr slen slp)] ≠ [] := by simp
        rw [behindText, if_neg fun hc => hps hc.1] at hmem
        exact hmem
      obtain ⟨b0, b1, b2, t, e0, e1, e2, hbuf, hheap⟩ := comp_runs h hz.left hmem1
        (show _ + 256 ≤ depth by omega)
      rw [bind_run e0, bind_run e1, ← hheap]
      rw [← hheap] at hmem
      by_cases h2 : slen - (slp_len m slp + 2) < 2
      · have hl : lastComp m slen slp = true := by simpa [lastComp] using h2
        have ho : slashOf m rr slen slp = slashEnd m rr slp := by rw [slashOf, if_pos hl]
        rw [ho] at e2
        rw [if_pos h2, bind_run e2, if_pos hl]
        exact ⟨_, _, rfl, (behindText_nil E size _ _).symm⟩
      · have hl : ¬ lastComp m slen slp = true := by simpa [lastComp] using h2
        have ho : slashOf m rr slen slp = slashAfter m slp := by rw [slashOf, if_neg hl]
        rw [if_neg hl] at hz hmem hd ⊢
        have e2' := e2
        rw [ho] at e2'
        rw [if_neg h2, bind_run e2']
        exact ih hbuf hz (fun _ => hmem) hd

/-! ## the length of the text -/

/-- no component of the entry has a zero in its text -/
def NoNul (m : Mem) (cs : List (Int × Nat)) : Prop :=
  ∀ c ∈ cs, slp_flags m c.2 &&& 0xfe = 0 → 0 ∉ m.get (slp_text c.2) (slp_len m c.2)

/-- a component is a text, or a name that the code knows, or nothing -/
theorem slpPiece_cases (m : Mem) (slp : Nat) :
    (slp_flags m slp &&& 0xfe = 0 ∧ slpPiece m slp = span m (slp_text slp) (slp_len m slp) ∧
      slpSize m slp = slp_len m slp) ∨
    (slpPiece m slp).bytes.length = slpSize m slp := by
  unfold slpPiece slpSize
  generalize slp_flags m slp &&& 0xfe = c
  match c with
  | 0 => exact .inl ⟨rfl, rfl, rfl⟩
  | 1 => exact .inr rfl
  | 2 => exact .inr rfl
  | 3 => exact .inr rfl
  | 4 => exact .inr rfl
  | 5 => exact .inr rfl
  | 6 => exact .inr rfl
  | 7 => exact .inr rfl
  | 8 => exact .inr rfl
  | n + 9 => exact .inr rfl

theorem slpPiece_le (m : Mem) (slp : Nat) : (slpPiece m slp).bytes.length ≤ slpSize m slp := by
  obtain ⟨-, h1, h2⟩ | h := slpPiece_cases m slp
  · rw [h1, h2]
    show (List.takeWhile _ _).length ≤ slp_len m slp
    exact (List.takeWhile_sublist _).length_le.trans (by rw [Mem.length_get])
  · exact h.le

theorem slpPiece_eq (m : Mem) (slp : Nat)
    (h : slp_flags m slp &&& 0xfe = 0 → 0 ∉ m.get (slp_text slp) (slp_len m slp)) :
    (slpPiece m slp).bytes.length = slpSize m slp := by
  obtain ⟨h0, h1, h2⟩ | he := slpPiece_cases m slp
  · have hall : (m.get (slp_text slp) (slp_len m slp)).takeWhile (fun c => decide (c ≠ 0))
        = m.get (slp_text slp) (slp_len m slp) := by
      rw [List.takeWhile_eq_self_iff]
      intro c hc
      simpa using fun hz : c = 0 => h h0 (hz ▸ hc)
    rw [h1, h2]
    show (List.takeWhile _ _).length = slp_len m slp
    rw [hall, Mem.length_get]
  · exact he

theorem slashPiece_length (c : Bool) : (slashPiece c).bytes.length = slashWeight c := by
  cases c with
  | true => rfl
  | false => rfl

theorem text_compPieces_cons (m : Mem) (rr : Nat) (c : Int × Nat) (cs : List (Int × Nat)) :
    (text (compPieces m rr (c :: cs))).length = (slpPiece m c.2).bytes.length
      + slashWeight (slashOf m rr c.1 c.2) + (text (compPieces m rr cs)).length := by
  simp only [compPieces, text, List.flatMap_cons, List.flatMap_append, List.flatMap_nil,
    List.length_append, List.append_nil, slashPiece_length]

/-- the text of an entry is not longer than what is counted -/
theorem text_compPieces_le (m : Mem) (rr : Nat) (cs : List (Int × Nat)) :
    (text (compPieces m rr cs)).length ≤ compWeight m rr cs := by
  induction cs with
  | nil => exact Nat.le_refl 0
  | cons c cs ih =>
    have := slpPiece_le m c.2
    rw [text_compPieces_cons, compWeight_cons]
    omega

theorem text_compPieces_eq {m : Mem} (rr : Nat) {cs : List (Int × Nat)} (h : NoNul m cs) :
    (text (compPieces m rr cs)).length = compWeight m rr cs := by
  induction cs with
  | nil => rfl
  | cons c cs ih =>
    have h1 := slpPiece_eq m c.2 (h c List.mem_cons_self)
    have h2 := ih fun c hc => h c (List.mem_cons_of_mem _ hc)
    rw [text_compPieces_cons, compWeight_cons]
    omega

end Iso
