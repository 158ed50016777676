import Aboot.Zip.Symbols

/-!
# zip/inflate.c: stored and fixed blocks

* `inflate_stored_ends`   a stored block;
* `Built.accepted`        the sets of codes that `huft_build` accepts;
* `inflate_fixed_ends`    a block with fixed codes.
-/

set_option linter.unusedVariables false

namespace Inflate
open Word PrefixCode Raise BitStream Deflate

section
variable {E : Env} {i : Zip.Input} {base out : List UInt8} {s s' : State} {w j n q pos last : Nat}
  {J : Exit → State → Prop}

/-! ## stored blocks -/

theorem Output.written (h : Output E i base s w out) (hwr : Written s s') (hw : s'.window = s.window)
    (hws : s'.windows = s.windows) : Output E i base s' w out := by
  refine ⟨h.ahead.written hwr, ⟨h.win.le, h.win.len, ?_, ?_⟩, h.lt⟩
  · rw [hw]
    exact h.win.ring
  · rw [hws]
    exact h.win.flushed

/-- the bytes of a stored block -/
theorem stored_ends (ho : Output E i base s w out) (hj : s.used = 8 * j) (hflush : ∀ t, J .flush_window t)
    (hread : ¬ Readable E i (j + n) → ∀ x t, J (.unzip_error x) t) :
    Ends (stored E n w)
      (fun w' s' => s'.used = 8 * (j + n) ∧
        Output E i base s' w' (out ++ (List.range n).map fun k => bytes E i (j + k))) J s := by
  induction n generalizing s w j out with
  | zero =>
    refine .pure ⟨hj, ?_⟩
    rw [List.range_zero, List.map_nil, List.append_nil]
    exact ho
  | succ n ih =>
    obtain ⟨⟨R, hb, h15⟩, hwin, hlt⟩ := ho
    rw [stored]
    refine .seq (NEEDBITS_ends hb (by omega) fun hnot => hread fun hr => hnot (hr.mono (by omega))) ?_
      fun _ _ he => he
    rintro ⟨⟩ s1 ⟨hsame1, hused1, hle1, hmax1, R1, hb1⟩
    have hbyte : UInt8.ofNat s1.bb = bytes E i j := by
      have hlow := hb1.low hle1
      rw [hused1, hj, peek_byte] at hlow
      refine UInt8.toNat_inj.mp ?_
      rw [UInt8.toNat_ofNat', hlow]
    refine .bind (.modify ?_)
    rw [hbyte]
    refine .seq (full_ends ((hwin.same hsame1).put hlt _) hflush) ?_ fun _ _ he => he
    rintro w2 s2 ⟨hw2, -, hwin2, hwr2⟩
    have hbk2 : s2.bk = s1.bk := hwr2.bk
    have hused2 : s2.used = s1.used := hwr2.used
    have hb2 : Buffered E i R1 s2 := by
      refine ⟨hwr2.input.trans hb1.input, hb1.readable, ?_, ?_⟩
      · rw [hused2, hbk2]
        exact hb1.place
      · rw [hused2, hwr2.bb]
        exact hb1.bb
    refine .seq (DUMPBITS_ends (J := J)) ?_ fun _ _ he => he
    rintro ⟨⟩ s3 rfl
    have hbk3 : (dumped s2 8).bk = s2.bk - 8 := dumped_bk (by omega) (by omega)
    have hused3 : (dumped s2 8).used = 8 * (j + 1) := by
      show s2.used + 8 = _
      omega
    have ho3 : Output E i base (dumped s2 8) w2 (out ++ [bytes E i j]) :=
      ⟨⟨R1, hb2.dumped (by omega) (by omega), by omega⟩, hwin2.same (same_dumped s2 8), hw2⟩
    refine (ih ho3 hused3 fun hnot => hread fun hr => hnot (hr.mono (by omega))).mono ?_
    rintro w' s' ⟨hused', ho'⟩
    refine ⟨by rw [hused']; omega, ?_⟩
    rw [List.range_succ_eq_map, List.map_cons, List.map_map, Nat.add_zero]
    rw [List.append_assoc, List.singleton_append] at ho'
    have hmap : (fun k => bytes E i (j + k)) ∘ Nat.succ = fun k => bytes E i (j + 1 + k) := by
      funext k
      show bytes E i (j + (k + 1)) = _
      rw [Nat.add_right_comm, Nat.add_assoc]
    rw [hmap]
    exact ho'

/-- what a block means -/
def Blk (E : Env) (i : Zip.Input) (pos : Nat) (out : List UInt8) (free : Prop) (q : Nat) (o : List UInt8) : Prop :=
  Block (bytes E i) free pos out q o

theorem Block.stored_inv {o : List UInt8} (h : peek (bytes E i) (pos + 1) 2 = 0) (hD : Blk E i pos out False q o) :
    peek (bytes E i) (8 * ((pos + 3 + 7) / 8) + 16) 16 =
        peek (bytes E i) (8 * ((pos + 3 + 7) / 8)) 16 ^^^ 0xffff ∧
      q = 8 * ((pos + 3 + 7) / 8 + 4 + peek (bytes E i) (8 * ((pos + 3 + 7) / 8)) 16) := by
  cases hD with
  | stored _ hp hn hc =>
    subst hp hn
    exact ⟨hc, rfl⟩
  | fixed h' _ => omega
  | dynamic h' _ _ _ _ => omega

theorem xor_complement (n x : Nat) : n = x ^^^ 0xffff ↔ x = n ^^^ 0xffff := by
  constructor
  · rintro rfl
    rw [Nat.xor_assoc, Nat.xor_self, Nat.xor_zero]
  · rintro rfl
    rw [Nat.xor_assoc, Nat.xor_self, Nat.xor_zero]

/-- a stored block -/
theorem inflate_stored_ends {thin : Prop} (ho : Output E i base s s.outcnt out) (hpos : s.used = pos + 3)
    (h0 : peek (bytes E i) (pos + 1) 2 = 0) :
    Ends (inflate_stored E) (Post E i base (Blk E i pos out)) (fun e _ => Fails E i thin (Blk E i pos out) last e)
      s := by
  obtain ⟨⟨R, hb, h15⟩, hwin, hlt⟩ := ho
  have hplace := hb.place
  have hmod : s.bk &&& 7 = s.bk % 8 := Nat.and_two_pow_sub_one_eq_mod s.bk 3
  generalize hp : (pos + 3 + 7) / 8 = p
  generalize hn : peek (bytes E i) (8 * p) 16 = n
  have hinput : ∀ {m x}, ¬ Readable E i m → m ≤ p + 5 + n →
      Fails E i thin (Blk E i pos out) last (.unzip_error x) := by
    intro m x hnot hm
    refine .input fun q o hD hr => hnot (hr.mono ?_)
    have hq := (Block.stored_inv h0 hD).2
    rw [hp, hn] at hq
    omega
  unfold inflate_stored
  refine .bind (.get (.seq (DUMPBITS_ends (J := fun e _ => Fails E i thin _ last e)) ?_ fun _ _ he => he))
  rintro ⟨⟩ s1 rfl
  have hle1 : s.bk &&& 7 ≤ s.bk := by omega
  have hused1 : (dumped s (s.bk &&& 7)).used = 8 * p := by
    show s.used + (s.bk &&& 7) = _
    omega
  have ha1 : Ahead15 E i (dumped s (s.bk &&& 7)) := by
    refine ⟨R, hb.dumped hle1 (by omega), ?_⟩
    rw [dumped_bk hle1 (by omega)]
    omega
  refine .seq (bits_ends ha1 le_rfl fun hnot x t => hinput hnot (by omega)) ?_ fun _ _ he => he
  rintro n' s2 ⟨hn', hsame2, hused2, R2, hb2, h15'⟩
  obtain rfl : n' = n := by rw [hn', hused1, hn]
  refine .seq (NEEDBITS_ends hb2 (by omega) fun hnot x t => hinput hnot (by omega)) ?_ fun _ _ he => he
  rintro ⟨⟩ s3 ⟨hsame3, hused3, hle3, hmax3, R3, hb3⟩
  have hused3' : s3.used = 8 * p + 16 := by omega
  have hlow : s3.bb &&& 0xffff = peek (bytes E i) (8 * p + 16) 16 := by
    rw [← hused3', ← hb3.low hle3]
    exact Nat.and_two_pow_sub_one_eq_mod s3.bb 16
  refine .bind (.get ?_)
  rw [hlow]
  refine .ite (fun hne => .pure ⟨fun h => (by cases h), fun _ q o hD => hne ?_⟩) fun heq => ?_
  · have hc := (Block.stored_inv h0 hD).1
    rw [hp, hn] at hc
    exact (xor_complement _ _).mpr hc
  · refine .seq (DUMPBITS_ends (J := fun e _ => Fails E i thin _ last e)) ?_ fun _ _ he => he
    rintro ⟨⟩ s4 rfl
    have hsame : Same s (dumped s3 16) :=
      (same_dumped s _).trans (hsame2.trans (hsame3.trans (same_dumped s3 16)))
    have ho4 : Output E i base (dumped s3 16) s.outcnt out := by
      refine ⟨⟨R3, hb3.dumped hle3 (by omega), ?_⟩, hwin.same hsame, hlt⟩
      rw [dumped_bk hle3 (by omega)]
      omega
    have hused4 : (dumped s3 16).used = 8 * (p + 4) := by
      show s3.used + 16 = _
      omega
    refine .seq (stored_ends (n := n') ho4 hused4 (fun _ => Fails.flush) fun hnot x t => hinput hnot (by omega)) ?_
      fun _ _ he => he
    rintro w s5 ⟨hused5, ho5⟩
    have ho6 : Output E i base { s5 with outcnt := w } w _ := ho5.written ⟨rfl, rfl, rfl, rfl, rfl⟩ rfl rfl
    refine .bind (.modify (.pure ⟨fun _ => ⟨_, ?_, ho6⟩, fun h => absurd rfl h⟩))
    show Blk E i pos out True s5.used _
    rw [hused5]
    exact .stored h0 hp.symm hn.symm ((xor_complement _ _).mp (not_not.mp heq))

end

/-! ## the tables of a block -/

section
variable {E : Env} {b d e : List Nat} {sv m r l : Nat} {t : Option Nat} {M M' : List Table}

theorem kraft_one (h : ∀ x ∈ b, x ≤ 1) : kraft b = b.count 1 * 2 ^ 15 := by
  have hrest : ∀ n, filled b.count 16 (1 + n) = filled b.count 16 1 := fun n => by
    induction n with
    | zero => rfl
    | succ n ih =>
      have hzero : b.count (1 + n + 1) = 0 := List.count_eq_zero.mpr fun hmem => by
        have := h _ hmem
        omega
      rw [← Nat.add_assoc, filled, hzero, Nat.zero_mul]
      exact ih
  calc kraft b = filled b.count 16 1 := hrest 15
    _ = b.count 1 * 2 ^ 15 := by rw [filled, filled, Nat.zero_add]; rfl

theorem sparse_iff (h : ∀ x ∈ b, x ≤ 1) : Sparse b ↔ b.count 1 ≤ 1 := by
  have hcount : b.countP (fun x => x ≠ 0) = b.count 1 := by
    refine List.countP_congr fun x hx => ?_
    have := h x hx
    rw [decide_eq_true_eq, beq_iff_eq]
    omega
  rw [Sparse, hcount]

/-- the sets that are accepted -/
theorem Built.accepted (h : Built E b sv d e m M (r, t, l)) : r = 0 ↔ Accepted b := by
  have hwide : (∃ x ∈ b, 2 ≤ x) → ¬ ∀ x ∈ b, x ≤ 1 := fun ⟨x, hx, hx2⟩ hall => by
    have := hall x hx
    omega
  have hnarrow : (¬ ∃ x ∈ b, 2 ≤ x) → ∀ x ∈ b, x ≤ 1 := fun hno x hx => by
    by_contra hlt
    exact hno ⟨x, hx, by omega⟩
  cases h with
  | surplus h =>
    refine iff_of_false (by omega) ?_
    rintro (hk | ⟨hs, hall⟩)
    · exact h.ne' hk
    · rw [kraft_one hall] at h
      rw [sparse_iff hall] at hs
      have hpow : (2 : Nat) ^ BMAX = 2 * 2 ^ 15 := rfl
      omega
  | empty h =>
    have hall : ∀ x ∈ b, x ≤ 1 := fun x hx => by rw [h x hx]; exact Nat.zero_le 1
    refine iff_of_true rfl (.inr ⟨(sparse_iff hall).mpr ?_, hall⟩)
    rw [List.count_eq_zero.mpr fun hmem => by cases h 1 hmem]
    exact Nat.zero_le 1
  | large h hlarge _ =>
    refine iff_of_false (by omega) ?_
    rintro (hk | ⟨hs, hall⟩)
    · exact h.ne hk
    · exact hwide hlarge hall
  | tables _ _ hi hkraft _ _ _ _ =>
    constructor
    · intro hr
      rw [hr] at hi
      by_cases hlt : kraft b < 2 ^ BMAX
      · have hno : ¬ ∃ x ∈ b, 2 ≤ x := fun hex => by
          rw [if_pos ⟨hlt, hex⟩] at hi
          cases hi
        have hall := hnarrow hno
        rw [kraft_one hall] at hlt
        have hpow : (2 : Nat) ^ BMAX = 2 * 2 ^ 15 := rfl
        exact .inr ⟨(sparse_iff hall).mpr (by omega), hall⟩
      · exact .inl (le_antisymm hkraft (not_lt.mp hlt))
    · rintro (hk | ⟨hs, hall⟩)
      · rw [hi, if_neg fun h => h.1.ne hk]
      · rw [hi, if_neg fun h => hwide h.2 hall]

/-- the sets with too many codes -/
theorem Built.over_iff (h : Built E b sv d e m M (r, t, l)) : r = 2 ↔ 2 ^ BMAX < kraft b := by
  cases h with
  | surplus h => exact iff_of_true rfl h
  | empty h =>
    have hall : ∀ x ∈ b, x ≤ 1 := fun x hx => by rw [h x hx]; exact Nat.zero_le 1
    refine iff_of_false (by omega) ?_
    rw [kraft_one hall, List.count_eq_zero.mpr fun hmem => by cases h 1 hmem]
    decide
  | large h _ _ => exact iff_of_false (by omega) (by omega)
  | tables _ _ hi hkraft _ _ _ _ =>
    refine iff_of_false (fun h2 => ?_) (by omega)
    rw [h2] at hi
    split at hi <;> cases hi

theorem Tabled.mono {R : Nat} (h : Tabled E b sv d e M R l) (hg : Grows M M') : Tabled E b sv d e M' R l :=
  ⟨h.pos, fun x => by
    obtain ⟨k, r, hk, hd, hm⟩ := h.lookup x
    exact ⟨k, r, hk, hd.mono hg, hm⟩⟩

theorem Decoder.mono (h : Decoder E b sv d e M t l) (hg : Grows M M') : Decoder E b sv d e M' t l := by
  cases h with
  | none h => exact .none h
  | some h hl hopen => exact .some (h.mono hg) hl hopen

/-- the tables of a set that is accepted -/
theorem Built.decoder (h : Built E b sv d e m M (r, t, l)) (hr : r = 0) (hlen : b.length < 2 ^ m) (hm : m ≤ 9) :
    Decoder E b sv d e M t l := by
  have hacc := h.accepted.mp hr
  cases h with
  | surplus _ => cases hr
  | empty h => exact .none h
  | large _ _ _ => cases hr
  | tables h _ _ _ hfull hlm _ _ =>
    refine .some h ((hlm hr hlen).trans hm) fun _ x hnone => ?_
    rcases hacc with hk | ⟨hs, -⟩
    · obtain ⟨v, k, hv⟩ := hfull hk x
      exact absurd hv (hnone v k)
    · exact hs

/-- the tables of a set in which every value has a code -/
theorem Built.decoder_of_pos (h : Built E b sv d e m M (r, t, l)) (hzero : 0 ∉ b) (hkraft : kraft b ≤ 2 ^ BMAX)
    (hm : ∀ x ∈ b, x < 2 * m) {x : Nat} (hx : x ∈ b) (hl : max m x ≤ 9) : r ≤ 1 ∧ Decoder E b sv d e M t l := by
  cases h with
  | surplus h => omega
  | empty h => exact absurd (h x hx ▸ hx) hzero
  | large _ _ hm' =>
    obtain ⟨y, hy, hle⟩ := hm'
    have := hm y hy
    omega
  | tables h hle hi _ _ _ _ _ =>
    have hne : x ≠ 0 := fun h0 => hzero (h0 ▸ hx)
    refine ⟨?_, .some h ((hle x hx hne).trans hl) fun h0 => absurd h0 hzero⟩
    rw [hi]
    split <;> omega

end

section
variable {E : Env} {i : Zip.Input} {base out : List UInt8} {s s' : State} {w q pos fuel : Nat} {R : Nat}

theorem Frame.grows (h : Frame s.tables.length s s') : Grows s.tables s'.tables := fun id tab htab =>
  ⟨tab, by rw [h.old id (List.getElem?_eq_some_iff.mp htab).1, htab], rfl, fun _ _ hr => hr⟩

theorem Output.frame (h : Output E i base s w out) (hf : Frame R s s') : Output E i base s' w out := by
  refine ⟨?_, ⟨h.win.le, h.win.len, ?_, ?_⟩, h.lt⟩
  · obtain ⟨R, hb, h15⟩ := h.ahead
    refine ⟨R, ⟨hf.input.trans hb.input, hb.readable, ?_, ?_⟩, hf.bk.trans_le h15⟩
    · rw [hf.used, hf.bk]
      exact hb.place
    · rw [hf.bb, hf.used]
      exact hb.bb
  · rw [hf.window]
    exact h.win.ring
  · rw [hf.windows]
    exact h.win.flushed

theorem NoMemory.fails {α : Type} {D : Prop → Nat → α → Prop} {thin : Prop} {last : Nat} {e : Exit}
    (h : NoMemory R s e s') : Fails E i thin D last e := by
  obtain ⟨⟨x, rfl⟩, -⟩ := h
  exact ⟨(by cases ·), fun _ _ _ => .inl (.inl ⟨x, rfl⟩)⟩

/-- the codes of a block -/
theorem inflate_codes_ends {lit dist : List Nat} {tl td : Option Nat} {bl bd : Nat}
    (hT : BlockTables E lit dist s.tables tl td bl bd) (hdepth : BMAX ≤ fuel) (ho : Output E i base s s.outcnt out) :
    Ends (inflate_codes E fuel tl td bl bd) (Post E i base (Sym E i lit dist s.used out))
      (fun e _ => Fails E i (Sparse lit ∨ Sparse dist) (Sym E i lit dist s.used out) (s.used + fuel) e) s := by
  unfold inflate_codes
  exact .bind (.get (codesLoop_ends hT hdepth fuel s s.outcnt out rfl ho))

/-- the result of `inflate_codes` is passed on -/
theorem Post.pass {D : Prop → Nat → List UInt8 → Prop} {r : Nat} (h : Post E i base D r s) :
    Post E i base D (if r ≠ 0 then 1 else 0) s := by
  by_cases hr : r = 0
  · rw [if_neg (not_not.mpr hr)]
    exact ⟨fun _ => h.1 hr, fun h0 => absurd rfl h0⟩
  · rw [if_pos hr]
    exact ⟨(by cases ·), fun _ => h.2 hr⟩

/-! ## fixed blocks -/

theorem kraft_fixedLit : kraft fixedLit = 2 ^ BMAX := by
  decide +kernel

theorem kraft_fixedDist : kraft fixedDist ≤ 2 ^ BMAX := by
  decide +kernel

theorem length_fixedLit : fixedLit.length = 288 := by
  decide +kernel

theorem length_fixedDist : fixedDist.length = 30 := List.length_replicate

theorem fixedLit_range : ∀ x ∈ fixedLit, 7 ≤ x ∧ x ≤ 9 := by
  decide +kernel

theorem fixedDist_range : ∀ x ∈ fixedDist, x = 5 := fun x hx => List.eq_of_mem_replicate hx

theorem inflate_fixed_ends {thin : Prop} (hdepth : BMAX ≤ fuel) (ho : Output E i base s s.outcnt out)
    (hpos : s.used = pos + 3) (h1 : peek (bytes E i) (pos + 1) 2 = 1) :
    Ends (inflate_fixed E fuel) (Post E i base (Blk E i pos out))
      (fun e _ => Fails E i thin (Blk E i pos out) (pos + fuel) e) s := by
  have hstep : Step (Blk E i pos out) (Sym E i fixedLit fixedDist s.used out) := by
    rw [hpos]
    refine ⟨fun q o h => .fixed h1 h, fun q o h => ?_⟩
    cases h with
    | stored h' _ _ _ => omega
    | fixed _ h => exact h
    | dynamic h' _ _ _ _ => omega
  have hlit : 0 ∉ fixedLit := fun h => by
    have := fixedLit_range 0 h
    omega
  have hdist : 0 ∉ fixedDist := fun h => by
    have := fixedDist_range 0 h
    omega
  have hlit9 : ∀ x ∈ fixedLit, x ≤ BMAX := fun x hx => (fixedLit_range x hx).2.trans (by decide)
  have hlit14 : ∀ x ∈ fixedLit, x < 2 * 7 := fun x hx => by
    have := (fixedLit_range x hx).2
    omega
  have hdist5 : ∀ x ∈ fixedDist, x ≤ BMAX := fun x hx => (fixedDist_range x hx).le.trans (by decide)
  have hdist10 : ∀ x ∈ fixedDist, x < 2 * 5 := fun x hx => by
    have := fixedDist_range x hx
    omega
  unfold inflate_fixed
  refine .seq (huft_build_ends E fixedLit 257 cplens cplext 7 s hlit9 (by omega) (.inr hlit14)) ?_
    fun _ _ he => he.fails
  rintro ⟨r1, tl, bl⟩ s1 ⟨hf1, hbuilt1⟩
  have h7 : 7 ∈ fixedLit := List.mem_append_left _ (List.mem_append_right _ (List.mem_replicate.mpr ⟨by omega, rfl⟩))
  obtain ⟨hr1, hd1⟩ := hbuilt1.decoder_of_pos hlit kraft_fixedLit.le hlit14 h7 (by omega)
  have hr0 : r1 = 0 := hbuilt1.accepted.mpr (.inl kraft_fixedLit)
  dsimp only
  rw [if_neg (not_not.mpr hr0)]
  refine .seq (huft_build_ends E fixedDist 0 cpdist cpdext 5 s1 hdist5 (by omega) (.inr hdist10)) ?_
    fun _ _ he => he.fails
  rintro ⟨r2, td, bd⟩ s2 ⟨hf2, hbuilt2⟩
  have h5 : 5 ∈ fixedDist := List.mem_replicate.mpr ⟨by omega, rfl⟩
  obtain ⟨hr2, hd2⟩ := hbuilt2.decoder_of_pos hdist kraft_fixedDist hdist10 h5 (by omega)
  dsimp only
  rw [if_neg (by omega)]
  have hT : BlockTables E fixedLit fixedDist s2.tables tl td bl bd :=
    ⟨hd1.mono hf2.grows, hd2, length_fixedLit.le, length_fixedDist.le⟩
  have ho2 := (ho.frame hf1).frame hf2
  have hout : s2.outcnt = s.outcnt := hf2.outcnt.trans hf1.outcnt
  have hused : s2.used = s.used := hf2.used.trans hf1.used
  rw [← hout] at ho2
  rw [← hused] at hstep
  refine .seq (inflate_codes_ends hT hdepth ho2) ?_ fun e _ he => he.step hstep.bwd
    (fun h => (h.elim not_sparse_fixed.1 not_sparse_fixed.2).elim) (by omega)
  intro r s3 h
  exact .pure (h.step hstep).pass

end

end Inflate
