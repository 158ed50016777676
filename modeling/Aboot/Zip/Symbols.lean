import Aboot.Zip.Decode
import Aboot.Zip.Window

/-!
# zip/inflate.c: inflate_codes

What a part of the decompressor does is compared with what the bits mean: `D free q o` says that they can mean the
output `o` up to the position `q`.

* `Post`, `Fails`      a result, or an exit, that agrees with the meaning;
* `Step`               what follows decides what comes;
* `codesLoop_ends`     the symbols of a block.
-/

set_option linter.unusedVariables false

namespace Inflate
open Word PrefixCode Raise BitStream Deflate

/-! ## results and exits -/

/-- an exit that any stream may lead to: the memory is used up, `flush_window` does not return, or the input ends
not long behind the position `q` -/
def Excused (E : Env) (i : Zip.Input) (q : Nat) (e : Exit) : Prop :=
  (∃ x, e = .error x) ∨ e = .flush_window ∨ (∃ x, e = .unzip_error x) ∧ ¬ Readable E i ((q + 15) / 8)

/-- the output up to here, and the bits that are left -/
structure Output (E : Env) (i : Zip.Input) (base : List UInt8) (s : State) (w : Nat) (out : List UInt8) : Prop where
  ahead : Ahead15 E i s
  win : Win base s w out
  lt : w < WSIZE

/-- a result: 0 with the output that the bits mean, or else they mean nothing -/
def Post (E : Env) (i : Zip.Input) (base : List UInt8) (D : Prop → Nat → List UInt8 → Prop) (r : Nat) (s : State) :
    Prop :=
  (r = 0 → ∃ o, D True s.used o ∧ Output E i base s s.outcnt o) ∧ (r ≠ 0 → ∀ q o, ¬ D False q o)

/-- an exit: if the bits have a meaning, any stream may lead to it, or it goes on for longer than is looked at -/
def Fails {α : Type} (E : Env) (i : Zip.Input) (thin : Prop) (D : Prop → Nat → α → Prop) (last : Nat) (e : Exit) :
    Prop :=
  (e = .wild → thin) ∧ ∀ q o, D False q o → Excused E i q e ∨ e = .fuel ∧ last ≤ q

/-- what the rest means decides what the whole means -/
structure Step {α : Type} (D D' : Prop → Nat → α → Prop) : Prop where
  fwd : ∀ q o, D' True q o → D True q o
  bwd : ∀ q o, D False q o → D' False q o

/-- the bits have no meaning, and may stand for anything -/
def Any (D : Prop → Nat → List UInt8 → Prop) : Prop := (∀ q o, D True q o) ∧ ∀ q o, ¬ D False q o

section
variable {E : Env} {i : Zip.Input} {base out : List UInt8} {D D' : Prop → Nat → List UInt8 → Prop} {r w : Nat}
  {s s' : State}

theorem Post.step (h : Post E i base D' r s) (hs : Step D D') : Post E i base D r s :=
  ⟨fun hr => by
    obtain ⟨o, hD, ho⟩ := h.1 hr
    exact ⟨o, hs.fwd _ _ hD, ho⟩, fun hr q o hD => h.2 hr q o (hs.bwd q o hD)⟩

theorem Any.step (h : Any D) : Step D D' := ⟨fun q o _ => h.1 q o, fun q o hD => absurd hD (h.2 q o)⟩

theorem Output.same (h : Output E i base s w out) (hs : Same s s') (ha : Ahead15 E i s') : Output E i base s' w out :=
  ⟨ha, h.win.same hs, h.lt⟩

end

section
variable {α β : Type} {E : Env} {i : Zip.Input} {D : Prop → Nat → α → Prop} {D' : Prop → Nat → β → Prop}
  {q q' last last' : Nat} {e : Exit} {thin thin' : Prop}

theorem Excused.mono (h : Excused E i q e) (hle : q ≤ q') : Excused E i q' e := by
  rcases h with h | h | ⟨h, hnot⟩
  · exact .inl h
  · exact .inr (.inl h)
  · exact .inr (.inr ⟨h, fun hr => hnot (hr.mono (by omega))⟩)

/-- an exit at an earlier part of the bits -/
theorem Fails.part (h : Fails E i thin D' last' e) (hs : ∀ q o, D False q o → ∃ p x, D' False p x ∧ p ≤ q)
    (ht : thin → thin') (hlast : last ≤ last') : Fails E i thin' D last e :=
  ⟨fun he => ht (h.1 he), fun q o hD => by
    obtain ⟨p, x, hD', hle⟩ := hs q o hD
    exact (h.2 p x hD').imp (fun hex => hex.mono hle) fun ⟨he, hl⟩ => ⟨he, hlast.trans (hl.trans hle)⟩⟩

theorem Fails.step {D' : Prop → Nat → α → Prop} (h : Fails E i thin D' last' e)
    (hs : ∀ q o, D False q o → D' False q o) (ht : thin → thin') (hlast : last ≤ last') : Fails E i thin' D last e :=
  h.part (fun q o hD => ⟨q, o, hs q o hD, le_rfl⟩) ht hlast

/-- an exit where the bits have no meaning -/
theorem Fails.none (ht : thin) (hnone : ∀ q o, ¬ D False q o) : Fails E i thin D last e :=
  ⟨fun _ => ht, fun q o hD => absurd hD (hnone q o)⟩

/-- an error where the bits have no meaning -/
theorem Fails.error {x : String} (hnone : ∀ q o, ¬ D False q o) : Fails E i thin D last (.unzip_error x) :=
  ⟨(by cases ·), fun q o hD => absurd hD (hnone q o)⟩

/-- an exit for the end of the input -/
theorem Fails.input {x : String} (h : ∀ q o, D False q o → ¬ Readable E i ((q + 15) / 8)) :
    Fails E i thin D last (.unzip_error x) :=
  ⟨(by cases ·), fun q o hD => .inl (.inr (.inr ⟨⟨x, rfl⟩, h q o hD⟩))⟩

theorem Fails.flush : Fails E i thin D last .flush_window :=
  ⟨(by cases ·), fun q o _ => .inl (.inr (.inl rfl))⟩

end

/-! ## the entries -/

theorem getD_of_lt {l : List Nat} {u : Nat} (h : u < l.length) (y : Nat) : l.getD u y = l.getD u 0 := by
  rw [List.getD_eq_getElem _ _ h, List.getD_eq_getElem _ _ h]

theorem lengthCodes_eq : ∀ u < 29, lengthCodes[u]? = some (cplens.getD u 0 % 65536, cplext.getD u 0 % 256) := by
  decide

theorem cplext_le : ∀ u < 29, cplext.getD u 0 % 256 ≤ 5 := by
  decide

theorem distanceCodes_eq : ∀ u < 30, distanceCodes[u]? = some (cpdist.getD u 0 % 65536, cpdext.getD u 0 % 256) := by
  decide

theorem cpdext_le : ∀ u < 30, cpdext.getD u 0 % 256 ≤ 13 := by
  decide

/-- a copy goes back into the window -/
theorem distance_le : ∀ u < 30, 1 ≤ cpdist.getD u 0 % 65536 ∧
    cpdist.getD u 0 % 65536 + 2 ^ (cpdext.getD u 0 % 256) ≤ WSIZE + 1 := by
  decide

/-- the entry of a literal or length -/
inductive LitEntry : (v e : Nat) → Next → Prop
  | literal {v : Nat} (h : v < 256) : LitEntry v 16 (.n v)
  | stop : LitEntry 256 15 (.n 256)
  | length {u e base : Nat} (h : lengthCodes[u]? = some (base, e)) (he : e ≤ 5) : LitEntry (257 + u) e (.n base)
  | invalid {u : Nat} {x : Next} (h : 29 ≤ u) : LitEntry (257 + u) 99 x

theorem litEntry (E : Env) {v : Nat} (hv : v < 288) :
    ∃ e x, meaning E 257 cplens cplext v = (e, x) ∧ LitEntry v e x := by
  unfold meaning
  by_cases h257 : v < 257
  · rw [if_pos h257, Nat.mod_eq_of_lt (show v < 65536 by omega)]
    by_cases h256 : v < 256
    · rw [if_pos h256]
      exact ⟨_, _, rfl, .literal h256⟩
    · rw [if_neg h256]
      obtain rfl : v = 256 := by omega
      exact ⟨_, _, rfl, .stop⟩
  · obtain ⟨u, rfl⟩ := Nat.exists_eq_add_of_le (not_lt.mp h257)
    have hu : u < 31 := by omega
    rw [if_neg h257, Nat.add_sub_cancel_left, getD_of_lt (show u < cplens.length from hu),
      getD_of_lt (show u < cplext.length from hu)]
    refine ⟨_, _, rfl, ?_⟩
    by_cases h29 : u < 29
    · exact .length (lengthCodes_eq u h29) (cplext_le u h29)
    · have h99 : cplext.getD u 0 % 256 = 99 := by
        obtain rfl | rfl : u = 29 ∨ u = 30 := by omega
        · rfl
        · rfl
      rw [h99]
      exact .invalid (not_lt.mp h29)

/-- the entry of a distance -/
theorem distEntry (E : Env) {u : Nat} (hu : u < 30) : ∃ dbase de,
    meaning E 0 cpdist cpdext u = (de, .n dbase) ∧ distanceCodes[u]? = some (dbase, de) ∧ de ≤ 13 ∧ 1 ≤ dbase ∧
      dbase + 2 ^ de ≤ WSIZE + 1 := by
  refine ⟨_, _, ?_, distanceCodes_eq u hu, cpdext_le u hu, (distance_le u hu).1, (distance_le u hu).2⟩
  unfold meaning
  rw [if_neg (Nat.not_lt_zero u), Nat.sub_zero, getD_of_lt (show u < cpdist.length from hu),
    getD_of_lt (show u < cpdext.length from hu)]

/-! ## the loop -/

/-- the tables of a block -/
structure BlockTables (E : Env) (lit dist : List Nat) (M : List Table) (tl td : Option Nat) (bl bd : Nat) : Prop where
  litTables : Decoder E lit 257 cplens cplext M tl bl
  distTables : Decoder E dist 0 cpdist cpdext M td bd
  lit_le : lit.length ≤ 288
  dist_le : dist.length ≤ 30

/-- what the rest of a block means -/
def Sym (E : Env) (i : Zip.Input) (lit dist : List Nat) (pos : Nat) (out : List UInt8) (free : Prop) (q : Nat)
    (o : List UInt8) : Prop := Symbols (bytes E i) free lit dist pos out q o

section
variable {E : Env} {i : Zip.Input} {base out : List UInt8} {lit dist : List Nat} {M : List Table}
  {tl td : Option Nat} {bl bd depth fuel n w last : Nat} {s : State} {D : Prop → Nat → List UInt8 → Prop} {r : Huft}
  {J : Exit → State → Prop}

/-- the extra bits of an entry of any kind -/
theorem extra_any (he : r.e ≤ 16) (ha : Ahead15 E i s) (hJ : ∀ e t, J e t) :
    Ends (extra E r) (fun x s' => Same s s' ∧ s.used ≤ s'.used ∧ Ahead15 E i s') J s := by
  cases hv : r.v with
  | n v =>
    refine (extra_ends hv he ha fun _ x t => hJ _ t).mono fun x s' ⟨_, hs, hused, ha'⟩ => ⟨hs, ?_, ha'⟩
    omega
  | t table =>
    unfold extra number
    rw [hv]
    exact .bind (.throw (hJ _ _))

/-- a copy goes back by some distance, whatever the number is -/
theorem exists_dist (d : Nat) (hw : w < WSIZE) : ∃ dist, 1 ≤ dist ∧ dist ≤ WSIZE ∧
    (d % WSIZE + dist = w ∨ d % WSIZE + dist = w + WSIZE) := by
  have hd : d % WSIZE < WSIZE := Nat.mod_lt _ (Nat.two_pow_pos 15)
  by_cases hlt : d % WSIZE < w
  · exact ⟨w - d % WSIZE, by omega, by omega, .inl (by omega)⟩
  · exact ⟨w + WSIZE - d % WSIZE, by omega, by omega, .inr (by omega)⟩

/-- the distance of a copy, in the window -/
theorem window_dist {x : Nat} (hw : w < WSIZE) (hpos : 1 ≤ x) (hmax : x ≤ WSIZE) :
    uns 32 ((w : Int) - x) % WSIZE + x = w ∨ uns 32 ((w : Int) - x) % WSIZE + x = w + WSIZE := by
  have hsize : WSIZE = 32768 := rfl
  obtain ⟨q, hq, hlt⟩ := uns32_cases ((w : Int) - x)
  rw [hsize] at hw hmax ⊢
  omega

/-- the loop goes on -/
def Goes (E : Env) (i : Zip.Input) (base : List UInt8) (lit dist : List Nat) (M : List Table) (tl td : Option Nat)
    (bl bd depth fuel : Nat) : Prop :=
  ∀ (s : State) (w : Nat) (out : List UInt8), s.tables = M → Output E i base s w out →
    Ends (codesLoop E depth tl td bl bd fuel w) (Post E i base (Sym E i lit dist s.used out))
      (fun e _ => Fails E i (Sparse lit ∨ Sparse dist) (Sym E i lit dist s.used out) (s.used + fuel) e) s

/-- the distance of a copy, the copy, and the rest -/
theorem distance_ends (hT : BlockTables E lit dist M tl td bl bd) (hM : s.tables = M) (ho : Output E i base s w out)
    (hdepth : BMAX ≤ depth) (hgoes : Goes E i base lit dist M tl td bl bd depth fuel) (hlast : last ≤ s.used + fuel)
    (hstep : ∀ u k dbase de, Starts dist (ahead (bytes E i) s.used) u k → distanceCodes[u]? = some (dbase, de) →
      Step D (Sym E i lit dist (s.used + k + de)
        (copied (dbase + peek (bytes E i) (s.used + k) de) n out)))
    (hread : ∀ q o, D False q o → ∃ u k dbase de, Starts dist (ahead (bytes E i) s.used) u k ∧
      distanceCodes[u]? = some (dbase, de) ∧ s.used + k + de ≤ q)
    (hopen : Open dist (ahead (bytes E i) s.used) → Any D) :
    Ends (do
        match ← code E depth td bd with
        | none => pure 1
        | some t => do
          let x ← extra E t
          let w ← copy E (n + 1) n w (uns 32 ((w : Int) - x))
          codesLoop E depth tl td bl bd fuel w)
      (Post E i base D) (fun e _ => Fails E i (Sparse lit ∨ Sparse dist) D last e) s := by
  have hlen := hT.dist_le
  have hmean : ∀ v < dist.length, (meaning E 0 cpdist cpdext v).1 ≤ 16 ∨ (meaning E 0 cpdist cpdext v).1 = 99 := by
    intro v hv
    obtain ⟨dbase, de, hm, -, hde, -⟩ := distEntry E (u := v) (by omega)
    rw [hm]
    exact .inl (by show de ≤ 16; omega)
  refine .seq (code_ends (hM ▸ hT.distTables) ho.ahead hdepth hmean (J := fun e _ => Fails E i _ D last e) ?_ ?_) ?_
    fun _ _ he => he
  · intro hop e t
    exact .none (.inr hop.1) (hopen hop).2
  · intro hnot x t
    refine .input fun q o hD hr => ?_
    obtain ⟨u, k, dbase, de, hu, -, hle⟩ := hread q o hD
    exact hnot u k hu (hr.mono (by omega))
  · intro o s1 hcoded
    cases o with
    | none =>
      refine .pure ⟨fun h => (by cases h), fun _ q o hD => ?_⟩
      obtain ⟨u, k, dbase, de, hu, -, -⟩ := hread q o hD
      obtain ⟨dbase, de, hm, -, hde, -⟩ := distEntry E (u := u) (by have := hu.lt; omega)
      have h99 := hcoded u k hu
      rw [hm] at h99
      have h99' : de = 99 := h99
      omega
    | some t =>
      obtain ⟨h16, hsame, ha1, hcase⟩ := hcoded
      have ho1 : Output E i base s1 w out := ho.same hsame ha1
      rcases hcase with ⟨u, k, hu, hm, hused⟩ | hop
      · obtain ⟨dbase, de, hm', hde, h13, hb1, hb2⟩ := distEntry E (u := u) (by have := hu.lt; omega)
        rw [hm'] at hm
        have hte : t.e = de := congrArg Prod.fst hm
        have htv : t.v = .n dbase := congrArg Prod.snd hm
        refine .seq (extra_ends htv h16 ha1 (J := fun e _ => Fails E i _ D last e) ?_) ?_ fun _ _ he => he
        · intro hnot x t
          refine .input fun q o hD hr => hnot (hr.mono ?_)
          obtain ⟨u', k', dbase', de', hu', hde', hle⟩ := hread q o hD
          obtain ⟨rfl, rfl⟩ := hu.unique hu'
          rw [hde] at hde'
          obtain ⟨rfl, rfl⟩ := Prod.mk.inj (Option.some.inj hde')
          omega
        · rintro x s2 ⟨rfl, hsame2, hused2, ha2⟩
          have hpeek : peek (bytes E i) s1.used t.e < 2 ^ t.e := peek_lt
          have ho2 := ho1.same hsame2 ha2
          rw [hte] at hpeek hused2 ⊢
          rw [hused] at hpeek hused2 ⊢
          have hdist := window_dist (x := dbase + peek (bytes E i) (s.used + k) de) ho2.lt (by omega) (by omega)
          refine .seq (copy_ends ho2.win ho2.lt (by omega) (by omega) hdist (Nat.lt_succ_self n) fun t =>
            Fails.flush) ?_ fun _ _ he => he
          rintro w3 s3 ⟨hw3, hwin3, hwr3⟩
          have hM3 : s3.tables = M := hwr3.tables.trans (hsame2.tables.trans (hsame.tables.trans hM))
          have hs := hstep u k dbase de hu hde
          have hused3 : s3.used = s.used + k + de := hwr3.used.trans hused2
          refine (hgoes s3 w3 _ hM3 ⟨ha2.written hwr3, hwin3, hw3⟩).imp (fun r s' h => ?_) fun e s' h => ?_
          · rw [hused3] at h
            exact h.step hs
          · rw [hused3] at h
            exact h.step hs.bwd id (by omega)
      · have hany := hopen hop
        have hJ : ∀ e, Fails E i (Sparse lit ∨ Sparse dist) D last e := fun e => .none (.inr hop.1) hany.2
        refine .seq (extra_any h16 ha1 fun e t => hJ e) ?_ fun _ _ he => he
        rintro x s2 ⟨hsame2, -, ha2⟩
        have ho2 := ho1.same hsame2 ha2
        obtain ⟨dd, hd1, hd2, hd3⟩ := exists_dist (uns 32 ((w : Int) - x)) ho2.lt
        refine .seq (copy_ends ho2.win ho2.lt hd1 hd2 hd3 (Nat.lt_succ_self n) fun t => hJ _) ?_ fun _ _ he => he
        rintro w3 s3 ⟨hw3, hwin3, hwr3⟩
        have hM3 : s3.tables = M := hwr3.tables.trans (hsame2.tables.trans (hsame.tables.trans hM))
        exact (hgoes s3 w3 _ hM3 ⟨ha2.written hwr3, hwin3, hw3⟩).imp (fun r s' h => h.step hany.step)
          fun e s' _ => hJ e

/-- a literal, and the rest -/
theorem literal_ends {v : Nat} (hM : s.tables = M) (ho : Output E i base s w out)
    (hgoes : Goes E i base lit dist M tl td bl bd depth fuel) (hlast : last ≤ s.used + fuel)
    (hstep : Step D (Sym E i lit dist s.used (out ++ [UInt8.ofNat v]))) :
    Ends (do
        modify fun s => { s with window := s.window.put w [UInt8.ofNat v] }
        let w ← full E (w + 1)
        codesLoop E depth tl td bl bd fuel w)
      (Post E i base D) (fun e _ => Fails E i (Sparse lit ∨ Sparse dist) D last e) s := by
  refine .bind (.modify ?_)
  refine .seq (full_ends (ho.win.put ho.lt _) fun t => Fails.flush) ?_ fun _ _ he => he
  rintro w1 s1 ⟨hw1, -, hwin1, hwr1⟩
  have hwr : Written s s1 := ⟨hwr1.input, hwr1.bb, hwr1.bk, hwr1.used, hwr1.tables⟩
  refine (hgoes s1 w1 _ (hwr.tables.trans hM) ⟨ho.ahead.written hwr, hwin1, hw1⟩).imp (fun r s' h => ?_)
    fun e s' h => ?_
  · rw [hwr.used] at h
    exact h.step hstep
  · rw [hwr.used] at h
    exact h.step hstep.bwd id hlast

/-- the end of the block -/
theorem stop_ends (ho : Output E i base s w out) (hD : D True s.used out) :
    Ends (do
        modify fun s => { s with outcnt := w }
        pure 0)
      (Post E i base D) J s :=
  .bind (.modify (.pure ⟨fun _ => ⟨out, hD, ho.ahead.written ⟨rfl, rfl, rfl, rfl, rfl⟩,
    ⟨ho.win.le, ho.win.len, ho.win.ring, ho.win.flushed⟩, ho.lt⟩, fun h => absurd rfl h⟩))

/-- the symbols of a block -/
theorem codesLoop_ends (hT : BlockTables E lit dist M tl td bl bd) (hdepth : BMAX ≤ depth) (fuel : Nat) :
    Goes E i base lit dist M tl td bl bd depth fuel := by
  induction fuel with
  | zero =>
    intro s w out hM ho
    refine .throw ⟨(by cases ·), fun q o hD => .inr ⟨rfl, ?_⟩⟩
    obtain ⟨v, k, -, hle⟩ := Symbols.starts hD
    omega
  | succ fuel ih =>
    intro s w out hM ho
    have hlen := hT.lit_le
    have hany : Open lit (ahead (bytes E i) s.used) → Any (Sym E i lit dist s.used out) := fun hop =>
      ⟨fun q o => .openLit trivial hop, fun q o hD => by
        obtain ⟨v, k, hv, -⟩ := Symbols.starts hD
        exact hop.2 v k hv⟩
    rw [codesLoop]
    refine .seq (code_ends (hM ▸ hT.litTables) ho.ahead hdepth (fun v hv => ?_)
      (J := fun e _ => Fails E i _ (Sym E i lit dist s.used out) (s.used + (fuel + 1)) e) ?_ ?_) ?_ fun _ _ he => he
    · obtain ⟨e, x, hm, hl⟩ := litEntry E (hv.trans_le hlen)
      rw [hm]
      show e ≤ 16 ∨ e = 99
      cases hl with
      | literal _ => exact .inl le_rfl
      | stop => exact .inl (by omega)
      | length _ he => exact .inl (by omega)
      | invalid _ => exact .inr rfl
    · intro hop e t
      exact .none (.inl hop.1) (hany hop).2
    · intro hnot x t
      refine .input fun q o hD hr => ?_
      obtain ⟨v, k, hv, hle⟩ := Symbols.starts hD
      exact hnot v k hv (hr.mono (by omega))
    · intro o s1 hcoded
      cases o with
      | none =>
        refine .pure ⟨fun h => (by cases h), fun _ q o hD => ?_⟩
        obtain ⟨v, k, hv, -⟩ := Symbols.starts hD
        obtain ⟨e, x, hm, hl⟩ := litEntry E (hv.lt.trans_le hlen)
        have h99 := hcoded v k hv
        rw [hm] at h99
        obtain rfl : e = 99 := h99
        cases hl with
        | length _ he => omega
        | invalid h29 =>
          obtain ⟨_, _, _, _, _, _, hu, -⟩ := Symbols.copy_inv hv hD
          rw [List.getElem?_eq_none h29] at hu
          cases hu
      | some t =>
        obtain ⟨h16, hsame, ha1, hcase⟩ := hcoded
        have hM1 : s1.tables = M := hsame.tables.trans hM
        have ho1 : Output E i base s1 w out := ho.same hsame ha1
        dsimp only
        rcases hcase with ⟨v, k, hv, hm, hused⟩ | hop
        · have hk := hv.pos
          obtain ⟨e, x, hm', hl⟩ := litEntry E (hv.lt.trans_le hlen)
          rw [hm'] at hm
          obtain ⟨hte, htv⟩ := Prod.mk.inj hm
          cases hl with
          | literal h256 =>
            rw [if_pos hte, htv]
            refine .bind (.pure (literal_ends hM1 ho1 ih (by omega) ?_))
            rw [hused]
            exact ⟨fun q o h => .literal hv h256 h, fun q o h => Symbols.literal_inv hv h256 h⟩
          | stop =>
            rw [if_neg (by omega), if_pos hte]
            refine stop_ends ho1 ?_
            rw [hused]
            exact .stop hv
          | @length u e nbase hu he =>
            rw [if_neg (by omega), if_neg (by omega)]
            refine .seq (extra_ends htv h16 ha1 (J := fun e _ => Fails E i _ _ (s.used + (fuel + 1)) e) ?_) ?_
              fun _ _ he => he
            · intro hnot x t
              refine .input fun q o hD hr => hnot (hr.mono ?_)
              obtain ⟨_, e', _, _, _, _, hu', -, -, rest⟩ := Symbols.copy_inv hv hD
              rw [hu] at hu'
              obtain ⟨rfl, rfl⟩ := Prod.mk.inj (Option.some.inj hu')
              have := rest.le
              omega
            · rintro n s2 ⟨rfl, hsame2, hused2, ha2⟩
              have hM2 : s2.tables = M := hsame2.tables.trans hM1
              rw [hte] at hused2 ⊢
              rw [hused] at hused2 ⊢
              refine distance_ends hT hM2 (ho1.same hsame2 ha2) hdepth ih (by omega) ?_ ?_ ?_
              · intro u' k' dbase de hd hde
                rw [hused2] at hd ⊢
                exact ⟨fun q o h => .copy hv hu hd hde h, fun q o h => Symbols.copy_rest hv hu hd hde h⟩
              · intro q o hD
                obtain ⟨_, e', u', k', dbase, de, hu', hd, hde, rest⟩ := Symbols.copy_inv hv hD
                rw [hu] at hu'
                obtain ⟨rfl, rfl⟩ := Prod.mk.inj (Option.some.inj hu')
                rw [hused2]
                exact ⟨u', k', dbase, de, hd, hde, rest.le⟩
              · intro hop
                rw [hused2] at hop
                refine ⟨fun q o => .openDist trivial hv hu hop, fun q o hD => ?_⟩
                obtain ⟨_, e', u', k', dbase, de, hu', hd, -, -⟩ := Symbols.copy_inv hv hD
                rw [hu] at hu'
                obtain ⟨rfl, rfl⟩ := Prod.mk.inj (Option.some.inj hu')
                exact hop.2 u' k' hd
          | invalid _ => omega
        · have hD := hany hop
          have hJ : ∀ e last, Fails E i (Sparse lit ∨ Sparse dist) (Sym E i lit dist s.used out) last e :=
            fun e last => .none (.inl hop.1) hD.2
          refine .ite (fun he => ?_) fun _ => .ite (fun he => stop_ends ho1 (hD.1 _ _)) fun _ => ?_
          · cases hv : t.v with
            | n v =>
              have hrun := literal_ends (v := v) hM1 ho1 ih le_rfl hD.step
              exact .bind (.pure (hrun.imp (fun _ _ h => h) fun e _ _ => hJ e _))
            | t table => exact .bind (.throw (hJ _ _))
          · refine .seq (extra_any h16 ha1 fun e t => hJ e _) ?_ fun _ _ he => he
            rintro n s2 ⟨hsame2, -, ha2⟩
            have hM2 : s2.tables = M := hsame2.tables.trans hM1
            refine (distance_ends hT hM2 (ho1.same hsame2 ha2) hdepth ih le_rfl (fun _ _ _ _ _ _ => hD.step)
              (fun q o h => absurd h (hD.2 q o)) fun _ => hD).imp (fun _ _ h => h) fun e _ _ => hJ e _

end

end Inflate
