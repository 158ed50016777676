import Aboot.Zip.Codes
import Aboot.Zip.BitBuffer
import Aboot.Lib.Deflate

/-!
# zip/inflate.c: a code is decoded

* `walk_ends`    from a table to the entry of a code, and its bits are taken;
* `Decoder`      the tables of a set of codes, or none;
* `code_ends`    the code that the next bits start with;
* `extra_ends`   the extra bits.
-/

set_option linter.unusedVariables false

namespace Inflate
open PrefixCode Raise BitStream Deflate

section
variable {E : Env} {i : Zip.Input} {s s' : State} {J : Exit → State → Prop} {R n : Nat}

theorem same_tables {M : List Table} (h : Same s s') (hM : s.tables = M) : s'.tables = M := h.tables.trans hM

theorem lookup_some {id idx : Nat} {r : Huft} (h : ent s.tables id idx = some r) :
    (lookup (some id) idx : Run Huft) s = .ok r s := by
  unfold lookup
  rw [bind_ok get_ok]
  have hr : ((some id).bind fun t => s.tables[t]?.bind fun tab => tab.entry idx) = some r := h
  rw [hr]
  rfl

theorem lookup_ends {Q : Huft → State → Prop} {id idx : Nat} {r : Huft} (h : ent s.tables id idx = some r)
    (hQ : Q r s) : Ends (lookup (some id) idx) Q J s := .of_ok (lookup_some h) hQ

/-- `n` bits are looked up in the table `id` -/
def walk (E : Env) (fuel id n : Nat) : Run (Option Huft) := do
  let s ← get
  let t ← lookup (some id) (s.bb &&& mask_bits n)
  decode E fuel t

/-- what the walk through the tables returns: the entry, with `n` bits taken; none for an invalid code -/
def Found (E : Env) (i : Zip.Input) (s : State) (n : Nat) (r : Huft) (o : Option Huft) (s' : State) : Prop :=
  (r.e = 99 ∧ o = none) ∨ (r.e ≤ 16 ∧ o = some r ∧ Same s s' ∧ s'.used = s.used + n ∧ Ahead15 E i s')

/-- an entry that is neither a code nor leads to a table -/
theorem decode_wild (E : Env) (fuel : Nat) {r : Huft} (hlt : 16 < r.e) (h99 : r.e ≠ 99) {v : Nat} (hv : r.v = .n v) :
    Ends (decode E (fuel + 1) r) (fun _ _ => False) (fun _ _ => True) s := by
  rw [decode, if_pos hlt, if_neg h99]
  refine .bind ((ends_true _ _).mono fun _ s1 _ => .bind ((ends_true _ _).mono fun _ s2 _ => ?_))
  rw [hv]
  exact .throw trivial

theorem walk_ends {M : List Table} {id bits x fuel N : Nat} {r : Huft} (hd : Decodes M id bits x n r)
    (hM : s.tables = M) (hb : Buffered E i R s) (hle : bits ≤ s.bk) (hbk : s.bk ≤ 16) (h9 : bits ≤ 9)
    (hx : ∀ m ≤ N, x % 2 ^ m = peek (bytes E i) s.used m) (hN : n + bits ≤ N) (hfuel : n ≤ fuel)
    (hwild : 16 < r.e → r.e ≠ 99 → ∀ e t, J e t)
    (hread : ¬ Readable E i ((s.used + n + 15) / 8) → ∀ x t, J (.unzip_error x) t) :
    Ends (walk E fuel id bits) (Found E i s n r) J s := by
  induction hd generalizing s R fuel N with
  | @leaf id bits x r h h1 hrb hleaf =>
    obtain ⟨fuel, rfl⟩ := Nat.exists_eq_add_of_le' (h1.trans hfuel)
    unfold walk
    refine .bind (.get (.bind (lookup_ends (by rw [hb.mask hle (by omega), ← hx bits (by omega), hM]; exact h) ?_)))
    by_cases hlt : 16 < r.e
    · by_cases h99 : r.e = 99
      · rw [decode, if_pos hlt, if_pos h99]
        exact .pure (.inl ⟨h99, rfl⟩)
      · obtain ⟨v, hv⟩ := hleaf.resolve_left h99
        exact (decode_wild E fuel hlt h99 hv).imp (fun _ _ h => h.elim) fun e t _ => hwild hlt h99 e t
    · rw [decode, if_neg hlt]
      refine .seq (DUMPBITS_ends (J := J)) ?_ fun _ _ he => he
      rintro ⟨⟩ s1 rfl
      refine .pure (.inr ⟨not_lt.mp hlt, rfl, same_dumped s r.b, rfl, R, hb.dumped (by omega) (by omega), ?_⟩)
      rw [dumped_bk (by omega) (by omega)]
      omega
  | @link id l x n j t r h hl hj hjl sub ih =>
    have hn1 := sub.pos
    obtain ⟨fuel, rfl⟩ := Nat.exists_eq_add_of_le' (show 1 ≤ fuel by omega)
    unfold walk
    refine .bind (.get (.bind (lookup_ends (by rw [hb.mask hle (by omega), ← hx l (by omega), hM]; exact h) ?_)))
    rw [decode, if_pos (show 16 < 16 + j by omega), if_neg (show 16 + j ≠ 99 by omega)]
    refine .seq (DUMPBITS_ends (J := J)) ?_ fun _ _ he => he
    rintro ⟨⟩ s1 rfl
    have hb1 := hb.dumped (n := l) (by omega) (by omega)
    have hbk1 : (dumped s l).bk = s.bk - l := dumped_bk (by omega) (by omega)
    have hused1 : (dumped s l).used = s.used + l := rfl
    dsimp only
    rw [Nat.add_sub_cancel_left]
    refine .seq (NEEDBITS_ends hb1 (by omega) fun hnot => hread fun hr => hnot (hr.mono (by omega))) ?_
      fun _ _ he => he
    rintro ⟨⟩ s2 ⟨hsame, hused, hle2, hmax, R2, hb2⟩
    refine (@ih _ _ fuel (N - l) (same_tables hsame hM) hb2 hle2 (by omega) (by omega) ?_ (by omega) (by omega)
      hwild ?_).mono ?_
    · intro m hm
      have hsum := hx (l + m) (by omega)
      rw [hused, hused1, ← peek_add, ← hsum, Nat.pow_add, Nat.mod_mul_right_div_self]
    · rw [hused, hused1]
      intro hnot
      exact hread fun hr => hnot (hr.mono (by omega))
    · rintro o s3 (h99 | ⟨h16, ho, hsame3, hused3, ha⟩)
      · exact .inl h99
      · refine .inr ⟨h16, ho, ?_, by omega, ha⟩
        exact (same_dumped s l).trans (hsame.trans hsame3)

/-- the tables of a set of codes; there are none if no value has a code -/
inductive Decoder (E : Env) (b : List Nat) (sv : Nat) (d e : List Nat) (M : List Table) : Option Nat → Nat → Prop
  | none (h : ∀ x ∈ b, x = 0) : Decoder E b sv d e M none 0
  | some {R l : Nat} (h : Tabled E b sv d e M R l) (hl : l ≤ 9)
      (hopen : 0 ∈ b → ∀ x, (∀ v k, ¬ Starts b x v k) → Sparse b) : Decoder E b sv d e M (some R) l

theorem open_of_zero {b : List Nat} {x : Nat} (h : ∀ y ∈ b, y = 0) : Open b x := by
  refine ⟨?_, fun v k hs => ?_⟩
  · rw [Sparse, List.countP_eq_zero.mpr fun y hy => by simp [h y hy]]
    exact Nat.zero_le 1
  · have hk := h k (List.mem_of_getElem? hs.length)
    have := hs.pos
    omega

/-- the code that the bits start with: none is an invalid one, and a set with at most one code leaves anything -/
def Coded (E : Env) (i : Zip.Input) (b : List Nat) (sv : Nat) (d e : List Nat) (s : State) (o : Option Huft)
    (s' : State) : Prop :=
  match o with
  | none => ∀ v k, Starts b (ahead (bytes E i) s.used) v k → (meaning E sv d e v).1 = 99
  | some r =>
    r.e ≤ 16 ∧ Same s s' ∧ Ahead15 E i s' ∧
      ((∃ v k, Starts b (ahead (bytes E i) s.used) v k ∧ (r.e, r.v) = meaning E sv d e v ∧ s'.used = s.used + k) ∨
        Open b (ahead (bytes E i) s.used))

theorem code_ends {b d e : List Nat} {sv l fuel : Nat} {t : Option Nat} (hd : Decoder E b sv d e s.tables t l)
    (ha : Ahead15 E i s) (hfuel : BMAX ≤ fuel)
    (hmean : ∀ v < b.length, (meaning E sv d e v).1 ≤ 16 ∨ (meaning E sv d e v).1 = 99)
    (hopen : Open b (ahead (bytes E i) s.used) → ∀ e t, J e t)
    (hread : (∀ v k, Starts b (ahead (bytes E i) s.used) v k → ¬ Readable E i ((s.used + k + 15) / 8)) →
      ∀ x t, J (.unzip_error x) t) :
    Ends (code E fuel t l) (Coded E i b sv d e s) J s := by
  cases hd with
  | none h =>
    have hJ := hopen (open_of_zero h)
    unfold code
    refine .bind ((ends_true _ _).imp (fun _ s1 _ => .bind (.get (.bind ?_))) fun e t _ => hJ e t)
    exact .bind (.get (.throw (hJ .wild _)))
  | @some R l h hl hsparse =>
    obtain ⟨R0, hb, h15⟩ := ha
    have hpos := h.pos
    obtain ⟨k, r, hk, hdec, hmeans⟩ := h.lookup (ahead (bytes E i) s.used)
    have hk1 := hdec.pos
    have hread' : ¬ Readable E i ((s.used + k + 15) / 8) → ∀ x t, J (.unzip_error x) t := by
      rcases hmeans with ⟨v, hv, -⟩ | ⟨hnone, hbad⟩
      · intro hnot
        refine hread fun u n hu => ?_
        obtain ⟨-, rfl⟩ := hv.unique hu
        exact hnot
      · exact fun _ => hread fun u n hu => absurd hu (hnone u n)
    have hcode : code E fuel (Option.some R) l = (do
        NEEDBITS E l
        walk E fuel R l) := rfl
    rw [hcode]
    refine .seq (NEEDBITS_ends hb (by omega) fun hnot => hread' fun hr => hnot (hr.mono (by omega))) ?_
      fun _ _ he => he
    rintro ⟨⟩ s1 ⟨hsame, hused, hle, hmax, R1, hb1⟩
    have hmax16 : k ≤ 16 := hk
    refine (walk_ends (N := 32) hdec hsame.tables hb1 hle (by omega) hl (fun m hm => ?_) (by omega)
      (hk.trans hfuel) ?_ (by rw [hused]; exact hread')).mono ?_
    · rw [hused]
      exact peek_mod hm
    · intro hlt h99 e' t
      rcases hmeans with ⟨v, hv, hm⟩ | ⟨hnone, hbad⟩
      · have he : r.e = (meaning E sv d e v).1 := by rw [← hm]
        rcases hmean v hv.lt with h16 | h99'
        · omega
        · exact absurd (he.trans h99') h99
      · by_cases hzero : 0 ∈ b
        · exact hopen ⟨hsparse hzero _ hnone, hnone⟩ e' t
        · exact absurd (hbad hzero) h99
    · rintro o s2 (⟨h99, rfl⟩ | ⟨h16, rfl, hsame2, hused2, ha2⟩)
      · intro v n hv
        rcases hmeans with ⟨u, hu, hm⟩ | ⟨hnone, -⟩
        · obtain ⟨rfl, -⟩ := hu.unique hv
          rw [← hm]
          exact h99
        · exact absurd hv (hnone v n)
      · refine ⟨h16, hsame.trans hsame2, ha2, ?_⟩
        rcases hmeans with ⟨v, hv, hm⟩ | ⟨hnone, hbad⟩
        · exact .inl ⟨v, k, hv, hm, by omega⟩
        · by_cases hzero : 0 ∈ b
          · exact .inr ⟨hsparse hzero _ hnone, hnone⟩
          · have := hbad hzero
            omega

/-- the value of an entry, and its extra bits -/
theorem extra_ends {r : Huft} {v : Nat} (hv : r.v = .n v) (he : r.e ≤ 16) (ha : Ahead15 E i s)
    (hread : ¬ Readable E i ((s.used + r.e + 7) / 8) → ∀ x t, J (.unzip_error x) t) :
    Ends (extra E r)
      (fun x s' => x = v + peek (bytes E i) s.used r.e ∧ Same s s' ∧ s'.used = s.used + r.e ∧ Ahead15 E i s') J
      s := by
  unfold extra number
  rw [hv]
  refine .bind (.pure (.seq (bits_ends ha he hread) ?_ fun _ _ he => he))
  rintro x s1 ⟨rfl, hsame, hused, ha1⟩
  exact .pure ⟨rfl, hsame, hused, ha1⟩

end

end Inflate
