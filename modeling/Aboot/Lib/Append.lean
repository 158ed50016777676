import Aboot.Lib.Mem
import Mathlib.Data.List.Basic

/-!
# Texts appended to a buffer

Pieces of text are appended to a string that was made in fresh memory.  A piece is stored at the
first zero of the buffer; one that is not `ended` has no zero stored after it, so that the string
goes on with whatever the fresh memory holds there.

* `IsEnd b e`        the first zero of `b` is at `e`;
* `Grown g ps b`     the buffer `b` over the fresh memory `g` after the pieces `ps`;
* `Grown.snoc`       one more piece;
* `Zeroed g ps`      the fresh memory is zero after every piece that is not ended;
* `Grown.isEnd`      the string is the text of the pieces if and only if it is as long, which is so if
                     and only if the fresh memory is zero after the pieces that are not ended.
-/

set_option linter.unusedVariables false

namespace Append

/-- a piece of text: its bytes, and whether a zero is stored after them -/
structure Piece where
  bytes : List UInt8
  ended : Bool
deriving DecidableEq

/-- no zero in the bytes, and nothing is left open without a byte -/
structure Piece.Fine (p : Piece) : Prop where
  nonul : 0 ∉ p.bytes
  ended : p.bytes = [] → p.ended = true

/-- what is stored for a piece -/
def Piece.stored (p : Piece) : List UInt8 := p.bytes ++ if p.ended then [0] else []

/-- the text of some pieces -/
def text (ps : List Piece) : List UInt8 := ps.flatMap Piece.bytes

theorem text_append (ps qs : List Piece) : text (ps ++ qs) = text ps ++ text qs := List.flatMap_append

theorem text_snoc (ps : List Piece) (p : Piece) : text (ps ++ [p]) = text ps ++ p.bytes := by
  simp [text]

/-- the first zero -/
structure IsEnd (b : Mem) (e : Nat) : Prop where
  zero : b e = 0
  before : ∀ q < e, b q ≠ 0

theorem IsEnd.unique {b : Mem} {e e' : Nat} (h : IsEnd b e) (h' : IsEnd b e') : e = e' := by
  rcases Nat.lt_trichotomy e e' with hlt | heq | hlt
  · exact absurd h.zero (h'.before e hlt)
  · exact heq
  · exact absurd h'.zero (h.before e' hlt)

/-- the buffer holds the text `t` over the fresh memory `g`, with a zero after it if it is ended -/
structure Over (g b : Mem) (t : List UInt8) (ended : Bool) : Prop where
  text : b.get 0 t.length = t
  nonul : 0 ∉ t
  stop : b t.length = if ended then 0 else g t.length
  rest : ∀ q, t.length < q → b q = g q

variable {g b : Mem} {t : List UInt8} {c : Bool} {e : Nat}

theorem Over.ne_zero (h : Over g b t c) {q : Nat} (hq : q < t.length) : b q ≠ 0 := by
  have hget := Mem.get_getElem? b 0 t.length q hq
  rw [h.text, Nat.zero_add] at hget
  exact fun h0 => h.nonul (h0 ▸ List.mem_of_getElem? hget)

/-- up to its first zero the string may go on with fresh memory -/
theorem Over.isEnd (h : Over g b t c) (he : IsEnd b e) :
    ∃ x, Over g b (t ++ x) true ∧ e = t.length + x.length ∧
      (x = [] ↔ c = true ∨ g t.length = 0) := by
  have hle : t.length ≤ e := Nat.le_of_not_lt fun hlt => h.ne_zero hlt he.zero
  have hlen : (t ++ b.get t.length (e - t.length)).length = e := by
    rw [List.length_append, Mem.length_get]
    omega
  refine ⟨b.get t.length (e - t.length), ⟨?_, ?_, ?_, ?_⟩, ?_, ?_⟩
  · rw [List.length_append, Mem.get_add, h.text, Mem.length_get, Nat.zero_add]
  · intro h0
    obtain h0 | h0 := List.mem_append.mp h0
    · exact h.nonul h0
    · obtain ⟨k, hk, hz⟩ := Mem.mem_get.mp h0
      exact he.before (t.length + k) (by omega) hz
  · rw [hlen, he.zero]
    rfl
  · rw [hlen]
    exact fun q hq => h.rest q (by omega)
  · rw [Mem.length_get]
    omega
  · have hz : c = true ∨ g t.length = 0 ↔ b t.length = 0 := by
      rw [h.stop]
      cases c with
      | true => simp
      | false => simp
    rw [hz, ← List.length_eq_zero_iff, Mem.length_get]
    constructor
    · intro h0
      have : e = t.length := by omega
      exact this ▸ he.zero
    · intro h0
      have : ¬ t.length < e := fun hlt => he.before t.length hlt h0
      omega

/-- one piece is stored at the end -/
theorem Over.append {p : Piece} (h : Over g b t true) (hp : p.Fine) :
    Over g (b.put t.length p.stored) (t ++ p.bytes) p.ended := by
  have hsplit : b.put t.length p.stored
      = (b.put t.length p.bytes).put (t.length + p.bytes.length) (if p.ended then [0] else []) :=
    (Mem.put_append b t.length _ _).symm
  have hlen : (t ++ p.bytes).length = t.length + p.bytes.length := List.length_append
  rw [hsplit]
  refine ⟨?_, ?_, ?_, ?_⟩
  · rw [hlen, Mem.get_put_out _ _ _ _ _ (.inl (by omega)), Mem.get_add, Nat.zero_add,
      Mem.get_put_self, Mem.get_put_out _ _ _ _ _ (.inl (by omega)), h.text]
  · intro h0
    exact (List.mem_append.mp h0).elim h.nonul hp.nonul
  · rw [hlen]
    cases hc : p.ended with
    | true => exact Mem.put_in _ _ 0 [0] Nat.zero_lt_one
    | false =>
      have hne : p.bytes ≠ [] := fun hnil => by rw [hp.ended hnil] at hc; cases hc
      have hpos : 0 < p.bytes.length := List.length_pos_iff.mpr hne
      simp only [Bool.false_eq_true, if_false, Mem.put_nil]
      rw [Mem.put_out _ _ _ _ (.inr (by omega))]
      exact h.rest _ (by omega)
  · intro q hq
    rw [hlen] at hq
    rw [Mem.put_out _ _ _ _ (.inr ?_), Mem.put_out _ _ _ _ (.inr (by omega))]
    · exact h.rest q (by omega)
    · split
      · exact hq
      · exact Nat.le_of_lt hq

/-! ## pieces one after the other -/

/-- the fresh memory is zero after every piece that is not ended -/
def Zeroed (g : Mem) (ps : List Piece) : Prop :=
  ∀ pre p post, ps = pre ++ p :: post → p.ended = false → g (text (pre ++ [p])).length = 0

theorem zeroed_nil (g : Mem) : Zeroed g [] := by
  intro pre p post h
  exact absurd h.symm (by simp)

theorem Zeroed.left {ps qs : List Piece} (h : Zeroed g (ps ++ qs)) : Zeroed g ps := by
  intro pre p post hps
  exact h pre p (post ++ qs) (by rw [hps, List.append_assoc, List.cons_append])

theorem zeroed_snoc {ps : List Piece} {p : Piece} :
    Zeroed g (ps ++ [p]) ↔ Zeroed g ps ∧ (p.ended = false → g (text (ps ++ [p])).length = 0) := by
  constructor
  · intro h
    refine ⟨fun pre q post hq hc => h pre q (post ++ [p]) ?_ hc, fun hc => h ps p [] rfl hc⟩
    rw [hq, List.append_assoc, List.cons_append]
  · rintro ⟨h1, h2⟩ pre q post hq hc
    rcases List.eq_nil_or_concat post with rfl | ⟨post', q', rfl⟩
    · obtain ⟨rfl, h⟩ := List.append_inj' hq rfl
      obtain rfl : p = q := by simpa using h
      exact h2 hc
    · have he : ps ++ [p] = (pre ++ q :: post') ++ [q'] := by
        rw [hq, List.concat_eq_append, List.append_assoc, List.cons_append]
      exact h1 pre q post' (List.append_inj' he rfl).1 hc

/-- the buffer after the pieces `ps`, over the fresh memory `g` -/
def Grown (g : Mem) (ps : List Piece) (b : Mem) : Prop :=
  ∃ t c, Over g b t c ∧ (text ps).length ≤ t.length ∧
    (Zeroed g ps → t = text ps ∧ (c = true ∨ g t.length = 0)) ∧
    (t.length = (text ps).length → c = true ∨ g t.length = 0 → Zeroed g ps)

/-- the empty string -/
theorem grown_nil (g : Mem) : Grown g [] (g.put 0 [0]) := by
  refine ⟨[], true, ⟨rfl, List.not_mem_nil, Mem.put_in g 0 0 [0] Nat.zero_lt_one, ?_⟩,
    Nat.le_refl 0, fun _ => ⟨rfl, .inl rfl⟩, fun _ _ => zeroed_nil g⟩
  exact fun q hq => Mem.put_out g 0 q [0] (.inr hq)

/-- one more piece, at the first zero -/
theorem Grown.snoc {ps : List Piece} {p : Piece} (h : Grown g ps b) (he : IsEnd b e) (hp : p.Fine) :
    Grown g (ps ++ [p]) (b.put e p.stored) := by
  obtain ⟨t, c, ho, hle, hz, hz'⟩ := h
  obtain ⟨x, hx, rfl, hnil⟩ := ho.isEnd he
  have hlen : (t ++ x ++ p.bytes).length = t.length + x.length + p.bytes.length := by
    rw [List.length_append, List.length_append]
  have htext : (text (ps ++ [p])).length = (text ps).length + p.bytes.length := by
    rw [text_snoc, List.length_append]
  have happ := hx.append hp
  rw [List.length_append] at happ
  refine ⟨t ++ x ++ p.bytes, p.ended, happ, by omega, fun h => ?_, fun hl hc => ?_⟩
  · obtain ⟨h1, h2⟩ := zeroed_snoc.mp h
    obtain ⟨rfl, hcl⟩ := hz h1
    obtain rfl := hnil.mpr hcl
    rw [List.append_nil, ← text_snoc]
    refine ⟨rfl, ?_⟩
    cases hpe : p.ended with
    | true => exact .inl rfl
    | false => exact .inr (h2 hpe)
  · have h0 : t.length = (text ps).length ∧ x.length = 0 := by omega
    have hxnil := List.length_eq_zero_iff.mp h0.2
    refine zeroed_snoc.mpr ⟨hz' h0.1 (hnil.mp hxnil), fun hpe => ?_⟩
    rw [hpe] at hc
    rw [← hl]
    exact hc.resolve_left (by decide)

/-- a piece of which nothing is stored -/
theorem Grown.skip {ps : List Piece} (h : Grown g ps b) : Grown g (ps ++ [⟨[], true⟩]) b := by
  obtain ⟨t, c, ho, hle, hz, hz'⟩ := h
  have htext : text (ps ++ [⟨[], true⟩]) = text ps := by rw [text_snoc, List.append_nil]
  have hzero : Zeroed g (ps ++ [⟨[], true⟩]) ↔ Zeroed g ps := by
    rw [zeroed_snoc]
    exact and_iff_left fun h => absurd h (by decide)
  refine ⟨t, c, ho, ?_, ?_, ?_⟩
  · rw [htext]
    exact hle
  · rw [htext, hzero]
    exact hz
  · rw [htext, hzero]
    exact hz'

/-- **the string.** It is at least as long as the text of the pieces, and is that text, with nothing
stored after its zero, if and only if the fresh memory is zero after every piece not ended. -/
theorem Grown.isEnd {ps : List Piece} (h : Grown g ps b) (he : IsEnd b e) :
    (text ps).length ≤ e ∧ (e = (text ps).length → Zeroed g ps) := by
  obtain ⟨t, c, ho, hle, hz, hz'⟩ := h
  obtain ⟨x, hx, rfl, hnil⟩ := ho.isEnd he
  refine ⟨by omega, fun hl => ?_⟩
  have h0 : t.length = (text ps).length ∧ x.length = 0 := by omega
  exact hz' h0.1 (hnil.mp (List.length_eq_zero_iff.mp h0.2))

theorem Grown.zeroed {ps : List Piece} (h : Grown g ps b) (hz : Zeroed g ps) :
    IsEnd b (text ps).length ∧ b.get 0 (text ps).length = text ps ∧
      ∀ q, (text ps).length < q → b q = g q := by
  obtain ⟨t, c, ho, hle, hz1, hz'⟩ := h
  obtain ⟨rfl, hc⟩ := hz1 hz
  refine ⟨⟨?_, fun q hq => ho.ne_zero hq⟩, ho.text, ho.rest⟩
  rw [ho.stop]
  obtain rfl | hc := hc
  · rfl
  · rw [hc, ite_self]

end Append
