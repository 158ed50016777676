import Aboot.Lib.BitStream
import Aboot.Lib.PrefixCode

/-!
# The deflate format

A stream is a sequence of bits, taken from the low end of every byte.  What comes before the first byte of the
output are the bytes that a first copy may go back to.

* `Symbols`        the literals and copies of a block, up to its end;
* `CodeLengths`    the code lengths of a dynamic block;
* `Block`, `Stream`   a block, and blocks up to the last one: from a position in the bits and an output to the
  next ones;
* `ThinStream`     there is a block with a set of at most one code;
* `Symbols.literal_inv`, ..   what is read decides what it is;
* `Stream.det`     a stream has one meaning;
* `Stream.congr`   it depends on the bits of the stream only.

A set with at most one code leaves bits without a meaning.  `free` says whether such bits may stand for anything;
where it is false, a stream with such bits has no meaning.
-/

namespace Deflate
open PrefixCode BitStream

/-! ## symbols -/

/-- base and number of extra bits of the lengths -/
def lengthCodes : List (Nat × Nat) :=
  [(3, 0), (4, 0), (5, 0), (6, 0), (7, 0), (8, 0), (9, 0), (10, 0), (11, 1), (13, 1), (15, 1), (17, 1), (19, 2),
   (23, 2), (27, 2), (31, 2), (35, 3), (43, 3), (51, 3), (59, 3), (67, 4), (83, 4), (99, 4), (115, 4), (131, 5),
   (163, 5), (195, 5), (227, 5), (258, 0)]

/-- base and number of extra bits of the distances -/
def distanceCodes : List (Nat × Nat) :=
  [(1, 0), (2, 0), (3, 0), (4, 0), (5, 1), (7, 1), (9, 2), (13, 2), (17, 3), (25, 3), (33, 4), (49, 4), (65, 5),
   (97, 5), (129, 6), (193, 6), (257, 7), (385, 7), (513, 8), (769, 8), (1025, 9), (1537, 9), (2049, 10),
   (3073, 10), (4097, 11), (6145, 11), (8193, 12), (12289, 12), (16385, 13), (24577, 13)]

/-- at most one value has a code -/
def Sparse (b : List Nat) : Prop := b.countP (fun x => x ≠ 0) ≤ 1

/-- the codes take all patterns, or there is at most one code, of one bit -/
def Accepted (b : List Nat) : Prop := filled b.count 16 16 = 2 ^ 16 ∨ Sparse b ∧ ∀ x ∈ b, x ≤ 1

/-- `n` bytes, each the one that is `dist` bytes back -/
def copied (dist : Nat) : (n : Nat) → List UInt8 → List UInt8
  | 0, out => out
  | n + 1, out => copied dist n (out ++ [out.getD (out.length - dist) 0])

section
variable (byte : Nat → UInt8) (free : Prop)

/-- the next bits, enough for a code -/
def ahead (pos : Nat) : Nat := peek byte pos 32

/-- the bits have no meaning in a set with at most one code -/
def Open (b : List Nat) (x : Nat) : Prop := Sparse b ∧ ∀ v k, ¬ Starts b x v k

/-- the symbols of a block, with the literal and length codes `lit` and the distance codes `dist` -/
inductive Symbols (lit dist : List Nat) : Nat → List UInt8 → Nat → List UInt8 → Prop
  | stop {pos k : Nat} {out : List UInt8} (h : Starts lit (ahead byte pos) 256 k) :
      Symbols lit dist pos out (pos + k) out
  | literal {pos v k q : Nat} {out o : List UInt8} (h : Starts lit (ahead byte pos) v k) (hv : v < 256)
      (rest : Symbols lit dist (pos + k) (out ++ [UInt8.ofNat v]) q o) : Symbols lit dist pos out q o
  | copy {pos v k base e u n dbase de q : Nat} {out o : List UInt8}
      (h : Starts lit (ahead byte pos) (257 + v) k) (hv : lengthCodes[v]? = some (base, e))
      (hd : Starts dist (ahead byte (pos + k + e)) u n) (hu : distanceCodes[u]? = some (dbase, de))
      (rest : Symbols lit dist (pos + k + e + n + de)
        (copied (dbase + peek byte (pos + k + e + n) de) (base + peek byte (pos + k) e) out) q o) :
      Symbols lit dist pos out q o
  | openLit {pos q : Nat} {out o : List UInt8} (hf : free) (h : Open lit (ahead byte pos)) :
      Symbols lit dist pos out q o
  | openDist {pos v k base e q : Nat} {out o : List UInt8} (hf : free)
      (h : Starts lit (ahead byte pos) (257 + v) k) (hv : lengthCodes[v]? = some (base, e))
      (hd : Open dist (ahead byte (pos + k + e))) : Symbols lit dist pos out q o

/-! ## blocks -/

/-- the order of the code length code lengths -/
def order : List Nat := [16, 17, 18, 0, 8, 7, 9, 6, 10, 5, 11, 4, 12, 3, 13, 2, 14, 1, 15]

/-- the code lengths of the codes for code lengths, of which there are `nb` -/
def codeLengths (pos nb : Nat) : List Nat :=
  (List.range 19).map fun v => if order.idxOf v < nb then peek byte (pos + 3 * order.idxOf v) 3 else 0

/-- a repeated length: the length, the least number of times, and the bits for how many more -/
def repeats (ls : List Nat) (v : Nat) : Nat × Nat × Nat :=
  if v = 16 then (ls.getLastD 0, 3, 2) else if v = 17 then (0, 3, 3) else (0, 11, 7)

/-- the lengths up to the `n`th one -/
inductive CodeLengths (cl : List Nat) (n : Nat) : Nat → List Nat → Nat → List Nat → Prop
  | done {pos : Nat} {ls : List Nat} (h : ls.length = n) : CodeLengths cl n pos ls pos ls
  | length {pos v k q : Nat} {ls o : List Nat} (hlt : ls.length < n) (h : Starts cl (ahead byte pos) v k)
      (hv : v < 16) (rest : CodeLengths cl n (pos + k) (ls ++ [v]) q o) : CodeLengths cl n pos ls q o
  | again {pos v k x times e q : Nat} {ls o : List Nat} (hlt : ls.length < n)
      (h : Starts cl (ahead byte pos) v k) (hv : 16 ≤ v) (hr : repeats ls v = (x, times, e))
      (hle : ls.length + (times + peek byte (pos + k) e) ≤ n)
      (rest : CodeLengths cl n (pos + k + e) (ls ++ List.replicate (times + peek byte (pos + k) e) x) q o) :
      CodeLengths cl n pos ls q o
  | openCode {pos q : Nat} {ls o : List Nat} (hf : free) (hlt : ls.length < n) (ho : o.length = n)
      (h : Open cl (ahead byte pos)) : CodeLengths cl n pos ls q o

def fixedLit : List Nat :=
  List.replicate 144 8 ++ List.replicate 112 9 ++ List.replicate 24 7 ++ List.replicate 8 8

def fixedDist : List Nat := List.replicate 30 5

/-- the code lengths of the dynamic block at `pos`, which end at `p` -/
inductive Header (pos : Nat) : (p : Nat) → (lit dist : List Nat) → Prop
  | mk {nl nd nb p : Nat} {ls : List Nat} (hl : nl = 257 + peek byte (pos + 3) 5)
      (hd : nd = 1 + peek byte (pos + 8) 5) (hb : nb = 4 + peek byte (pos + 13) 4) (hnl : nl ≤ 286) (hnd : nd ≤ 30)
      (hcl : Accepted (codeLengths byte (pos + 17) nb))
      (hls : CodeLengths byte free (codeLengths byte (pos + 17) nb) (nl + nd) (pos + 17 + 3 * nb) [] p ls) :
      Header pos p (ls.take nl) (ls.drop nl)

/-- a block, behind its first bit -/
inductive Block : Nat → List UInt8 → Nat → List UInt8 → Prop
  | stored {pos p n : Nat} {out : List UInt8} (h : peek byte (pos + 1) 2 = 0) (hp : p = (pos + 3 + 7) / 8)
      (hn : n = peek byte (8 * p) 16) (hc : peek byte (8 * p + 16) 16 = n ^^^ 0xffff) :
      Block pos out (8 * (p + 4 + n)) (out ++ (List.range n).map fun j => byte (p + 4 + j))
  | fixed {pos q : Nat} {out o : List UInt8} (h : peek byte (pos + 1) 2 = 1)
      (hs : Symbols byte free fixedLit fixedDist (pos + 3) out q o) : Block pos out q o
  | dynamic {pos p q : Nat} {lit dist : List Nat} {out o : List UInt8} (h : peek byte (pos + 1) 2 = 2)
      (hh : Header byte free pos p lit dist) (hlit : Accepted lit) (hdist : Accepted dist)
      (hs : Symbols byte free lit dist p out q o) : Block pos out q o

/-- a block with a set of at most one code -/
inductive Thin (pos : Nat) : Prop
  | lengths (h : peek byte (pos + 1) 2 = 2) (hs : Sparse (codeLengths byte (pos + 17) (4 + peek byte (pos + 13) 4))) :
      Thin pos
  | codes {p : Nat} {lit dist : List Nat} (h : peek byte (pos + 1) 2 = 2) (hh : Header byte True pos p lit dist)
      (hs : Sparse lit ∨ Sparse dist) : Thin pos

/-- blocks up to the last one -/
inductive Stream : Nat → List UInt8 → Nat → List UInt8 → Prop
  | last {pos q : Nat} {out o : List UInt8} (h : peek byte pos 1 = 1) (hb : Block byte free pos out q o) :
      Stream pos out q o
  | more {pos p q : Nat} {out m o : List UInt8} (h : peek byte pos 1 = 0) (hb : Block byte free pos out p m)
      (rest : Stream p m q o) : Stream pos out q o

/-- the blocks lead to one with a set of at most one code -/
inductive ThinStream : Nat → List UInt8 → Prop
  | here {pos : Nat} {out : List UInt8} (h : Thin byte pos) : ThinStream pos out
  | more {pos p : Nat} {out m : List UInt8} (h : peek byte pos 1 = 0) (hb : Block byte True pos out p m)
      (rest : ThinStream p m) : ThinStream pos out

end

/-! ## one meaning -/

section
variable {byte : Nat → UInt8} {lit dist : List Nat} {pos q k v u n base e dbase de : Nat} {out o : List UInt8}

theorem length_copied (dist n : Nat) (out : List UInt8) : (copied dist n out).length = out.length + n := by
  induction n generalizing out with
  | zero => rfl
  | succ n ih =>
    rw [copied, ih, List.length_append, List.length_singleton]
    omega

theorem Symbols.stop_inv (h : Starts lit (ahead byte pos) 256 k) (hs : Symbols byte False lit dist pos out q o) :
    q = pos + k ∧ o = out := by
  cases hs with
  | stop h' =>
    obtain ⟨-, rfl⟩ := h.unique h'
    exact ⟨rfl, rfl⟩
  | literal h' hv _ =>
    obtain ⟨rfl, -⟩ := h.unique h'
    exact absurd hv (Nat.lt_irrefl _)
  | copy h' _ _ _ _ =>
    obtain ⟨hv, -⟩ := h.unique h'
    omega
  | openLit hf _ => exact hf.elim
  | openDist hf _ _ _ => exact hf.elim

theorem Symbols.literal_inv (h : Starts lit (ahead byte pos) v k) (hv : v < 256)
    (hs : Symbols byte False lit dist pos out q o) :
    Symbols byte False lit dist (pos + k) (out ++ [UInt8.ofNat v]) q o := by
  cases hs with
  | stop h' =>
    obtain ⟨rfl, -⟩ := h.unique h'
    exact absurd hv (Nat.lt_irrefl _)
  | literal h' _ rest =>
    obtain ⟨rfl, rfl⟩ := h.unique h'
    exact rest
  | copy h' _ _ _ _ =>
    obtain ⟨rfl, -⟩ := h.unique h'
    omega
  | openLit hf _ => exact hf.elim
  | openDist hf _ _ _ => exact hf.elim

/-- a length is followed by a distance -/
theorem Symbols.copy_inv (h : Starts lit (ahead byte pos) (257 + v) k)
    (hs : Symbols byte False lit dist pos out q o) :
    ∃ base e u n dbase de, lengthCodes[v]? = some (base, e) ∧ Starts dist (ahead byte (pos + k + e)) u n ∧
      distanceCodes[u]? = some (dbase, de) ∧ Symbols byte False lit dist (pos + k + e + n + de)
        (copied (dbase + peek byte (pos + k + e + n) de) (base + peek byte (pos + k) e) out) q o := by
  cases hs with
  | stop h' =>
    obtain ⟨hv, -⟩ := h.unique h'
    omega
  | literal h' hv _ =>
    obtain ⟨rfl, -⟩ := h.unique h'
    omega
  | copy h' hv hd hu rest =>
    obtain ⟨hvv, rfl⟩ := h.unique h'
    obtain rfl := Nat.add_left_cancel hvv
    exact ⟨_, _, _, _, _, _, hv, hd, hu, rest⟩
  | openLit hf _ => exact hf.elim
  | openDist hf _ _ _ => exact hf.elim

/-- what follows a copy -/
theorem Symbols.copy_rest (h : Starts lit (ahead byte pos) (257 + v) k) (hv : lengthCodes[v]? = some (base, e))
    (hd : Starts dist (ahead byte (pos + k + e)) u n) (hu : distanceCodes[u]? = some (dbase, de))
    (hs : Symbols byte False lit dist pos out q o) :
    Symbols byte False lit dist (pos + k + e + n + de)
      (copied (dbase + peek byte (pos + k + e + n) de) (base + peek byte (pos + k) e) out) q o := by
  obtain ⟨base', e', u', n', dbase', de', hv', hd', hu', rest⟩ := hs.copy_inv h
  rw [hv] at hv'
  obtain ⟨rfl, rfl⟩ := Prod.mk.inj (Option.some.inj hv')
  obtain ⟨rfl, rfl⟩ := hd.unique hd'
  rw [hu] at hu'
  obtain ⟨rfl, rfl⟩ := Prod.mk.inj (Option.some.inj hu')
  exact rest

theorem Symbols.le (hs : Symbols byte False lit dist pos out q o) : pos ≤ q := by
  induction hs with
  | stop h => exact Nat.le_add_right _ _
  | literal h _ _ ih => omega
  | copy h _ _ _ _ ih => omega
  | openLit hf _ => exact hf.elim
  | openDist hf _ _ _ => exact hf.elim

/-- a symbol starts with a code -/
theorem Symbols.starts (hs : Symbols byte False lit dist pos out q o) :
    ∃ v k, Starts lit (ahead byte pos) v k ∧ pos + k ≤ q := by
  cases hs with
  | stop h => exact ⟨_, _, h, le_rfl⟩
  | literal h _ rest => exact ⟨_, _, h, rest.le⟩
  | copy h _ _ _ rest =>
    have := rest.le
    exact ⟨_, _, h, by omega⟩
  | openLit hf _ => exact hf.elim
  | openDist hf _ _ _ => exact hf.elim

/-- the symbols that the bits have to mean are all that they can mean -/
theorem Symbols.det {free : Prop} {q' : Nat} {o' : List UInt8} (hs : Symbols byte False lit dist pos out q o)
    (hs' : Symbols byte free lit dist pos out q' o') : q' = q ∧ o' = o := by
  induction hs with
  | stop h =>
    cases hs' with
    | stop h' =>
      obtain ⟨-, rfl⟩ := h.unique h'
      exact ⟨rfl, rfl⟩
    | literal h' hv _ =>
      obtain ⟨rfl, -⟩ := h.unique h'
      exact absurd hv (Nat.lt_irrefl _)
    | copy h' _ _ _ _ =>
      obtain ⟨hv, -⟩ := h.unique h'
      omega
    | openLit _ h' => exact absurd h (h'.2 _ _)
    | openDist _ h' _ _ =>
      obtain ⟨hv, -⟩ := h.unique h'
      omega
  | literal h hv _ ih =>
    cases hs' with
    | stop h' =>
      obtain ⟨rfl, -⟩ := h.unique h'
      exact absurd hv (Nat.lt_irrefl _)
    | literal h' _ rest =>
      obtain ⟨rfl, rfl⟩ := h.unique h'
      exact ih rest
    | copy h' _ _ _ _ =>
      obtain ⟨rfl, -⟩ := h.unique h'
      omega
    | openLit _ h' => exact absurd h (h'.2 _ _)
    | openDist _ h' _ _ =>
      obtain ⟨rfl, -⟩ := h.unique h'
      omega
  | copy h hv hd hu _ ih =>
    cases hs' with
    | stop h' =>
      obtain ⟨hv', -⟩ := h.unique h'
      omega
    | literal h' hv' _ =>
      obtain ⟨rfl, -⟩ := h.unique h'
      omega
    | copy h' hv' hd' hu' rest =>
      obtain ⟨hvv, rfl⟩ := h.unique h'
      obtain rfl := Nat.add_left_cancel hvv
      rw [hv] at hv'
      obtain ⟨rfl, rfl⟩ := Prod.mk.inj (Option.some.inj hv')
      obtain ⟨rfl, rfl⟩ := hd.unique hd'
      rw [hu] at hu'
      obtain ⟨rfl, rfl⟩ := Prod.mk.inj (Option.some.inj hu')
      exact ih rest
    | openLit _ h' => exact absurd h (h'.2 _ _)
    | openDist _ h' hv' hd' =>
      obtain ⟨hvv, rfl⟩ := h.unique h'
      obtain rfl := Nat.add_left_cancel hvv
      rw [hv] at hv'
      obtain ⟨rfl, rfl⟩ := Prod.mk.inj (Option.some.inj hv')
      exact absurd hd (hd'.2 _ _)
  | openLit hf _ => exact hf.elim
  | openDist hf _ _ _ => exact hf.elim

end

section
variable {byte : Nat → UInt8} {free : Prop} {cl ls ls' lit dist lit' dist' : List Nat} {pos p p' q q' k v n : Nat}
  {out o o' : List UInt8}

theorem CodeLengths.le (h : CodeLengths byte False cl n pos ls p ls') : pos ≤ p := by
  induction h with
  | done _ => exact le_rfl
  | length _ _ _ _ ih => omega
  | again _ _ _ _ _ _ ih => omega
  | openCode hf _ _ _ => exact hf.elim

theorem CodeLengths.length_eq (h : CodeLengths byte free cl n pos ls p ls') (hle : ls.length ≤ n) :
    ls'.length = n := by
  induction h with
  | done h => exact h
  | length hlt _ _ _ ih =>
    exact ih (by rw [List.length_append, List.length_singleton]; exact hlt)
  | again _ _ _ _ hall _ ih =>
    exact ih (by rw [List.length_append, List.length_replicate]; exact hall)
  | openCode _ _ ho _ => exact ho

/-- a length starts with a code -/
theorem CodeLengths.starts (h : CodeLengths byte False cl n pos ls p ls') (hlt : ls.length < n) :
    ∃ v k, Starts cl (ahead byte pos) v k ∧ pos + k ≤ p := by
  cases h with
  | done h => exact absurd h hlt.ne
  | length _ h _ rest => exact ⟨_, _, h, rest.le⟩
  | again _ h _ _ _ rest =>
    have := rest.le
    exact ⟨_, _, h, by omega⟩
  | openCode hf _ _ _ => exact hf.elim

theorem CodeLengths.length_inv (h : Starts cl (ahead byte pos) v k) (hv : v < 16) (hlt : ls.length < n)
    (hc : CodeLengths byte False cl n pos ls p ls') : CodeLengths byte False cl n (pos + k) (ls ++ [v]) p ls' := by
  cases hc with
  | done h => exact absurd h hlt.ne
  | length _ h' _ rest =>
    obtain ⟨rfl, rfl⟩ := h.unique h'
    exact rest
  | again _ h' hv' _ _ _ =>
    obtain ⟨rfl, -⟩ := h.unique h'
    omega
  | openCode hf _ _ _ => exact hf.elim

theorem CodeLengths.again_inv {x times e : Nat} (h : Starts cl (ahead byte pos) v k) (hv : 16 ≤ v)
    (hlt : ls.length < n) (hr : repeats ls v = (x, times, e)) (hc : CodeLengths byte False cl n pos ls p ls') :
    ls.length + (times + peek byte (pos + k) e) ≤ n ∧ CodeLengths byte False cl n (pos + k + e)
      (ls ++ List.replicate (times + peek byte (pos + k) e) x) p ls' := by
  cases hc with
  | done h => exact absurd h hlt.ne
  | length _ h' hv' _ =>
    obtain ⟨rfl, -⟩ := h.unique h'
    omega
  | again _ h' _ hr' hle rest =>
    obtain ⟨rfl, rfl⟩ := h.unique h'
    rw [hr] at hr'
    cases hr'
    exact ⟨hle, rest⟩
  | openCode hf _ _ _ => exact hf.elim

theorem CodeLengths.det (h : CodeLengths byte False cl n pos ls p ls') {ls'' : List Nat}
    (h' : CodeLengths byte free cl n pos ls p' ls'') : p' = p ∧ ls'' = ls' := by
  induction h with
  | done hlen =>
    cases h' with
    | done _ => exact ⟨rfl, rfl⟩
    | length hlt _ _ _ => exact absurd hlen hlt.ne
    | again hlt _ _ _ _ _ => exact absurd hlen hlt.ne
    | openCode _ hlt _ _ => exact absurd hlen hlt.ne
  | length hlt h hv _ ih =>
    cases h' with
    | done hlen => exact absurd hlen hlt.ne
    | length _ h' _ rest =>
      obtain ⟨rfl, rfl⟩ := h.unique h'
      exact ih rest
    | again _ h' hv' _ _ _ =>
      obtain ⟨rfl, -⟩ := h.unique h'
      omega
    | openCode _ _ _ h' => exact absurd h (h'.2 _ _)
  | again hlt h hv hr _ _ ih =>
    cases h' with
    | done hlen => exact absurd hlen hlt.ne
    | length _ h' hv' _ =>
      obtain ⟨rfl, -⟩ := h.unique h'
      omega
    | again _ h' _ hr' _ rest =>
      obtain ⟨rfl, rfl⟩ := h.unique h'
      rw [hr] at hr'
      cases hr'
      exact ih rest
    | openCode _ _ _ h' => exact absurd h (h'.2 _ _)
  | openCode hf _ _ _ => exact hf.elim

theorem Header.det (h : Header byte False pos p lit dist) (h' : Header byte free pos p' lit' dist') :
    p' = p ∧ lit' = lit ∧ dist' = dist := by
  obtain ⟨rfl, rfl, rfl, -, -, -, hls⟩ := h
  obtain ⟨rfl, rfl, rfl, -, -, -, hls'⟩ := h'
  obtain ⟨rfl, rfl⟩ := hls.det hls'
  exact ⟨rfl, rfl, rfl⟩

/-- a block takes bits -/
theorem Block.lt (h : Block byte False pos out q o) : pos < q := by
  cases h with
  | stored _ hp _ _ => omega
  | fixed _ hs =>
    have := hs.le
    omega
  | dynamic _ hh _ _ hs =>
    obtain ⟨-, -, -, -, -, -, hls⟩ := hh
    have := hls.le
    have := hs.le
    omega

theorem Block.det (h : Block byte False pos out q o) (h' : Block byte free pos out q' o') : q' = q ∧ o' = o := by
  cases h with
  | stored ht hp hn _ =>
    cases h' with
    | stored _ hp' hn' _ =>
      subst hp hn hp' hn'
      exact ⟨rfl, rfl⟩
    | fixed ht' _ => omega
    | dynamic ht' _ _ _ _ => omega
  | fixed ht hs =>
    cases h' with
    | stored ht' _ _ _ => omega
    | fixed _ hs' => exact hs.det hs'
    | dynamic ht' _ _ _ _ => omega
  | dynamic ht hh _ _ hs =>
    cases h' with
    | stored ht' _ _ _ => omega
    | fixed ht' _ => omega
    | dynamic _ hh' _ _ hs' =>
      obtain ⟨rfl, rfl, rfl⟩ := hh.det hh'
      exact hs.det hs'

/-- what a stream has to mean is all that it can mean -/
theorem Stream.det (h : Stream byte False pos out q o) (h' : Stream byte free pos out q' o') : q' = q ∧ o' = o := by
  induction h with
  | last ht hb =>
    cases h' with
    | last _ hb' => exact hb.det hb'
    | more ht' _ _ => omega
  | more ht hb _ ih =>
    cases h' with
    | last ht' _ => omega
    | more _ hb' rest =>
      obtain ⟨rfl, rfl⟩ := hb.det hb'
      exact ih rest

theorem Stream.lt (h : Stream byte False pos out q o) : pos < q := by
  induction h with
  | last _ hb => exact hb.lt
  | more _ hb _ ih => exact hb.lt.trans ih

/-! ## sets with at most one code -/

theorem Symbols.closed (hlit : ¬ Sparse lit) (hdist : ¬ Sparse dist) (h : Symbols byte free lit dist pos out q o) :
    Symbols byte False lit dist pos out q o := by
  induction h with
  | stop h => exact .stop h
  | literal h hv _ ih => exact .literal h hv ih
  | copy h hv hd hu _ ih => exact .copy h hv hd hu ih
  | openLit _ h => exact absurd h.1 hlit
  | openDist _ _ _ hd => exact absurd hd.1 hdist

theorem CodeLengths.closed (hcl : ¬ Sparse cl) (h : CodeLengths byte free cl n pos ls p ls') :
    CodeLengths byte False cl n pos ls p ls' := by
  induction h with
  | done h => exact .done h
  | length hlt h hv _ ih => exact .length hlt h hv ih
  | again hlt h hv hr hle _ ih => exact .again hlt h hv hr hle ih
  | openCode _ _ _ h => exact absurd h.1 hcl

theorem not_sparse_fixed : ¬ Sparse fixedLit ∧ ¬ Sparse fixedDist := by
  unfold Sparse
  decide +kernel

theorem Block.closed (hthin : ¬ Thin byte pos) (h : Block byte True pos out q o) : Block byte False pos out q o := by
  cases h with
  | stored h hp hn hc => exact .stored h hp hn hc
  | fixed h hs => exact .fixed h (hs.closed not_sparse_fixed.1 not_sparse_fixed.2)
  | dynamic h hh hlit hdist hs =>
    have hcodes : ¬ (Sparse _ ∨ Sparse _) := fun hsp => hthin (.codes h hh hsp)
    have hsyms := hs.closed (fun hsp => hcodes (.inl hsp)) fun hsp => hcodes (.inr hsp)
    obtain ⟨rfl, rfl, rfl, hnl, hnd, hcl, hls⟩ := hh
    exact .dynamic h (.mk rfl rfl rfl hnl hnd hcl (hls.closed fun hsp => hthin (.lengths h hsp))) hlit hdist hsyms

/-- without such a set, a stream that can have a meaning has it -/
theorem Stream.closed (h : Stream byte True pos out q o) (hthin : ¬ ThinStream byte pos out) :
    Stream byte False pos out q o := by
  induction h with
  | last ht hb => exact .last ht (hb.closed fun h => hthin (.here h))
  | more ht hb _ ih => exact .more ht (hb.closed fun h => hthin (.here h)) (ih fun h => hthin (.more ht hb h))

end

/-! ## only the bits of a stream matter -/

section
variable {byte byte' : Nat → UInt8} {b cl ls ls' lit dist : List Nat} {pos p q k v n nb : Nat} {out o : List UInt8}

theorem starts_congr (h : ∀ j, 8 * j < pos + k → byte j = byte' j) (hs : Starts b (ahead byte pos) v k) :
    Starts b (ahead byte' pos) v k := by
  refine ⟨hs.length, hs.pos, ?_⟩
  have hmod : ahead byte' pos % 2 ^ k = ahead byte pos % 2 ^ k := by
    by_cases hk : k ≤ 32
    · rw [ahead, ahead, peek_mod hk, peek_mod hk, peek_congr h]
    · rw [ahead, ahead, peek_congr fun j hj => h j (by omega)]
  rw [hmod]
  exact hs.code

theorem Symbols.congr (hs : Symbols byte False lit dist pos out q o) (h : ∀ j, 8 * j < q → byte j = byte' j) :
    Symbols byte' False lit dist pos out q o := by
  induction hs with
  | stop hv => exact .stop (starts_congr h hv)
  | literal hv hlt rest ih =>
    have hle := rest.le
    exact .literal (starts_congr (fun j hj => h j (by omega)) hv) hlt (ih h)
  | @copy pos v k base e u n dbase de q out o hv hbase hu hdbase rest ih =>
    have hle := rest.le
    have hpeek : peek byte (pos + k) e = peek byte' (pos + k) e := peek_congr fun j hj => h j (by omega)
    have hdpeek : peek byte (pos + k + e + n) de = peek byte' (pos + k + e + n) de :=
      peek_congr fun j hj => h j (by omega)
    have hrest := ih h
    rw [hpeek, hdpeek] at hrest
    exact .copy (starts_congr (fun j hj => h j (by omega)) hv) hbase (starts_congr (fun j hj => h j (by omega)) hu)
      hdbase hrest
  | openLit hf _ => exact hf.elim
  | openDist hf _ _ _ => exact hf.elim

theorem CodeLengths.congr (hc : CodeLengths byte False cl n pos ls p ls') (h : ∀ j, 8 * j < p → byte j = byte' j) :
    CodeLengths byte' False cl n pos ls p ls' := by
  induction hc with
  | done hlen => exact .done hlen
  | length hlt hv h16 rest ih =>
    have hle := rest.le
    exact .length hlt (starts_congr (fun j hj => h j (by omega)) hv) h16 (ih h)
  | @again pos v k x times e q ls o hlt hv h16 hr hall rest ih =>
    have hle := rest.le
    have hpeek : peek byte (pos + k) e = peek byte' (pos + k) e := peek_congr fun j hj => h j (by omega)
    have hrest := ih h
    rw [hpeek] at hall hrest
    exact .again hlt (starts_congr (fun j hj => h j (by omega)) hv) h16 hr hall hrest
  | openCode hf _ _ _ => exact hf.elim

theorem codeLengths_congr (h : ∀ j, 8 * j < pos + 3 * nb → byte j = byte' j) :
    codeLengths byte pos nb = codeLengths byte' pos nb := by
  refine List.map_congr_left fun v _ => ?_
  by_cases hv : order.idxOf v < nb
  · rw [if_pos hv, if_pos hv, peek_congr fun j hj => h j (by omega)]
  · rw [if_neg hv, if_neg hv]

theorem Header.congr (hh : Header byte False pos p lit dist) (h : ∀ j, 8 * j < p → byte j = byte' j) :
    Header byte' False pos p lit dist := by
  obtain ⟨hl, hd, hb, hnl, hnd, hcl, hls⟩ := hh
  have hle := hls.le
  rw [peek_congr fun j hj => h j (by omega)] at hl hd hb
  rw [codeLengths_congr fun j hj => h j (by omega)] at hcl hls
  exact .mk hl hd hb hnl hnd hcl (hls.congr h)

theorem Header.le (hh : Header byte False pos p lit dist) : pos + 17 ≤ p := by
  obtain ⟨-, -, -, -, -, -, hls⟩ := hh
  have := hls.le
  omega

theorem Block.congr (hb : Block byte False pos out q o) (h : ∀ j, 8 * j < q → byte j = byte' j) :
    Block byte' False pos out q o := by
  have hlt := hb.lt
  cases hb with
  | @stored p n _ ht hp hn hc =>
    rw [peek_congr fun j hj => h j (by omega)] at ht hn hc
    have hmap : (List.range n).map (fun j => byte (p + 4 + j)) = (List.range n).map fun j => byte' (p + 4 + j) :=
      List.map_congr_left fun j hj => h (p + 4 + j) (by have := List.mem_range.mp hj; omega)
    rw [hmap]
    exact .stored ht hp hn hc
  | fixed ht hs =>
    have hle := hs.le
    rw [peek_congr fun j hj => h j (by omega)] at ht
    exact .fixed ht (hs.congr h)
  | dynamic ht hh hlit hdist hs =>
    have hle := hs.le
    have hle' := hh.le
    rw [peek_congr fun j hj => h j (by omega)] at ht
    exact .dynamic ht (hh.congr fun j hj => h j (by omega)) hlit hdist (hs.congr h)

/-- the meaning of a stream depends on its own bits only -/
theorem Stream.congr (hs : Stream byte False pos out q o) (h : ∀ j, 8 * j < q → byte j = byte' j) :
    Stream byte' False pos out q o := by
  induction hs with
  | last ht hb =>
    have := hb.lt
    rw [peek_congr fun j hj => h j (by omega)] at ht
    exact .last ht (hb.congr h)
  | more ht hb rest ih =>
    have hlt := hb.lt
    have hlt' := rest.lt
    rw [peek_congr fun j hj => h j (by omega)] at ht
    exact .more ht (hb.congr fun j hj => h j (by omega)) (ih h)

end

end Deflate
