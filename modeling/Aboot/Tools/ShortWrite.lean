import Aboot.Tools.Objstrip

/-!
# objstrip with short writes

The system may take fewer bytes than it is given.  The loop that copies the image gives it the rest of
a buffer from the start of the buffer again; the loop that stores zeros can do so.

* `copyShort`, `zeroShort`   the two loops, over any way to split the output;
* `objstripShort_whole`      nothing is split: the output of `objstrip`;
* `pieces`, `Repeats`        the writes of the copy loop, and when each of them stores what it should;
* `image`                    the output that is meant;
* `objstrip_image_iff`       when the output is that.
-/

set_option linter.unusedVariables false

namespace Objstrip
open Word Bytes
open Load (e_type e_machine e_entry e_phoff ET_EXEC EM_ALPHA sizeof_Phdr)

/-! ## the loops -/

/-- what the system makes of the output: the number of bytes that the `k`-th `write` of `n` bytes takes -/
structure Splitting where
  count : (k n : Nat) → Nat
  pos : ∀ k n, 0 < n → 0 < count k n
  le : ∀ k n, count k n ≤ n

/-- every write takes all -/
def Splitting.whole : Splitting where
  count _ n := n
  pos _ _ h := h
  le _ n := Nat.le_refl n

variable (w : Splitting)

/-- the writes of one buffer: `n` bytes are left, and each write starts at the start of the buffer.
What is written, and the number of the next write -/
def writeBuf (buf : List UInt8) : (fuel : Nat) → (n k : Nat) → List UInt8 × Nat
  | 0, _, k => ([], k)
  | fuel + 1, n, k =>
    if n - w.count k n = 0 then (buf.take (w.count k n), k + 1)
    else
      let r := writeBuf buf fuel (n - w.count k n) (k + 1)
      (buf.take (w.count k n) ++ r.1, r.2)

/-- copy `tocopy` bytes of the input through the buffer; a short read is an error -/
def copyShort : (fuel : Nat) → (tocopy : Nat) → (input : List UInt8) → (k : Nat) →
    Option (List UInt8 × Nat)
  | 0, _, _, k => some ([], k)
  | fuel + 1, tocopy, input, k =>
    if tocopy = 0 then some ([], k)
    else
      let n := min tocopy sizeof_buf
      if (input.take n).length ≠ n then none
      else
        let r := writeBuf w (input.take n) n n k
        (copyShort fuel (tocopy - n) (input.drop n) r.2).map fun q => (r.1 ++ q.1, q.2)

def zeroShort : (fuel : Nat) → (tocopy k : Nat) → List UInt8
  | 0, _, _ => []
  | fuel + 1, tocopy, k =>
    let nwritten := w.count k (min tocopy sizeof_buf)
    List.replicate nwritten 0 ++
      if tocopy - nwritten = 0 then [] else zeroShort fuel (tocopy - nwritten) (k + 1)

/-- the output for an extent; a `pad` of 0 is no padding -/
def stripShort (pad : Nat) (file : File) (e : Extent) : Option (List UInt8) :=
  if e.offset < 0 then none
  else
    let mem_size := if pad = 0 then e.mem_size
      else uns 64 (uns 64 (e.mem_size + pad - 1) / pad * pad : Nat)
    let tocopy := uns 64 ((mem_size : Int) - e.fil_size)
    (copyShort w e.fil_size e.fil_size (file.bytes.drop e.offset.toNat) 0).map fun out =>
      out.1 ++ if tocopy = 0 then [] else zeroShort w tocopy tocopy out.2

/-- `objstrip file` -/
def objstripShort (stack : Mem) (ecoff : Mem → Option Extent) (pad : Nat) (file : File) :
    Option (List UInt8) :=
  let buf := stack.put 0 (file.bytes.take sizeof_buf)
  (if isElf buf then elfExtent file buf else ecoff buf).bind (stripShort w pad file)

/-- zeros are zeros -/
theorem zeroShort_eq (fuel : Nat) : ∀ tocopy k, 0 < tocopy → tocopy ≤ fuel →
    zeroShort w fuel tocopy k = List.replicate tocopy 0 := by
  induction fuel with
  | zero =>
    intro tocopy k hpos hle
    omega
  | succ fuel ih =>
    intro tocopy k hpos hle
    have hmin : 0 < min tocopy sizeof_buf := Nat.lt_min.mpr ⟨hpos, by decide⟩
    have hcount := w.pos k _ hmin
    have hcount' := w.le k (min tocopy sizeof_buf)
    have hmin' : min tocopy sizeof_buf ≤ tocopy := Nat.min_le_left _ _
    unfold zeroShort
    dsimp only
    by_cases h0 : tocopy - w.count k (min tocopy sizeof_buf) = 0
    · rw [if_pos h0, List.append_nil]
      congr 1
      omega
    · rw [if_neg h0, ih _ _ (by omega) (by omega), List.replicate_append_replicate]
      congr 1
      omega

theorem zeroShort_all (n k : Nat) :
    (if n = 0 then [] else zeroShort w n n k) = List.replicate n 0 := by
  by_cases h0 : n = 0
  · rw [if_pos h0, h0]
    rfl
  · rw [if_neg h0]
    exact zeroShort_eq w n n k (Nat.pos_of_ne_zero h0) (Nat.le_refl n)

/-! ## what the copy loop writes -/

/-- one write of the copy loop: the buffer, how much of it was taken before, and how much is now -/
structure Piece where
  buf : List UInt8
  done : Nat
  count : Nat

/-- the bytes that are written -/
def Piece.written (p : Piece) : List UInt8 := p.buf.take p.count

/-- the bytes that should be written -/
def Piece.meant (p : Piece) : List UInt8 := (p.buf.drop p.done).take p.count

/-- the writes of one buffer -/
def bufPieces (buf : List UInt8) : (fuel : Nat) → (n k : Nat) → List Piece
  | 0, _, _ => []
  | fuel + 1, n, k =>
    ⟨buf, buf.length - n, w.count k n⟩ ::
      if n - w.count k n = 0 then [] else bufPieces buf fuel (n - w.count k n) (k + 1)

/-- the writes of the copy loop -/
def pieces : (fuel : Nat) → (tocopy : Nat) → (input : List UInt8) → (k : Nat) → List Piece
  | 0, _, _, _ => []
  | fuel + 1, tocopy, input, k =>
    if tocopy = 0 then []
    else
      let n := min tocopy sizeof_buf
      let ps := bufPieces w (input.take n) n n k
      ps ++ pieces fuel (tocopy - n) (input.drop n) (k + ps.length)

/-- every write stores what it should: a write that goes on in a buffer starts with its start again -/
def Repeats (ps : List Piece) : Prop := ∀ p ∈ ps, p.written = p.meant

/-- two concatenations of parts of equal lengths are equal if all the parts are -/
theorem flatMap_eq_iff {α β : Type} {l : List α} {f g : α → List β}
    (h : ∀ a ∈ l, (f a).length = (g a).length) : l.flatMap f = l.flatMap g ↔ ∀ a ∈ l, f a = g a := by
  induction l with
  | nil => exact iff_of_true rfl fun a ha => absurd ha List.not_mem_nil
  | cons a l ih =>
    have htail := ih fun b hb => h b (List.mem_cons_of_mem a hb)
    rw [List.flatMap_cons, List.flatMap_cons]
    constructor
    · intro he
      obtain ⟨ha, hl⟩ := List.append_inj he (h a List.mem_cons_self)
      intro b hb
      rcases List.mem_cons.mp hb with rfl | hb
      · exact ha
      · exact htail.mp hl b hb
    · intro he
      rw [he a List.mem_cons_self, htail.mpr fun b hb => he b (List.mem_cons_of_mem a hb)]

theorem flatMap_length {α β : Type} {l : List α} {f g : α → List β}
    (h : ∀ a ∈ l, (f a).length = (g a).length) : (l.flatMap f).length = (l.flatMap g).length := by
  rw [List.length_flatMap, List.length_flatMap, List.map_congr_left h]

theorem append_replicate_iff {α : Type} {l l' : List α} {a : α} {m n : Nat}
    (h : l.length = l'.length) :
    l ++ List.replicate m a = l' ++ List.replicate n a ↔ l = l' ∧ m = n := by
  constructor
  · intro he
    obtain ⟨hl, hr⟩ := List.append_inj he h
    have hlen := congrArg List.length hr
    rw [List.length_replicate, List.length_replicate] at hlen
    exact ⟨hl, hlen⟩
  · rintro ⟨rfl, rfl⟩
    rfl

section
variable (buf : List UInt8)

theorem writeBuf_pieces (fuel : Nat) : ∀ n k,
    (writeBuf w buf fuel n k).1 = (bufPieces w buf fuel n k).flatMap Piece.written := by
  induction fuel with
  | zero => exact fun n k => rfl
  | succ fuel ih =>
    intro n k
    unfold writeBuf bufPieces
    rw [List.flatMap_cons]
    by_cases h0 : n - w.count k n = 0
    · rw [if_pos h0, if_pos h0]
      exact (List.append_nil _).symm
    · rw [if_neg h0, if_neg h0]
      dsimp only
      rw [ih]
      rfl

/-- every write is numbered -/
theorem writeBuf_snd (fuel : Nat) : ∀ n k,
    (writeBuf w buf fuel n k).2 = k + (bufPieces w buf fuel n k).length := by
  induction fuel with
  | zero => exact fun n k => rfl
  | succ fuel ih =>
    intro n k
    unfold writeBuf bufPieces
    rw [List.length_cons]
    by_cases h0 : n - w.count k n = 0
    · rw [if_pos h0, if_pos h0]
      rfl
    · rw [if_neg h0, if_neg h0]
      dsimp only
      rw [ih]
      omega

/-- what should be written of a buffer with `n` bytes left is those bytes -/
theorem bufPieces_meant (fuel : Nat) : ∀ n k, 0 < n → n ≤ fuel → n ≤ buf.length →
    (bufPieces w buf fuel n k).flatMap Piece.meant = buf.drop (buf.length - n) := by
  induction fuel with
  | zero =>
    intro n k hpos hle
    omega
  | succ fuel ih =>
    intro n k hpos hle hlen
    have hcount := w.pos k n hpos
    have hcount' := w.le k n
    unfold bufPieces
    rw [List.flatMap_cons]
    show (buf.drop (buf.length - n)).take (w.count k n) ++ _ = _
    by_cases h0 : n - w.count k n = 0
    · rw [if_pos h0, List.flatMap_nil, List.append_nil]
      apply List.take_of_length_le
      rw [List.length_drop]
      omega
    · rw [if_neg h0, ih _ _ (by omega) (by omega) (by omega)]
      have hdrop : buf.drop (buf.length - (n - w.count k n))
          = (buf.drop (buf.length - n)).drop (w.count k n) := by
        rw [List.drop_drop]
        congr 1
        omega
      rw [hdrop, List.take_append_drop]

theorem bufPieces_length (fuel : Nat) : ∀ n k, n ≤ buf.length → ∀ p ∈ bufPieces w buf fuel n k,
    p.written.length = p.meant.length := by
  induction fuel with
  | zero =>
    intro n k hlen p hp
    cases hp
  | succ fuel ih =>
    intro n k hlen p hp
    have hcount := w.le k n
    unfold bufPieces at hp
    rcases List.mem_cons.mp hp with rfl | hp
    · simp only [Piece.written, Piece.meant, List.length_take, List.length_drop]
      omega
    · split at hp
      · cases hp
      · exact ih _ _ (by omega) p hp

end

/-- the copy loop reads its bytes, and writes the pieces that stand for them -/
theorem copyShort_pieces (fuel : Nat) : ∀ (n : Nat) (input : List UInt8) (k : Nat)
    (r : List UInt8 × Nat), n ≤ fuel → copyShort w fuel n input k = some r →
    n ≤ input.length ∧ r.1 = (pieces w fuel n input k).flatMap Piece.written ∧
      (pieces w fuel n input k).flatMap Piece.meant = input.take n ∧
      ∀ p ∈ pieces w fuel n input k, p.written.length = p.meant.length := by
  induction fuel with
  | zero =>
    intro n input k r hn h
    obtain rfl : n = 0 := by omega
    obtain rfl := Option.some.inj h
    exact ⟨Nat.zero_le _, rfl, rfl, fun p hp => absurd hp List.not_mem_nil⟩
  | succ fuel ih =>
    intro n input k r hn h
    unfold copyShort at h
    unfold pieces
    by_cases h0 : n = 0
    · rw [if_pos h0] at h
      rw [if_pos h0, h0]
      obtain rfl := Option.some.inj h
      exact ⟨Nat.zero_le _, rfl, rfl, fun p hp => absurd hp List.not_mem_nil⟩
    rw [if_neg h0] at h ⊢
    dsimp only at h ⊢
    by_cases hlen : (input.take (min n sizeof_buf)).length ≠ min n sizeof_buf
    · rw [if_pos hlen] at h
      cases h
    rw [if_neg hlen] at h
    have hlen := not_not.mp hlen
    obtain ⟨q, hq, rfl⟩ := Option.map_eq_some_iff.mp h
    have hpos : 0 < min n sizeof_buf := Nat.lt_min.mpr ⟨by omega, by decide⟩
    have hmin : min n sizeof_buf ≤ n := Nat.min_le_left _ _
    rw [writeBuf_snd] at hq
    obtain ⟨hle, hout, hmeant, heq⟩ := ih _ _ _ q (by omega) hq
    have hbuf := bufPieces_meant w (input.take (min n sizeof_buf)) (min n sizeof_buf)
      (min n sizeof_buf) k hpos (Nat.le_refl _) hlen.ge
    rw [hlen, Nat.sub_self, List.drop_zero] at hbuf
    rw [List.length_take] at hlen
    rw [List.length_drop] at hle
    refine ⟨by omega, ?_, ?_, ?_⟩
    · rw [List.flatMap_append, hout, writeBuf_pieces]
    · rw [List.flatMap_append, hbuf, hmeant, ← List.take_add]
      congr 1
      omega
    · intro p hp
      rcases List.mem_append.mp hp with hp | hp
      · exact bufPieces_length w _ _ _ _ (by rw [List.length_take]; omega) p hp
      · exact heq p hp

/-! ## the output that is meant -/

/-- the first program header of an executable, as the file has it -/
structure Phdr where
  p_offset : Nat
  p_vaddr : Nat
  p_filesz : Nat
  p_memsz : Nat

def phdrOf (file : File) : Phdr where
  p_offset := file.mem.le64 (e_phoff file.mem + 8)
  p_vaddr := file.mem.le64 (e_phoff file.mem + 16)
  p_filesz := file.mem.le64 (e_phoff file.mem + 32)
  p_memsz := file.mem.le64 (e_phoff file.mem + 40)

/-- an entry point behind the start of the segment is the start -/
def delta (file : File) : Nat := e_entry file.mem - (phdrOf file).p_vaddr

/-- an ELF file whose first program header and its segment are in the file -/
structure Segment (file : File) : Prop where
  header : 64 ≤ file.bytes.length
  elf : isElf file.mem = true
  phdr : e_phoff file.mem + sizeof_Phdr ≤ file.bytes.length
  inside : (phdrOf file).p_offset + (phdrOf file).p_filesz ≤ file.bytes.length
  entry : delta file ≤ (phdrOf file).p_filesz
  size : (phdrOf file).p_filesz ≤ (phdrOf file).p_memsz

/-- the size in memory, in whole sectors with padding -/
def imageSize (pad : Nat) (file : File) : Nat :=
  if pad = 0 then (phdrOf file).p_memsz - delta file
  else ((phdrOf file).p_memsz - delta file + pad - 1) / pad * pad

/-- the bytes of the segment from the entry point on -/
def segment (file : File) : List UInt8 :=
  (file.bytes.drop ((phdrOf file).p_offset + delta file)).take ((phdrOf file).p_filesz - delta file)

/-- the segment, and zeros up to its size -/
def image (pad : Nat) (file : File) : List UInt8 :=
  segment file ++ List.replicate (imageSize pad file - ((phdrOf file).p_filesz - delta file)) 0

/-- the extent that the header gives -/
def extentOf (file : File) : Extent where
  offset := ((phdrOf file).p_offset + delta file : Nat)
  mem_size := (phdrOf file).p_memsz - delta file
  fil_size := (phdrOf file).p_filesz - delta file

theorem le64_lt (m : Mem) (a : Nat) : m.le64 a < 18446744073709551616 := Mem.le_lt m 8 a

/-- an extent in range is what the header says, moved to the entry point -/
theorem extent_moved {o v f m e : Nat} (hin : o + f < 9223372036854775808) (hd : e - v ≤ f) (hf : f ≤ m)
    (hm : m < 18446744073709551616) :
    (if v < e then
      (⟨sgn 64 (sgn 64 o + (e - v : Nat)), uns 64 ((m : Int) - (e - v : Nat)),
        uns 64 ((f : Int) - (e - v : Nat))⟩ : Extent)
    else ⟨sgn 64 o, m, f⟩) = ⟨(o + (e - v) : Nat), m - (e - v), f - (e - v)⟩ := by
  have ho : sgn 64 o = o := sgn64_natCast (by omega)
  by_cases hv : v < e
  · have e1 : sgn 64 ((o : Int) + (e - v : Nat)) = (o + (e - v) : Nat) := by
      rw [← Nat.cast_add]
      exact sgn64_natCast (by omega)
    have e2 : uns 64 ((m : Int) - (e - v : Nat)) = m - (e - v) := by
      rw [← Nat.cast_sub (by omega)]
      exact uns64_natCast (by omega)
    have e3 : uns 64 ((f : Int) - (e - v : Nat)) = f - (e - v) := by
      rw [← Nat.cast_sub hd]
      exact uns64_natCast (by omega)
    rw [if_pos hv, ho, e1, e2, e3]
  · have h0 : e - v = 0 := by omega
    rw [if_neg hv, ho, h0, Nat.add_zero, Nat.sub_zero, Nat.sub_zero]

theorem phdrExtent_eq {file : File} {buf : Mem} (h : Segment file)
    (hoff : buf.le64 8 = (phdrOf file).p_offset) (hvaddr : buf.le64 16 = (phdrOf file).p_vaddr)
    (hfil : buf.le64 32 = (phdrOf file).p_filesz) (hmem : buf.le64 40 = (phdrOf file).p_memsz) :
    phdrExtent (e_entry file.mem) buf = extentOf file := by
  have hlt := file.size_lt
  have hin : (phdrOf file).p_offset + (phdrOf file).p_filesz < 9223372036854775808 := by
    have h1 := h.inside
    omega
  unfold phdrExtent
  rw [hoff, hvaddr, hfil, hmem]
  exact extent_moved hin h.entry h.size (le64_lt _ _)

/-- the buffer has the header of the file -/
theorem isElf_buf {stack : Mem} {file : File} (h : 64 ≤ file.bytes.length) :
    isElf (stack.put 0 (file.bytes.take sizeof_buf)) = isElf file.mem := by
  have hbyte : ∀ k, k < 64 → stack.put 0 (file.bytes.take sizeof_buf) k = file.mem k :=
    fun k hk => put_take (by unfold sizeof_buf; omega) (by omega)
  unfold isElf
  rw [hbyte 0 (by decide), hbyte 1 (by decide), hbyte 2 (by decide), hbyte 3 (by decide)]

/-- the program header is found, and its extent is that of the file -/
theorem elfExtent_eq {stack : Mem} {file : File} {e : Extent} (h : Segment file)
    (he : elfExtent file (stack.put 0 (file.bytes.take sizeof_buf)) = some e) : e = extentOf file := by
  have hoff : e_phoff (stack.put 0 (file.bytes.take sizeof_buf)) = e_phoff file.mem :=
    header_eq (a := 32) (k := 8) stack h.header (by decide)
  have hent : e_entry (stack.put 0 (file.bytes.take sizeof_buf)) = e_entry file.mem :=
    header_eq (a := 24) (k := 8) stack h.header (by decide)
  have hpos : 0 ≤ sgn 64 (e_phoff file.mem) := by
    have h1 := h.phdr
    have h2 := file.size_lt
    rw [sgn64_natCast (by omega)]
    exact Int.natCast_nonneg _
  unfold elfExtent at he
  rw [hoff, hent, if_pos hpos] at he
  generalize stack.put 0 (file.bytes.take sizeof_buf) = buf at he
  by_cases h1 : e_type buf ≠ ET_EXEC
  · rw [if_pos h1] at he
    cases he
  rw [if_neg h1] at he
  by_cases h2 : e_machine buf ≠ EM_ALPHA
  · rw [if_pos h2] at he
    cases he
  rw [if_neg h2] at he
  dsimp only at he
  by_cases h3 : ((file.bytes.drop (e_phoff file.mem)).take sizeof_Phdr).length ≠ sizeof_Phdr
  · rw [if_pos h3] at he
    cases he
  rw [if_neg h3] at he
  rw [← Option.some.inj he]
  apply phdrExtent_eq h
  · exact phdr_eq (a := 8) (k := 8) buf h.phdr (by decide)
  · exact phdr_eq (a := 16) (k := 8) buf h.phdr (by decide)
  · exact phdr_eq (a := 32) (k := 8) buf h.phdr (by decide)
  · exact phdr_eq (a := 40) (k := 8) buf h.phdr (by decide)

/-! ## the zeros behind it -/

/-- a size that the sum of size and padding wraps around: with an image of no bytes, nothing is written -/
def Wraps (pad : Nat) (file : File) : Prop :=
  pad ≠ 0 ∧ (phdrOf file).p_filesz - delta file = 0 ∧
    18446744073709551616 - pad < (phdrOf file).p_memsz - delta file

instance (pad : Nat) (file : File) : Decidable (Wraps pad file) := inferInstanceAs (Decidable (_ ∧ _))

theorem uns64_sub {a b : Nat} (ha : a < 18446744073709551616) (h : b ≤ a) :
    uns 64 ((a : Int) - b) = a - b := by
  rw [← Nat.cast_sub h]
  exact uns64_natCast (by omega)

/-- the whole sectors of a size that does not wrap -/
theorem round_eq {m : Nat} (h : m + 511 < 18446744073709551616) :
    uns 64 ((uns 64 ((m : Int) + (512 : Nat) - 1) / 512 * 512 : Nat) : Int) = (m + 511) / 512 * 512 := by
  have e : ((m : Int) + (512 : Nat) - 1) = (m + 511 : Nat) := by omega
  have hle : (m + 511) / 512 * 512 ≤ m + 511 := Nat.div_mul_le_self _ _
  rw [e, uns64_natCast h]
  exact uns64_natCast (by omega)

/-- a size that wraps is no sectors -/
theorem round_wraps {m : Nat} (hm : m < 18446744073709551616) (h : 18446744073709551616 ≤ m + 511) :
    uns 64 ((uns 64 ((m : Int) + (512 : Nat) - 1) / 512 * 512 : Nat) : Int) = 0 := by
  obtain ⟨q, hq, hlt⟩ := uns64_cases ((m : Int) + (512 : Nat) - 1)
  have h0 : uns 64 ((m : Int) + (512 : Nat) - 1) / 512 = 0 := by omega
  rw [h0, Nat.zero_mul]
  exact uns64_natCast (by omega)

/-- the zeros that are written: as many as the sectors have behind the bytes, unless the size wraps -/
theorem tocopy_eq {pad m f : Nat} (hpad : pad = 0 ∨ pad = 512) (hm : m < 18446744073709551616)
    (hf : f ≤ m) :
    uns 64 (((if pad = 0 then m else uns 64 ((uns 64 ((m : Int) + pad - 1) / pad * pad : Nat) : Int) : Nat)
        : Int) - f)
      = if pad ≠ 0 ∧ f = 0 ∧ 18446744073709551616 - pad < m then 0
        else (if pad = 0 then m else (m + pad - 1) / pad * pad) - f := by
  rcases hpad with rfl | rfl
  · rw [if_pos rfl, if_pos rfl, if_neg fun h => h.1 rfl]
    exact uns64_sub hm hf
  rw [if_neg (by decide : (512 : Nat) ≠ 0), if_neg (by decide : (512 : Nat) ≠ 0)]
  have hle : (m + 511) / 512 * 512 ≤ m + 511 := Nat.div_mul_le_self _ _
  have hge : m ≤ (m + 511) / 512 * 512 := by omega
  show _ = if _ then 0 else (m + 511) / 512 * 512 - f
  by_cases hw : m + 511 < 18446744073709551616
  · rw [round_eq hw, if_neg fun h => by omega]
    exact uns64_sub (by omega) (by omega)
  · rw [round_wraps hm (by omega)]
    by_cases h0 : f = 0
    · rw [if_pos ⟨by decide, h0, by omega⟩, h0]
      exact uns64_sub (by decide) (Nat.le_refl 0)
    · rw [if_neg fun h => h0 h.2.1]
      obtain ⟨q, hq, hlt⟩ := uns64_cases (((0 : Nat) : Int) - f)
      omega

theorem imageSize_ge {pad : Nat} {file : File} (h : Segment file) (hpad : pad = 0 ∨ pad = 512) :
    (phdrOf file).p_filesz - delta file ≤ imageSize pad file := by
  have hsize := h.size
  unfold imageSize
  rcases hpad with rfl | rfl
  · rw [if_pos rfl]
    omega
  · rw [if_neg (by decide)]
    omega

/-- the writes of the copy loop, for the segment -/
def segmentPieces (file : File) : List Piece :=
  let n := (phdrOf file).p_filesz - delta file
  pieces w n n (file.bytes.drop ((phdrOf file).p_offset + delta file)) 0

/-- the zeros that are written -/
def zeros (pad : Nat) (file : File) : Nat :=
  if Wraps pad file then 0 else imageSize pad file - ((phdrOf file).p_filesz - delta file)

/-- the bytes and the zeros that are written -/
theorem strip_out {pad : Nat} {file : File} {out : List UInt8} (h : Segment file)
    (hpad : pad = 0 ∨ pad = 512) (hs : stripShort w pad file (extentOf file) = some out) :
    out = (segmentPieces w file).flatMap Piece.written ++ List.replicate (zeros pad file) 0 ∧
      (segmentPieces w file).flatMap Piece.meant = segment file ∧
      ∀ p ∈ segmentPieces w file, p.written.length = p.meant.length := by
  have hsize := h.size
  have hmem := le64_lt file.mem (e_phoff file.mem + 40)
  have hcopy := tocopy_eq hpad (m := (phdrOf file).p_memsz - delta file)
    (f := (phdrOf file).p_filesz - delta file) (Nat.lt_of_le_of_lt (Nat.sub_le _ _) hmem) (by omega)
  change _ = zeros pad file at hcopy
  unfold stripShort extentOf at hs
  dsimp only at hs
  rw [if_neg (Int.not_lt.mpr (Int.natCast_nonneg _)), hcopy, Int.toNat_natCast] at hs
  obtain ⟨r, hr, rfl⟩ := Option.map_eq_some_iff.mp hs
  obtain ⟨hle, hout, hmeant, heq⟩ := copyShort_pieces w _ _ _ _ r (Nat.le_refl _) hr
  unfold segmentPieces segment
  dsimp only
  refine ⟨?_, hmeant, heq⟩
  rw [hout, zeroShort_all]

theorem segment_length {file : File} (h : Segment file) :
    (segment file).length = (phdrOf file).p_filesz - delta file := by
  have h1 := h.inside
  have h2 := h.entry
  unfold segment
  rw [List.length_take, List.length_drop]
  omega

/-- the image has the size of the segment in memory, in whole sectors with padding -/
theorem image_length {pad : Nat} {file : File} (h : Segment file) (hpad : pad = 0 ∨ pad = 512) :
    (image pad file).length = imageSize pad file := by
  have hge := imageSize_ge h hpad
  unfold image
  rw [List.length_append, List.length_replicate, segment_length h]
  omega

/-- all the zeros are written, unless the size wraps -/
theorem zeros_eq_iff {pad : Nat} {file : File} (h : Segment file) (hpad : pad = 0 ∨ pad = 512) :
    zeros pad file = imageSize pad file - ((phdrOf file).p_filesz - delta file) ↔ ¬ Wraps pad file := by
  unfold zeros
  by_cases hw : Wraps pad file
  · rw [if_pos hw]
    refine iff_of_false (fun he => ?_) (not_not.mpr hw)
    obtain ⟨h0, hfil, hmem⟩ := hw
    rcases hpad with rfl | rfl
    · exact h0 rfl
    · unfold imageSize at he
      rw [if_neg h0, hfil] at he
      omega
  · rw [if_neg hw]
    exact iff_of_true rfl hw

/-- one write is enough -/
theorem writeBuf_whole (buf : List UInt8) (n k : Nat) (h : 0 < n) :
    (writeBuf .whole buf n n k).1 = buf.take n := by
  cases n with
  | zero => cases h
  | succ n =>
    unfold writeBuf
    show (if n + 1 - (n + 1) = 0 then _ else _ : List UInt8 × Nat).1 = _
    rw [if_pos (Nat.sub_self _)]
    rfl

theorem copyShort_whole (fuel : Nat) : ∀ (n : Nat) (input : List UInt8) (k : Nat),
    (copyShort .whole fuel n input k).map Prod.fst = copyOut fuel n input := by
  induction fuel with
  | zero => exact fun n input k => rfl
  | succ fuel ih =>
    intro n input k
    unfold copyShort copyOut
    by_cases h0 : n = 0
    · rw [if_pos h0, if_pos h0]
      rfl
    rw [if_neg h0, if_neg h0]
    dsimp only
    by_cases hlen : (input.take (min n sizeof_buf)).length ≠ min n sizeof_buf
    · rw [if_pos hlen, if_pos hlen]
      rfl
    rw [if_neg hlen, if_neg hlen, Option.map_map, ← ih _ _ (writeBuf .whole _ _ _ k).2, Option.map_map]
    apply congrArg (fun f => Option.map f _)
    funext q
    show (writeBuf .whole _ _ _ k).1 ++ q.1 = _ ++ q.1
    rw [writeBuf_whole _ _ _ (Nat.lt_min.mpr ⟨Nat.pos_of_ne_zero h0, by decide⟩), List.take_take,
      Nat.min_self]

/-- nothing is split: the output is that of `objstrip` -/
theorem objstripShort_whole (stack : Mem) (ecoff : Mem → Option Extent) (pad : Nat) (file : File) :
    objstripShort .whole stack ecoff pad file = objstrip stack ecoff pad file := by
  unfold objstripShort objstrip
  apply congrArg (Option.bind _)
  funext e
  unfold stripShort strip
  by_cases h0 : e.offset < 0
  · rw [if_pos h0, if_pos h0]
  rw [if_neg h0, if_neg h0]
  dsimp only
  rw [← copyShort_whole _ _ _ 0, Option.map_map]
  apply congrArg (fun f => Option.map f _)
  funext q
  show q.1 ++ _ = q.1 ++ _
  rw [zeroShort_all, zeroFill_eq _ _ (Nat.le_refl _)]

/-- what is written is the image if every write that goes on in a buffer finds the bytes it should
write at the start of the buffer, and the size does not wrap -/
theorem objstrip_image_iff {stack : Mem} {ecoff : Mem → Option Extent} {pad : Nat} {file : File}
    {out : List UInt8} (hpad : pad = 0 ∨ pad = 512) (h : Segment file)
    (hout : objstripShort w stack ecoff pad file = some out) :
    out = image pad file ↔ Repeats (segmentPieces w file) ∧ ¬ Wraps pad file := by
  have hbuf : isElf (stack.put 0 (file.bytes.take sizeof_buf)) = true :=
    (isElf_buf h.header).trans h.elf
  unfold objstripShort at hout
  dsimp only at hout
  rw [if_pos hbuf] at hout
  obtain ⟨e, he, hs⟩ := Option.bind_eq_some_iff.mp hout
  rw [elfExtent_eq h he] at hs
  obtain ⟨heq, hmeant, hlen⟩ := strip_out w h hpad hs
  have hsame := flatMap_length hlen
  rw [hmeant] at hsame
  rw [← zeros_eq_iff h hpad, heq]
  unfold image Repeats
  rw [← flatMap_eq_iff hlen, hmeant]
  exact append_replicate_iff hsame

/-- an executable whose segment is the bytes 1 and 2, and one more in memory -/
def oneTwo : File where
  bytes := [0x7f, 'E'.toUInt8, 'L'.toUInt8, 'F'.toUInt8] ++ List.replicate 12 0
    ++ [2, 0, 0x26, 0x90] ++ List.replicate 12 0 ++ [64] ++ List.replicate 31 0
    ++ List.replicate 8 0 ++ [120] ++ List.replicate 23 0 ++ [2] ++ List.replicate 7 0
    ++ [3] ++ List.replicate 15 0 ++ [1, 2]
  size_lt := by decide

theorem oneTwo_segment : Segment oneTwo where
  header := by decide
  elf := by decide
  phdr := by decide +kernel
  inside := by decide +kernel
  entry := by decide +kernel
  size := by decide +kernel

/-- the first write takes one byte -/
def firstByte : Splitting where
  count k n := if k = 0 then min n 1 else n
  pos k n h := by
    split
    · omega
    · exact h
  le k n := by
    split
    · omega
    · exact Nat.le_refl n

theorem oneTwo_image : [1, 2] ++ List.replicate 510 0 = image 512 oneTwo ↔
    Repeats (segmentPieces .whole oneTwo) ∧ ¬ Wraps 512 oneTwo :=
  @objstrip_image_iff .whole (fun _ => 0) (fun _ => none) _ _ _ (Or.inr rfl) oneTwo_segment
    (by decide +kernel)

/-- the byte behind the first is the first again -/
theorem objstrip_repeats : ¬ ∀ (w : Splitting) (stack : Mem) (ecoff : Mem → Option Extent) (pad : Nat)
    (file : File) (out : List UInt8), pad = 0 ∨ pad = 512 → Segment file →
    objstripShort w stack ecoff pad file = some out → out = image pad file := by
  intro hall
  have hout : objstripShort firstByte (fun _ => 0) (fun _ => none) 0 oneTwo = some [1, 1, 0] := by
    decide +kernel
  have hbad := hall _ _ _ _ _ _ (Or.inl rfl) oneTwo_segment hout
  have himage : image 0 oneTwo = [1, 2, 0] := by decide +kernel
  rw [himage] at hbad
  cases hbad

end Objstrip
