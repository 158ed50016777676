import Aboot.Load.Impl

/-!
# Uncompressed kernels: when every segment is placed exactly

A segment is read in whole blocks to its final address and then shifted down by the unaligned bits
of its offset.  What is read past its end lands on segments that are read later, or past all of
them: the loop is followed with "nothing below the segments that are left is written to".

The loops read the table of segments from memory while they store segments there; nothing keeps a
segment off the table.

* `RawKept`, `FileKept`    no store goes over a field of the table that is read after it;
* `readSegments_listed`    then the loop goes by the list of the segments;
* `readListed_placed`, `rawSegments_placed`   the two loops;
* `segments_placed`        both load paths;
* `raw_overwritten`        a segment that is placed on the entry of the next one.
-/

set_option linter.unusedVariables false

namespace Load
open Word State

/-! ## arithmetic -/

theorem unaligned_eq {e : Nat} (he : e < 31) (offset : Nat) :
    unaligned ((2 ^ e : Nat) : Int) offset = offset % 2 ^ e := by
  have hpos : 0 < 2 ^ e := Nat.two_pow_pos e
  have hlt : 2 ^ e < 18446744073709551616 :=
    lt_of_lt_of_le (Nat.pow_lt_pow_right (by omega) he) (by norm_num)
  have hcast : ((2 ^ e : Nat) : Int) - 1 = ((2 ^ e - 1 : Nat) : Int) := by omega
  rw [unaligned, hcast, uns64_natCast (by omega), Nat.and_two_pow_sub_one_eq_mod]

/-- the blocks that a segment takes -/
theorem nblocks_eq {e : Nat} (he : e < 31) {seg : Segment}
    (hs : seg.offset + seg.size < 4611686018427387904) :
    nblocks ((2 ^ e : Nat) : Int) seg
      = ((seg.size + seg.offset % 2 ^ e + (2 ^ e - 1)) / 2 ^ e : Nat) := by
  have hpos : 0 < 2 ^ e := Nat.two_pow_pos e
  have hlt : 2 ^ e < 2147483648 :=
    lt_of_lt_of_le (Nat.pow_lt_pow_right (by omega) he) (by norm_num)
  have hmod := Nat.mod_lt seg.offset hpos
  have hsum : (seg.size : Int) + (seg.offset % 2 ^ e : Nat) + ((2 ^ e : Nat) : Int) - 1
      = ((seg.size + seg.offset % 2 ^ e + (2 ^ e - 1) : Nat) : Int) := by omega
  have hdiv := Nat.div_le_self (seg.size + seg.offset % 2 ^ e + (2 ^ e - 1)) (2 ^ e)
  rw [nblocks, unaligned_eq he, hsum, uns64_natCast (by omega), uns64_natCast (by omega),
    sgn64_natCast (by omega)]

/-- the blocks cover the segment -/
theorem le_nblocks_mul (bs a : Nat) (h : 0 < bs) : a ≤ (a + (bs - 1)) / bs * bs := by
  have h1 := Nat.div_add_mod (a + (bs - 1)) bs
  have h2 := Nat.mod_lt (a + (bs - 1)) h
  rw [Nat.mul_comm] at h1
  omega

/-! ## segments -/

/-- listed by increasing address, without overlap -/
def InOrder (segs : List Segment) : Prop := segs.Pairwise fun a b => a.addr + a.size ≤ b.addr

/-- all within a file of `size` bytes -/
def InFile (size : Nat) (segs : List Segment) : Prop := ∀ seg ∈ segs, seg.offset + seg.size ≤ size

/-- the memory holds the bytes `F` of the file where the segments are -/
def Placed (F : Nat → UInt8) (segs : List Segment) (m : Mem) : Prop :=
  ∀ seg ∈ segs, ∀ k < seg.size, m (seg.addr + k) = F (seg.offset + k)

/-- nothing below the segments changed -/
def Below (segs : List Segment) (m m' : Mem) : Prop :=
  ∀ x, (∀ seg ∈ segs, x < seg.addr) → m' x = m x

/-- one segment placed, and then the others -/
theorem Placed.cons {F : Nat → UInt8} {seg : Segment} {segs : List Segment} {m m₁ m₂ : Mem}
    (ho : InOrder (seg :: segs)) (h1 : ∀ k < seg.size, m₁ (seg.addr + k) = F (seg.offset + k))
    (h2 : ∀ x < seg.addr, m₁ x = m x) (h3 : Placed F segs m₂) (h4 : Below segs m₁ m₂) :
    Placed F (seg :: segs) m₂ ∧ Below (seg :: segs) m m₂ := by
  obtain ⟨ho1, ho2⟩ := List.pairwise_cons.mp ho
  refine ⟨fun t ht k hk => ?_, fun x hx => ?_⟩
  · rcases List.mem_cons.mp ht with rfl | ht
    · rw [h4 _ fun t' ht' => ?_, h1 k hk]
      have := ho1 t' ht'
      omega
    · exact h3 t ht k hk
  · rw [h4 x fun t ht => hx t (List.mem_cons_of_mem _ ht)]
    exact h2 x (hx seg List.mem_cons_self)

/-- bytes of a file stored at an address -/
theorem put_file {F : Nat → UInt8} {m : Mem} {a p n k : Nat} (hk : k < n) :
    m.put a ((List.range n).map fun j => F (p + j)) (a + k) = F (p + k) := by
  rw [Mem.put_in _ _ _ _ (by simpa using hk)]
  simp

theorem put_below {m : Mem} {a x : Nat} {bs : List UInt8} (h : x < a) : m.put a bs x = m x :=
  Mem.put_out m a x bs (Or.inl h)

/-- whole blocks, shifted down -/
theorem shift_file {F : Nat → UInt8} {m : Mem} {a p n d size k : Nat} (hd : d + size ≤ n)
    (hk : k < size) :
    (m.put a ((List.range n).map fun j => F (p + j))).put a
        ((m.put a ((List.range n).map fun j => F (p + j))).get (a + d) size) (a + k)
      = F (p + d + k) := by
  rw [Mem.put_in _ _ _ _ (by simpa using hk)]
  simp only [Mem.get, List.getElem_map, List.getElem_range]
  rw [Nat.add_assoc a d k, put_file (by omega), Nat.add_assoc]

section
variable {σ φ : Type} {M : Machine} {fs : BootFs σ φ}

/-- `bread` on `fd` is a file with the bytes `F`, in blocks of `bs`, in the states `ok` -/
structure Serves (fs : BootFs σ φ) (fd : φ) (bs : Nat) (F : Nat → UInt8) (ok : σ → Prop) : Prop where
  blocksize : ∀ s, ok s → fs.blocksize s = bs
  keeps : ∀ s b n, ok s → ok (fs.bread fd b n s).2
  exact : ∀ s (b n : Nat), ok s → (fs.bread fd b n s).1.ret = (n * bs : Nat) →
    (fs.bread fd b n s).1.data = (List.range (n * bs)).map fun k => F (b * bs + k)

/-! ## the table -/

/-- no segment of a raw kernel goes over the entries of the table at `t` that are read after it -/
def RawKept (t : Nat) : (i : Nat) → List Segment → Prop
  | _, [] => True
  | i, seg :: segs =>
    ApartFrom (seg.addr, seg.size) (t + sizeof_segment * (i + 1), sizeof_segment * segs.length) ∧
      RawKept t (i + 1) segs

/-- the blocks of a segment -/
def blocksOf (bs : Int) (seg : Segment) : Nat × Nat := (seg.addr, (nblocks bs seg * bs).toNat)

/-- what is read of the table at `t` after the blocks of `chunks[i]`: its offset, its size when the
offset is not aligned, and the entries that follow -/
def fieldsAfter (bs : Int) (t i n : Nat) (seg : Segment) : List (Nat × Nat) :=
  [(t + sizeof_segment * i + 8, 8),
    (t + sizeof_segment * i + 16, if unaligned bs seg.offset = 0 then 0 else 8),
    (t + sizeof_segment * (i + 1), sizeof_segment * n)]

/-- no store of an uncompressed kernel goes over a field of the table at `t` that is read after it -/
def FileKept (bs : Int) (t : Nat) : (i : Nat) → List Segment → Prop
  | _, [] => True
  | i, seg :: segs =>
    (∀ f ∈ fieldsAfter bs t i segs.length seg, ApartFrom (blocksOf bs seg) f) ∧
      (unaligned bs seg.offset ≠ 0 → ApartFrom (seg.addr, seg.size)
        (t + sizeof_segment * (i + 1), sizeof_segment * segs.length)) ∧
      FileKept bs t (i + 1) segs

instance decidableRawKept (t : Nat) : (i : Nat) → (segs : List Segment) → Decidable (RawKept t i segs)
  | _, [] => inferInstanceAs (Decidable True)
  | i, seg :: segs =>
    have := decidableRawKept t (i + 1) segs
    inferInstanceAs (Decidable (_ ∧ _))

instance decidableFileKept (bs : Int) (t : Nat) :
    (i : Nat) → (segs : List Segment) → Decidable (FileKept bs t i segs)
  | _, [] => inferInstanceAs (Decidable True)
  | i, seg :: segs =>
    have := decidableFileKept bs t (i + 1) segs
    inferInstanceAs (Decidable (_ ∧ _ ∧ _))

/-- a number that is not stored to -/
theorem le64_put {m : Mem} {a b : Nat} {bs : List UInt8} (h : ApartFrom (a, bs.length) (b, 8)) :
    (m.put a bs).le64 b = m.le64 b :=
  Bytes.le_congr fun j hj => Mem.put_out m a _ bs (h.out (by omega) (by simp only; omega))

/-! ## load_uncompressed -/

/-- read one segment, whatever the table holds -/
def readOne (fs : BootFs σ φ) (fd : φ) (seg : Segment) (s : State σ) : Bool × State σ :=
  let bs := fs.blocksize s.fs
  let r := fs.bread fd (sgn 64 (seg.offset / uns 64 bs : Nat)) (nblocks bs seg) s.fs
  let s := { s.store seg.addr r.1.data with fs := r.2 }
  if r.1.ret ≠ nblocks bs seg * bs then (false, s)
  else if unaligned bs seg.offset ≠ 0 then
    (true, shiftDown seg.addr (unaligned bs seg.offset) seg.size s)
  else (true, s)

/-- the loop of `load_uncompressed` on the segments of a list -/
def readListed (fs : BootFs σ φ) (fd : φ) : List Segment → State σ → Int × State σ
  | [], s => (0, s)
  | seg :: segs, s =>
    match readOne fs fd seg s with
    | (false, s) => (-1, s)
    | (true, s) => readListed fs fd segs s

/-- a complete `bread` of the blocks of a segment stores no more than these, in the states `ok` -/
structure StoresBlocks (fs : BootFs σ φ) (fd : φ) (bs : Int) (segs : List Segment) (ok : σ → Prop) :
    Prop where
  blocksize : ∀ f, ok f → fs.blocksize f = bs
  keeps : ∀ f b n, ok f → ok (fs.bread fd b n f).2
  le : ∀ seg ∈ segs, ∀ f, ok f →
    (fs.bread fd (sgn 64 (seg.offset / uns 64 bs : Nat)) (nblocks bs seg) f).1.ret = nblocks bs seg * bs →
    (fs.bread fd (sgn 64 (seg.offset / uns 64 bs : Nat)) (nblocks bs seg) f).1.data.length
      ≤ (nblocks bs seg * bs).toNat

theorem StoresBlocks.tail {fd : φ} {bs : Int} {seg : Segment} {segs : List Segment} {ok : σ → Prop}
    (h : StoresBlocks fs fd bs (seg :: segs) ok) : StoresBlocks fs fd bs segs ok :=
  ⟨h.blocksize, h.keeps, fun s hs => h.le s (List.mem_cons_of_mem _ hs)⟩

/-- one segment is read from the list, as long as the table is kept -/
theorem readSegment_listed {fd : φ} {bs : Int} {t i : Nat} {ok : σ → Prop} {seg : Segment}
    {segs : List Segment} {s : State σ} (hst : StoresBlocks fs fd bs (seg :: segs) ok) (hok : ok s.fs)
    (ht : s.elf.table = t) (hm : Holds s.mem t i (seg :: segs)) (hk : FileKept bs t i (seg :: segs)) :
    readSegment fs fd i s = readOne fs fd seg s ∧
      ok (readOne fs fd seg s).2.fs ∧ (readOne fs fd seg s).2.elf = s.elf ∧
      ((readOne fs fd seg s).1 = true → Holds (readOne fs fd seg s).2.mem t (i + 1) segs) := by
  obtain ⟨hseg, hm⟩ := hm
  obtain ⟨hk1, hk2, -⟩ := hk
  have hle := hst.le seg List.mem_cons_self s.fs hok
  have hkeep := hst.keeps s.fs (sgn 64 (seg.offset / uns 64 bs : Nat)) (nblocks bs seg) hok
  simp only [readSegment, readOne]
  rw [hst.blocksize _ hok, ht, hseg]
  generalize fs.bread fd (sgn 64 (seg.offset / uns 64 bs : Nat)) (nblocks bs seg) s.fs = r at hle hkeep ⊢
  by_cases hret : r.1.ret ≠ nblocks bs seg * bs
  · rw [if_pos hret, if_pos hret]
    exact ⟨rfl, hkeep, rfl, fun h => by simp at h⟩
  rw [if_neg hret, if_neg hret]
  have hlen := hle (not_not.mp hret)
  -- what is read of the table after the blocks
  have hapart : ∀ f ∈ fieldsAfter bs t i segs.length seg, ApartFrom (seg.addr, r.1.data.length) f :=
    fun f hf => (hk1 f hf).shorter hlen
  simp only [fieldsAfter, List.forall_mem_cons, List.not_mem_nil, false_imp_iff, implies_true,
    and_true] at hapart
  obtain ⟨ha1, ha2, ha3⟩ := hapart
  have hoff : (chunkAt (s.mem.put seg.addr r.1.data) t i).offset = seg.offset := by
    rw [chunkAt_offset, le64_put ha1, ← chunkAt_offset, hseg]
  have hm1 : Holds (s.mem.put seg.addr r.1.data) t (i + 1) segs := hm.put ha3
  simp only [State.store, ht, hoff]
  by_cases hu : unaligned bs seg.offset ≠ 0
  · rw [if_pos hu, if_pos hu]
    rw [if_neg hu] at ha2
    have hsize : (chunkAt (s.mem.put seg.addr r.1.data) t i).size = seg.size := by
      rw [chunkAt_size, le64_put ha2, ← chunkAt_size, hseg]
    rw [hsize]
    refine ⟨rfl, hkeep, rfl, fun _ => hm1.put ?_⟩
    rw [Mem.length_get]
    exact hk2 hu
  · rw [if_neg hu, if_neg hu]
    exact ⟨rfl, hkeep, rfl, fun _ => hm1⟩

/-- the loop goes by the list of the segments, as long as the table is kept -/
theorem readSegments_listed {fd : φ} {bs : Int} {t : Nat} {ok : σ → Prop} (segs : List Segment) :
    ∀ (i : Nat) (s : State σ), StoresBlocks fs fd bs segs ok → ok s.fs → s.elf.table = t →
      Holds s.mem t i segs → FileKept bs t i segs →
      readSegments fs fd segs.length i s = readListed fs fd segs s := by
  induction segs with
  | nil => intro i s _ _ _ _ _; rfl
  | cons seg segs ih =>
    intro i s hst hok ht hm hk
    obtain ⟨heq, hok1, helf, hm1⟩ := readSegment_listed hst hok ht hm hk
    rw [List.length_cons, readSegments, readListed, heq]
    generalize readOne fs fd seg s = r at hok1 helf hm1
    obtain ⟨b, s1⟩ := r
    cases b with
    | false => rfl
    | true => exact ih (i + 1) s1 hst.tail hok1 ((congrArg Elf.table helf).trans ht) (hm1 rfl) hk.2.2

theorem readSegment_elf (fd : φ) (i : Nat) (s : State σ) : (readSegment fs fd i s).2.elf = s.elf := by
  simp only [readSegment]
  split
  · rfl
  · split <;> rfl

/-- the loop leaves the variables of aboot.c alone -/
theorem readSegments_elf (fd : φ) (left : Nat) :
    ∀ i (s : State σ), (readSegments fs fd left i s).2.elf = s.elf := by
  induction left with
  | zero => intro i s; rfl
  | succ left ih =>
    intro i s
    have h1 := @readSegment_elf _ _ fs fd i s
    rw [readSegments]
    split
    · rename_i s1 he
      rw [he] at h1
      exact h1
    · rename_i s1 he
      rw [he] at h1
      rw [ih, h1]

/-- the blocks of a segment are read, and shifted down -/
theorem readOne_placed {fd : φ} {e : Nat} (he : e < 31) {F : Nat → UInt8} {ok : σ → Prop}
    (hserve : Serves fs fd (2 ^ e) F ok) {seg : Segment}
    (hs : seg.offset + seg.size < 4611686018427387904) {s s' : State σ} (hok : ok s.fs)
    (h : readOne fs fd seg s = (true, s')) :
    ok s'.fs ∧ (∀ k < seg.size, s'.mem (seg.addr + k) = F (seg.offset + k)) ∧
      ∀ x < seg.addr, s'.mem x = s.mem x := by
  have hpos : 0 < 2 ^ e := Nat.two_pow_pos e
  have hlt : 2 ^ e < 18446744073709551616 :=
    lt_of_lt_of_le (Nat.pow_lt_pow_right (by omega) he) (by norm_num)
  have hdiv := Nat.div_le_self seg.offset (2 ^ e)
  have hblk : sgn 64 (seg.offset / uns 64 ((2 ^ e : Nat) : Int) : Nat) = (seg.offset / 2 ^ e : Nat) := by
    rw [uns64_natCast hlt, sgn64_natCast (by omega)]
  simp only [readOne] at h
  rw [hserve.blocksize _ hok, hblk, nblocks_eq he hs, unaligned_eq he] at h
  -- the block that the segment starts in, and its blocks
  generalize hn : (seg.size + seg.offset % 2 ^ e + (2 ^ e - 1)) / 2 ^ e = n at h
  have hcover : seg.offset % 2 ^ e + seg.size ≤ n * 2 ^ e := by
    have := le_nblocks_mul (2 ^ e) (seg.size + seg.offset % 2 ^ e) hpos
    rw [hn] at this
    omega
  have hoff : seg.offset / 2 ^ e * 2 ^ e + seg.offset % 2 ^ e = seg.offset := by
    rw [Nat.mul_comm]
    exact Nat.div_add_mod _ _
  have hkeep := hserve.keeps s.fs (seg.offset / 2 ^ e : Nat) n hok
  split at h
  · simp at h
  · rename_i hret
    have hret' : (fs.bread fd (seg.offset / 2 ^ e : Nat) n s.fs).1.ret = ((n * 2 ^ e : Nat) : Int) := by
      rw [not_not.mp hret]
      push_cast
      rfl
    have hdata := hserve.exact s.fs _ n hok hret'
    split at h
    · obtain rfl := (Prod.mk.inj h).2
      refine ⟨hkeep, fun k hk => ?_, fun x hx => ?_⟩
      · simp only [shiftDown, State.store, hdata]
        rw [shift_file hcover hk, hoff]
      · simp only [shiftDown, State.store]
        rw [put_below hx, put_below hx]
    · rename_i hu
      have hzero : seg.offset % 2 ^ e = 0 := not_not.mp hu
      obtain rfl := (Prod.mk.inj h).2
      refine ⟨hkeep, fun k hk => ?_, fun x hx => put_below hx⟩
      have hk' : seg.offset / 2 ^ e * 2 ^ e + k = seg.offset + k := by omega
      simp only [State.store, hdata]
      rw [put_file (by omega), hk']

theorem readListed_placed {fd : φ} {e : Nat} (he : e < 31) {F : Nat → UInt8} {ok : σ → Prop}
    (hserve : Serves fs fd (2 ^ e) F ok) {size : Nat} (hsize : size < 4611686018427387904)
    (segs : List Segment) :
    ∀ s : State σ, ok s.fs → InOrder segs → InFile size segs → (readListed fs fd segs s).1 = 0 →
      Placed F segs (readListed fs fd segs s).2.mem ∧
        Below segs s.mem (readListed fs fd segs s).2.mem := by
  induction segs with
  | nil => intro s _ _ _ _; exact ⟨by simp [Placed], fun x _ => rfl⟩
  | cons seg segs ih =>
    intro s hok ho hf h
    have hfile := hf seg List.mem_cons_self
    have hf' : InFile size segs := fun t ht => hf t (List.mem_cons_of_mem _ ht)
    have ho' := (List.pairwise_cons.mp ho).2
    rw [readListed] at h ⊢
    generalize hr : readOne fs fd seg s = r at h ⊢
    obtain ⟨b, s1⟩ := r
    cases b with
    | false => simp at h
    | true =>
      obtain ⟨hok1, h1, h2⟩ := readOne_placed he hserve (by omega) hok hr
      obtain ⟨h3, h4⟩ := ih s1 hok1 ho' hf' h
      exact Placed.cons ho h1 h2 h3 h4

/-! ## load_raw -/

theorem rawSegments_elf (dev kstart : Int) (left : Nat) :
    ∀ i (s : State σ), (rawSegments M dev kstart left i s).2.elf = s.elf := by
  induction left with
  | zero => intro i s; rfl
  | succ left ih =>
    intro i s
    rw [rawSegments]
    split
    · rename_i s1 he
      rw [← (Prod.mk.inj he).2]
      rfl
    · rename_i s1 he
      rw [ih, ← (Prod.mk.inj he).2]
      rfl

/-- the file that follows the boot loader on the disk -/
def rawFile (M : Machine) (dev kstart : Int) : Nat → UInt8 := fun k => M.bytes dev (kstart + k)

/-- `cons_read` on a device returns what it is asked for -/
def ReadsAll (M : Machine) (dev : Int) : Prop := ∀ t (n : Nat) (a : Int), (M.read t dev n a).ret = n

/-- a segment of the table is read to its place -/
theorem rawSegment_placed {dev : Int} (hall : ReadsAll M dev) {kstart t i : Nat} {seg : Segment}
    (hs : seg.offset + seg.size + kstart < 4611686018427387904) {s : State σ} (ht : s.elf.table = t)
    (hseg : chunkAt s.mem t i = seg) :
    (rawSegment M dev kstart i s).2.mem
      = s.mem.put seg.addr ((List.range seg.size).map fun k => rawFile M dev kstart (seg.offset + k)) := by
  have hcount : sgn 64 (seg.size : Int) = seg.size := sgn64_natCast (by omega)
  have hplace : sgn 64 ((seg.offset : Int) + kstart) = kstart + seg.offset := by
    rw [sgn64_of_range (by omega) (by omega), add_comm]
  have hfile : (fun k : Nat => M.bytes dev ((kstart : Int) + seg.offset + k))
      = fun k => rawFile M dev kstart (seg.offset + k) := by
    funext k
    rw [rawFile, Nat.cast_add, add_assoc]
  have hdata := M.read_exact _ _ _ _ (hall s.nreads seg.size (kstart + seg.offset))
  rw [Int.toNat_natCast, hfile] at hdata
  simp only [rawSegment, State.store]
  rw [ht, hseg, hcount, hplace, hdata]

theorem rawSegments_placed {dev : Int} (hall : ReadsAll M dev) {kstart t : Nat} {size : Nat}
    (hsize : size + kstart < 4611686018427387904) (segs : List Segment) :
    ∀ i (s : State σ), s.elf.table = t → Holds s.mem t i segs → RawKept t i segs → InOrder segs →
      InFile size segs → (rawSegments M dev kstart segs.length i s).1 = 0 →
      Placed (rawFile M dev kstart) segs (rawSegments M dev kstart segs.length i s).2.mem ∧
        Below segs s.mem (rawSegments M dev kstart segs.length i s).2.mem := by
  induction segs with
  | nil => intro i s _ _ _ _ _ _; exact ⟨by simp [Placed], fun x _ => rfl⟩
  | cons seg segs ih =>
    intro i s ht hm hk ho hf h
    have hfile := hf seg List.mem_cons_self
    have hf' : InFile size segs := fun t ht => hf t (List.mem_cons_of_mem _ ht)
    have hend : seg.offset + seg.size + kstart < 4611686018427387904 := by omega
    have hmem := rawSegment_placed hall hend ht hm.1
    have htab : (rawSegment M dev kstart i s).2.elf.table = t := ht
    have hm1 : Holds (rawSegment M dev kstart i s).2.mem t (i + 1) segs := by
      rw [hmem]
      refine hm.2.put ?_
      rw [List.length_map, List.length_range]
      exact hk.1
    rw [List.length_cons, rawSegments] at h ⊢
    generalize rawSegment M dev kstart i s = r at h hmem htab hm1 ⊢
    obtain ⟨b, s1⟩ := r
    cases b with
    | false => simp at h
    | true =>
      obtain ⟨h3, h4⟩ := ih (i + 1) s1 htab hm1 hk.2 (List.pairwise_cons.mp ho).2 hf' h
      refine Placed.cons ho (fun k hlt => ?_) (fun x hx => ?_) h3 h4
      · rw [hmem]
        exact put_file hlt
      · rw [hmem]
        exact put_below hx

/-! ## both paths -/

theorem ksect_bytes (aboot_size : Nat) :
    ksect aboot_size * SECT_SIZE = (((aboot_size + 511) / 512 + 2) * 512 : Nat) := by
  rw [ksect, SECT_SIZE, BOOT_SECTOR]
  push_cast
  ring

/-- the headers that `load_uncompressed` reads into its buffer -/
def fileHeader (M : Machine) (fs : BootFs σ φ) (fd : φ) (s : State σ) : Mem :=
  (M.ram (malloc M.clusters s.elf.free_mem_ptr (uns 64 (fs.blocksize s.fs)))).put 0
    (fs.bread fd 0 1 s.fs).1.data

/-- the headers that `load_raw` reads into its buffer -/
def rawHeader (M : Machine) (aboot_size : Nat) (dev : Int) (s : State σ) : Mem :=
  (M.ram (malloc M.clusters s.elf.free_mem_ptr (uns 64 SECT_SIZE))).put 0
    (M.read s.nreads dev SECT_SIZE (ksect aboot_size * SECT_SIZE)).data

/-- where the table goes, after a buffer of `n` bytes for the headers -/
def tableAt (M : Machine) (n : Nat) (buf : Mem) (s : State σ) : Nat :=
  malloc M.clusters (malloc M.clusters s.elf.free_mem_ptr n) (sizeof_segment * e_phnum buf)

/-- the headers are accepted: the table is at `t`, with the segments of the program headers -/
structure Found (buf : Mem) (t : Nat) (v : Elf) (s : State σ) : Prop where
  table : s.elf.table = t
  holds : Holds s.mem t 0 (segmentsOf (phdrs buf))
  count : s.elf.nchunks = (segmentsOf (phdrs buf)).length
  checked : s.elf.checked = v.checked ++ segmentsOf (phdrs buf)
  bss : s.elf.bss = bssOf (phdrs buf) v.bss

theorem loadable_found {buf : Mem} {bs : Int} {s s' : State σ}
    (h : loadable M buf bs s = (some true, s')) :
    Found buf (malloc M.clusters s.elf.free_mem_ptr (sizeof_segment * e_phnum buf)) s.elf s' ∧
      s'.fs = s.fs ∧ s'.writes = s.writes ∧ s'.nreads = s.nreads := by
  obtain ⟨h1, rfl⟩ := Prod.mk.inj h
  have hv : is_loadable_elf M.clusters buf bs s.elf
      = (some true, (is_loadable_elf M.clusters buf bs s.elf).2) := Prod.ext h1 rfl
  have ht := is_loadable_elf_table hv
  refine ⟨⟨ht.table, ?_, ?_, ht.checked, ht.bss⟩, rfl, rfl, rfl⟩
  · rw [if_pos ⟨is_loadable_elf_fine hv, by rw [hv]; rfl⟩, ← ht.table, ← ht.segments]
    exact ht.holds s.mem
  · rw [← ht.segments]
    exact ht.count.symm

/-- a load gets to the segments, or it fails before anything is stored -/
theorem load_uncompressed_cases (M : Machine) (fs : BootFs σ φ) (fd : φ) (s : State σ) :
    ((load_uncompressed M fs fd s).2.writes = s.writes ∧
      ∀ r, (load_uncompressed M fs fd s).1 = some r → r < 0) ∨
    ∃ s', Found (fileHeader M fs fd s)
        (tableAt M (uns 64 (fs.blocksize s.fs)) (fileHeader M fs fd s) s) s.elf s' ∧
      s'.fs = (fs.bread fd 0 1 s.fs).2 ∧ s'.writes = s.writes ∧
      load_uncompressed M fs fd s
        = (some (readSegments fs fd s'.elf.nchunks 0 s').1, (readSegments fs fd s'.elf.nchunks 0 s').2) := by
  generalize he : load_uncompressed M fs fd s = res
  unfold load_uncompressed at he
  simp only at he
  split at he
  · exact Or.inl (by rw [← he]; exact ⟨rfl, by simp⟩)
  · split at he
    · exact Or.inl (by rw [← he]; exact ⟨rfl, by simp⟩)
    · split at he
      · rename_i s' hl
        refine Or.inl ?_
        rw [← he, ← (Prod.mk.inj hl).2]
        exact ⟨rfl, by simp⟩
      · rename_i s' hl
        refine Or.inl ?_
        rw [← he, ← (Prod.mk.inj hl).2]
        exact ⟨rfl, by simp⟩
      · rename_i s' hl
        obtain ⟨hf, h1, h2, -⟩ := loadable_found hl
        exact Or.inr ⟨s', ⟨hf.table, hf.holds, hf.count, hf.checked, hf.bss⟩, h1, h2, he.symm⟩

theorem load_raw_cases (M : Machine) (aboot_size : Nat) (dev : Int) (s : State σ) :
    ((load_raw M aboot_size dev s).2.writes = s.writes ∧
      ∀ r, (load_raw M aboot_size dev s).1 = some r → r < 0) ∨
    ∃ s', Found (rawHeader M aboot_size dev s)
        (tableAt M (uns 64 SECT_SIZE) (rawHeader M aboot_size dev s) s) s.elf s' ∧
      s'.writes = s.writes ∧
      load_raw M aboot_size dev s
        = (some (rawSegments M dev (ksect aboot_size * SECT_SIZE) s'.elf.nchunks 0 s').1,
          (rawSegments M dev (ksect aboot_size * SECT_SIZE) s'.elf.nchunks 0 s').2) := by
  generalize he : load_raw M aboot_size dev s = res
  unfold load_raw at he
  simp only at he
  split at he
  · exact Or.inl (by rw [← he]; exact ⟨rfl, by simp⟩)
  · split at he
    · exact Or.inl (by rw [← he]; exact ⟨rfl, by simp⟩)
    · split at he
      · rename_i s' hl
        refine Or.inl ?_
        rw [← he, ← (Prod.mk.inj hl).2]
        exact ⟨rfl, by simp⟩
      · rename_i s' hl
        refine Or.inl ?_
        rw [← he, ← (Prod.mk.inj hl).2]
        exact ⟨rfl, by simp⟩
      · rename_i s' hl
        obtain ⟨hf, -, h2, -⟩ := loadable_found hl
        exact Or.inr ⟨s', ⟨hf.table, hf.holds, hf.count, hf.checked, hf.bss⟩, h2, he.symm⟩

/-- a served file gives no more than its blocks -/
theorem Serves.storesBlocks {fd : φ} {e : Nat} (he : e < 31) {F : Nat → UInt8} {ok : σ → Prop}
    (hserve : Serves fs fd (2 ^ e) F ok) {size : Nat} (hsize : size < 4611686018427387904)
    {segs : List Segment} (hf : InFile size segs) :
    StoresBlocks fs fd ((2 ^ e : Nat) : Int) segs ok where
  blocksize := hserve.blocksize
  keeps := hserve.keeps
  le seg hseg f hok hret := by
    have hfile := hf seg hseg
    have hlt : 2 ^ e < 18446744073709551616 :=
      lt_of_lt_of_le (Nat.pow_lt_pow_right (by omega) he) (by norm_num)
    have hdiv := Nat.div_le_self seg.offset (2 ^ e)
    have hblk : sgn 64 (seg.offset / uns 64 ((2 ^ e : Nat) : Int) : Nat)
        = (seg.offset / 2 ^ e : Nat) := by
      rw [uns64_natCast hlt, sgn64_natCast (by omega)]
    rw [nblocks_eq he (by omega), hblk] at hret ⊢
    rw [← Int.natCast_mul] at hret ⊢
    rw [hserve.exact f _ _ hok hret, Int.toNat_natCast]
    simp

/-- **Every segment is placed exactly**, as long as no store goes over a field of the table of
segments that is read after it.  The segments of the kernel are listed by increasing address without
overlap, and lie within its file: when a load path returns 0, every segment holds the bytes of the
file, for every power of two as the block size and every alignment of the offsets. -/
theorem segments_placed (M : Machine) (fs : BootFs σ φ) (fd : φ) (e : Nat) (he' : e < 31)
    (F : Nat → UInt8) (ok : σ → Prop) (hserve : Serves fs fd (2 ^ e) F ok) (size aboot_size : Nat)
    (hsize : size + aboot_size < 4611686018427384832) (dev : Int) (hall : ReadsAll M dev)
    (s : State σ) :
    (ok s.fs → (load_uncompressed M fs fd s).1 = some 0 →
      InOrder (segmentsOf (phdrs (fileHeader M fs fd s))) →
      InFile size (segmentsOf (phdrs (fileHeader M fs fd s))) →
      FileKept ((2 ^ e : Nat) : Int) (tableAt M (2 ^ e) (fileHeader M fs fd s) s) 0
        (segmentsOf (phdrs (fileHeader M fs fd s))) →
      Placed F (segmentsOf (phdrs (fileHeader M fs fd s))) (load_uncompressed M fs fd s).2.mem) ∧
    ((load_raw M aboot_size dev s).1 = some 0 →
      InOrder (segmentsOf (phdrs (rawHeader M aboot_size dev s))) →
      InFile size (segmentsOf (phdrs (rawHeader M aboot_size dev s))) →
      RawKept (tableAt M 512 (rawHeader M aboot_size dev s) s) 0
        (segmentsOf (phdrs (rawHeader M aboot_size dev s))) →
      Placed (rawFile M dev (ksect aboot_size * SECT_SIZE))
        (segmentsOf (phdrs (rawHeader M aboot_size dev s))) (load_raw M aboot_size dev s).2.mem) := by
  constructor
  · intro hok h ho hf hk
    rcases load_uncompressed_cases M fs fd s with ⟨-, hneg⟩ | ⟨s', hfound, hfs, -, he⟩
    · exact absurd (hneg 0 h) (lt_irrefl 0)
    have hlt : 2 ^ e < 18446744073709551616 :=
      lt_of_lt_of_le (Nat.pow_lt_pow_right (by omega) he') (by norm_num)
    have hok' : ok s'.fs := by
      rw [hfs]
      exact hserve.keeps _ _ _ hok
    rw [hserve.blocksize _ hok, uns64_natCast hlt] at hfound
    rw [he] at h ⊢
    rw [hfound.count, readSegments_listed _ 0 s' (hserve.storesBlocks he' (by omega) hf) hok'
      hfound.table hfound.holds hk] at h ⊢
    exact (readListed_placed he' hserve (by omega) _ s' hok' ho hf (Option.some.inj h)).1
  · intro h ho hf hk
    rcases load_raw_cases M aboot_size dev s with ⟨-, hneg⟩ | ⟨s', hfound, -, he⟩
    · exact absurd (hneg 0 h) (lt_irrefl 0)
    rw [he] at h ⊢
    rw [hfound.count, ksect_bytes] at h ⊢
    exact (rawSegments_placed hall (by omega) _ 0 s' hfound.table hfound.holds hk ho hf
      (Option.some.inj h)).1

end

/-! ## a small kernel -/

/-- the bytes of a number, the low one first -/
def bytes (n : Nat) : Nat → List UInt8
  | 0 => []
  | k + 1 => UInt8.ofNat n :: bytes (n / 256) k

/-- the bytes of a program header -/
def Phdr.encode (ph : Phdr) : List UInt8 :=
  bytes ph.p_type 4 ++ bytes 0 4 ++ bytes ph.p_offset 8 ++ bytes ph.p_vaddr 8 ++ bytes 0 8
    ++ bytes ph.p_filesz 8 ++ bytes ph.p_memsz 8 ++ bytes 0 8

/-- a kernel: the ELF header, the program headers and what follows -/
def image (phs : List Phdr) (rest : List UInt8) : Nat → UInt8 := fun k =>
  ([0x7f, 69, 76, 70, 2, 1, 1, 0] ++ bytes 0 8 ++ bytes ET_EXEC 2 ++ bytes EM_ALPHA 2 ++ bytes 1 4
    ++ bytes START_ADDR 8 ++ bytes 64 8 ++ bytes 0 12 ++ bytes 64 2 ++ bytes 56 2
    ++ bytes phs.length 2 ++ bytes 0 6 ++ phs.flatMap Phdr.encode ++ rest).getD k 0

/-- a file system with one file, in blocks of `bs` -/
def oneFile (bs size : Nat) (F : Nat → UInt8) : BootFs Unit Unit where
  blocksize _ := bs
  mount _ p _ := (some true, p, ())
  open_ _ _ := some (some (), ())
  bread _ b n _ := (⟨n * bs, (List.range (n * bs).toNat).map fun k => F (b.toNat * bs + k)⟩, ())
  close _ _ := ()
  readdir _ _ s := (none, s)
  st_size _ _ := size

theorem oneFile_serves (bs size : Nat) (F : Nat → UInt8) :
    Serves (oneFile bs size F) () bs F fun _ => True where
  blocksize _ _ := rfl
  keeps _ _ _ _ := trivial
  exact s b n _ _ := by
    have h1 : ((n : Int) * (bs : Int)).toNat = n * bs := by
      rw [← Int.natCast_mul, Int.toNat_natCast]
    have h2 : ((b : Int)).toNat = b := Int.toNat_natCast b
    simp only [oneFile, h1, h2]

/-- two segments at offsets that are not aligned, the second within the block that is read to the
place of the first -/
def smallImage : Nat → UInt8 :=
  image [⟨PT_LOAD, 176, START_ADDR, 3, 3⟩, ⟨PT_LOAD, 179, START_ADDR + 16, 2, 2⟩] [7, 8, 9, 10, 11]

/-- a machine with a kernel on its disk, after a boot loader of no bytes -/
def diskMachine (F : Nat → UInt8) : Machine :=
  Machine.faultless (fun _ x => F (x - 1024).toNat) (fun _ _ => 0) [⟨0, 256, 1⟩, ⟨256, 768, 0⟩]

def smallMachine : Machine := diskMachine smallImage

/-- the loader at power-on, over a file system in a state `fs` -/
def powerOn {σ : Type} (fs : σ) : State σ := ⟨Elf.powerOn, fs, fun _ => 0, 0, 0, 0, [], [], false⟩

theorem segments_placed_small :
    (load_uncompressed smallMachine (oneFile 512 181 smallImage) () (powerOn ())).1 = some 0 ∧
      Placed smallImage [⟨START_ADDR, 176, 3⟩, ⟨START_ADDR + 16, 179, 2⟩]
        (load_uncompressed smallMachine (oneFile 512 181 smallImage) () (powerOn ())).2.mem ∧
    (load_raw smallMachine 0 0 (powerOn ())).1 = some 0 ∧
      Placed (rawFile smallMachine 0 (ksect 0 * SECT_SIZE))
        [⟨START_ADDR, 176, 3⟩, ⟨START_ADDR + 16, 179, 2⟩]
        (load_raw smallMachine 0 0 (powerOn ())).2.mem := by
  obtain ⟨h1, h2⟩ := segments_placed smallMachine (oneFile 512 181 smallImage) () 9 (by decide)
    smallImage (fun _ => True) (oneFile_serves 512 181 smallImage) 181 0 (by decide) 0
    (fun _ _ _ => rfl) (powerOn ())
  have hu : segmentsOf (phdrs (fileHeader smallMachine (oneFile 512 181 smallImage) () (powerOn ())))
      = [⟨START_ADDR, 176, 3⟩, ⟨START_ADDR + 16, 179, 2⟩] := by decide +kernel
  have hr : segmentsOf (phdrs (rawHeader smallMachine 0 0 (powerOn ())))
      = [⟨START_ADDR, 176, 3⟩, ⟨START_ADDR + 16, 179, 2⟩] := by decide +kernel
  have ht : tableAt smallMachine (2 ^ 9) (fileHeader smallMachine (oneFile 512 181 smallImage) ()
      (powerOn ())) (powerOn ()) = 0xfffffc00007ffdd0 := by decide +kernel
  have ht' : tableAt smallMachine 512 (rawHeader smallMachine 0 0 (powerOn ())) (powerOn ())
      = 0xfffffc00007ffdd0 := by decide +kernel
  rw [hu, ht] at h1
  rw [hr, ht'] at h2
  have hord : InOrder [⟨START_ADDR, 176, 3⟩, ⟨START_ADDR + 16, 179, 2⟩] := by
    simp [InOrder]
  have hin : InFile 181 [⟨START_ADDR, 176, 3⟩, ⟨START_ADDR + 16, 179, 2⟩] := by simp [InFile]
  have h0 : (load_uncompressed smallMachine (oneFile 512 181 smallImage) () (powerOn ())).1 = some 0 := by
    decide +kernel
  have h0' : (load_raw smallMachine 0 0 (powerOn ())).1 = some 0 := by decide +kernel
  exact ⟨h0, h1 trivial h0 hord hin (by decide +kernel), h0', h2 h0' hord hin (by decide +kernel)⟩

/-- where the table of a kernel with two program headers goes, below the 512 bytes of its buffer -/
def overTable : Nat := 0xfffffc00007ffdd0

/-- the first segment lies on the second entry of the table, and the second one right above it -/
def overImage : Nat → UInt8 :=
  image [⟨PT_LOAD, 179, overTable + 24, 24, 24⟩, ⟨PT_LOAD, 176, overTable + 48, 3, 3⟩]
    ([7, 8, 9] ++ bytes 0 24)

/-- the second entry is read as one of 0 bytes, and the load returns 0 without the second segment -/
theorem raw_overwritten :
    segmentsOf (phdrs (rawHeader (diskMachine overImage) 0 0 (powerOn ())))
      = [⟨overTable + 24, 179, 24⟩, ⟨overTable + 48, 176, 3⟩] ∧
    InOrder [⟨overTable + 24, 179, 24⟩, ⟨overTable + 48, 176, 3⟩] ∧
    InFile 203 [⟨overTable + 24, 179, 24⟩, ⟨overTable + 48, 176, 3⟩] ∧
    ReadsAll (diskMachine overImage) 0 ∧
    (load_raw (diskMachine overImage) 0 0 (powerOn ())).1 = some 0 ∧
    ¬ Placed (rawFile (diskMachine overImage) 0 (ksect 0 * SECT_SIZE))
      [⟨overTable + 24, 179, 24⟩, ⟨overTable + 48, 176, 3⟩]
      (load_raw (diskMachine overImage) 0 0 (powerOn ())).2.mem := by
  refine ⟨by decide +kernel, by simp [InOrder], by simp [InFile], fun _ _ _ => rfl, by decide +kernel,
    fun h => ?_⟩
  have hbyte := h ⟨overTable + 48, 176, 3⟩ (by simp) 0 (by decide)
  have hm : (load_raw (diskMachine overImage) 0 0 (powerOn ())).2.mem (overTable + 48 + 0) = 0 := by
    decide +kernel
  have hF : rawFile (diskMachine overImage) 0 (ksect 0 * SECT_SIZE) (176 + 0) = 7 := by decide +kernel
  dsimp only at hbyte
  rw [hm, hF] at hbyte
  exact absurd hbyte (by decide)

end Load
