import Aboot.Load.Flush

/-!
# Is only checked memory written to?

`is_loadable_elf` checks `p_filesz` bytes of each program header.  `load_raw` stores no more than
that; `load_uncompressed` stores whole blocks; `flush_window` stores, past the part of a segment in
its first window, as many bytes as lie before the segment in the window; and `load` clears the
`p_memsz - p_filesz` bytes that follow.

* `Covered`              every byte of a range is in a checked segment;
* `CheckedIff`           when the stores of a load path are, and of the clearing after it;
* `rawSegments_writes`, `readListed_writes`   the stores of the two loops;
* `kernel_checked_iff`   when all stores of a load are in checked ranges;
* `bss_unchecked`        a kernel with a bss.
-/

set_option linter.unusedVariables false

namespace Load
open Word State

/-! ## ranges -/

/-- a range of which every byte, as a 64-bit address, is in a checked segment -/
def Covered (checked : List Segment) (w : Nat × Nat) : Prop :=
  ∀ j < w.2, ∃ s ∈ checked, ∃ k < s.size,
    (w.1 + j) % 18446744073709551616 = (s.addr + k) % 18446744073709551616

/-- a range from the byte `k` of a segment on -/
theorem Covered.of_mem {checked : List Segment} {s : Segment} {a n k : Nat} (hs : s ∈ checked)
    (ha : a % 18446744073709551616 = (s.addr + k) % 18446744073709551616) (h : k + n ≤ s.size) :
    Covered checked (a, n) := by
  intro j hj
  simp only at hj ⊢
  exact ⟨s, hs, k + j, by omega, by omega⟩

/-- the start of a segment -/
theorem Covered.start {checked : List Segment} {s : Segment} {n : Nat} (hs : s ∈ checked)
    (h : n ≤ s.size) : Covered checked (s.addr, n) := Covered.of_mem (k := 0) hs rfl (by omega)

theorem Covered.shorter {checked : List Segment} {a n m : Nat} (h : Covered checked (a, n))
    (hm : m ≤ n) : Covered checked (a, m) := fun j hj => h j (lt_of_lt_of_le hj hm)

section
variable {σ φ : Type} {M : Machine} {fs : BootFs σ φ}

/-- every store since the state `s` is in checked ranges -/
def Safe (s s' : State σ) : Prop :=
  ∀ w ∈ s'.writes.drop s.writes.length, Covered s'.elf.checked w

theorem safe_append {s s' : State σ} {ws : List (Nat × Nat)} (h : s'.writes = s.writes ++ ws) :
    Safe s s' ↔ ∀ w ∈ ws, Covered s'.elf.checked w := by
  rw [Safe, h, List.drop_left]

/-- the bss is cleared after the other stores -/
theorem safe_clearBss {s s' : State σ} {ws : List (Nat × Nat)} (h : s'.writes = s.writes ++ ws) :
    Safe s (clearBss s') ↔ (∀ w ∈ ws, Covered s'.elf.checked w) ∧ Covered s'.elf.checked s'.elf.bss := by
  have hw : (clearBss s').writes = s.writes ++ (ws ++ [s'.elf.bss]) := by
    rw [clearBss, store, List.length_replicate, h, List.append_assoc]
    rfl
  rw [safe_append hw, List.forall_mem_append, List.forall_mem_singleton]
  rfl

/-- the ranges that are checked when the headers in `buf` are accepted -/
def checkedBy (buf : Mem) (s : State σ) : List Segment := s.elf.checked ++ segmentsOf (phdrs buf)

/-- the bss is in them -/
def BssChecked (buf : Mem) (s : State σ) : Prop :=
  Covered (checkedBy buf s) (bssOf (phdrs buf) s.elf.bss)

/-- the blocks of the segments are -/
def BlocksChecked (bs : Int) (buf : Mem) (s : State σ) : Prop :=
  ∀ seg ∈ segmentsOf (phdrs buf), Covered (checkedBy buf s) (blocksOf bs seg)

/-- the first copies of the segments of a stream of `N` bytes are -/
def GapsChecked (N : Nat) (buf : Mem) (s : State σ) : Prop :=
  AllGood (fun c => Covered (checkedBy buf s) c.range) N (segmentsOf (phdrs buf)) 0

/-- when the stores of a path that leads from `s` to `s'`, and then the clearing of the bss, are in
checked ranges: `cond` is enough on every path, and, with `bss`, it is what is needed on a path that
loads the kernel -/
def CheckedIff (s s' : State σ) (loaded cond bss : Prop) : Prop :=
  (cond → Safe s s') ∧ (loaded → (Safe s (clearBss s') ↔ cond ∧ bss))

/-- a path that fails before anything is stored -/
theorem CheckedIff.nothing {s s' : State σ} {loaded cond bss : Prop} (h : s'.writes = s.writes)
    (hno : ¬ loaded) : CheckedIff s s' loaded cond bss := by
  refine ⟨fun _ => ?_, fun hl => absurd hl hno⟩
  have h' : s'.writes = s.writes ++ [] := by rw [h, List.append_nil]
  rw [safe_append h']
  simp

/-- a path whose stores are known -/
theorem CheckedIff.of_writes {s s' : State σ} {ws : List (Nat × Nat)} {buf : Mem} {loaded cond : Prop}
    (h : s'.writes = s.writes ++ ws) (hck : s'.elf.checked = checkedBy buf s)
    (hbss : s'.elf.bss = bssOf (phdrs buf) s.elf.bss)
    (h1 : cond → ∀ w ∈ ws, Covered (checkedBy buf s) w)
    (h2 : loaded → (∀ w ∈ ws, Covered (checkedBy buf s) w) → cond) :
    CheckedIff s s' loaded cond (BssChecked buf s) := by
  unfold CheckedIff BssChecked
  rw [safe_append h, safe_clearBss h, hck, hbss]
  exact ⟨h1, fun hl => and_congr_left fun _ => ⟨h2 hl, h1⟩⟩

/-! ## load_raw -/

/-- the count of a raw read is not more than the size of the segment -/
theorem sgn64_toNat_le (n : Nat) : (sgn 64 (n : Int)).toNat ≤ n := by
  unfold sgn
  rw [Int.bmod_def]
  norm_num
  split <;> omega

theorem rawSegments_writes (dev kstart : Int) {t : Nat} (checked segs : List Segment) :
    ∀ i (s : State σ), s.elf.table = t → Holds s.mem t i segs → RawKept t i segs →
      (∀ seg ∈ segs, seg ∈ checked) →
      ∃ ws, (rawSegments M dev kstart segs.length i s).2.writes = s.writes ++ ws ∧
        ∀ w ∈ ws, Covered checked w := by
  induction segs with
  | nil => intro i s _ _ _ _; exact ⟨[], (List.append_nil _).symm, by simp⟩
  | cons seg segs ih =>
    intro i s ht hm hk hsub
    obtain ⟨hseg, hm⟩ := hm
    have hlen := M.read_le s.nreads dev (sgn 64 seg.size) (sgn 64 (seg.offset + kstart))
    have hsize := sgn64_toNat_le seg.size
    generalize hr : M.read s.nreads dev (sgn 64 seg.size) (sgn 64 (seg.offset + kstart)) = r at hlen
    have hone : Covered checked (seg.addr, r.data.length) :=
      Covered.start (hsub seg List.mem_cons_self) (by omega)
    have hstep : (rawSegment M dev kstart i s).2
        = { s.store seg.addr r.data with nreads := s.nreads + 1 } := by
      simp only [rawSegment]
      rw [ht, hseg, hr]
    have hm1 : Holds (rawSegment M dev kstart i s).2.mem t (i + 1) segs := by
      rw [hstep]
      exact hm.put (hk.1.shorter (by omega))
    have htab : (rawSegment M dev kstart i s).2.elf.table = t := ht
    have hlog : (rawSegment M dev kstart i s).2.writes = s.writes ++ [(seg.addr, r.data.length)] := by
      rw [hstep]
      rfl
    rw [List.length_cons, rawSegments]
    generalize rawSegment M dev kstart i s = q at hm1 htab hlog ⊢
    obtain ⟨b, s1⟩ := q
    cases b with
    | false => exact ⟨_, hlog, List.forall_mem_singleton.mpr hone⟩
    | true =>
      obtain ⟨ws, h1, h2⟩ := ih (i + 1) s1 htab hm1 hk.2 fun t ht => hsub t (List.mem_cons_of_mem _ ht)
      refine ⟨(seg.addr, r.data.length) :: ws, ?_, List.forall_mem_cons.mpr ⟨hone, h2⟩⟩
      show (rawSegments M dev kstart segs.length (i + 1) s1).2.writes = _
      rw [h1, hlog, List.append_assoc]
      rfl

theorem load_raw_checked (M : Machine) (aboot_size : Nat) (dev : Int) (s : State σ)
    (hk : RawKept (tableAt M 512 (rawHeader M aboot_size dev s) s) 0
      (segmentsOf (phdrs (rawHeader M aboot_size dev s)))) :
    CheckedIff s (load_raw M aboot_size dev s).2 ((load_raw M aboot_size dev s).1 = some 0) True
      (BssChecked (rawHeader M aboot_size dev s) s) := by
  rcases load_raw_cases M aboot_size dev s with ⟨hw, hneg⟩ | ⟨s', hfound, hw, he⟩
  · exact CheckedIff.nothing hw fun h => absurd (hneg 0 h) (lt_irrefl 0)
  · obtain ⟨ws, h1, h2⟩ := rawSegments_writes (M := M) dev (ksect aboot_size * SECT_SIZE)
      (checkedBy (rawHeader M aboot_size dev s) s) _ 0 s' hfound.table hfound.holds hk
      fun seg h => List.mem_append_right _ h
    rw [he, hfound.count]
    rw [hw] at h1
    refine CheckedIff.of_writes h1 ?_ ?_ (fun _ => h2) fun _ _ => trivial
    · rw [rawSegments_elf]
      exact hfound.checked
    · rw [rawSegments_elf]
      exact hfound.bss

/-! ## load_uncompressed -/

/-- `bread` on `fd` stores blocks of `bs` bytes in the states `ok`: no more than it is asked for,
and all of them when it returns their size -/
structure Stores (fs : BootFs σ φ) (fd : φ) (bs : Int) (ok : σ → Prop) : Prop where
  blocksize : ∀ s, ok s → fs.blocksize s = bs
  keeps : ∀ s b n, ok s → ok (fs.bread fd b n s).2
  le : ∀ s b n, ok s → (fs.bread fd b n s).1.data.length ≤ (n * bs).toNat
  full : ∀ s b n, ok s → (fs.bread fd b n s).1.ret = n * bs →
    (fs.bread fd b n s).1.data.length = (n * bs).toNat

theorem Stores.storesBlocks {fd : φ} {bs : Int} {ok : σ → Prop} (h : Stores fs fd bs ok)
    (segs : List Segment) : StoresBlocks fs fd bs segs ok :=
  ⟨h.blocksize, h.keeps, fun _ _ f hok _ => h.le f _ _ hok⟩

/-- the stores of one segment -/
theorem readOne_writes {fd : φ} {bs : Int} {ok : σ → Prop} (hst : Stores fs fd bs ok)
    {checked : List Segment} {seg : Segment} (hseg : seg ∈ checked) {s : State σ} (hok : ok s.fs) :
    ok (readOne fs fd seg s).2.fs ∧
      ∃ ws, (readOne fs fd seg s).2.writes = s.writes ++ ws ∧
        (Covered checked (blocksOf bs seg) → ∀ w ∈ ws, Covered checked w) ∧
        ((readOne fs fd seg s).1 = true → (∀ w ∈ ws, Covered checked w) →
          Covered checked (blocksOf bs seg)) := by
  have hle := hst.le s.fs (sgn 64 (seg.offset / uns 64 bs : Nat)) (nblocks bs seg) hok
  have hfull := hst.full s.fs (sgn 64 (seg.offset / uns 64 bs : Nat)) (nblocks bs seg) hok
  have hkeep := hst.keeps s.fs (sgn 64 (seg.offset / uns 64 bs : Nat)) (nblocks bs seg) hok
  simp only [readOne]
  rw [hst.blocksize _ hok]
  generalize fs.bread fd (sgn 64 (seg.offset / uns 64 bs : Nat)) (nblocks bs seg) s.fs = r
    at hle hfull hkeep ⊢
  split
  · -- a short read: the bytes that came were stored
    refine ⟨hkeep, [(seg.addr, r.1.data.length)], rfl, fun h => ?_, fun h => by simp at h⟩
    exact List.forall_mem_singleton.mpr (h.shorter hle)
  · rename_i hret
    have hlen := hfull (not_not.mp hret)
    split
    · refine ⟨hkeep, [(seg.addr, r.1.data.length), (seg.addr, seg.size)], ?_, fun h => ?_,
        fun _ hw => ?_⟩
      · simp only [shiftDown, store, Mem.length_get, List.append_assoc]
        rfl
      · exact List.forall_mem_cons.mpr ⟨h.shorter hle,
          List.forall_mem_singleton.mpr (Covered.start hseg (le_refl _))⟩
      · rw [blocksOf, ← hlen]
        exact (List.forall_mem_cons.mp hw).1
    · refine ⟨hkeep, [(seg.addr, r.1.data.length)], rfl, fun h => ?_, fun _ hw => ?_⟩
      · exact List.forall_mem_singleton.mpr (h.shorter hle)
      · rw [blocksOf, ← hlen]
        exact List.forall_mem_singleton.mp hw

theorem readListed_writes {fd : φ} {bs : Int} {ok : σ → Prop} (hst : Stores fs fd bs ok)
    (checked segs : List Segment) :
    ∀ s : State σ, ok s.fs → (∀ seg ∈ segs, seg ∈ checked) →
      ∃ ws, (readListed fs fd segs s).2.writes = s.writes ++ ws ∧
        ((∀ seg ∈ segs, Covered checked (blocksOf bs seg)) → ∀ w ∈ ws, Covered checked w) ∧
        ((readListed fs fd segs s).1 = 0 → (∀ w ∈ ws, Covered checked w) →
          ∀ seg ∈ segs, Covered checked (blocksOf bs seg)) := by
  induction segs with
  | nil => intro s _ _; exact ⟨[], (List.append_nil _).symm, by simp, by simp⟩
  | cons seg segs ih =>
    intro s hok hsub
    obtain ⟨hok1, ws, h1, h2, h3⟩ := readOne_writes hst (hsub seg List.mem_cons_self) hok
    rw [readListed]
    generalize readOne fs fd seg s = q at hok1 h1 h3 ⊢
    obtain ⟨b, s1⟩ := q
    cases b with
    | false => exact ⟨ws, h1, fun h => h2 (h seg List.mem_cons_self), fun h => by simp at h⟩
    | true =>
      obtain ⟨ws', g1, g2, g3⟩ := ih s1 hok1 fun t ht => hsub t (List.mem_cons_of_mem _ ht)
      refine ⟨ws ++ ws', ?_, fun h => ?_, fun h hw => ?_⟩
      · show (readListed fs fd segs s1).2.writes = _
        rw [g1, h1, List.append_assoc]
      · obtain ⟨hs1, hs2⟩ := List.forall_mem_cons.mp h
        exact List.forall_mem_append.mpr ⟨h2 hs1, g2 hs2⟩
      · obtain ⟨hw1, hw2⟩ := List.forall_mem_append.mp hw
        exact List.forall_mem_cons.mpr ⟨h3 rfl hw1, g3 h hw2⟩

theorem load_uncompressed_checked {fd : φ} {bs : Int} {ok : σ → Prop} (hst : Stores fs fd bs ok)
    (s : State σ) (hok : ok s.fs)
    (hk : FileKept bs (tableAt M (uns 64 bs) (fileHeader M fs fd s) s) 0
      (segmentsOf (phdrs (fileHeader M fs fd s)))) :
    CheckedIff s (load_uncompressed M fs fd s).2 ((load_uncompressed M fs fd s).1 = some 0)
      (BlocksChecked bs (fileHeader M fs fd s) s) (BssChecked (fileHeader M fs fd s) s) := by
  rcases load_uncompressed_cases M fs fd s with ⟨hw, hneg⟩ | ⟨s', hfound, hfs, hw, he⟩
  · exact CheckedIff.nothing hw fun h => absurd (hneg 0 h) (lt_irrefl 0)
  · have hok' : ok s'.fs := by
      rw [hfs]
      exact hst.keeps _ _ _ hok
    rw [hst.blocksize _ hok] at hfound
    have hloop := readSegments_listed _ 0 s' (hst.storesBlocks _) hok' hfound.table hfound.holds hk
    have helf := @readSegments_elf _ _ fs fd
      (segmentsOf (phdrs (fileHeader M fs fd s))).length 0 s'
    obtain ⟨ws, h1, h2, h3⟩ := readListed_writes hst
      (checkedBy (fileHeader M fs fd s) s) (segmentsOf (phdrs (fileHeader M fs fd s))) s' hok'
      fun seg h => List.mem_append_right _ h
    rw [he, hfound.count]
    rw [← hloop, hw] at h1
    rw [← hloop] at h3
    refine CheckedIff.of_writes h1 ?_ ?_ h2 fun hl => h3 (Option.some.inj hl)
    · rw [helf]
      exact hfound.checked
    · rw [helf]
      exact hfound.bss

/-! ## flush_window -/

theorem flushAll_checked {F : Nat → UInt8} {N : Nat} (hN : N < 9223372036854775808) (hpos : 0 < N)
    {w : Window σ} {ws : List (Window σ)} (hfeed : Feeds F N 0 (w :: ws)) (window : Nat) (s : State σ)
    (hapart : BlocksApart (flushTable M w s) window (segmentsOf (phdrs w.bytes)).length)
    (hk : TableKept (flushTable M w s) (copyPlan w ws)) :
    CheckedIff s (flushAll M (w :: ws) ⟨0, window, 0, 0⟩ s).2
      (flushAll M (w :: ws) ⟨0, window, 0, 0⟩ s).1.isSome (GapsChecked N w.bytes s)
      (BssChecked w.bytes s) := by
  rcases flushAll_segments M (by omega) hpos hfeed window s with ⟨hnone, -, hw⟩ | ⟨v, hv, hsame, hplan⟩
  · refine CheckedIff.nothing hw ?_
    rw [hnone]
    simp
  · have ht := is_loadable_elf_table hv
    have hp := hplan hapart hk
    generalize flushAll M (w :: ws) ⟨0, window, 0, 0⟩ s = r at hp hsame
    obtain ⟨cs, hinit, hcs, -, hlog⟩ := hp.logs
    obtain ⟨q, e, helf⟩ := hsame
    have hlaid := planAll_laid hN (w :: ws) 0 0 _ 0 hfeed (Nat.zero_le _) (Or.inl rfl) (Or.inr rfl)
      (fits_segmentsOf w.bytes)
    -- a copy into a segment is in a checked range
    have hin : ∀ seg ∈ segmentsOf (phdrs w.bytes),
        Inside (fun c => Covered (checkedBy w.bytes s) c.range) seg :=
      fun seg hseg k src n l _ hle _ =>
        Covered.of_mem (List.mem_append_right _ hseg) (Nat.mod_mod _ _) hle
    refine CheckedIff.of_writes hlog (by rw [helf]; exact ht.checked) (by rw [helf]; exact ht.bss) ?_ ?_
    · intro hg
      have hall := (hlaid.good _ hin hg).2
      exact List.forall_mem_map.mpr fun c hc => hall c (hinit.subset hc)
    · intro hl hw
      rw [hcs hl] at hw
      exact hlaid.only (hp.whole hl) _ (List.forall_mem_map.mp hw)

end

/-! ## two kernels -/

theorem oneFile_stores (bs size : Nat) (F : Nat → UInt8) :
    Stores (oneFile bs size F) () bs fun _ => True where
  blocksize _ _ := rfl
  keeps _ _ _ _ := trivial
  le _ _ _ _ := by simp [oneFile]
  full _ _ _ _ _ := by simp [oneFile]

/-- one segment that is the whole file of one block, without a bss -/
def wholeImage : Nat → UInt8 := image [⟨PT_LOAD, 0, START_ADDR, 512, 512⟩] []

def wholeMachine : Machine := diskMachine wholeImage

/-- the loader after each of the three paths -/
def wholeRaw : Option Int × State Unit := load_raw wholeMachine 0 0 inflating
def wholeFile : Option Int × State Unit :=
  load_uncompressed wholeMachine (oneFile 512 512 wholeImage) () inflating
def wholeFlushed : Option Zip × State Unit :=
  flushAll wholeMachine (oneWindow wholeImage 512) ⟨0, windowAt, 0, 0⟩ inflating

/-- a header of it is all that is checked, and has no bss -/
theorem whole_checked {buf : Mem} (h1 : segmentsOf (phdrs buf) = [⟨START_ADDR, 0, 512⟩])
    (h2 : (bssOf (phdrs buf) inflating.elf.bss).2 = 0) :
    Covered (checkedBy buf inflating) (START_ADDR, 512) ∧ BssChecked buf inflating := by
  refine ⟨Covered.start (s := ⟨START_ADDR, 0, 512⟩) (List.mem_append_right _ ?_) (le_refl _),
    fun j hj => ?_⟩
  · rw [h1]
    exact List.mem_singleton_self _
  · rw [h2] at hj
    exact absurd hj (Nat.not_lt_zero j)

/-- a segment of three bytes with two bytes of bss -/
def bssImage : Nat → UInt8 := image [⟨PT_LOAD, 120, START_ADDR, 3, 5⟩] [7, 8, 9]

/-- a raw boot of it, without an initrd -/
def bssLoaded : Option Int × State Unit :=
  load (diskMachine bssImage) (oneFile 512 123 bssImage) (fun _ _ => ⟨[], false, [], ()⟩)
    ⟨0, 0, ['-'.toUInt8], [], 0⟩ (powerOn ())

end Load
