import Aboot.Tools.Swriteboot

/-!
# The configured partition across a new installation

`swriteboot` takes the partition from the image on the disk with a scan to the last `ABOOT_MAGIC`, and
stores it after every `ABOOT_MAGIC` of the first sector of the new image; `abootconf` looks at the
first one.

* `partOption`      the argument of `-c`;
* `bootpartIn_of`   the scan of an image with one `ABOOT_MAGIC`;
* `SetUpTo`         the loop that stores the partition, one word after the other;
* `partition_kept`  what `abootconf` reports after `swriteboot`.
-/

set_option linter.unusedVariables false

namespace Swriteboot
open Word Bytes Prog BootBlock Disklabel

/-! ## the options -/

def partStep (r : Option Int) : Opt → Option Int
  | .c optarg => some (atoi optarg)
  | _ => r

/-- the partition of the last `-c` -/
def partOption (opts : List Opt) : Option Int := opts.foldl partStep none

/-- the partition of the options so far is in `bootpart` -/
def PartIs (r : Option Int) (o : Options) : Prop :=
  (r = none ∧ o.bootpart = 0) ∨ ∃ Q, r = some Q ∧ o.bootpart = Q ∧ 1 ≤ Q ∧ Q ≤ 8

theorem option_part {o o' : Options} {r : Option Int} {a : Opt} (hr : PartIs r o)
    (h : option o a = some o') : PartIs (partStep r a) o' := by
  cases a with
  | f optarg =>
    simp only [option] at h
    by_cases hc : atoi optarg < 1 ∨ atoi optarg > 8
    · rw [if_pos hc] at h
      cases h
    · rw [if_neg hc] at h
      obtain rfl := Option.some.inj h
      exact hr
  | c optarg =>
    simp only [option] at h
    by_cases hc : atoi optarg < 1 ∨ atoi optarg > 8
    · rw [if_pos hc] at h
      cases h
    · rw [if_neg hc] at h
      obtain rfl := Option.some.inj h
      exact Or.inr ⟨atoi optarg, rfl, rfl, by omega, by omega⟩
  | v =>
    obtain rfl := Option.some.inj h
    exact hr
  | unknown => cases h

theorem foldlM_part {o : Options} (l : List Opt) : ∀ (o₀ : Options) (r : Option Int), PartIs r o₀ →
    l.foldlM option o₀ = some o → PartIs (l.foldl partStep r) o := by
  induction l with
  | nil =>
    intro o₀ r hr h
    obtain rfl := Option.some.inj h
    exact hr
  | cons a l ih =>
    intro o₀ r hr h
    rw [List.foldlM_cons] at h
    obtain ⟨o₁, h1, h2⟩ := Option.bind_eq_some_iff.mp h
    exact ih o₁ _ (option_part hr h1) h2

theorem getopt_part {opts : List Opt} {o : Options} (h : getopt opts = some o) :
    PartIs (partOption opts) o := foldlM_part opts ⟨0, 0⟩ none (Or.inl ⟨rfl, rfl⟩) h

/-! ## one `ABOOT_MAGIC` -/

/-- `ABOOT_MAGIC` is word `i` of a sector and no other; there is a word after it -/
def MagicAt (sector : Mem) (i : Nat) : Prop :=
  i < 63 ∧ word sector i = ABOOT_MAGIC ∧ ∀ j, j < 64 → word sector j = ABOOT_MAGIC → j = i

/-- the same of the first sector of a file, which may be shorter than a sector -/
def MagicIn (file : File) (i : Nat) : Prop :=
  i < 63 ∧ 8 * i + 8 ≤ file.bytes.length ∧ word file.mem i = ABOOT_MAGIC ∧
    ∀ j, j < 64 → 8 * j + 8 ≤ file.bytes.length → word file.mem j = ABOOT_MAGIC → j = i

/-- a scan to the last match, when there is one match -/
theorem foldl_match {p : Nat → Prop} [DecidablePred p] {f : Nat → Nat} {i : Nat} (n : Nat) (a : Nat)
    (h : ∀ j, j < n → (p j ↔ j = i)) :
    (List.range n).foldl (fun acc x => if p x then f x else acc) a = if i < n then f i else a := by
  induction n with
  | zero => rfl
  | succ n ih =>
    rw [List.range_succ, List.foldl_append, ih fun j hj => h j (by omega), List.foldl_cons,
      List.foldl_nil]
    by_cases e : n = i
    · rw [if_pos ((h n (by omega)).mpr e), if_pos (by omega), e]
    · rw [if_neg fun hp => e ((h n (by omega)).mp hp)]
      by_cases hlt : i < n
      · rw [if_pos hlt, if_pos (by omega)]
      · rw [if_neg hlt, if_neg (by omega)]

theorem bootpartIn_of {buf : Mem} {i : Nat} (h : MagicAt buf i) : bootpartIn buf = word buf (i + 1) := by
  obtain ⟨hi, hm, hu⟩ := h
  have hiff : ∀ j, j < 64 → (word buf j = ABOOT_MAGIC ↔ j = i) := fun j hj =>
    ⟨hu j hj, fun e => e ▸ hm⟩
  exact (foldl_match (f := fun x => word buf (x + 1)) 64 0 hiff).trans (if_pos (by omega))

/-- the first match is the only one -/
theorem magicIndex_of {sector : Mem} {i : Nat} (hi : i < 64) (hm : word sector i = ABOOT_MAGIC)
    (hu : ∀ j, j < i → word sector j ≠ ABOOT_MAGIC) : magicIndex sector = some i := by
  unfold magicIndex
  rw [List.find?_range_eq_some]
  refine ⟨by simpa using hm, List.mem_range.mpr hi, fun j hj => ?_⟩
  simpa using hu j hj

/-! ## storing the partition -/

/-- the buffer after the loop has looked at `n` words: `file` bytes of the image are in the sector,
with `ABOOT_MAGIC` in word `i` -/
structure SetUpTo (part : Int) (len i n : Nat) (buf₀ buf : Mem) : Prop where
  before : n ≤ i → buf = buf₀
  part : i < n → word buf (i + 1) = uns 64 part
  image : ∀ k, k < len → k < 8 * (i + 1) ∨ 8 * (i + 2) ≤ k → buf k = buf₀ k

section
variable {part : Int} {len i : Nat} {buf₀ : Mem} (hpart : uns 64 part ≠ ABOOT_MAGIC)
  (hlen : 8 * i + 8 ≤ len) (hm : word buf₀ i = ABOOT_MAGIC)
  (hu : ∀ j, j < 64 → 8 * j + 8 ≤ len → word buf₀ j = ABOOT_MAGIC → j = i)
include hpart hlen hm hu

theorem SetUpTo.step {n : Nat} {buf : Mem} (hn : n < 64) (h : SetUpTo part len i n buf₀ buf) :
    SetUpTo part len i (n + 1) buf₀
      (if word buf n = ABOOT_MAGIC then buf.put (8 * (n + 1)) (ofNum (uns 64 part) 8) else buf) := by
  have hmod : uns 64 part % 2 ^ 64 = uns 64 part := Nat.mod_eq_of_lt (uns64_lt part)
  rcases Nat.lt_trichotomy n i with hni | hni | hni
  · -- a word before `ABOOT_MAGIC`
    have hne : word buf n ≠ ABOOT_MAGIC := by
      rw [h.before (by omega)]
      intro e
      have := hu n hn (by omega) e
      omega
    rw [if_neg hne]
    exact ⟨fun _ => h.before (by omega), fun hlt => absurd hlt (by omega), h.image⟩
  · -- `ABOOT_MAGIC`
    subst hni
    rw [h.before (le_refl n), if_pos hm]
    refine ⟨fun hle => absurd hle (by omega), fun _ => ?_, fun k hk hout => ?_⟩
    · rw [word_put_self, hmod]
    · refine Mem.put_out _ _ _ _ ?_
      rw [length_ofNum]
      omega
  · by_cases he : word buf n = ABOOT_MAGIC
    · -- a match after it is past the end of the image
      have hn1 : n ≠ i + 1 := by
        rintro rfl
        exact hpart ((h.part (by omega)).symm.trans he)
      have hpast : len < 8 * n + 8 := by
        by_contra hin
        have hw : word buf n = word buf₀ n :=
          le_congr fun j hj => h.image (8 * n + j) (by omega) (by omega)
        have := hu n hn (by omega) (hw.symm.trans he)
        omega
      rw [if_pos he]
      refine ⟨fun hle => absurd hle (by omega), fun _ => ?_, fun k hk hout => ?_⟩
      · rw [word_put_other _ _ (by omega)]
        exact h.part (by omega)
      · rw [Mem.put_out _ _ _ _ (by omega)]
        exact h.image k hk hout
    · rw [if_neg he]
      exact ⟨fun hle => absurd hle (by omega), fun _ => h.part (by omega), h.image⟩

theorem setBootpart_upTo (n : Nat) (hn : n ≤ 64) :
    SetUpTo part len i n buf₀ ((List.range n).foldl
      (fun buf x => if word buf x = ABOOT_MAGIC then
        buf.put (8 * (x + 1)) (ofNum (uns 64 part) 8) else buf) buf₀) := by
  induction n with
  | zero => exact ⟨fun _ => rfl, fun h => absurd h (by omega), fun _ _ _ => rfl⟩
  | succ n ih =>
    rw [List.range_succ, List.foldl_append, List.foldl_cons, List.foldl_nil]
    exact SetUpTo.step hpart hlen hm hu (by omega) (ih (by omega))

end

/-! ## abootconf -/

/-- the bytes of a device from an offset on -/
def sectorAt (m : Mem) (off : Nat) : Mem := fun k => m (off + k)

theorem word_put_get (stack m : Mem) (off : Nat) {x : Nat} (hx : x < 64) :
    word (stack.put 0 (m.get off SECT_SIZE)) x = word (sectorAt m off) x := by
  refine le_congr fun j hj => ?_
  have hlen : 8 * x + j < (m.get off SECT_SIZE).length := by
    rw [Mem.length_get]
    show 8 * x + j < 512
    omega
  have hp := Mem.put_in stack 0 (8 * x + j) _ hlen
  rw [Nat.zero_add] at hp
  rw [hp]
  simp only [Mem.get, List.getElem_map, List.getElem_range, sectorAt]

/-- where the boot block points to -/
def bootOffset (m : Mem) : Int := sgn 64 (m.le64 488 * 512 : Nat)

/-- what `abootconf` prints: the word after the first `ABOOT_MAGIC`, if there is one -/
theorem abootconf_run (stack m : Mem) {n i : Nat} (hoff : bootOffset m = n) (hi : i < 63)
    (hm : word (sectorAt m n) i = ABOOT_MAGIC)
    (hu : ∀ j, j < i → word (sectorAt m n) j ≠ ABOOT_MAGIC) :
    ∃ s, abootconf stack none (Device.opened m)
      = some (some (sgn 64 (word (sectorAt m n) (i + 1))), s) := by
  have h61 : word (stack.put 0 (m.get 0 SECT_SIZE)) 61 = m.le64 488 := by
    rw [word_put_get stack m 0 (by decide)]
    refine le_congr fun j hj => ?_
    rw [sectorAt, Nat.zero_add]
  have hoff' : sgn 64 (word (stack.put 0 (m.get 0 SECT_SIZE)) 61 * 512 : Nat) = n := by
    rw [h61]
    exact hoff
  have hidx : magicIndex ((stack.put 0 (m.get 0 SECT_SIZE)).put 0 (m.get n SECT_SIZE)) = some i := by
    refine magicIndex_of (by omega) ?_ fun j hj => ?_
    · rw [word_put_get _ m n (by omega), hm]
    · rw [word_put_get _ m n (by omega)]
      exact hu j hj
  unfold abootconf
  dsimp only
  rw [if_neg (by decide), bind_run (Device.read_run SECT_SIZE)]
  dsimp only [Device.opened]
  rw [hoff', bind_run (Device.seek_run n), bind_run (Device.read_run SECT_SIZE)]
  dsimp only
  rw [hidx]
  refine ⟨⟨m, n + SECT_SIZE, []⟩, ?_⟩
  dsimp only
  rw [if_pos (by decide), word_put_get _ m n (by omega)]
  rfl

/-! ## from the old image to the new one -/

theorem word_lt (m : Mem) (x : Nat) : word m x < 18446744073709551616 := by
  have h := num_lt (m.get (8 * x) 8)
  rw [← le_eq_num, Mem.length_get] at h
  exact h

/-- a word that is printed as a small number is that number -/
theorem word_of_sgn {m : Mem} {x : Nat} {P : Int} (h : sgn 64 (word m x) = P) (h1 : 1 ≤ P)
    (h2 : P < 2147483648) : (word m x : Int) = P := by
  obtain ⟨q, hq, -, -⟩ := sgn64_cases (word m x)
  have hlt := word_lt m x
  rw [h] at hq
  omega

/-- without `-c`, the partition of the image on the disk is taken -/
theorem partOf_old {stack disk : Mem} {o : Options} {P : Int} {n i : Nat} (ho : o.bootpart = 0)
    (hpoint : bootOffset disk = n) (hmagic : MagicAt (sectorAt disk n) i)
    (hP : (word (sectorAt disk n) (i + 1) : Int) = P) (h1 : 1 ≤ P) (h2 : P < 2147483648) :
    partOf stack disk o = P := by
  obtain ⟨hi, hm, hu⟩ := hmagic
  have hoff : sgn 64 (SECT_SIZE * disk.le64 488 : Nat) = n := by
    rw [Nat.mul_comm]
    exact hpoint
  have hmagic' : MagicAt (stack.put 0 (disk.get n SECT_SIZE)) i := by
    refine ⟨hi, ?_, fun j hj e => hu j hj ?_⟩
    · rw [word_put_get stack disk n (by omega), hm]
    · rw [← word_put_get stack disk n hj, e]
  unfold partOf
  rw [if_pos ho, hoff, if_pos (Int.natCast_nonneg n), Int.toNat_natCast, bootpartIn_of hmagic',
    word_put_get stack disk n (by omega), hP]
  exact sgn32_of_range (by omega) h2

/-- the image and its configuration after `swriteboot`, for a partition that is not 0 -/
theorem configured_image (buf disk d : Mem) {part : Int} {bootfile : File} (kernel : Option File)
    {i : Nat} (h1 : 1 ≤ part) (h2 : part < 2147483648) (hnew : MagicIn bootfile i) :
    bootOffset (withSum (configured part buf (stored disk bootfile kernel)) d) = (1024 : Nat) ∧
      (∀ j, j ≤ i → word (sectorAt (withSum (configured part buf (stored disk bootfile kernel)) d) 1024) j
        = word bootfile.mem j) ∧
      (word (sectorAt (withSum (configured part buf (stored disk bootfile kernel)) d) 1024) (i + 1) : Int)
        = part ∧
      ∀ k (hk : k < bootfile.bytes.length), k < 8 * (i + 1) ∨ 8 * (i + 2) ≤ k →
        withSum (configured part buf (stored disk bootfile kernel)) d (1024 + k) = bootfile.bytes[k] := by
  obtain ⟨hi, hlen, hm, hu⟩ := hnew
  have hpart : (uns 64 part : Int) = part := uns64_of_range (by omega) (by omega)
  have hne : uns 64 part ≠ ABOOT_MAGIC := by
    unfold ABOOT_MAGIC
    omega
  generalize hfin : withSum (configured part buf (stored disk bootfile kernel)) d = fin
  have hout : ∀ x, x < 504 → fin x = disk.put 480 (bootWords bootfile) x := by
    intro x hx
    rw [← hfin, withSum_out (by omega), configured_out (by omega)]
    exact Mem.put_out _ _ _ _ (by omega)
  have himg : ∀ k (hk : k < bootfile.bytes.length),
      stored disk bootfile kernel (1024 + k) = bootfile.bytes[k] := by
    intro k hk
    rw [stored_image (by rw [List.length_append]; omega), List.getElem_append_left hk]
  -- the sector in the buffer, before and after the loop
  generalize hbuf : buf.put 0 ((stored disk bootfile kernel).get 1024 SECT_SIZE) = buf₀
  have hbuf₀ : ∀ k, k < 512 → (hk : k < bootfile.bytes.length) → buf₀ k = bootfile.bytes[k] := by
    intro k hk hlt
    have hin : k < ((stored disk bootfile kernel).get 1024 SECT_SIZE).length := by
      rw [Mem.length_get]
      exact hk
    have hp := Mem.put_in buf 0 k _ hin
    rw [Nat.zero_add, hbuf] at hp
    rw [hp, ← himg k hlt]
    simp only [Mem.get, List.getElem_map, List.getElem_range]
  have hword₀ : ∀ j, j < 64 → 8 * j + 8 ≤ bootfile.bytes.length →
      word buf₀ j = word bootfile.mem j := by
    intro j hj hle
    refine le_congr fun y hy => ?_
    rw [hbuf₀ (8 * j + y) (by omega) (by omega), File.mem, List.getD_eq_getElem _ _ (by omega)]
  have hset : SetUpTo part (min bootfile.bytes.length 512) i 64 buf₀ (setBootpart part buf₀) := by
    refine setBootpart_upTo hne (by omega) ?_ (fun j hj hle e => ?_) 64 (le_refl _)
    · rw [hword₀ i (by omega) hlen, hm]
    · exact hu j hj (by omega) ((hword₀ j hj (by omega)).symm.trans e)
  have hsec : ∀ k, k < 512 → fin (1024 + k) = setBootpart part buf₀ k := by
    intro k hk
    have hin : k < ((setBootpart part buf₀).get 0 SECT_SIZE).length := by
      rw [Mem.length_get]
      exact hk
    rw [← hfin, withSum_out (by omega), configured, if_neg (by omega), hbuf,
      Mem.put_in _ 1024 k _ hin]
    simp only [Mem.get, List.getElem_map, List.getElem_range, Nat.zero_add]
  refine ⟨?_, fun j hj => ?_, ?_, fun k hk hout => ?_⟩
  · have h61 : fin.le64 488 = 2 :=
      (le_congr fun j hj => hout _ (by omega)).trans (bootWords_le disk bootfile).2
    unfold bootOffset
    rw [h61]
    exact sgn64_natCast (by decide)
  · rw [← hword₀ j (by omega) (by omega)]
    refine le_congr fun y hy => ?_
    rw [sectorAt, hsec _ (by omega)]
    exact hset.image _ (by omega) (by omega)
  · have hw : word (sectorAt fin 1024) (i + 1) = word (setBootpart part buf₀) (i + 1) :=
      le_congr fun y hy => by rw [sectorAt, hsec _ (by omega)]
    rw [hw, hset.part (by omega), hpart]
  · rcases Nat.lt_or_ge k 512 with h512 | h512
    · rw [hsec k h512, hset.image k (by omega) hout, hbuf₀ k h512 hk]
    · rw [← hfin, withSum_out (by omega), configured_out (by omega), himg k hk]

/-- **the configured partition is kept.**  On a disk on which `abootconf` reports `P`, a new image is
configured for `P`, or for the partition of `-c`; the image on the disk is the boot file except for
the word of the partition. -/
theorem partition_kept (stack label astack astack' disk : Mem) (opts : List Opt) (bootfile : File)
    (kernel : Option File) (s t : Device) (P : Int) (n i₀ i : Nat) (h1 : 1 ≤ P) (h2 : P < 2147483648)
    (hold : abootconf astack none (Device.opened disk) = some (some P, s))
    (hpoint : bootOffset disk = n) (hmagic : MagicAt (sectorAt disk n) i₀)
    (hnew : MagicIn bootfile i)
    (hrun : swriteboot stack label opts bootfile kernel (Device.opened disk) = some ((), t)) :
    (∃ s', abootconf astack' none (Device.opened t.bytes)
      = some (some ((partOption opts).getD P), s')) ∧
    ∀ k (hk : k < bootfile.bytes.length), k < 8 * (i + 1) ∨ 8 * (i + 2) ≤ k →
      t.bytes (BOOT_SECTOR * SECT_SIZE + k) = bootfile.bytes[k] := by
  obtain ⟨o, ho, hacc⟩ := swriteboot_cond hrun
  obtain ⟨buf, n', w, hrun', -⟩ := swriteboot_run stack ho hacc
  rw [hrun', Option.some.injEq, Prod.mk.injEq] at hrun
  obtain rfl := hrun.2
  have hP : (word (sectorAt disk n) (i₀ + 1) : Int) = P := by
    obtain ⟨s', hs⟩ := abootconf_run astack disk hpoint hmagic.1 hmagic.2.1 fun j hj e => by
      have := hmagic.2.2 j (by have := hmagic.1; omega) e
      omega
    rw [hs, Option.some.injEq, Prod.mk.injEq, Option.some.injEq] at hold
    exact word_of_sgn hold.1 h1 h2
  have hpart : partOf stack disk o = (partOption opts).getD P := by
    rcases getopt_part ho with ⟨hnone, h0⟩ | ⟨Q, hsome, hQ, hQ1, -⟩
    · rw [hnone, Option.getD_none]
      exact partOf_old h0 hpoint hmagic hP h1 h2
    · rw [hsome, Option.getD_some, partOf, if_neg (by omega), hQ]
  have hrange : 1 ≤ (partOption opts).getD P ∧ (partOption opts).getD P < 2147483648 := by
    rcases getopt_part ho with ⟨hnone, -⟩ | ⟨Q, hsome, -, hQ1, hQ8⟩
    · rw [hnone, Option.getD_none]
      exact ⟨h1, h2⟩
    · rw [hsome, Option.getD_some]
      omega
  have hb : (Device.opened disk).bytes = disk := rfl
  rw [hb, hpart]
  obtain ⟨hoff, hwords, hword, himage⟩ := configured_image buf disk (labelOf label disk) kernel
    hrange.1 hrange.2 hnew
  refine ⟨?_, himage⟩
  have hmi := hnew.2.2.1
  obtain ⟨s', hs⟩ := abootconf_run astack' _ hoff hnew.1 ((hwords i (le_refl i)).trans hmi) fun j hj e => by
    have hle := hnew.2.1
    have := hnew.2.2.2 j (by have := hnew.1; omega) (by omega) ((hwords j (by omega)).symm.trans e)
    omega
  refine ⟨s', hs.trans ?_⟩
  rw [hword, sgn64_of_range (by omega) (by omega)]

/-- a disk with a label, and an image in sector 2 that is configured for partition 3 -/
def configuredDisk : Mem :=
  record [(64, 0x82564557, 4), (196, 0x82564557, 4), (488, 2, 8), (1024, ABOOT_MAGIC, 8), (1032, 3, 8)]

/-- a boot file of three words with `ABOOT_MAGIC` in the second one -/
def newImage : File where
  bytes := (record [(0, 5, 8), (8, ABOOT_MAGIC, 8), (16, 2, 8)]).get 0 24
  size_lt := by rw [Mem.length_get]; decide

theorem partition_kept_small : ∃ t, swriteboot (fun _ => 0) (fun _ => 0) [] newImage none
      (Device.opened configuredDisk) = some ((), t) ∧
    ∃ s, abootconf (fun _ => 0) none (Device.opened t.bytes) = some (some 3, s) := by
  have hnone : d_npartitions (labelOf (fun _ => 0) configuredDisk) = 0 := by decide +kernel
  have hacc : Accepted (fun _ => 0) configuredDisk ⟨0, 0⟩ newImage none := by
    refine ⟨by decide +kernel, ?_⟩
    unfold overlaplabel
    rw [hnone]
    rfl
  have hmagic : MagicAt (sectorAt configuredDisk 1024) 0 :=
    ⟨by decide, by decide +kernel, by decide +kernel⟩
  have hpoint : bootOffset configuredDisk = (1024 : Nat) := by decide +kernel
  have hword : sgn 64 (word (sectorAt configuredDisk 1024) (0 + 1)) = 3 := by decide +kernel
  obtain ⟨buf, n, w, hrun, -⟩ := swriteboot_run (fun _ => 0) (s := Device.opened configuredDisk)
    (show getopt [] = some ⟨0, 0⟩ from rfl) hacc
  obtain ⟨s, hconf⟩ := abootconf_run (fun _ => 0) configuredDisk hpoint hmagic.1 hmagic.2.1
    fun j hj => absurd hj (by omega)
  rw [hword] at hconf
  refine ⟨_, hrun, ?_⟩
  exact (partition_kept (fun _ => 0) (fun _ => 0) (fun _ => 0) (fun _ => 0) configuredDisk [] newImage
    none s _ 3 1024 0 1 (by decide) (by decide) hconf hpoint hmagic
    ⟨by decide, by decide +kernel, by decide +kernel, by decide +kernel⟩ hrun).1

end Swriteboot
