import Aboot.Lib.Device
import Aboot.Lib.Loop
import Aboot.Tools.BootBlock
import Aboot.Tools.FatEntry

/-!
# srmbootfat: the boot block of a FAT image

The program looks for a file in the root directory of a FAT image, follows its chain in the FAT, and
writes a boot block if the clusters are contiguous.  The image is a file that is only read short at
its end, and `malloc` succeeds; `heap` is what stands behind the buffer of the FAT, which is read
there as well.

* `geometry`         the geometry that the program takes, `described` that of the image;
* `srmbootfat`       the program;
* `Chain`            a chain of contiguous clusters;
* `Located`          the boot block gives the sectors of the file;
* `Reading`          what the program reads, `Accepts` the chains for which it writes a boot block;
* `srmbootfat_iff`   when the program is right.
-/

set_option linter.unusedVariables false

namespace Srmbootfat
open Word Bytes BootBlock

def MDIR_SIZE : Nat := 32

def ascii (s : String) : List UInt8 := s.toList.map Char.toUInt8

/-! ## the boot sector -/

/-- a row of the table of floppy disks -/
structure OldDos_t where
  dir_len : Nat
  cluster_size : Nat
  fat_len : Nat
  media : Nat

def old_dos : List OldDos_t :=
  [⟨4, 1, 2, 0xfc⟩, ⟨7, 2, 2, 0xfd⟩, ⟨4, 1, 1, 0xfe⟩, ⟨7, 2, 1, 0xff⟩, ⟨7, 2, 3, 0xf9⟩, ⟨14, 1, 7, 0xf9⟩,
    ⟨14, 1, 9, 0xf0⟩, ⟨15, 2, 9, 0xf0⟩, ⟨1, 1, 1, 0xf0⟩]

structure Geometry where
  secsize : Nat
  clusize : Nat
  fatstart : Nat
  nfat : Nat
  dirents : Nat
  fatsize : Nat
  fatbits : Nat

def descr (boot : Mem) : Nat := (boot 21).toNat
def fat_type (boot : Mem) : List UInt8 := boot.get 54 5

/-- what the fields of the boot sector say -/
def fields (boot : Mem) (fatbits : Nat) : Geometry where
  secsize := boot.le16 11
  clusize := (boot 13).toNat
  fatstart := boot.le16 14
  nfat := (boot 16).toNat
  dirents := boot.le16 17
  fatsize := boot.le16 22
  fatbits := fatbits

/-- what a row of the table says -/
def row (boot : Mem) (r : OldDos_t) : Geometry where
  secsize := boot.le16 11
  clusize := r.cluster_size
  fatstart := 1
  nfat := 2
  dirents := r.dir_len * (512 / MDIR_SIZE)
  fatsize := r.fat_len
  fatbits := 12

/-- the geometry that the program takes -/
def geometry (boot : Mem) : Option Geometry :=
  if descr boot &&& 0xfffffff8 = 0xf8 then old_dos[descr boot &&& 3]?.map (row boot)
  else if fat_type boot = ascii "FAT12" then some (fields boot 12)
  else if fat_type boot = ascii "FAT16" then some (fields boot 16)
  else none

/-! ## the program -/

/-- the two versions of `get_fat_entry` -/
inductive Arch where
  | alpha
  | portable

def get_fat_entry : Arch → Mem → Nat → Nat → Entry
  | .alpha => Alpha.get_fat_entry
  | .portable => Portable.get_fat_entry

/-- the variables of the loop -/
structure Vars where
  start : Nat
  i : Nat

/-- how the loop ends: with the number of clusters, with an exit code, or with nothing that C defines -/
inductive Walk where
  | ok (i : Nat)
  | exit (code : Nat)
  | undefined

def round (arch : Arch) (fat : Mem) (fatbits : Nat) (v : Vars) : Vars ⊕ Walk :=
  match get_fat_entry arch fat fatbits v.start with
  | .exit code => .inr (.exit code)
  | .undefined => .inr .undefined
  | .value j =>
    if j < 1 <<< fatbits - 9 then
      if j ≠ v.start + 1 then .inr (.exit 4) else .inl ⟨j, v.i + 1⟩
    else .inr (.ok v.i)

def toupper (c : UInt8) : UInt8 := if 97 ≤ c ∧ c ≤ 122 then c - 32 else c

/-- one character of the argument: `i` and the name so far -/
def nameStep : Nat × List UInt8 → UInt8 → Nat × List UInt8
  | (i, d), c => if c = 46 then (8, d) else if i < 12 then (i + 1, d.set i (toupper c)) else (i, d)

def dosname (name : List UInt8) : List UInt8 := (name.foldl nameStep (0, List.replicate 12 32)).2

/-- the entry of the file in the root directory -/
def findEntry (rootdir : Mem) (name : List UInt8) (dirents : Nat) : Option Nat :=
  (List.range dirents).find? fun i =>
    rootdir.get (MDIR_SIZE * i) 11 = (dosname name).take 11 ∧ rootdir (MDIR_SIZE * i + 11) &&& 24 = 0

def d_start (rootdir : Mem) (i : Nat) : Nat := rootdir.le16 (MDIR_SIZE * i + 26)
def d_size (rootdir : Mem) (i : Nat) : Nat := rootdir.le32 (MDIR_SIZE * i + 28)

/-- an exit code, a division by 0, nothing that C defines, or the boot block that is written -/
inductive Outcome where
  | exit (code : Nat)
  | trap
  | undefined
  | written (boot : Mem)

/-- the boot block with its checksum -/
def bootBlock (boot : Mem) (count start : Nat) : Mem :=
  let m := boot.put 480 (ofNum count 8 ++ ofNum start 8 ++ ofNum 0 8)
  m.put 504 (ofNum (checksum m) 8)

def srm_count (boot : Mem) : Nat := boot.le64 480
def srm_start (boot : Mem) : Nat := boot.le64 488

/-- the first sector of a cluster, in 32 bits -/
def srmStart (g : Geometry) (start : Nat) : Nat :=
  uns 32 (((start : Int) - 2) * g.clusize + g.fatstart + g.nfat * g.fatsize
    + (g.dirents / (512 / MDIR_SIZE) : Nat))

/-- behind the loop -/
def finish (boot : Mem) (g : Geometry) (start size : Nat) : Walk → Outcome
  | .exit code => .exit code
  | .undefined => .undefined
  | .ok i =>
    let count := uns 32 ((size : Int) + g.secsize - 1) / g.secsize
    if g.clusize = 0 then .trap
    else if uns 32 ((count : Int) + g.clusize - 1) / g.clusize ≠ i then .exit 3
    else .written (bootBlock boot count (srmStart g start))

/-- from the directory entry on -/
def compose (arch : Arch) (fat : Mem) (fuel : Nat) (boot : Mem) (g : Geometry) (start size : Nat) :
    Option Outcome :=
  if g.fatsize * g.secsize * 8 < start * g.fatbits then some (.exit 3)
  else (Loop.run (round arch fat g.fatbits) fuel ⟨start, 1⟩).map (finish boot g start size)

/-- where the root directory is read: `(nfat - 1) * i` behind the first FAT, in 32 bits -/
def rootOffset (g : Geometry) : Nat :=
  g.fatstart * g.secsize + g.fatsize * g.secsize
    + uns 32 (((g.nfat : Int) - 1) * (g.fatsize * g.secsize : Nat))

/-- the buffer of the FAT, and what stands behind it -/
def fatBuffer (heap : Mem) (image : Mem) (g : Geometry) : Mem := fun k =>
  if k < g.fatsize * g.secsize then image (g.fatstart * g.secsize + k) else heap (k - g.fatsize * g.secsize)

def rootBuffer (image : Mem) (g : Geometry) : Mem := fun k => image (rootOffset g + k)

/-- `main`, with a file name -/
def srmbootfat (arch : Arch) (heap : Mem) (fuel : Nat) (image : File) (name : List UInt8) : Option Outcome :=
  if image.bytes.length < 1024 then some (.exit 2)
  else
    match geometry image.mem with
    | none => some (.exit 3)
    | some g =>
      if g.secsize ≠ 512 then some (.exit 3)
      else if image.bytes.length - g.fatstart * g.secsize < g.fatsize * g.secsize ∨
          image.bytes.length - rootOffset g < g.dirents * MDIR_SIZE then some (.exit 2)
      else
        match findEntry (rootBuffer image.mem g) name g.dirents with
        | none => some (.exit 4)
        | some k => compose arch (fatBuffer heap image.mem g) fuel image.mem g
            (d_start (rootBuffer image.mem g) k) (d_size (rootBuffer image.mem g) k)

/-! ## what the image says -/

/-- the geometry of an image: the fields of its boot sector, or a floppy disk without them -/
def described (boot : Mem) : Option Geometry :=
  if fat_type boot = ascii "FAT12" then some (fields boot 12)
  else if fat_type boot = ascii "FAT16" then some (fields boot 16)
  else (old_dos.find? fun r => r.media = descr boot).map (row boot)

/-- the first FAT of an image -/
def fatOf (image : Mem) (g : Geometry) : Mem := fun k => image (g.fatstart * 512 + k)

/-- entry `k` is inside the FAT -/
def InFat (g : Geometry) (k : Nat) : Prop := (k + 1) * g.fatbits ≤ g.fatsize * 512 * 8

/-- the first cluster and the size of a file of the root directory -/
def fileEntry (g : Geometry) (image : Mem) (name : List UInt8) : Option (Nat × Nat) :=
  let root : Mem := fun k => image ((g.fatstart + g.nfat * g.fatsize) * 512 + k)
  (findEntry root name g.dirents).map fun k => (d_start root k, d_size root k)

def sectors (size : Nat) : Nat := (size + 511) / 512
def clusters (g : Geometry) (size : Nat) : Nat := (sectors size + g.clusize - 1) / g.clusize

/-- a sector of a cluster; the clusters of the data area are numbered from 2 on -/
def clusterSector (g : Geometry) (cluster off : Nat) : Nat :=
  g.fatstart + g.nfat * g.fatsize + g.dirents / 16 + (cluster - 2) * g.clusize + off

/-- the chain of `c` is `c`, `c + 1`, .., `c + m - 1`, with an end mark behind them -/
structure Chain (fat : Mem) (fatbits c m : Nat) : Prop where
  first : 2 ≤ c
  pos : 0 < m
  next : ∀ k, k + 1 < m → fatEntry fat fatbits (c + k) = c + k + 1
  last : 2 ^ fatbits - 8 ≤ fatEntry fat fatbits (c + m - 1)

/-- the program comes to entry `k` of the FAT -/
def Consulted (arch : Arch) (fat : Mem) (fatbits c k : Nat) : Prop :=
  ∃ v, Loop.Come (round arch fat fatbits) ⟨c, 1⟩ v ∧ v.start = k

/-- an image with sectors of 512 bytes, of which the root directory fills some -/
structure FatImage (image : Mem) (g : Geometry) : Prop where
  described : described image = some g
  secsize : g.secsize = 512
  dirents : 16 ∣ g.dirents

/-- what the program reads: a geometry, and the first cluster and the size of the file -/
structure Reading (image : File) (name : List UInt8) (g : Geometry) (c size : Nat) : Prop where
  long : 1024 ≤ image.bytes.length
  geometry : geometry image.mem = some g
  secsize : g.secsize = 512
  fat : g.fatsize * g.secsize ≤ image.bytes.length - g.fatstart * g.secsize
  root : g.dirents * MDIR_SIZE ≤ image.bytes.length - rootOffset g
  entry : (findEntry (rootBuffer image.mem g) name g.dirents).map
    (fun k => (d_start (rootBuffer image.mem g) k, d_size (rootBuffer image.mem g) k)) = some (c, size)

/-- a boot block, written for the geometry `r` and the cluster `start` that were read, gives the sectors of
a contiguous file -/
structure Located (arch : Arch) (heap image : Mem) (r : Geometry) (start : Nat) (g : Geometry) (c size : Nat)
    (boot : Mem) : Prop where
  chain : Chain (fatOf image g) g.fatbits c (clusters g size)
  inside : ∀ k, Consulted arch (fatBuffer heap image r) r.fatbits start k → InFat r k
  count : srm_count boot = sectors size
  sectors : ∀ k, k < srm_count boot → k / g.clusize < clusters g size ∧
    srm_start boot + k = clusterSector g (c + k / g.clusize) (k % g.clusize)

/-- the program ends, as C defines it, and a boot block that it writes gives the sectors of the file -/
def Right (arch : Arch) (heap : Mem) (image : File) (name : List UInt8) (g : Geometry) : Prop :=
  ∃ fuel r, srmbootfat arch heap fuel image name = some r ∧ r ≠ .undefined ∧
    ∀ b, r = .written b → ∃ r start n c size, Reading image name r start n ∧
      fileEntry g image.mem name = some (c, size) ∧ Located arch heap image.mem r start g c size b

/-! ## what the program accepts -/

/-- the first cluster passes the test -/
def Begins (g : Geometry) (c : Nat) : Prop := c * g.fatbits ≤ g.fatsize * g.secsize * 8

/-- the chain of `c` comes to entry `k` along successive clusters -/
def Along (fat : Mem) (fatbits c k : Nat) : Prop :=
  c ≤ k ∧ ∀ j, c ≤ j → j < k → fatEntry fat fatbits j = j + 1 ∧ j + 1 < 2 ^ fatbits - 9

/-- the bits of entry `k` start with a word: one of the two words is shifted by its full width -/
def StartsWord (fatbits k : Nat) : Prop := fatbits = 12 ∧ k % 8 = 0

instance (fatbits k : Nat) : Decidable (StartsWord fatbits k) := inferInstanceAs (Decidable (_ ∧ _))

/-- successive clusters from `c` on, as many as the size needs, and behind them an end mark or the mark of a
bad cluster -/
structure Accepts (fat : Mem) (g : Geometry) (c size : Nat) : Prop where
  clusize : 0 < g.clusize
  small : size + 511 < 4294967296
  pos : 0 < clusters g size
  along : Along fat g.fatbits c (c + clusters g size - 1)
  last : 2 ^ g.fatbits - 9 ≤ fatEntry fat g.fatbits (c + clusters g size - 1)

/-- the file starts in the data area, and its chain ends inside the FAT, with an end mark and not with the
mark of a bad cluster -/
structure Fits (image : Mem) (g : Geometry) (c size : Nat) : Prop where
  first : 2 ≤ c
  last : InFat g (c + clusters g size - 1)
  good : fatEntry (fatOf image g) g.fatbits (c + clusters g size - 1) ≠ 2 ^ g.fatbits - 9

/-- the program takes the geometry of the image, and finds the entry of the file -/
def Taken (image : Mem) (name : List UInt8) (g r : Geometry) (start n : Nat) : Prop :=
  r = g ∧ fileEntry g image name = some (start, n)

/-- what was read is not the file, but has its first sector and its number of sectors -/
def Coincides (image : Mem) (name : List UInt8) (g r : Geometry) (start n : Nat) : Prop :=
  ∃ c size, fileEntry g image name = some (c, size) ∧ Chain (fatOf image g) g.fatbits c (clusters g size) ∧
    InFat r (start + clusters r n - 1) ∧ sectors n = sectors size ∧ srmStart r start = srmStart g c

/-- no entry that is consulted starts a word, and a file that is accepted fits -/
def Fine (heap : Mem) (image : File) (name : List UInt8) (g : Geometry) : Prop :=
  ∀ r start n, Reading image name r start n → Begins r start →
    (∀ k, Along (fatBuffer heap image.mem r) r.fatbits start k → ¬ StartsWord r.fatbits k) ∧
    (Accepts (fatBuffer heap image.mem r) r start n →
      (Taken image.mem name g r start n → Fits image.mem g start n) ∧
      (¬ Taken image.mem name g r start n → Coincides image.mem name g r start n))

/-! ## the geometry -/

/-- the fields of the boot sector are taken where the descriptor is none of 0xf8 .. 0xff -/
theorem geometry_described {boot : Mem} (hd : descr boot &&& 0xfffffff8 ≠ 0xf8)
    (ht : fat_type boot = ascii "FAT12" ∨ fat_type boot = ascii "FAT16") : geometry boot = described boot := by
  unfold geometry described
  rw [if_neg hd]
  rcases ht with ht | ht
  · rw [if_pos ht, if_pos ht]
  · rw [ht, if_pos rfl, if_pos rfl]

/-- a hard disk is taken for a floppy disk of 180 kB, whatever its fields say -/
theorem geometry_hard_disk {boot : Mem} (hd : descr boot = 0xf8) :
    geometry boot = some (row boot ⟨4, 1, 2, 0xfc⟩) := by
  unfold geometry
  rw [hd]
  rfl

/-! ## the entries of a FAT -/

/-- the widths of an entry -/
def Width (fatbits : Nat) : Prop := fatbits = 12 ∨ fatbits = 16

theorem get_fat_entry_eq (arch : Arch) {fatbits : Nat} (h : Width fatbits) (fat : Mem) {k : Nat} (hk : k < 65536) :
    get_fat_entry arch fat fatbits k
      = if StartsWord fatbits k then .undefined else .value (fatEntry fat fatbits k) := by
  rcases h with rfl | rfl
  · have hbits : wordBits fat (3 * k % 2 ^ 32)
        = if StartsWord 12 k then .undefined else .value (fatEntry fat 12 k) := by
      have hmod : 3 * k % 2 ^ 32 = 3 * k := Nat.mod_eq_of_lt (by omega)
      have hiff : 3 * k % 8 = 0 ↔ StartsWord 12 k := by
        unfold StartsWord
        omega
      rw [hmod, wordBits, if_congr hiff rfl rfl, fatEntry_twelve]
    cases arch with
    | alpha => exact (alpha_eq fat k).trans hbits
    | portable => exact (portable_eq fat k).trans hbits
  · have hno : ¬ StartsWord 16 k := fun h => absurd h.1 (by decide)
    have hentry : fatEntry fat 16 k = fat.le16 (2 * k) := if_neg (by decide)
    rw [if_neg hno, hentry]
    cases arch with
    | alpha => rfl
    | portable =>
      show Entry.value (_WORD fat (uns 32 (2 * k : Nat))) = _
      rw [_WORD_eq, uns32_natCast (by omega)]

theorem geometry_width {image : Mem} {g : Geometry} (h : geometry image = some g) : Width g.fatbits := by
  unfold geometry at h
  split at h
  · obtain ⟨r, -, rfl⟩ := Option.map_eq_some_iff.mp h
    exact .inl rfl
  · split at h
    · obtain rfl := Option.some.inj h
      exact .inl rfl
    · split at h
      · obtain rfl := Option.some.inj h
        exact .inr rfl
      · cases h

theorem described_width {image : Mem} {g : Geometry} (h : described image = some g) : Width g.fatbits := by
  unfold described at h
  split at h
  · obtain rfl := Option.some.inj h
    exact .inl rfl
  · split at h
    · obtain rfl := Option.some.inj h
      exact .inr rfl
    · obtain ⟨r, -, rfl⟩ := Option.map_eq_some_iff.mp h
      exact .inl rfl

/-- an entry inside the FAT does not depend on what stands behind the buffer -/
theorem fatEntry_buffer {heap image : Mem} {g : Geometry} (hw : Width g.fatbits) (h512 : g.secsize = 512)
    {k : Nat} (hk : InFat g k) :
    fatEntry (fatBuffer heap image g) g.fatbits k = fatEntry (fatOf image g) g.fatbits k := by
  have hbyte : ∀ a, a < g.fatsize * 512 → fatBuffer heap image g a = fatOf image g a := by
    intro a ha
    unfold fatBuffer fatOf
    rw [h512, if_pos ha]
  unfold InFat at hk
  unfold fatEntry
  rcases hw with hw | hw
  · rw [hw] at hk ⊢
    rw [if_pos rfl, if_pos rfl, le16_bytes, le16_bytes, hbyte _ (by omega), hbyte _ (by omega)]
  · rw [hw] at hk ⊢
    rw [if_neg (by decide), if_neg (by decide), le16_bytes, le16_bytes, hbyte _ (by omega),
      hbyte _ (by omega)]

theorem InFat.le {g : Geometry} {j k : Nat} (h : InFat g k) (hle : j ≤ k) : InFat g j :=
  (Nat.mul_le_mul_right _ (Nat.succ_le_succ hle)).trans h

/-! ## the loop -/

section
variable {arch : Arch} {fat : Mem} {fatbits c : Nat}

/-- a round, in terms of the entries of the FAT -/
theorem round_eq (hw : Width fatbits) {v : Vars} (hs : v.start < 65536) : round arch fat fatbits v
    = if StartsWord fatbits v.start then .inr .undefined
      else if fatEntry fat fatbits v.start < 2 ^ fatbits - 9 then
        if fatEntry fat fatbits v.start ≠ v.start + 1 then .inr (.exit 4) else .inl ⟨v.start + 1, v.i + 1⟩
      else .inr (.ok v.i) := by
  unfold round
  rw [get_fat_entry_eq arch hw fat hs, Nat.one_shiftLeft]
  by_cases hword : StartsWord fatbits v.start
  · rw [if_pos hword, if_pos hword]
  · rw [if_neg hword, if_neg hword]
    by_cases hj : fatEntry fat fatbits v.start = v.start + 1
    · dsimp only
      rw [hj]
    · dsimp only
      rw [if_pos hj, if_pos hj]

theorem round_next (hw : Width fatbits) {v : Vars} (hs : v.start < 65536) (hword : ¬ StartsWord fatbits v.start)
    (hj : fatEntry fat fatbits v.start = v.start + 1) (hlt : v.start + 1 < 2 ^ fatbits - 9) :
    round arch fat fatbits v = .inl ⟨v.start + 1, v.i + 1⟩ := by
  rw [round_eq hw hs, if_neg hword, hj, if_pos hlt, if_neg (not_not.mpr rfl)]

/-- a round goes on to the next cluster -/
theorem round_inl (hw : Width fatbits) {v w : Vars} (hs : v.start < 65536)
    (h : round arch fat fatbits v = .inl w) :
    ¬ StartsWord fatbits v.start ∧ fatEntry fat fatbits v.start = v.start + 1 ∧
      v.start + 1 < 2 ^ fatbits - 9 ∧ w = ⟨v.start + 1, v.i + 1⟩ := by
  rw [round_eq hw hs] at h
  split at h
  · cases h
  · rename_i hword
    split at h
    · rename_i hlt
      split at h
      · cases h
      · rename_i hj
        have hj := not_not.mp hj
        exact ⟨hword, hj, hj ▸ hlt, (Sum.inl.inj h).symm⟩
    · cases h

/-- a round ends at the entry of a cluster that is none -/
theorem round_ok (hw : Width fatbits) {v : Vars} {n : Nat} (hs : v.start < 65536) :
    round arch fat fatbits v = .inr (.ok n) ↔
      ¬ StartsWord fatbits v.start ∧ 2 ^ fatbits - 9 ≤ fatEntry fat fatbits v.start ∧ v.i = n := by
  rw [round_eq hw hs]
  constructor
  · intro h
    split at h
    · cases h
    · rename_i hword
      split at h
      · split at h <;> cases h
      · rename_i hge
        exact ⟨hword, not_lt.mp hge, Walk.ok.inj (Sum.inr.inj h)⟩
  · rintro ⟨hword, hge, rfl⟩
    rw [if_neg hword, if_neg (not_lt.mpr hge)]

theorem round_undefined (hw : Width fatbits) {v : Vars} (hs : v.start < 65536) :
    round arch fat fatbits v = .inr .undefined ↔ StartsWord fatbits v.start := by
  rw [round_eq hw hs]
  constructor
  · intro h
    split at h
    · assumption
    · split at h
      · split at h <;> cases h
      · cases h
  · intro h
    rw [if_pos h]

theorem Width.small (hw : Width fatbits) : 2 ^ fatbits - 9 ≤ 65527 := by
  rcases hw with rfl | rfl <;> decide

theorem Along.le {k l : Nat} (h : Along fat fatbits c k) (hc : c ≤ l) (hle : l ≤ k) : Along fat fatbits c l :=
  ⟨hc, fun j h1 h2 => h.2 j h1 (by omega)⟩

theorem Along.succ {k : Nat} (h : Along fat fatbits c k) (hj : fatEntry fat fatbits k = k + 1)
    (hlt : k + 1 < 2 ^ fatbits - 9) : Along fat fatbits c (k + 1) := by
  refine ⟨Nat.le_succ_of_le h.1, fun j h1 h2 => ?_⟩
  by_cases hk : j = k
  · exact hk ▸ ⟨hj, hlt⟩
  · exact h.2 j h1 (by omega)

/-- the clusters of the chain so far -/
structure Walked (fat : Mem) (fatbits c : Nat) (v : Vars) : Prop where
  pos : 1 ≤ v.i
  start : v.start + 1 = c + v.i
  small : v.start < 65536
  along : Along fat fatbits c v.start
  word : ∀ k, c ≤ k → k < v.start → ¬ StartsWord fatbits k

theorem walked (hw : Width fatbits) (hc : c < 65536) {v : Vars}
    (h : Loop.Come (round arch fat fatbits) ⟨c, 1⟩ v) : Walked fat fatbits c v := by
  have hstart : Walked fat fatbits c ⟨c, 1⟩ :=
    ⟨Nat.le_refl 1, rfl, hc, ⟨Nat.le_refl c, fun j h1 h2 => absurd h2 (not_lt.mpr h1)⟩,
      fun j h1 h2 => absurd h2 (not_lt.mpr h1)⟩
  refine Loop.Come.keeps (fun t u ht hnext => ?_) hstart h
  obtain ⟨hword, hj, hlt, rfl⟩ := round_inl hw ht.small hnext
  have hstart := ht.start
  have hsmall := hw.small
  refine ⟨Nat.succ_le_succ (Nat.zero_le _), by show t.start + 1 + 1 = c + (t.i + 1); omega,
    by show t.start + 1 < 65536; omega, ht.along.succ hj hlt, fun k h1 h2 => ?_⟩
  by_cases hk : k = t.start
  · exact hk ▸ hword
  · have h2 : k < t.start + 1 := h2
    exact ht.word k h1 (by omega)

/-- the loop ends, whatever the FAT contains -/
theorem walk_ends (arch : Arch) (fat : Mem) (hw : Width fatbits) (hc : c < 65536) :
    Loop.Ends (round arch fat fatbits) ⟨c, 1⟩ := by
  refine Loop.ends_of_measure (fun v => 2 ^ fatbits - 9 - v.start) fun t u hcome hnext => ?_
  obtain ⟨-, -, hlt, rfl⟩ := round_inl hw (walked hw hc hcome).small hnext
  show 2 ^ fatbits - 9 - (t.start + 1) < 2 ^ fatbits - 9 - t.start
  omega

theorem start_le (hw : Width fatbits) (hc : c < 65536) {v w : Vars}
    (hv : Loop.Come (round arch fat fatbits) ⟨c, 1⟩ v) (h : Loop.Come (round arch fat fatbits) v w) :
    v.start ≤ w.start := by
  induction h with
  | refl => exact Nat.le_refl _
  | @tail t u ht hnext ih =>
    obtain ⟨-, -, -, rfl⟩ := round_inl hw (walked hw hc (hv.trans ht)).small hnext
    show v.start ≤ t.start + 1
    omega

/-- the loop comes along successive clusters -/
theorem come_along (hw : Width fatbits) (hc : c < 65536) {n : Nat} (h : Along fat fatbits c (c + n))
    (hword : ∀ k, c ≤ k → k < c + n → ¬ StartsWord fatbits k) :
    Loop.Come (round arch fat fatbits) ⟨c, 1⟩ ⟨c + n, n + 1⟩ := by
  induction n with
  | zero => exact .refl
  | succ n ih =>
    have hcome := ih (h.le (by omega) (by omega)) fun k h1 h2 => hword k h1 (by omega)
    obtain ⟨hj, hlt⟩ := h.2 (c + n) (by omega) (by omega)
    exact .tail hcome (round_next hw (walked hw hc hcome).small (hword (c + n) (by omega) (by omega)) hj hlt)

/-- the loop ends behind `i` clusters -/
theorem walk_ok (arch : Arch) (hw : Width fatbits) (hc : c < 65536) {i : Nat} :
    (∃ fuel, Loop.run (round arch fat fatbits) fuel ⟨c, 1⟩ = some (.ok (i + 1))) ↔
      Along fat fatbits c (c + i) ∧ (∀ k, c ≤ k → k ≤ c + i → ¬ StartsWord fatbits k) ∧
        2 ^ fatbits - 9 ≤ fatEntry fat fatbits (c + i) := by
  constructor
  · rintro ⟨fuel, hrun⟩
    obtain ⟨v, hcome, hlast⟩ := Loop.come_of_run hrun
    have hv := walked hw hc hcome
    obtain ⟨hword, hge, hi⟩ := (round_ok hw hv.small).mp hlast
    have hstart : v.start = c + i := by
      have := hv.start
      omega
    rw [hstart] at hword hge
    refine ⟨hstart ▸ hv.along, fun k h1 h2 => ?_, hge⟩
    by_cases hk : k = c + i
    · exact hk ▸ hword
    · exact hv.word k h1 (by omega)
  · rintro ⟨halong, hword, hge⟩
    have hcome := @come_along arch _ _ _ hw hc _ halong fun k h1 h2 => hword k h1 (by omega)
    exact Loop.run_of_come hcome ((round_ok hw (walked hw hc hcome).small).mpr
      ⟨hword (c + i) (by omega) (Nat.le_refl _), hge, rfl⟩)

/-- the loop comes to an entry that starts a word -/
theorem walk_undefined (arch : Arch) (hw : Width fatbits) (hc : c < 65536) :
    (∃ fuel, Loop.run (round arch fat fatbits) fuel ⟨c, 1⟩ = some .undefined) ↔
      ∃ k, Along fat fatbits c k ∧ StartsWord fatbits k := by
  constructor
  · rintro ⟨fuel, hrun⟩
    obtain ⟨v, hcome, hlast⟩ := Loop.come_of_run hrun
    have hv := walked hw hc hcome
    exact ⟨v.start, hv.along, (round_undefined hw hv.small).mp hlast⟩
  · rintro ⟨k, halong, hword⟩
    -- the first such entry
    obtain ⟨n, rfl⟩ : ∃ n, k = c + n := ⟨k - c, by have := halong.1; omega⟩
    induction n using Nat.strongRecOn with
    | ind n ih =>
      by_cases hbefore : ∃ j, c ≤ j ∧ j < c + n ∧ StartsWord fatbits j
      · obtain ⟨j, h1, h2, hj⟩ := hbefore
        obtain ⟨m, rfl⟩ : ∃ m, j = c + m := ⟨j - c, by omega⟩
        exact ih m (by omega) (halong.le h1 (by omega)) hj
      · have hcome := @come_along arch _ _ _ hw hc _ halong
          fun k h1 h2 hk => hbefore ⟨k, h1, h2, hk⟩
        exact Loop.run_of_come hcome ((round_undefined hw (walked hw hc hcome).small).mpr hword)

end

/-! ## the boot block -/

theorem srm_count_eq (boot : Mem) (a b : Nat) : srm_count (bootBlock boot a b) = a % 2 ^ 64 := by
  show word (bootBlock boot a b) 60 = _
  unfold bootBlock
  dsimp only
  rw [word_put_other (x := 63) _ _ (by decide), put_words, word_put_other (x := 62) _ _ (by decide),
    word_put_other (x := 61) _ _ (by decide)]
  exact word_put_self boot 60 a

theorem srm_start_eq (boot : Mem) (a b : Nat) : srm_start (bootBlock boot a b) = b % 2 ^ 64 := by
  show word (bootBlock boot a b) 61 = _
  unfold bootBlock
  dsimp only
  rw [word_put_other (x := 63) _ _ (by decide), put_words, word_put_other (x := 62) _ _ (by decide)]
  exact word_put_self _ 61 b

/-- the boot block keeps the law of its checksum -/
theorem bootBlock_summed (boot : Mem) (a b : Nat) : Summed (bootBlock boot a b) := summed_put _

/-! ## the numbers fit in 32 bits -/

structure Bounded (g : Geometry) : Prop where
  clusize : g.clusize < 256
  fatstart : g.fatstart < 65536
  nfat : g.nfat < 256
  dirents : g.dirents < 65536
  fatsize : g.fatsize < 65536

theorem fields_bounded (boot : Mem) (fatbits : Nat) : Bounded (fields boot fatbits) :=
  ⟨(boot 13).toNat_lt, Mem.le16_lt boot 14, (boot 16).toNat_lt, Mem.le16_lt boot 17, Mem.le16_lt boot 22⟩

theorem row_bounded (boot : Mem) {r : OldDos_t} (hr : r ∈ old_dos) : Bounded (row boot r) := by
  have hall : ∀ r ∈ old_dos, r.cluster_size < 256 ∧ r.dir_len * (512 / MDIR_SIZE) < 65536 ∧
      r.fat_len < 65536 := by
    decide
  obtain ⟨h1, h2, h3⟩ := hall r hr
  exact ⟨h1, (by decide : 1 < 65536), (by decide : 2 < 256), h2, h3⟩

theorem described_bounded {image : Mem} {g : Geometry} (h : described image = some g) : Bounded g := by
  unfold described at h
  split at h
  · obtain rfl := Option.some.inj h
    exact fields_bounded image 12
  · split at h
    · obtain rfl := Option.some.inj h
      exact fields_bounded image 16
    · obtain ⟨r, hr, rfl⟩ := Option.map_eq_some_iff.mp h
      exact row_bounded image (List.mem_of_find?_eq_some hr)

theorem geometry_bounded {image : Mem} {g : Geometry} (h : geometry image = some g) : Bounded g := by
  unfold geometry at h
  split at h
  · obtain ⟨r, hr, rfl⟩ := Option.map_eq_some_iff.mp h
    exact row_bounded image (List.mem_of_getElem? hr)
  · split at h
    · obtain rfl := Option.some.inj h
      exact fields_bounded image 12
    · split at h
      · obtain rfl := Option.some.inj h
        exact fields_bounded image 16
      · cases h

section
variable {g : Geometry} {image : Mem}

/-- the first sector of a cluster of the data area -/
theorem srmStart_eq (hb : Bounded g) {c : Nat} (h2 : 2 ≤ c) (hc : c < 65536) :
    srmStart g c = clusterSector g c 0 := by
  have hclu : (c - 2) * g.clusize ≤ 65536 * 256 :=
    Nat.mul_le_mul (by omega) (Nat.le_of_lt hb.clusize)
  have hfat : g.nfat * g.fatsize ≤ 256 * 65536 :=
    Nat.mul_le_mul (Nat.le_of_lt hb.nfat) (Nat.le_of_lt hb.fatsize)
  have hstart := hb.fatstart
  have hdir := hb.dirents
  have hcast : ((c : Int) - 2) * g.clusize = ((c - 2) * g.clusize : Nat) := by
    push_cast [h2]
    rfl
  have hslots : g.dirents / (512 / MDIR_SIZE) = g.dirents / 16 := rfl
  have hfatcast : (g.nfat : Int) * g.fatsize = (g.nfat * g.fatsize : Nat) := by
    push_cast
    rfl
  unfold srmStart clusterSector
  rw [hcast, hfatcast, hslots]
  generalize (c - 2) * g.clusize = x at hclu
  generalize g.nfat * g.fatsize = y at hfat
  unfold uns
  norm_num
  omega

/-- the size in sectors, where it does not wrap -/
theorem count_eq {size : Nat} (h : size + 511 < 4294967296) :
    uns 32 ((size : Int) + 512 - 1) / 512 = sectors size := by
  unfold sectors uns
  norm_num
  omega

/-- a size that wraps is less than a sector -/
theorem count_wraps {size : Nat} (hlt : size < 4294967296) (h : ¬ size + 511 < 4294967296) :
    uns 32 ((size : Int) + 512 - 1) / 512 = 0 := by
  unfold uns
  norm_num
  omega

theorem clusters_eq {count clusize : Nat} (hcount : count ≤ 16777216) (h : clusize < 256) (h0 : clusize ≠ 0) :
    uns 32 ((count : Int) + clusize - 1) / clusize = (count + clusize - 1) / clusize := by
  have hsum : ((count : Int) + clusize - 1) = (count + clusize - 1 : Nat) := by
    omega
  rw [hsum]
  congr 1
  unfold uns
  norm_num
  omega

end

/-- the sectors of a file, counted from its first one, in their clusters -/
theorem sector_of_file {g : Geometry} {c size k : Nat} (h0 : 0 < g.clusize) (h2 : 2 ≤ c)
    (hk : k < sectors size) : k / g.clusize < clusters g size ∧
      clusterSector g c 0 + k = clusterSector g (c + k / g.clusize) (k % g.clusize) := by
  have hdiv := Nat.div_add_mod k g.clusize
  rw [Nat.mul_comm] at hdiv
  constructor
  · apply (Nat.le_div_iff_mul_le h0).mpr
    show (k / g.clusize + 1) * g.clusize ≤ _
    rw [Nat.add_mul, Nat.one_mul]
    omega
  · unfold clusterSector
    rw [Nat.add_comm c, Nat.add_sub_assoc h2, Nat.add_mul (k / g.clusize)]
    omega

/-! ## the program -/

section
variable {arch : Arch} {heap fat : Mem} {image : File} {name : List UInt8} {g r : Geometry} {c size start n : Nat}

/-- behind a loop that ended with `i` clusters a boot block is written when the size agrees -/
theorem finish_ok {boot b : Mem} {i : Nat} (hb : Bounded g) (h512 : g.secsize = 512) (hsize : size < 4294967296)
    (hi : 1 ≤ i) : finish boot g c size (.ok i) = .written b ↔
      0 < g.clusize ∧ size + 511 < 4294967296 ∧ clusters g size = i ∧
        b = bootBlock boot (sectors size) (srmStart g c) := by
  have hcast : ((512 : Nat) : Int) = 512 := rfl
  unfold finish
  dsimp only
  rw [h512, hcast]
  by_cases h0 : g.clusize = 0
  · rw [if_pos h0]
    exact iff_of_false (fun h => by cases h) fun h => absurd h0 (Nat.ne_of_gt h.1)
  · rw [if_neg h0]
    by_cases hwrap : size + 511 < 4294967296
    · rw [count_eq hwrap, clusters_eq (by unfold sectors; omega) hb.clusize h0]
      change (if clusters g size ≠ i then _ else _) = _ ↔ _
      by_cases hclu : clusters g size = i
      · rw [if_neg (not_not.mpr hclu), Outcome.written.injEq]
        exact ⟨fun h => ⟨Nat.pos_of_ne_zero h0, hwrap, hclu, h.symm⟩, fun h => h.2.2.2.symm⟩
      · rw [if_pos hclu]
        exact iff_of_false (fun h => by cases h) fun h => hclu h.2.2.1
    · -- the sum wraps to less than a sector, which needs no cluster
      rw [count_wraps hsize hwrap, clusters_eq (by decide) hb.clusize h0, Nat.zero_add,
        Nat.div_eq_of_lt (Nat.sub_lt (Nat.pos_of_ne_zero h0) Nat.one_pos), if_pos (by omega)]
      exact iff_of_false (fun h => by cases h) fun h => hwrap h.2.1

theorem finish_undefined {boot : Mem} {w : Walk} : finish boot g c size w = .undefined ↔ w = .undefined := by
  cases w with
  | exit code => exact iff_of_false (fun h => by cases h) fun h => by cases h
  | undefined => exact iff_of_true rfl rfl
  | ok i =>
    refine iff_of_false (fun h => ?_) fun h => by cases h
    unfold finish at h
    dsimp only at h
    split at h
    · cases h
    · split at h <;> cases h

/-- the numbers of a directory entry -/
theorem Reading.lt (h : Reading image name r start n) : start < 65536 ∧ n < 4294967296 := by
  obtain ⟨k, -, hk⟩ := Option.map_eq_some_iff.mp h.entry
  obtain ⟨rfl, rfl⟩ := Prod.mk.inj hk
  exact ⟨Mem.le16_lt _ _, Mem.le32_lt _ _⟩

theorem fileEntry_lt (hf : fileEntry g image.mem name = some (c, size)) : c < 65536 ∧ size < 4294967296 := by
  obtain ⟨k, -, hk⟩ := Option.map_eq_some_iff.mp hf
  obtain ⟨rfl, rfl⟩ := Prod.mk.inj hk
  exact ⟨Mem.le16_lt _ _, Mem.le32_lt _ _⟩

theorem Reading.unique {r' : Geometry} {start' n' : Nat} (h : Reading image name r start n)
    (h' : Reading image name r' start' n') : r' = r ∧ start' = start ∧ n' = n := by
  obtain rfl := Option.some.inj (h'.geometry.symm.trans h.geometry)
  exact ⟨rfl, Prod.mk.inj (Option.some.inj (h'.entry.symm.trans h.entry))⟩

/-- with what was read the program goes on to the loop -/
theorem Reading.run (h : Reading image name r start n) (fuel : Nat) :
    srmbootfat arch heap fuel image name
      = compose arch (fatBuffer heap image.mem r) fuel image.mem r start n := by
  obtain ⟨k, hk, hnum⟩ := Option.map_eq_some_iff.mp h.entry
  obtain ⟨hs, hn⟩ := Prod.mk.inj hnum
  have hread : ¬ (image.bytes.length - r.fatstart * r.secsize < r.fatsize * r.secsize ∨
      image.bytes.length - rootOffset r < r.dirents * MDIR_SIZE) :=
    not_or.mpr ⟨not_lt.mpr h.fat, not_lt.mpr h.root⟩
  unfold srmbootfat
  rw [if_neg (not_lt.mpr h.long), h.geometry]
  dsimp only
  rw [if_neg (not_not.mpr h.secsize), if_neg hread, hk]
  dsimp only
  rw [hs, hn]

/-- with nothing read it exits -/
theorem exits_of_not_reading (arch : Arch) (heap : Mem) (h : ∀ r start n, ¬ Reading image name r start n) :
    ∃ code, srmbootfat arch heap 0 image name = some (.exit code) := by
  unfold srmbootfat
  by_cases hlong : image.bytes.length < 1024
  · exact ⟨2, if_pos hlong⟩
  · rw [if_neg hlong]
    cases hg : geometry image.mem with
    | none => exact ⟨3, rfl⟩
    | some r =>
      dsimp only
      by_cases h512 : r.secsize = 512
      · rw [if_neg (not_not.mpr h512)]
        split
        · exact ⟨2, rfl⟩
        · rename_i hread
          obtain ⟨hfat, hroot⟩ := not_or.mp hread
          cases hk : findEntry (rootBuffer image.mem r) name r.dirents with
          | none => exact ⟨4, rfl⟩
          | some k =>
            exact absurd ⟨not_lt.mp hlong, hg, h512, not_lt.mp hfat, not_lt.mp hroot, by rw [hk]; rfl⟩ (h r _ _)
      · exact ⟨3, if_pos h512⟩

/-- a chain whose loop ends with a boot block -/
theorem accepts_of_written {boot b : Mem} {fuel : Nat} {w : Walk} (hw : Width r.fatbits) (hb : Bounded r)
    (h512 : r.secsize = 512) (hs : start < 65536) (hn : n < 4294967296)
    (hrun : Loop.run (round arch fat r.fatbits) fuel ⟨start, 1⟩ = some w)
    (h : finish boot r start n w = .written b) :
    Accepts fat r start n ∧ (∀ k, start ≤ k → k ≤ start + clusters r n - 1 → ¬ StartsWord r.fatbits k) ∧
      b = bootBlock boot (sectors n) (srmStart r start) := by
  cases w with
  | exit code => cases h
  | undefined => cases h
  | ok i =>
    obtain ⟨v, hcome, hlast⟩ := Loop.come_of_run hrun
    have hv := walked hw hs hcome
    have hi := ((round_ok hw hv.small).mp hlast).2.2
    obtain ⟨j, rfl⟩ : ∃ j, i = j + 1 := ⟨i - 1, by have := hv.pos; omega⟩
    obtain ⟨h0, hsmall, hclu, hblock⟩ := (finish_ok hb h512 hn (Nat.le_add_left 1 j)).mp h
    obtain ⟨halong, hword, hge⟩ := (walk_ok arch hw hs).mp ⟨fuel, hrun⟩
    have hlast : start + clusters r n - 1 = start + j := by omega
    exact ⟨⟨h0, hsmall, by omega, hlast ▸ halong, hlast ▸ hge⟩, hlast ▸ hword, hblock⟩

/-- a chain that is accepted, and has no entry that starts a word, is written -/
theorem Accepts.written (arch : Arch) (boot : Mem) (hw : Width r.fatbits) (hb : Bounded r) (h512 : r.secsize = 512)
    (hs : start < 65536) (hn : n < 4294967296) (h : Accepts fat r start n)
    (hword : ∀ k, Along fat r.fatbits start k → ¬ StartsWord r.fatbits k) :
    ∃ fuel w, Loop.run (round arch fat r.fatbits) fuel ⟨start, 1⟩ = some w ∧
      finish boot r start n w = .written (bootBlock boot (sectors n) (srmStart r start)) := by
  have hpos := h.pos
  obtain ⟨j, hj⟩ : ∃ j, clusters r n = j + 1 := ⟨clusters r n - 1, by omega⟩
  have hlast : start + clusters r n - 1 = start + j := by omega
  have halong := h.along
  have hge := h.last
  rw [hlast] at halong hge
  obtain ⟨fuel, hrun⟩ := (walk_ok arch hw hs).mpr
    ⟨halong, fun k h1 h2 => hword k (halong.le h1 h2), hge⟩
  exact ⟨fuel, _, hrun, (finish_ok hb h512 hn (Nat.le_add_left 1 j)).mpr ⟨h.clusize, h.small, hj, rfl⟩⟩

/-- a boot block that is written is right if it has the numbers of the file -/
theorem located_iff (hw : Width r.fatbits) (hg : Bounded g) (hs : start < 65536)
    (hc : c < 65536) (hsize : size < 4294967296) (ha : Accepts fat r start n)
    (hfat : fat = fatBuffer heap image.mem r)
    (hword : ∀ k, start ≤ k → k ≤ start + clusters r n - 1 → ¬ StartsWord r.fatbits k) :
    Located arch heap image.mem r start g c size (bootBlock image.mem (sectors n) (srmStart r start)) ↔
      Chain (fatOf image.mem g) g.fatbits c (clusters g size) ∧ InFat r (start + clusters r n - 1) ∧
        sectors n = sectors size ∧ srmStart r start = srmStart g c := by
  have hpos := ha.pos
  have hcount : srm_count (bootBlock image.mem (sectors n) (srmStart r start)) = sectors n := by
    rw [srm_count_eq]
    apply Nat.mod_eq_of_lt
    have hsmall := ha.small
    unfold sectors
    omega
  have hstart : srm_start (bootBlock image.mem (sectors n) (srmStart r start)) = srmStart r start := by
    rw [srm_start_eq]
    apply Nat.mod_eq_of_lt
    obtain ⟨q, -, hlt⟩ := uns32_cases (((start : Int) - 2) * r.clusize + r.fatstart + r.nfat * r.fatsize
      + (r.dirents / (512 / MDIR_SIZE) : Nat))
    rw [← srmStart] at hlt
    omega
  obtain ⟨i, hi⟩ : ∃ i, start + clusters r n - 1 = start + i := ⟨clusters r n - 1, by omega⟩
  have hcome : Loop.Come (round arch fat r.fatbits) ⟨start, 1⟩ ⟨start + i, i + 1⟩ :=
    come_along hw hs (hi ▸ ha.along) fun k h1 h2 => hword k h1 (by omega)
  subst hfat
  constructor
  · intro hl
    have hn := hl.count
    rw [hcount] at hn
    refine ⟨hl.chain, hl.inside _ ⟨_, hcome, hi.symm⟩, hn, ?_⟩
    have hsectors : 0 < sectors n := by
      -- a file without a sector has no cluster
      have hzero := ha.pos
      by_contra h0
      rw [clusters, show sectors n = 0 by omega, Nat.zero_add,
        Nat.div_eq_of_lt (Nat.sub_lt ha.clusize Nat.one_pos)] at hzero
      exact Nat.lt_irrefl 0 hzero
    have h0 := (hl.sectors 0 (by rw [hcount]; exact hsectors)).2
    rw [hstart, Nat.add_zero, Nat.zero_div, Nat.add_zero, Nat.zero_mod] at h0
    rw [h0, srmStart_eq hg hl.chain.first hc]
  · rintro ⟨hchain, hin, hn, hfirst⟩
    have h0 : 0 < g.clusize := by
      have hclu := hchain.pos
      by_contra h0
      rw [clusters, show g.clusize = 0 by omega, Nat.div_zero] at hclu
      exact Nat.lt_irrefl 0 hclu
    refine ⟨hchain, fun k hk => ?_, hcount.trans hn, fun k hk => ?_⟩
    · obtain ⟨u, hu, rfl⟩ := hk
      have hlast : round arch (fatBuffer heap image.mem r) r.fatbits ⟨start + i, i + 1⟩ = .inr (.ok (i + 1)) :=
        (round_ok hw (walked hw hs hcome).small).mpr
          ⟨hword (start + i) (by omega) (by omega), hi ▸ ha.last, rfl⟩
      have hle := start_le hw hs hu (Loop.come_last hlast hcome hu)
      exact hin.le (hi ▸ hle)
    · rw [hcount, hn] at hk
      rw [hstart, hfirst, srmStart_eq hg hchain.first hc]
      exact sector_of_file h0 hchain.first hk

/-- the chain of a file that is accepted is contiguous if it fits -/
theorem chain_iff_fits (hw : Width g.fatbits) (h512 : g.secsize = 512)
    (ha : Accepts (fatBuffer heap image.mem g) g c size) :
    Chain (fatOf image.mem g) g.fatbits c (clusters g size) ∧ InFat g (c + clusters g size - 1) ↔
      Fits image.mem g c size := by
  have hpos := ha.pos
  have hend9 : 9 ≤ 2 ^ g.fatbits := by
    rcases hw with hw | hw <;> rw [hw] <;> decide
  constructor
  · rintro ⟨hchain, hin⟩
    have hlast := hchain.last
    exact ⟨hchain.first, hin, by omega⟩
  · intro hf
    have hbuf : ∀ k, k ≤ c + clusters g size - 1 → fatEntry (fatBuffer heap image.mem g) g.fatbits k
        = fatEntry (fatOf image.mem g) g.fatbits k :=
      fun k hk => fatEntry_buffer hw h512 (hf.last.le hk)
    refine ⟨⟨hf.first, hpos, fun k hk => ?_, ?_⟩, hf.last⟩
    · rw [← hbuf _ (by omega)]
      exact (ha.along.2 (c + k) (by omega) (by omega)).1
    · have hge := ha.last
      rw [hbuf _ (Nat.le_refl _)] at hge
      have hgood := hf.good
      omega

/-- the program with what it reads -/
theorem Reading.right_iff (h : Reading image name r start n) (hb : Begins r start) : Right arch heap image name g ↔
    ∃ fuel w, Loop.run (round arch (fatBuffer heap image.mem r) r.fatbits) fuel ⟨start, 1⟩ = some w ∧
      w ≠ .undefined ∧ ∀ b, finish image.mem r start n w = .written b →
        ∃ c size, fileEntry g image.mem name = some (c, size) ∧ Located arch heap image.mem r start g c size b := by
  have hrun : ∀ fuel, srmbootfat arch heap fuel image name
      = (Loop.run (round arch (fatBuffer heap image.mem r) r.fatbits) fuel ⟨start, 1⟩).map
        (finish image.mem r start n) := by
    intro fuel
    rw [h.run, compose, if_neg (not_lt.mpr hb)]
  constructor
  · rintro ⟨fuel, o, ho, hdef, hright⟩
    rw [hrun] at ho
    obtain ⟨w, hw, rfl⟩ := Option.map_eq_some_iff.mp ho
    refine ⟨fuel, w, hw, fun hu => hdef (finish_undefined.mpr hu), fun b hwr => ?_⟩
    obtain ⟨r', start', n', c, size, hr', hf, hl⟩ := hright b hwr
    obtain ⟨rfl, rfl, rfl⟩ := h.unique hr'
    exact ⟨c, size, hf, hl⟩
  · rintro ⟨fuel, w, hw, hdef, hright⟩
    refine ⟨fuel, finish image.mem r start n w, by rw [hrun, hw]; rfl,
      fun hu => hdef (finish_undefined.mp hu), fun b hwr => ?_⟩
    obtain ⟨c, size, hf, hl⟩ := hright b hwr
    exact ⟨r, start, n, c, size, h, hf, hl⟩

/-- **contiguous files.**  The program ends, and a boot block that it writes gives the sectors of a
contiguous file, exactly if no entry that it consults starts a word, and a file that it accepts fits in
the FAT. -/
theorem srmbootfat_iff (h : FatImage image.mem g) (arch : Arch) (heap : Mem) (name : List UInt8) :
    Right arch heap image name g ↔ Fine heap image name g := by
  have hbg := described_bounded h.described
  by_cases hread : ∃ r start n, Reading image name r start n
  · obtain ⟨r, start, n, hr⟩ := hread
    have hw := geometry_width hr.geometry
    have hb := geometry_bounded hr.geometry
    obtain ⟨hs, hn⟩ := hr.lt
    by_cases hbegin : Begins r start
    · rw [hr.right_iff hbegin]
      constructor
      · rintro ⟨fuel, w, hrun, hdef, hright⟩ r' start' n' hr' -
        obtain ⟨rfl, rfl, rfl⟩ := hr.unique hr'
        have hword : ∀ k, Along (fatBuffer heap image.mem r') r'.fatbits start' k → ¬ StartsWord r'.fatbits k := by
          intro k halong hk
          obtain ⟨fuel', hrun'⟩ := (walk_undefined arch hw hs).mpr ⟨k, halong, hk⟩
          exact hdef (Loop.run_unique hrun hrun')
        refine ⟨hword, fun ha => ?_⟩
        obtain ⟨fuel', w', hrun', hwritten⟩ := ha.written arch image.mem hw hb hr.secsize hs hn hword
        obtain rfl := Loop.run_unique hrun hrun'
        obtain ⟨-, hword', -⟩ := accepts_of_written hw hb hr.secsize hs hn hrun hwritten
        obtain ⟨c, size, hf, hl⟩ := hright _ hwritten
        obtain ⟨hc, hsize⟩ := fileEntry_lt hf
        obtain ⟨hchain, hin, hcount, hfirst⟩ := (located_iff hw hbg hs hc hsize ha rfl hword').mp hl
        refine ⟨fun htaken => ?_, fun _ => ⟨c, size, hf, hchain, hin, hcount, hfirst⟩⟩
        obtain ⟨rfl, hf'⟩ := htaken
        obtain ⟨rfl, rfl⟩ := Prod.mk.inj (Option.some.inj (hf.symm.trans hf'))
        exact (chain_iff_fits hw hr.secsize ha).mp ⟨hchain, hin⟩
      · intro hfine
        obtain ⟨hword, hacc⟩ := hfine r start n hr hbegin
        obtain ⟨fuel, w, hrun⟩ := walk_ends arch (fatBuffer heap image.mem r) hw hs
        refine ⟨fuel, w, hrun, fun hu => ?_, fun b hwritten => ?_⟩
        · obtain ⟨k, halong, hk⟩ := (walk_undefined arch hw hs).mp ⟨fuel, hu ▸ hrun⟩
          exact hword k halong hk
        · obtain ⟨ha, hword', rfl⟩ := accepts_of_written hw hb hr.secsize hs hn hrun hwritten
          by_cases htaken : Taken image.mem name g r start n
          · have hfits := (hacc ha).1 htaken
            obtain ⟨rfl, hf⟩ := htaken
            obtain ⟨hchain, hin⟩ := (chain_iff_fits hw hr.secsize ha).mpr hfits
            exact ⟨start, n, hf, (located_iff hw hbg hs hs hn ha rfl hword').mpr ⟨hchain, hin, rfl, rfl⟩⟩
          · obtain ⟨c, size, hf, hrest⟩ := (hacc ha).2 htaken
            obtain ⟨hc, hsize⟩ := fileEntry_lt hf
            exact ⟨c, size, hf, (located_iff hw hbg hs hc hsize ha rfl hword').mpr hrest⟩
    · -- the first cluster is behind the end of the FAT
      have hexit : srmbootfat arch heap 0 image name = some (.exit 3) := by
        rw [hr.run, compose, if_pos (not_le.mp hbegin)]
      refine iff_of_true ⟨0, _, hexit, fun h => (by cases h), fun b h => (by cases h)⟩ ?_
      intro r' start' n' hr' hbegin'
      obtain ⟨rfl, rfl, rfl⟩ := hr.unique hr'
      exact absurd hbegin' hbegin
  · have hno : ∀ r start n, ¬ Reading image name r start n := fun r start n hr => hread ⟨r, start, n, hr⟩
    obtain ⟨code, hexit⟩ := exits_of_not_reading arch heap hno
    refine iff_of_true ⟨0, _, hexit, fun h => (by cases h), fun b h => (by cases h)⟩ ?_
    intro r start n hr
    exact absurd hr (hno r start n)

end

/-! ## images with a FAT of one sector -/

/-- a FAT16 image with one file A: its first cluster, its size and its entries of the FAT -/
def oneFile (start size : Nat) (entries : List (Nat × Nat)) : File where
  bytes := (record ([(11, 512, 2), (13, 1, 1), (14, 1, 2), (16, 1, 1), (17, 16, 2), (21, 0xf0, 1), (22, 1, 2),
      (54, 0x3631544146, 5), (1024, 0x2020202020202020202041, 11), (1050, start, 2), (1052, size, 4)]
    ++ entries.map fun e => (512 + 2 * e.1, e.2, 2))).get 0 1536
  size_lt := by
    rw [Mem.length_get]
    decide

/-- a file of two clusters -/
def twoClusters : File := oneFile 2 1000 [(2, 3), (3, 0xffff)]

/-- a file whose first cluster is behind the end of the FAT -/
def behindFat : File := oneFile 256 512 []

/-- the boot sector of these images -/
theorem sixteen_image {image : File} (hd : descr image.mem &&& 0xfffffff8 ≠ 0xf8)
    (h12 : fat_type image.mem ≠ ascii "FAT12") (h16 : fat_type image.mem = ascii "FAT16")
    (hsec : image.mem.le16 11 = 512) (hdir : 16 ∣ image.mem.le16 17) :
    FatImage image.mem (fields image.mem 16) ∧ geometry image.mem = some (fields image.mem 16) := by
  have hdes : described image.mem = some (fields image.mem 16) := by
    unfold described
    rw [if_neg h12, if_pos h16]
  exact ⟨⟨hdes, hsec, hdir⟩, (geometry_described hd (.inr h16)).trans hdes⟩

theorem twoClusters_image : FatImage twoClusters.mem (fields twoClusters.mem 16) ∧
    geometry twoClusters.mem = some (fields twoClusters.mem 16) :=
  sixteen_image (by decide +kernel) (by decide +kernel) (by decide +kernel) (by decide +kernel) (by decide +kernel)

theorem behindFat_image : FatImage behindFat.mem (fields behindFat.mem 16) ∧
    geometry behindFat.mem = some (fields behindFat.mem 16) :=
  sixteen_image (by decide +kernel) (by decide +kernel) (by decide +kernel) (by decide +kernel) (by decide +kernel)

theorem twoClusters_reading : Reading twoClusters [97] (fields twoClusters.mem 16) 2 1000 where
  long := by decide +kernel
  geometry := twoClusters_image.2
  secsize := by decide +kernel
  fat := by decide +kernel
  root := by decide +kernel
  entry := by decide +kernel

theorem behindFat_reading : Reading behindFat [97] (fields behindFat.mem 16) 256 512 where
  long := by decide +kernel
  geometry := behindFat_image.2
  secsize := by decide +kernel
  fat := by decide +kernel
  root := by decide +kernel
  entry := by decide +kernel

def Outcome.isWritten : Option Outcome → Bool
  | some (.written _) => true
  | _ => false

/-- the two clusters are found -/
theorem twoClusters_located :
    Outcome.isWritten (srmbootfat .portable (fun _ => 0) 3 twoClusters [97]) = true ∧
      Right .portable (fun _ => 0) twoClusters [97] (fields twoClusters.mem 16) := by
  refine ⟨by decide +kernel, (srmbootfat_iff twoClusters_image.1 .portable (fun _ => 0) [97]).mpr ?_⟩
  intro r start n hr _
  obtain ⟨rfl, rfl, rfl⟩ := twoClusters_reading.unique hr
  refine ⟨fun k _ hword => absurd hword.1 (by decide), fun _ => ⟨fun _ => ⟨Nat.le_refl 2, ?_, ?_⟩, fun hno => ?_⟩⟩
  · unfold InFat
    decide +kernel
  · decide +kernel
  · exact absurd ⟨rfl, by decide +kernel⟩ hno

/-- a file behind the end of the FAT is taken for a contiguous one, if the memory there has an end mark -/
theorem behindFat_accepted : ¬ ∀ (arch : Arch) (heap : Mem) (image : File) (name : List UInt8) (g : Geometry),
    FatImage image.mem g → Right arch heap image name g := by
  intro hall
  have hw := geometry_width behindFat_image.2
  have hb := geometry_bounded behindFat_image.2
  have hr := behindFat_reading
  have ha : Accepts (fatBuffer (fun _ => 255) behindFat.mem (fields behindFat.mem 16)) (fields behindFat.mem 16)
      256 512 := by
    have hclu : clusters (fields behindFat.mem 16) 512 = 1 := by decide +kernel
    refine ⟨by decide +kernel, by decide, by rw [hclu]; exact Nat.one_pos, ?_, ?_⟩
    · rw [hclu]
      exact ⟨Nat.le_refl 256, fun j h1 h2 => absurd h2 (not_lt.mpr h1)⟩
    · rw [hclu]
      decide +kernel
  obtain ⟨fuel, w, hrun, -, hright⟩ := (hr.right_iff (by unfold Begins; decide +kernel)).mp
    (hall .alpha (fun _ => 255) behindFat [97] _ behindFat_image.1)
  obtain ⟨fuel', w', hrun', hwritten⟩ := ha.written .alpha behindFat.mem hw hb hr.secsize (by decide) (by decide)
    fun k _ hword => absurd hword.1 (by decide)
  obtain rfl := Loop.run_unique hrun hrun'
  obtain ⟨c, size, -, hl⟩ := hright _ hwritten
  have hin := hl.inside 256 ⟨⟨256, 1⟩, .refl, rfl⟩
  revert hin
  unfold InFat
  decide +kernel

end Srmbootfat
