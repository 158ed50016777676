import Aboot.Lib.Crc
import Aboot.Lib.Bytes
import Aboot.Lib.Raise
import Aboot.Load.Impl

/-!
# zip/misc.c, zip/unzip.c: a compressed kernel and its checksum

The decompressor `inflate` is any program that takes bytes, allocates memory, flushes windows and
gives a result; the bytes that `get_byte` returns, call after call, are any sequence, after which a
call leaves through `unzip_error`.  What `inflate` gives back of a byte it has read too far shows
in the bytes that later calls return.

* `updcrc_feed`          the table of `updcrc` is that of CRC-32;
* `Summed`               the register and the counter are those of the windows flushed so far;
* `inflate_summed`       whatever windows are flushed;
* `uncompress_kernel_sum`   a kernel is accepted only with the checksum and length of its windows.

`windows` records what was passed to `flush_window` since `clear_bufs`; nothing in the source depends
on it.  `pkzip` and `extended` are never set, so that the branches for them are left out.
-/

set_option linter.unusedVariables false

namespace Gunzip
open Word Load

/-! ## updcrc -/

def crc_32_tab : List Nat :=
  [0x00000000, 0x77073096, 0xee0e612c, 0x990951ba, 0x076dc419, 0x706af48f,
   0xe963a535, 0x9e6495a3, 0x0edb8832, 0x79dcb8a4, 0xe0d5e91e, 0x97d2d988,
   0x09b64c2b, 0x7eb17cbd, 0xe7b82d07, 0x90bf1d91, 0x1db71064, 0x6ab020f2,
   0xf3b97148, 0x84be41de, 0x1adad47d, 0x6ddde4eb, 0xf4d4b551, 0x83d385c7,
   0x136c9856, 0x646ba8c0, 0xfd62f97a, 0x8a65c9ec, 0x14015c4f, 0x63066cd9,
   0xfa0f3d63, 0x8d080df5, 0x3b6e20c8, 0x4c69105e, 0xd56041e4, 0xa2677172,
   0x3c03e4d1, 0x4b04d447, 0xd20d85fd, 0xa50ab56b, 0x35b5a8fa, 0x42b2986c,
   0xdbbbc9d6, 0xacbcf940, 0x32d86ce3, 0x45df5c75, 0xdcd60dcf, 0xabd13d59,
   0x26d930ac, 0x51de003a, 0xc8d75180, 0xbfd06116, 0x21b4f4b5, 0x56b3c423,
   0xcfba9599, 0xb8bda50f, 0x2802b89e, 0x5f058808, 0xc60cd9b2, 0xb10be924,
   0x2f6f7c87, 0x58684c11, 0xc1611dab, 0xb6662d3d, 0x76dc4190, 0x01db7106,
   0x98d220bc, 0xefd5102a, 0x71b18589, 0x06b6b51f, 0x9fbfe4a5, 0xe8b8d433,
   0x7807c9a2, 0x0f00f934, 0x9609a88e, 0xe10e9818, 0x7f6a0dbb, 0x086d3d2d,
   0x91646c97, 0xe6635c01, 0x6b6b51f4, 0x1c6c6162, 0x856530d8, 0xf262004e,
   0x6c0695ed, 0x1b01a57b, 0x8208f4c1, 0xf50fc457, 0x65b0d9c6, 0x12b7e950,
   0x8bbeb8ea, 0xfcb9887c, 0x62dd1ddf, 0x15da2d49, 0x8cd37cf3, 0xfbd44c65,
   0x4db26158, 0x3ab551ce, 0xa3bc0074, 0xd4bb30e2, 0x4adfa541, 0x3dd895d7,
   0xa4d1c46d, 0xd3d6f4fb, 0x4369e96a, 0x346ed9fc, 0xad678846, 0xda60b8d0,
   0x44042d73, 0x33031de5, 0xaa0a4c5f, 0xdd0d7cc9, 0x5005713c, 0x270241aa,
   0xbe0b1010, 0xc90c2086, 0x5768b525, 0x206f85b3, 0xb966d409, 0xce61e49f,
   0x5edef90e, 0x29d9c998, 0xb0d09822, 0xc7d7a8b4, 0x59b33d17, 0x2eb40d81,
   0xb7bd5c3b, 0xc0ba6cad, 0xedb88320, 0x9abfb3b6, 0x03b6e20c, 0x74b1d29a,
   0xead54739, 0x9dd277af, 0x04db2615, 0x73dc1683, 0xe3630b12, 0x94643b84,
   0x0d6d6a3e, 0x7a6a5aa8, 0xe40ecf0b, 0x9309ff9d, 0x0a00ae27, 0x7d079eb1,
   0xf00f9344, 0x8708a3d2, 0x1e01f268, 0x6906c2fe, 0xf762575d, 0x806567cb,
   0x196c3671, 0x6e6b06e7, 0xfed41b76, 0x89d32be0, 0x10da7a5a, 0x67dd4acc,
   0xf9b9df6f, 0x8ebeeff9, 0x17b7be43, 0x60b08ed5, 0xd6d6a3e8, 0xa1d1937e,
   0x38d8c2c4, 0x4fdff252, 0xd1bb67f1, 0xa6bc5767, 0x3fb506dd, 0x48b2364b,
   0xd80d2bda, 0xaf0a1b4c, 0x36034af6, 0x41047a60, 0xdf60efc3, 0xa867df55,
   0x316e8eef, 0x4669be79, 0xcb61b38c, 0xbc66831a, 0x256fd2a0, 0x5268e236,
   0xcc0c7795, 0xbb0b4703, 0x220216b9, 0x5505262f, 0xc5ba3bbe, 0xb2bd0b28,
   0x2bb45a92, 0x5cb36a04, 0xc2d7ffa7, 0xb5d0cf31, 0x2cd99e8b, 0x5bdeae1d,
   0x9b64c2b0, 0xec63f226, 0x756aa39c, 0x026d930a, 0x9c0906a9, 0xeb0e363f,
   0x72076785, 0x05005713, 0x95bf4a82, 0xe2b87a14, 0x7bb12bae, 0x0cb61b38,
   0x92d28e9b, 0xe5d5be0d, 0x7cdcefb7, 0x0bdbdf21, 0x86d3d2d4, 0xf1d4e242,
   0x68ddb3f8, 0x1fda836e, 0x81be16cd, 0xf6b9265b, 0x6fb077e1, 0x18b74777,
   0x88085ae6, 0xff0f6a70, 0x66063bca, 0x11010b5c, 0x8f659eff, 0xf862ae69,
   0x616bffd3, 0x166ccf45, 0xa00ae278, 0xd70dd2ee, 0x4e048354, 0x3903b3c2,
   0xa7672661, 0xd06016f7, 0x4969474d, 0x3e6e77db, 0xaed16a4a, 0xd9d65adc,
   0x40df0b66, 0x37d83bf0, 0xa9bcae53, 0xdebb9ec5, 0x47b2cf7f, 0x30b5ffe9,
   0xbdbdf21c, 0xcabac28a, 0x53b39330, 0x24b4a3a6, 0xbad03605, 0xcdd70693,
   0x54de5729, 0x23d967bf, 0xb3667a2e, 0xc4614ab8, 0x5d681b02, 0x2a6f2b94,
   0xb40bbe37, 0xc30c8ea1, 0x5a05df1b, 0x2d02ef8d]

/-- the loop of `updcrc`; `(int)c` keeps the low 32 bits -/
def crcLoop (c : Nat) (bs : List UInt8) : Nat :=
  bs.foldl (fun (c : Nat) b => crc_32_tab.getD ((c % 2 ^ 32 ^^^ b.toNat) &&& 0xff) 0 ^^^ (c >>> 8)) c

/-! ## the decompressor -/

/-- how the decompressor is left: `unzip_error`, or the error exit of `malloc`, which both print a
message and do a `longjmp`; or not at all, in a `memcpy` of a negative length -/
inductive Exit
  | unzip_error (x : String)
  | error (x : String)
  | memcpy
deriving DecidableEq, Repr

/-- `inflate`, as what it does next -/
inductive Inflate
  | ret (res : Int)
  | get (next : UInt8 → Inflate)
  | alloc (size : Nat) (next : Nat → Inflate)
  | flush (window : Mem) (outcnt : Nat) (next : Inflate)
  | unzip_error (x : String)

/-- the input: the bytes that the calls of `get_byte` return since `clear_bufs`, the message of the
first call that fails, and what a call does to the file system -/
structure Input (σ : Type) where
  bytes : List UInt8
  eof : String
  fill : (left : Nat) → σ → σ

/-- the variables of the decompressor, and the loader's -/
structure Vars (σ : Type) where
  /-- what `get_byte` is still to return -/
  input : List UInt8
  method : Nat
  crc : Nat
  zip : Zip
  load : State σ
  windows : List (List UInt8)

abbrev Run (σ α : Type) := EStateM Exit (Vars σ) α

section
variable {σ : Type} (M : Machine) (E : Input σ)

def unzip_error {α : Type} (x : String) : Run σ α := throw (.unzip_error x)

/-- a call of `malloc`, which gives the block -/
def alloc (size : Nat) : Run σ Nat := do
  let s ← get
  let p := malloc M.clusters s.load.elf.free_mem_ptr size
  if out_of_memory p then
    set { s with load := { s.load with elf := { s.load.elf with free_mem_ptr := p, exhausted := true } } }
    throw (.error "\nout of memory")
  else
    set { s with load := { s.load with elf := { s.load.elf with free_mem_ptr := p } } }
    pure p

def get_byte : Run σ UInt8 := do
  let s ← get
  match s.input with
  | [] => unzip_error E.eof
  | b :: bs =>
    set { s with input := bs, load := { s.load with fs := E.fill bs.length s.load.fs } }
    pure b

/-- `updcrc(NULL, 0)` -/
def initcrc : Run σ Unit := modify fun s => { s with crc := 0xffffffff }

/-- `updcrc` of some bytes: the checksum so far -/
def updcrc (bs : List UInt8) : Run σ Nat := do
  let s ← get
  set { s with crc := crcLoop s.crc bs }
  pure (crcLoop s.crc bs ^^^ 0xffffffff)

def clear_bufs : Run σ Unit :=
  modify fun s =>
    { s with input := E.bytes, zip := ⟨0, s.zip.window, 0, 0⟩, windows := [] }

/-- the first block: look for headers -/
def flushHeader (window : Mem) (outcnt : Nat) : Run σ Unit := do
  let s ← get
  let r := loadable M window outcnt s.load
  set { s with load := r.2 }
  match r.1 with
  | some true => pure ()
  | some false => unzip_error "invalid exec header"
  | none => throw (.error "\nout of memory")

/-- the segments get their bytes -/
def flushSegments (outcnt : Nat) : Run σ Unit := do
  let s ← get
  match flushCopies outcnt s.zip s.load with
  | (some z, l) => set { s with zip := z, load := l }
  | (none, l) => do
    set { s with load := l }
    throw .memcpy

/-- `flush_window` with `outcnt` bytes in the window -/
def flush_window (window : Mem) (outcnt : Nat) : Run σ Unit := do
  modify fun s =>
    { s with
      windows := s.windows ++ [window.get 0 outcnt]
      load := fillWindow s.zip.window window outcnt s.load }
  if outcnt = 0 then pure ()
  else do
    let _ ← updcrc (window.get 0 outcnt)
    let s ← get
    let _ ← (if s.zip.bytes_out = 0 then flushHeader M window outcnt else pure ())
    flushSegments outcnt

/-- `inflate` runs -/
def inflate : Inflate → Run σ Int
  | .ret res => pure res
  | .get next => do
    let b ← get_byte E
    inflate (next b)
  | .alloc size next => do
    let p ← alloc M size
    inflate (next p)
  | .flush window outcnt next => do
    flush_window M window (outcnt % 2 ^ 32)
    inflate next
  | .unzip_error x => unzip_error x

/-! ## get_method -/

def ENCRYPTED : UInt8 := 0x20
def CONTINUATION : UInt8 := 0x02
def RESERVED : UInt8 := 0xC0
def EXTRA_FIELD : UInt8 := 0x04
def ORIG_NAME : UInt8 := 0x08
def COMMENT : UInt8 := 0x10
def GZIP_MAGIC : UInt8 × UInt8 := (0x1f, 0x8b)
def OLD_GZIP_MAGIC : UInt8 × UInt8 := (0x1f, 0x9e)
def DEFLATED : Nat := 8

/-- `unzip_error` under a condition -/
def errorIf (c : Bool) (x : String) : Run σ Unit := if c then unzip_error x else pure ()

/-- `n` bytes are skipped -/
def skip : Nat → Run σ Unit
  | 0 => pure ()
  | n + 1 => do
    let _ ← get_byte E
    skip n

/-- a text is skipped, with the zero at its end; a call of `get_byte` fails before `n` is used up -/
def skipText : (n : Nat) → Run σ Unit
  | 0 => pure ()
  | n + 1 => do
    let b ← get_byte E
    if b = 0 then pure () else skipText n

/-- `while (get_byte() != 0)` -/
def skipName : Run σ Unit := do
  let s ← get
  skipText E (s.input.length + 1)

/-- the extra field: its length, then that many bytes -/
def skipExtra : Run σ Unit := do
  let lo ← get_byte E
  let hi ← get_byte E
  skip E (lo.toNat ||| hi.toNat <<< 8)

/-- the part of the header that follows the flags -/
def skipHeader (flags : UInt8) : Run σ Unit := do
  -- the timestamp, the extra flags and the type of system
  skip E 6
  let _ ← (if flags &&& EXTRA_FIELD ≠ 0 then skipExtra E else pure ())
  let _ ← (if flags &&& ORIG_NAME ≠ 0 then skipName E else pure ())
  (if flags &&& COMMENT ≠ 0 then skipName E else pure ())

/-- `get_method`; the method is also a variable of its own -/
def get_method : Run σ Nat := do
  let m0 ← get_byte E
  let m1 ← get_byte E
  if (m0, m1) = GZIP_MAGIC ∨ (m0, m1) = OLD_GZIP_MAGIC then do
    let method ← get_byte E
    let flags ← get_byte E
    errorIf (flags &&& ENCRYPTED ≠ 0) "input is encrypted"
    errorIf (flags &&& CONTINUATION ≠ 0) "multi part input"
    errorIf (flags &&& RESERVED ≠ 0) "input has invalid flags"
    skipHeader E flags
    pure method.toNat
  else unzip_error "unknown compression method"

/-! ## unzip -/

/-- a two-byte header value -/
def SH (p : List UInt8) : Nat := (p.getD 0 0).toNat ||| (p.getD 1 0).toNat <<< 8

/-- a four-byte header value -/
def LG (p : List UInt8) : Nat := SH p ||| SH (p.drop 2) <<< 16

/-- the next `n` bytes, for `buf` -/
def getBytes : Nat → Run σ (List UInt8)
  | 0 => pure []
  | n + 1 => do
    let b ← get_byte E
    let bs ← getBytes n
    pure (b :: bs)

/-- the result of `inflate` is looked at -/
def checkRes (res : Int) : Run σ Unit :=
  if res = 3 then unzip_error "out of memory"
  else if res ≠ 0 then unzip_error "invalid compressed format"
  else pure ()

/-- the compressed data -/
def decompress (tree : Inflate) : Run σ Unit := do
  let s ← get
  if s.method = DEFLATED then do
    let res ← inflate M E tree
    checkRes res
  else unzip_error "internal error, invalid method"

def unzip (tree : Inflate) : Run σ Unit := do
  initcrc
  decompress M E tree
  -- the crc and the original length
  let buf ← getBytes E 8
  let crc ← updcrc []
  errorIf (LG buf ≠ crc) "crc error"
  let s ← get
  errorIf (LG (buf.drop 4) ≠ s.zip.bytes_out) "length error"

def uncompress_kernel (tree : Inflate) : Run σ Int := do
  let _ ← alloc M INBUFSIZ
  let window ← alloc M WSIZE
  modify fun s => { s with zip := { s.zip with window := window } }
  clear_bufs E
  let method ← get_method E
  modify fun s => { s with method := method }
  unzip M E tree
  pure 1

end

/-! ## the checksum -/

theorem crc_32_tab_eq : ∀ i < 256, crc_32_tab.getD i 0 = (Crc.shift Crc.poly32)^[8] i := by
  decide +kernel

/-- the table of `updcrc` is that of CRC-32 -/
theorem updcrc_feed (c : Nat) (bs : List UInt8) : crcLoop c bs = Crc.feed Crc.poly32 c bs := by
  induction bs generalizing c with
  | nil => rfl
  | cons b bs ih =>
    have hi : (c % 2 ^ 32 ^^^ b.toNat) &&& 0xff = (c ^^^ b.toNat) % 2 ^ 8 := by
      rw [show (0xff : Nat) = 2 ^ 8 - 1 from rfl, Nat.and_two_pow_sub_one_eq_mod, Nat.xor_mod_two_pow,
        Nat.xor_mod_two_pow, Nat.mod_mod_of_dvd _ (by decide)]
    have hb := Crc.byte_of_table crc_32_tab_eq c b
    calc crcLoop c (b :: bs)
        = crcLoop (crc_32_tab.getD ((c % 2 ^ 32 ^^^ b.toNat) &&& 0xff) 0 ^^^ (c >>> 8)) bs := rfl
      _ = crcLoop (Crc.byte Crc.poly32 c b) bs := by rw [hi, hb]
      _ = Crc.feed Crc.poly32 c (b :: bs) := ih _

theorem SH_eq (a b : UInt8) (p : List UInt8) : SH (a :: b :: p) = a.toNat + 256 * b.toNat := by
  have ha : a.toNat < 2 ^ 8 := UInt8.toNat_lt a
  have h := Nat.shiftLeft_add_eq_or_of_lt ha b.toNat
  show a.toNat ||| b.toNat <<< 8 = _
  rw [Nat.or_comm, ← h, Nat.shiftLeft_eq]
  omega

/-- a four-byte header value is the number of its bytes -/
theorem LG_eq (a b c d : UInt8) (p : List UInt8) :
    LG (a :: b :: c :: d :: p) = Bytes.num [a, b, c, d] := by
  have hlt : SH (a :: b :: c :: d :: p) < 2 ^ 16 := by
    have ha := UInt8.toNat_lt a
    have hb := UInt8.toNat_lt b
    rw [SH_eq]
    omega
  have h := Nat.shiftLeft_add_eq_or_of_lt hlt (SH (c :: d :: p))
  show SH (a :: b :: c :: d :: p) ||| SH (c :: d :: p) <<< 16 = _
  rw [Nat.or_comm, ← h, Nat.shiftLeft_eq, SH_eq, SH_eq]
  simp only [Bytes.num]
  omega

/-! ## what a run keeps -/

section
open Raise
variable {σ : Type} {M : Machine} {E : Input σ} {K : List UInt8 → Nat → Nat → Prop} {s : Vars σ}

/-- the last `memcpy` of `flush_window` got a negative length -/
def LastNegative (l : State σ) : Prop := ∃ cs c, l.copies = cs ++ [c] ∧ 2 ^ 63 ≤ c.len

/-- left through `unzip_error`, or through `malloc` with the heap used up; or not at all -/
def Left (e : Exit) (t : Vars σ) : Prop :=
  (∃ x, e = .unzip_error x) ∨
    (e = .error "\nout of memory" ∧ out_of_memory t.load.elf.free_mem_ptr = true) ∨
    (e = .memcpy ∧ LastNegative t.load)

/-- a part of the input was taken, and `K` holds of the stream flushed so far, the counter and the
register -/
structure Kept (E : Input σ) (K : List UInt8 → Nat → Nat → Prop) (s : Vars σ) : Prop where
  taken : ∃ before, E.bytes = before ++ s.input
  sums : K s.windows.flatten s.zip.bytes_out s.crc

/-- nothing was flushed yet -/
def Fresh (bs : List UInt8) (bytes_out crc : Nat) : Prop := bs = [] ∧ bytes_out = 0

/-- the register and the counter are those of the stream -/
def Summed (bs : List UInt8) (bytes_out crc : Nat) : Prop :=
  crc = Crc.feed Crc.poly32 0xffffffff bs ∧ bytes_out = bs.length % 2 ^ 64

theorem unzip_error_ends {α : Type} {Q : α → Vars σ → Prop} (x : String) :
    Ends (unzip_error x) Q Left s := Ends.throw (.inl ⟨x, rfl⟩)

theorem alloc_ends {J : Vars σ → Prop} (size : Nat)
    (h : ∀ v : Elf, J { s with load := { s.load with elf := v } }) :
    Ends (alloc M size) (fun _ t => J t) Left s := by
  unfold alloc
  refine .bind (.get ?_)
  refine .ite (fun hc => .bind (.set (.throw (.inr (.inl ⟨rfl, hc⟩))))) fun hc => ?_
  exact .bind (.set (.pure (h _)))

theorem alloc_out (size : Nat)
    (h : out_of_memory (malloc M.clusters s.load.elf.free_mem_ptr size) = true) :
    ∃ t, alloc M size s = .error (.error "\nout of memory") t := by
  unfold alloc
  rw [bind_ok get_ok]
  simp only [h, if_true]
  exact ⟨_, rfl⟩

theorem get_byte_ends {Q : UInt8 → Vars σ → Prop}
    (h : ∀ b bs, s.input = b :: bs →
      Q b { s with input := bs, load := { s.load with fs := E.fill bs.length s.load.fs } }) :
    Ends (get_byte E) Q Left s := by
  unfold get_byte
  refine .bind (.get ?_)
  cases hi : s.input with
  | nil => exact unzip_error_ends _
  | cons b bs => exact .bind (.set (.pure (h b bs hi)))

theorem get_byte_kept (hs : Kept E K s) : Ends (get_byte E) (fun _ t => Kept E K t) Left s := by
  refine get_byte_ends fun b bs hi => ⟨?_, hs.sums⟩
  obtain ⟨before, hb⟩ := hs.taken
  refine ⟨before ++ [b], ?_⟩
  rw [hb, hi, List.append_assoc]
  rfl

theorem errorIf_ends {Q : Unit → Vars σ → Prop} {c : Bool} {x : String} (h : c = false → Q () s) :
    Ends (errorIf c x) Q Left s := by
  unfold errorIf
  refine .ite (fun _ => unzip_error_ends x) fun hc => .pure (h ?_)
  simpa using hc

/-! ## the header -/

theorem skip_kept (n : Nat) (hs : Kept E K s) :
    Ends (skip E n) (fun _ t => Kept E K t) Left s := by
  induction n generalizing s with
  | zero => exact .pure hs
  | succ n ih => exact .bind ((get_byte_kept hs).mono fun _ t ht => ih ht)

theorem skipText_kept (n : Nat) (hs : Kept E K s) :
    Ends (skipText E n) (fun _ t => Kept E K t) Left s := by
  induction n generalizing s with
  | zero => exact .pure hs
  | succ n ih =>
    refine .bind ((get_byte_kept hs).mono fun b t ht => ?_)
    exact .ite (fun _ => .pure ht) fun _ => ih ht

theorem skipName_kept (hs : Kept E K s) : Ends (skipName E) (fun _ t => Kept E K t) Left s :=
  .bind (.get (skipText_kept _ hs))

theorem skipExtra_kept (hs : Kept E K s) : Ends (skipExtra E) (fun _ t => Kept E K t) Left s := by
  refine .bind ((get_byte_kept hs).mono fun lo t ht => ?_)
  refine .bind ((get_byte_kept ht).mono fun hi u hu => ?_)
  exact skip_kept _ hu

theorem skipHeader_kept (flags : UInt8) (hs : Kept E K s) :
    Ends (skipHeader E flags) (fun _ t => Kept E K t) Left s := by
  refine .bind ((skip_kept 6 hs).mono fun _ t ht => ?_)
  refine .bind ((Ends.ite (fun _ => skipExtra_kept ht) fun _ => .pure ht).mono fun _ u hu => ?_)
  refine .bind ((Ends.ite (fun _ => skipName_kept hu) fun _ => .pure hu).mono fun _ v hv => ?_)
  exact .ite (fun _ => skipName_kept hv) fun _ => .pure hv

theorem get_method_kept (hs : Kept E K s) : Ends (get_method E) (fun _ t => Kept E K t) Left s := by
  refine .bind ((get_byte_kept hs).mono fun m0 t ht => ?_)
  refine .bind ((get_byte_kept ht).mono fun m1 u hu => ?_)
  refine .ite (fun _ => ?_) fun _ => unzip_error_ends _
  refine .bind ((get_byte_kept hu).mono fun method v hv => ?_)
  refine .bind ((get_byte_kept hv).mono fun flags w hw => ?_)
  refine .bind (errorIf_ends fun _ => .bind (errorIf_ends fun _ => .bind (errorIf_ends fun _ => ?_)))
  exact .bind ((skipHeader_kept flags hw).mono fun _ x hx => .pure hx)

/-! ## the windows -/

theorem is_loadable_elf_none {clusters : List Cluster} {buf : Mem} {n : Int} {v : Elf}
    (h : (is_loadable_elf clusters buf n v).1 = none) :
    out_of_memory (is_loadable_elf clusters buf n v).2.free_mem_ptr = true := by
  unfold is_loadable_elf at h ⊢
  by_cases hf : headerFine buf n = true
  · rw [if_pos hf] at h ⊢
    by_cases ho : out_of_memory (malloc clusters v.free_mem_ptr (sizeof_segment * e_phnum buf)) = true
    · simp only [ho, if_true]
    · simp only [ho] at h
      cases h
  · rw [if_neg hf] at h
    cases h

/-- the headers: the stream, the counter and the register stay -/
theorem flushHeader_kept (window : Mem) (outcnt : Nat) (hs : Kept E K s) :
    Ends (flushHeader M window outcnt) (fun _ t => Kept E K t) Left s := by
  unfold flushHeader
  refine .bind (.get (.bind (.set ?_)))
  cases hr : (loadable M window outcnt s.load).1 with
  | none => exact .throw (.inr (.inl ⟨rfl, is_loadable_elf_none hr⟩))
  | some b =>
    cases b with
    | false => exact unzip_error_ends _
    | true => exact .pure ⟨hs.taken, hs.sums⟩

/-- a negative length is one of at least 2^63 bytes -/
theorem le_uns64_to_copy {f outcnt : Nat} {seg : Segment} (h : to_copy f outcnt seg < 0) :
    2 ^ 63 ≤ uns 64 (to_copy f outcnt seg) := by
  have hge : -9223372036854775808 ≤ to_copy f outcnt seg := by
    obtain ⟨-, -, hlow, -⟩ := sgn64_cases ((seg.offset : Int) + seg.size - f)
    unfold to_copy
    simp only
    split <;> omega
  obtain ⟨q, hq, hlt⟩ := uns64_cases (to_copy f outcnt seg)
  omega

theorem flushLoop_none (n window : Nat) (left : Nat) :
    ∀ (chunk f outcnt : Nat) (s : State σ), (flushLoop n window left chunk f outcnt s).1 = none →
      LastNegative (flushLoop n window left chunk f outcnt s).2 := by
  induction left with
  | zero =>
    intro chunk f outcnt s h
    simp [flushLoop] at h
  | succ left ih =>
    intro chunk f outcnt s h
    rw [flushLoop] at h ⊢
    simp only at h ⊢
    split at h
    · simp at h
    · rename_i hskip
      rw [if_neg hskip]
      split at h
      · rename_i hneg
        rw [if_pos hneg]
        exact ⟨_, _, rfl, le_uns64_to_copy hneg⟩
      · rename_i hneg
        rw [if_neg hneg]
        split at h
        · rename_i hmore
          rw [if_pos hmore]
          exact ih _ _ _ _ h
        · simp at h

/-- the segments: the stream and the register stay, and the counter grows -/
theorem flushSegments_kept {outcnt : Nat} {K' : List UInt8 → Nat → Nat → Prop} (hs : Kept E K s)
    (hK : ∀ bs n c, K bs n c → K' bs ((n + outcnt) % 2 ^ 64) c) :
    Ends (flushSegments outcnt) (fun _ t => Kept E K' t) Left s := by
  unfold flushSegments
  refine .bind (.get ?_)
  have hnone := flushLoop_none outcnt s.zip.window (s.load.elf.nchunks - s.zip.chunk) s.zip.chunk
    s.zip.file_offset outcnt s.load
  simp only [flushCopies]
  generalize flushLoop outcnt s.zip.window (s.load.elf.nchunks - s.zip.chunk) s.zip.chunk
    s.zip.file_offset outcnt s.load = r at hnone ⊢
  obtain ⟨_ | p, l⟩ := r
  · exact .bind (.set (.throw (.inr (.inr ⟨rfl, hnone rfl⟩))))
  · refine .set ⟨hs.taken, ?_⟩
    show K' s.windows.flatten (uns 64 ((s.zip.bytes_out + outcnt : Nat) : Int)) s.crc
    have hu : uns 64 ((s.zip.bytes_out + outcnt : Nat) : Int) = (s.zip.bytes_out + outcnt) % 2 ^ 64 := by
      unfold uns
      omega
    rw [hu]
    exact hK _ _ _ hs.sums

/-- a window, whatever is in it, adds to the register and to the counter -/
theorem flush_window_summed (window : Mem) (outcnt : Nat) (hs : Kept E Summed s) :
    Ends (flush_window M window outcnt) (fun _ t => Kept E Summed t) Left s := by
  unfold flush_window
  refine .bind (.modify ?_)
  refine .ite (fun h0 => .pure ⟨hs.taken, ?_⟩) fun h0 => ?_
  · show Summed (s.windows ++ [window.get 0 outcnt]).flatten s.zip.bytes_out s.crc
    rw [h0, List.flatten_append]
    simpa [Mem.get] using hs.sums
  · -- between the register and the counter, the stream is one window ahead of the counter
    let Ahead (bs : List UInt8) (n c : Nat) : Prop :=
      c = Crc.feed Crc.poly32 0xffffffff bs ∧ (n + outcnt) % 2 ^ 64 = bs.length % 2 ^ 64
    refine .bind (.bind (.get (.bind (.set (.pure ?_)))))
    have ha : Kept E Ahead { s with
        windows := s.windows ++ [window.get 0 outcnt]
        load := fillWindow s.zip.window window outcnt s.load
        crc := crcLoop s.crc (window.get 0 outcnt) } := by
      obtain ⟨h1, h2⟩ := hs.sums
      refine ⟨hs.taken, ?_, ?_⟩
      · show crcLoop s.crc _ = Crc.feed _ _ (s.windows ++ [window.get 0 outcnt]).flatten
        rw [updcrc_feed, h1, List.flatten_append, List.flatten_singleton, Crc.feed_append]
      · show (s.zip.bytes_out + outcnt) % 2 ^ 64
            = (s.windows ++ [window.get 0 outcnt]).flatten.length % 2 ^ 64
        rw [h2, List.flatten_append, List.flatten_singleton, List.length_append, Mem.length_get]
        omega
    refine .bind (.get (.bind ?_))
    refine (Ends.ite (fun _ => flushHeader_kept window outcnt ha) fun _ => .pure ha).mono ?_
    exact fun _ t ht => flushSegments_kept ht fun bs n c h => h

/-- **any decompressor.** Whatever it takes, allocates and flushes, the register and the counter are
those of the windows flushed. -/
theorem inflate_summed (tree : Inflate) (hs : Kept E Summed s) :
    Ends (inflate M E tree) (fun _ t => Kept E Summed t) Left s := by
  induction tree generalizing s with
  | ret res => exact .pure hs
  | get next ih => exact .bind ((get_byte_kept hs).mono fun b t ht => ih b ht)
  | alloc size next ih => exact .bind ((alloc_ends size fun v => ⟨hs.taken, hs.sums⟩).mono fun p t ht => ih p ht)
  | flush window outcnt next ih =>
    exact .bind ((flush_window_summed window _ hs).mono fun _ t ht => ih ht)
  | unzip_error x => exact unzip_error_ends x

/-! ## the trailer -/

/-- the next bytes of the input; the rest of the variables stays -/
theorem getBytes_kept (n : Nat) (hs : Kept E K s) :
    Ends (getBytes E n)
      (fun bs t => Kept E K t ∧ bs.length = n ∧ s.input = bs ++ t.input) Left s := by
  induction n generalizing s with
  | zero => exact .pure ⟨hs, rfl, rfl⟩
  | succ n ih =>
    refine .bind (get_byte_ends fun b bs hi => .bind ?_)
    refine (ih (s := { s with input := bs, load := _ }) ⟨?_, hs.sums⟩).mono ?_
    · obtain ⟨before, hb⟩ := hs.taken
      refine ⟨before ++ [b], ?_⟩
      rw [hb, hi, List.append_assoc]
      rfl
    · rintro cs t ⟨ht, hl, hc⟩
      refine .pure ⟨ht, ?_, ?_⟩
      · rw [List.length_cons, hl]
      · rw [hi, List.cons_append, ← hc]

/-- the result of a run that is not left: the eight bytes before what is left of the input are the
checksum of the stream and its length -/
def Matches (E : Input σ) (t : Vars σ) : Prop :=
  ∃ before crc len : List UInt8, E.bytes = before ++ crc ++ len ++ t.input ∧
    crc.length = 4 ∧ len.length = 4 ∧
    Bytes.num crc = Crc.crc32 t.windows.flatten ∧
    Bytes.num len = t.windows.flatten.length % 2 ^ 64 ∧
    (t.windows.flatten.length < 2 ^ 64 → Bytes.num len = t.windows.flatten.length)

theorem decompress_summed (tree : Inflate) (hs : Kept E Summed s) :
    Ends (decompress M E tree) (fun _ t => Kept E Summed t) Left s := by
  refine .bind (.get (.ite (fun _ => .bind ?_) fun _ => unzip_error_ends _))
  refine (inflate_summed tree hs).mono fun res t ht => ?_
  refine .ite (fun _ => unzip_error_ends _) fun _ => ?_
  exact .ite (fun _ => unzip_error_ends _) fun _ => .pure ht

theorem unzip_matches (tree : Inflate) (hs : Kept E Fresh s) :
    Ends (unzip M E tree) (fun _ t => Matches E t) Left s := by
  have h0 : Kept E Summed { s with crc := 0xffffffff } := by
    obtain ⟨h1, h2⟩ := hs.sums
    refine ⟨hs.taken, ?_⟩
    show Summed s.windows.flatten s.zip.bytes_out 0xffffffff
    rw [h1, h2]
    exact ⟨rfl, rfl⟩
  refine .bind (.modify (.bind ((decompress_summed tree h0).mono fun _ t ht => .bind ?_)))
  refine (getBytes_kept 8 ht).mono ?_
  rintro buf u ⟨hu, hl, hb⟩
  refine .bind (.bind (.get (.bind (.set (.pure (.bind (errorIf_ends fun hc => ?_)))))))
  refine .bind (.get (errorIf_ends fun hn => ?_))
  match buf, hl with
  | [a, b, c, d, e, f, g, h], _ =>
    obtain ⟨before, hbefore⟩ := ht.taken
    obtain ⟨h1, h2⟩ := hu.sums
    have hlen : Bytes.num [e, f, g, h] = u.windows.flatten.length % 2 ^ 64 := by
      have hx : LG [e, f, g, h] = u.zip.bytes_out := by simpa using hn
      rw [← LG_eq e f g h [], hx, h2]
    refine ⟨before, [a, b, c, d], [e, f, g, h], ?_, rfl, rfl, ?_, hlen, fun hlt => ?_⟩
    · show E.bytes = before ++ [a, b, c, d] ++ [e, f, g, h] ++ u.input
      rw [hbefore, hb]
      simp
    · have hx : LG [a, b, c, d, e, f, g, h] = u.crc ^^^ 0xffffffff := by simpa [crcLoop] using hc
      rw [← LG_eq a b c d [e, f, g, h], hx, h1]
      rfl
    · exact hlen.trans (Nat.mod_eq_of_lt hlt)

end

/-- **an accepted kernel.** For every input, every decompressor and every state that an earlier
attempt has left: the checksum of the trailer is the CRC-32 of all windows flushed since
`clear_bufs`, and its length is their length, as the 64-bit counter has it; or the attempt is left,
through `unzip_error` or through `malloc` with the heap used up; or it stays in a `memcpy` of
`flush_window` with a negative length. -/
theorem uncompress_kernel_sum {σ : Type} (M : Machine) (E : Input σ) (tree : Inflate) (s : Vars σ) :
    (∃ t, uncompress_kernel M E tree s = .ok 1 t ∧ Matches E t) ∨
      (∃ x t, uncompress_kernel M E tree s = .error (.unzip_error x) t) ∨
      (∃ t, uncompress_kernel M E tree s = .error (.error "\nout of memory") t ∧
        out_of_memory t.load.elf.free_mem_ptr = true) ∨
      ∃ t, uncompress_kernel M E tree s = .error .memcpy t ∧ LastNegative t.load := by
  have h : Raise.Ends (uncompress_kernel M E tree) (fun r t => r = 1 ∧ Matches E t) Left s := by
    refine .bind ((alloc_ends INBUFSIZ fun v => trivial).mono fun _ s1 (_ : True) => ?_)
    refine .bind ((alloc_ends WSIZE fun v => trivial).mono fun window s2 (_ : True) => ?_)
    have h0 : Kept E Fresh { s2 with input := E.bytes, zip := ⟨0, window, 0, 0⟩, windows := [] } :=
      ⟨⟨[], rfl⟩, rfl, rfl⟩
    refine .bind (.modify (.bind (.modify (.bind ((get_method_kept h0).mono fun method s3 h3 => ?_)))))
    refine .bind (.modify (.bind ?_))
    have h4 : Kept E Fresh { s3 with method := method } := ⟨h3.taken, h3.sums⟩
    exact (unzip_matches tree h4).mono fun _ t ht => .pure ⟨rfl, ht⟩
  obtain ⟨r, t, hx, rfl, hm⟩ | ⟨e, t, hx, ⟨x, rfl⟩ | ⟨rfl, ho⟩ | ⟨rfl, hn⟩⟩ := h.cases
  · exact .inl ⟨t, hx, hm⟩
  · exact .inr (.inl ⟨x, t, hx⟩)
  · exact .inr (.inr (.inl ⟨t, hx, ho⟩))
  · exact .inr (.inr (.inr ⟨t, hx, hn⟩))

/-- the heap pointer is near the first page -/
def lastPage : Vars Unit where
  input := []
  method := 0
  crc := 0
  zip := ⟨0, 0, 0, 0⟩
  load := ⟨{ Elf.powerOn with free_mem_ptr := 0x22000 }, (), fun _ => 0, 0, 0, 0, [], [], false⟩
  windows := []

/-- `malloc` of the input buffer comes down to the first page: the attempt neither returns nor is left
through `unzip_error` -/
theorem uncompress_kernel_heap :
    ¬ ∀ (M : Machine) (E : Input Unit) (tree : Inflate) (s : Vars Unit),
      (∃ t, uncompress_kernel M E tree s = .ok 1 t ∧ Matches E t) ∨
        ∃ x t, uncompress_kernel M E tree s = .error (.unzip_error x) t := by
  intro h
  obtain ⟨t, hx⟩ : ∃ t, uncompress_kernel (Machine.faultless (fun _ _ => 0) (fun _ _ => 0) [])
      ⟨[], "", fun _ s => s⟩ (.ret 0) lastPage = .error (.error "\nout of memory") t :=
    (alloc_out INBUFSIZ (by decide)).imp fun t ht => Raise.bind_error ht
  obtain ⟨u, hy, _⟩ | ⟨x, u, hy⟩ := h (Machine.faultless (fun _ _ => 0) (fun _ _ => 0) [])
      ⟨[], "", fun _ s => s⟩ (.ret 0) lastPage
  · cases hx.symm.trans hy
  · cases hx.symm.trans hy

end Gunzip
