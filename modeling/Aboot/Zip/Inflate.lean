import Aboot.Zip.Input
import Aboot.Lib.Raise

/-!
# zip/inflate.c: the decompressor

`huft_build` makes the tables of a set of code lengths: tables that are indexed with the next bits of the
input, whose entries are codes or lead to further tables.  `inflate` decodes the blocks of a stream with them.

The functions keep the bit buffer in the locals `b` and `k`, which are those of the globals `bb` and `bk` on
every path on which these are read again; here they are the globals.  `used` counts the bits that `DUMPBITS`
has taken, and `windows` what was passed to `flush_window`: nothing in the source depends on them.  `free`
does nothing, and so `huft_free` is left out, and the largest `hufts`, which nobody reads.
-/

namespace Inflate
open Word

def WSIZE : Nat := 0x8000
/-- maximum bit length of any code -/
def BMAX : Nat := 16

def N_MAX : Nat := 288
def sizeof_huft : Nat := 16

/-- the union `v` of an entry: a value, or the next table -/
inductive Next
  | n (v : Nat)
  | t (table : Nat)

structure Huft where
  /-- number of extra bits or operation -/
  e : Nat
  /-- number of bits in this code or subcode -/
  b : Nat
  v : Next

/-- a table in fresh memory: an entry is there once it was stored -/
structure Table where
  size : Nat
  entry : Nat → Option Huft

/-- how the decompressor is left: `unzip_error`, the error exit of `malloc`, an exit of `flush_window`; or a
null pointer or an entry that was never stored is used; or it goes on for longer than is looked at -/
inductive Exit
  | unzip_error (x : String)
  | error (x : String)
  | flush_window
  | wild
  | fuel

structure Env where
  blocksize : Nat
  bread : Nat → BlockRead Zip.INBUFSIZ
  clusters : List Cluster
  /-- what is on the stack when there are `n` tables -/
  stack : (n : Nat) → Nat → Nat
  /-- what is in memory behind the lists of base values and of extra bits -/
  beyond : Nat → Nat
  /-- whether `flush_window` returns, after all the windows so far -/
  flushes : List (List UInt8) → Bool

structure State where
  input : Zip.Input
  window : Mem
  outcnt : Nat
  bb : Nat
  bk : Nat
  hufts : Nat
  tables : List Table
  free_mem_ptr : Nat
  windows : List (List UInt8)
  used : Nat

abbrev Run := EStateM Exit State

/-! ## the tables of the format -/

/-- the order of the bit length code lengths -/
def border : List Nat := [16, 17, 18, 0, 8, 7, 9, 6, 10, 5, 11, 4, 12, 3, 13, 2, 14, 1, 15]

def cplens : List Nat :=
  [3, 4, 5, 6, 7, 8, 9, 10, 11, 13, 15, 17, 19, 23, 27, 31, 35, 43, 51, 59, 67, 83, 99, 115, 131, 163, 195,
   227, 258, 0, 0]

def cplext : List Nat :=
  [0, 0, 0, 0, 0, 0, 0, 0, 1, 1, 1, 1, 2, 2, 2, 2, 3, 3, 3, 3, 4, 4, 4, 4, 5, 5, 5, 5, 0, 99, 99]

def cpdist : List Nat :=
  [1, 2, 3, 4, 5, 7, 9, 13, 17, 25, 33, 49, 65, 97, 129, 193, 257, 385, 513, 769, 1025, 1537, 2049, 3073, 4097,
   6145, 8193, 12289, 16385, 24577]

def cpdext : List Nat :=
  [0, 0, 0, 0, 1, 1, 2, 2, 3, 3, 4, 4, 5, 5, 6, 6, 7, 7, 8, 8, 9, 9, 10, 10, 11, 11, 12, 12, 13, 13]

def mask_bits (n : Nat) : Nat :=
  [0x0000, 0x0001, 0x0003, 0x0007, 0x000f, 0x001f, 0x003f, 0x007f, 0x00ff, 0x01ff, 0x03ff, 0x07ff, 0x0fff,
   0x1fff, 0x3fff, 0x7fff, 0xffff].getD n 0

def lbits : Nat := 9
def dbits : Nat := 6

/-! ## the bit buffer -/

def NEXTBYTE (E : Env) : Run UInt8 := do
  let s ← get
  let r := Zip.get_byte E.blocksize E.bread s.input
  modify fun s => { s with input := r.2 }
  match r.1 with
  | .ok c => pure c
  | .error x => throw (.unzip_error x)

/-- the loop of `NEEDBITS`: each round adds eight bits -/
def needbits (E : Env) (n : Nat) : (fuel : Nat) → Run Unit
  | 0 => pure ()
  | fuel + 1 => do
    let s ← get
    if s.bk < n then do
      let c ← NEXTBYTE E
      modify fun s => { s with bb := s.bb ||| uns 64 (c.toNat <<< s.bk : Nat), bk := s.bk + 8 }
      needbits E n fuel
    else pure ()

def NEEDBITS (E : Env) (n : Nat) : Run Unit := needbits E n n

def DUMPBITS (n : Nat) : Run Unit :=
  modify fun s => { s with bb := s.bb >>> n, bk := uns 32 ((s.bk : Int) - n), used := s.used + n }

/-- `n` bits are taken: `NEEDBITS(n)`, their value, and `DUMPBITS(n)` -/
def bits (E : Env) (n : Nat) : Run Nat := do
  NEEDBITS E n
  let s ← get
  DUMPBITS n
  pure (s.bb &&& mask_bits n)

/-! ## huft_build -/

section
variable (c : Nat → Nat)

/-- the first length of which there are codes -/
def minLength : Nat := ((List.range' 1 BMAX).find? fun j => c j ≠ 0).getD (BMAX + 1)

/-- the last one -/
def maxLength : Nat := ((List.range' 1 BMAX).reverse.find? fun i => c i ≠ 0).getD 0

/-- the number of codes that fill up the `n` lengths from `j` on, with `y` patterns of length `j` left; none
if there are too many codes -/
def dummies : (n j : Nat) → (y : Int) → Option Int
  | 0, j, y => if y - c j < 0 then none else some (y - c j)
  | n + 1, j, y => if y - c j < 0 then none else dummies n (j + 1) (2 * (y - c j))

/-- where the values of each length start -/
def offset : Nat → Nat
  | 0 => 0
  | 1 => 0
  | k + 2 => offset (k + 1) + c (k + 1)

end

/-- the values `i ..` of the lengths `b` are put in order of length -/
def values : (b : List Nat) → (i : Nat) → (x v : Nat → Nat) → Nat → Nat
  | [], _, _, v => v
  | j :: b, i, x, v =>
    if j ≠ 0 then values b (i + 1) (Function.update x j (x j + 1)) (Function.update v (x j) i)
    else values b (i + 1) x v

/-- what does not change while the tables are made: the number of codes and of simple ones, the base values
and extra bits, the values in order, the numbers of codes, the greatest length, and the bits of a table -/
structure Args where
  n : Nat
  s : Nat
  d : List Nat
  e : List Nat
  v : Nat → Nat
  c : Nat → Nat
  g : Nat
  l : Nat

/-- a level of tables: the bits before it, its pattern `x[h]` and its table `u[h]` -/
structure Level where
  w : Nat
  x : Nat
  u : Nat

/-- the variables while the tables are made; the levels start with the deepest one -/
structure Build where
  levels : List Level
  q : Nat
  z : Nat
  i : Nat
  p : Nat
  r : Huft
  t : Option Nat

/-- `w + l`: the bits that the tables so far can take -/
def reach (l : Nat) : List Level → Nat
  | [] => 0
  | lev :: _ => lev.w + l

/-- smaller tables are tried, up to `z` bits; `n` is the number of rounds before that -/
def widen (c : Nat → Nat) : (n f xp j : Nat) → Nat
  | 0, _, _, j => j + 1
  | n + 1, f, xp, j =>
    if 2 * f ≤ c (xp + 1) then j + 1 else widen c n (2 * f - c (xp + 1)) (xp + 1) (j + 1)

/-- the bits of a new table behind `w` bits, with `a` codes of `k` bits left -/
def tableBits (c : Nat → Nat) (k w z a : Nat) : Nat :=
  let j := k - w
  if a < 2 ^ j then widen c (z - (j + 1)) (2 ^ j - a) k j else j

/-- entries of the table `u` are stored -/
def store (u : Nat) (at_ : Nat → Bool) (r : Huft) : Run Unit :=
  modify fun s => { s with
    tables := s.tables.modify u fun tab => { tab with entry := fun x => if at_ x then some r else tab.entry x } }

/-- a new table is allocated -/
def newTable (E : Env) (size : Nat) : Run Nat := do
  let s ← get
  let p := malloc E.clusters s.free_mem_ptr ((size + 1) * sizeof_huft)
  modify fun s => { s with free_mem_ptr := p }
  if out_of_memory p then throw (.error "\nout of memory")
  else do
    modify fun s => { s with hufts := s.hufts + size + 1, tables := s.tables ++ [⟨size, fun _ => none⟩] }
    pure s.tables.length

/-- the next level of tables, for the code of `k` bits of which `a` are left -/
def newLevel (E : Env) (A : Args) (k a : Nat) (B : Build) : Run Build := do
  let w := reach A.l B.levels
  let j := tableBits A.c k w (min (A.g - w) A.l) a
  let q ← newTable E (2 ^ j)
  match B.levels with
  | [] => pure { B with levels := [⟨w, 0, q⟩], q := q, z := 2 ^ j, t := some q }
  | lev :: levels => do
    -- connect to last table
    let r : Huft := ⟨(16 + j) % 256, A.l % 256, .t q⟩
    store lev.u (fun x => x = B.i >>> lev.w) r
    pure { B with levels := ⟨w, B.i, q⟩ :: lev :: levels, q := q, z := 2 ^ j, r := r }

/-- tables up to the required level -/
def newLevels (E : Env) (A : Args) (k a : Nat) : (fuel : Nat) → Build → Run Build
  | 0, B => pure B
  | fuel + 1, B =>
    if reach A.l B.levels < k then do
      let B ← newLevel E A k a B
      newLevels E A k a fuel B
    else pure B

/-- the entry for the next value, with `b` bits -/
def setEntry (E : Env) (A : Args) (b : Nat) (B : Build) : Build :=
  if A.n ≤ B.p then { B with r := { B.r with e := 99, b := b } }
  else if A.v B.p < A.s then
    { B with r := ⟨if A.v B.p < 256 then 16 else 15, b, .n (A.v B.p % 65536)⟩, p := B.p + 1 }
  else
    { B with
      r := ⟨A.e.getD (A.v B.p - A.s) (E.beyond (A.v B.p - A.s)) % 256, b,
        .n (A.d.getD (A.v B.p - A.s) (E.beyond (A.v B.p - A.s)) % 65536)⟩
      p := B.p + 1 }

/-- backwards increment of the `k`-bit code -/
def increment : (k i : Nat) → Nat
  | 0, i => i
  | k + 1, i => if i &&& 2 ^ k ≠ 0 then increment k (i ^^^ 2 ^ k) else i ^^^ 2 ^ k

/-- backup over finished tables -/
def backup (i : Nat) : List Level → List Level
  | [] => []
  | lev :: levels => if i &&& (2 ^ lev.w - 1) ≠ lev.x then backup i levels else lev :: levels

/-- one code of `k` bits -/
def oneCode (E : Env) (A : Args) (k a : Nat) (B : Build) : Run Build := do
  let B ← newLevels E A k a k B
  match B.levels with
  | [] => throw .wild
  | lev :: _ => do
    let B := setEntry E A ((k - lev.w) % 256) B
    store B.q (fun x => x < B.z ∧ B.i >>> lev.w ≤ x ∧ (x - B.i >>> lev.w) % 2 ^ (k - lev.w) = 0) B.r
    let i := increment k B.i
    pure { B with i := i, levels := backup i B.levels }

/-- the codes of `k` bits, of which `a` are left -/
def codes (E : Env) (A : Args) (k : Nat) : (a : Nat) → Build → Run Build
  | 0, B => pure B
  | a + 1, B => do
    let B ← oneCode E A k (a + 1) B
    codes E A k a B

/-- the codes of the `n` lengths from `k` on -/
def lengths (E : Env) (A : Args) : (n k : Nat) → Build → Run Build
  | 0, _, B => pure B
  | n + 1, k, B => do
    let B ← codes E A k (A.c k) B
    lengths E A n (k + 1) B

/-- `huft_build`: the result, `*t` and `*m` -/
def huft_build (E : Env) (b : List Nat) (s : Nat) (d e : List Nat) (m : Nat) : Run (Nat × Option Nat × Nat) := do
  let c := fun k => b.count k
  if c 0 = b.length then pure (0, none, 0)
  else do
    let j := minLength c
    let g := maxLength c
    let l := min (max m j) g
    match dummies c (g - j) j (2 ^ j) with
    | none => pure (2, none, l)
    | some y => do
      let u ← get
      let A : Args :=
        { n := b.length, s := s, d := d, e := e, v := values b 0 (offset c) (E.stack u.tables.length),
          c := Function.update c g (c g + y.toNat), g := g, l := l }
      let B ← lengths E A (g + 1 - j) j ⟨[], 0, 0, 0, 0, ⟨0, 0, .n 0⟩, none⟩
      pure (if y ≠ 0 ∧ g ≠ 1 then 1 else 0, B.t, l)

/-! ## inflate -/

/-- an entry of a table -/
def lookup (t : Option Nat) (i : Nat) : Run Huft := do
  let s ← get
  match t.bind fun t => s.tables[t]?.bind fun tab => tab.entry i with
  | some r => pure r
  | none => throw .wild

def number : Next → Run Nat
  | .n v => pure v
  | .t _ => throw .wild

/-- from the entry `t` to the entry of a code; none for an invalid code -/
def decode (E : Env) : (fuel : Nat) → Huft → Run (Option Huft)
  | 0, _ => throw .fuel
  | fuel + 1, t =>
    if 16 < t.e then
      if t.e = 99 then pure none
      else do
        DUMPBITS t.b
        let e := t.e - 16
        NEEDBITS E e
        match t.v with
        | .n _ => throw .wild
        | .t table => do
          let s ← get
          let t ← lookup (some table) (s.bb &&& mask_bits e)
          decode E fuel t
    else do
      DUMPBITS t.b
      pure (some t)

/-- a code is decoded -/
def code (E : Env) (fuel : Nat) (t : Option Nat) (n : Nat) : Run (Option Huft) := do
  NEEDBITS E n
  let s ← get
  let t ← lookup t (s.bb &&& mask_bits n)
  decode E fuel t

/-- the value of an entry and of its extra bits -/
def extra (E : Env) (t : Huft) : Run Nat := do
  let v ← number t.v
  let x ← bits E t.e
  pure (v + x)

/-- `flush_output`; what `flush_window` leaves in `outcnt` is not read -/
def flush_output (E : Env) (w : Nat) : Run Unit := do
  modify fun s => { s with outcnt := w }
  if w = 0 then pure ()
  else do
    modify fun s => { s with windows := s.windows ++ [s.window.get 0 w] }
    let s ← get
    if E.flushes s.windows then pure () else throw .flush_window

/-- a full window is flushed -/
def full (E : Env) (w : Nat) : Run Nat :=
  if w = WSIZE then do
    flush_output E w
    pure 0
  else pure w

/-- `e` bytes one by one -/
def copySlow : (e w d : Nat) → Mem → Mem
  | 0, _, _, m => m
  | e + 1, w, d, m => copySlow e (w + 1) (d + 1) (m.put w [m d])

/-- `n` bytes from `d` on are copied to `w` -/
def copy (E : Env) : (fuel n w d : Nat) → Run Nat
  | 0, _, _, _ => throw .fuel
  | fuel + 1, n, w, d => do
    let d := d &&& (WSIZE - 1)
    let e := min (WSIZE - max d w) n
    modify fun s => { s with
      window := if e ≤ uns 32 ((w : Int) - d) then s.window.put w (s.window.get d e)
        else copySlow e w d s.window }
    let w ← full E (w + e)
    if n - e = 0 then pure w else copy E fuel (n - e) w (d + e)

/-- the loop of `inflate_codes`, with the window position -/
def codesLoop (E : Env) (depth : Nat) (tl td : Option Nat) (bl bd : Nat) : (fuel w : Nat) → Run Nat
  | 0, _ => throw .fuel
  | fuel + 1, w => do
    match ← code E depth tl bl with
    | none => pure 1
    | some t =>
      if t.e = 16 then do
        let v ← number t.v
        modify fun s => { s with window := s.window.put w [UInt8.ofNat v] }
        let w ← full E (w + 1)
        codesLoop E depth tl td bl bd fuel w
      else if t.e = 15 then do
        modify fun s => { s with outcnt := w }
        pure 0
      else do
        let n ← extra E t
        match ← code E depth td bd with
        | none => pure 1
        | some t => do
          let x ← extra E t
          let w ← copy E (n + 1) n w (uns 32 ((w : Int) - x))
          codesLoop E depth tl td bl bd fuel w

def inflate_codes (E : Env) (fuel : Nat) (tl td : Option Nat) (bl bd : Nat) : Run Nat := do
  let s ← get
  codesLoop E fuel tl td bl bd fuel s.outcnt

/-- the `n` bytes of a stored block -/
def stored (E : Env) : (n w : Nat) → Run Nat
  | 0, w => pure w
  | n + 1, w => do
    NEEDBITS E 8
    modify fun s => { s with window := s.window.put w [UInt8.ofNat s.bb] }
    let w ← full E (w + 1)
    DUMPBITS 8
    stored E n w

def inflate_stored (E : Env) : Run Nat := do
  let s ← get
  -- go to byte boundary
  DUMPBITS (s.bk &&& 7)
  let n ← bits E 16
  NEEDBITS E 16
  let t ← get
  if n ≠ (t.bb &&& 0xffff) ^^^ 0xffff then pure 1
  else do
    DUMPBITS 16
    let w ← stored E n s.outcnt
    modify fun s => { s with outcnt := w }
    pure 0

/-- the code lengths of a block of type 1 -/
def fixedLengths : List Nat :=
  List.replicate 144 8 ++ List.replicate 112 9 ++ List.replicate 24 7 ++ List.replicate 8 8

def inflate_fixed (E : Env) (fuel : Nat) : Run Nat := do
  let (i, tl, bl) ← huft_build E fixedLengths 257 cplens cplext 7
  if i ≠ 0 then pure i
  else do
    -- an incomplete code set
    let (i, td, bd) ← huft_build E (List.replicate 30 5) 0 cpdist cpdext 5
    if 1 < i then pure i
    else do
      let r ← inflate_codes E fuel tl td bl bd
      pure (if r ≠ 0 then 1 else 0)

/-- bit length code lengths -/
def bitLengths (E : Env) : List Nat → (ll : Nat → Nat) → Run (Nat → Nat)
  | [], ll => pure ll
  | j :: js, ll => do
    let x ← bits E 3
    bitLengths E js (Function.update ll j x)

/-- literal and distance code lengths, `n` in all; none if a repeat goes beyond them -/
def readLengths (E : Env) (tl : Option Nat) (bl n : Nat) : (fuel i l : Nat) → (ll : Nat → Nat) →
    Run (Option (Nat → Nat))
  | 0, _, _, _ => throw .fuel
  | fuel + 1, i, l, ll =>
    if i < n then do
      NEEDBITS E bl
      let s ← get
      let td ← lookup tl (s.bb &&& mask_bits bl)
      DUMPBITS td.b
      let j ← number td.v
      if j < 16 then readLengths E tl bl n fuel (i + 1) j (Function.update ll i j)
      else do
        -- repeat last length, or zero length codes
        let (j, l) ←
          if j = 16 then do
            let x ← bits E 2
            pure (3 + x, l)
          else if j = 17 then do
            let x ← bits E 3
            pure (3 + x, 0)
          else do
            let x ← bits E 7
            pure (11 + x, 0)
        if n < i + j then pure none
        else readLengths E tl bl n fuel (i + j) l fun q => if i ≤ q ∧ q < i + j then l else ll q
    else pure (some ll)

def inflate_dynamic (E : Env) (fuel : Nat) : Run Nat := do
  let x ← bits E 5
  let nl := 257 + x
  let x ← bits E 5
  let nd := 1 + x
  let x ← bits E 4
  let nb := 4 + x
  if 286 < nl ∨ 30 < nd then pure 1
  else do
    let s ← get
    let ll ← bitLengths E (border.take nb) (E.stack s.tables.length)
    let ll := fun q => if q ∈ border.drop nb then 0 else ll q
    let (i, tl, bl) ← huft_build E ((List.range 19).map ll) 19 [] [] 7
    if i ≠ 0 then pure i
    else do
      match ← readLengths E tl bl (nl + nd) (nl + nd + 1) 0 0 ll with
      | none => pure 1
      | some ll => do
        let (i, tl, bl) ← huft_build E ((List.range nl).map ll) 257 cplens cplext lbits
        if i = 1 then throw (.unzip_error "incomplete literal tree")
        else if i ≠ 0 then pure i
        else do
          let (i, td, bd) ← huft_build E ((List.range nd).map fun q => ll (nl + q)) 0 cpdist cpdext dbits
          if i = 1 then throw (.unzip_error "incomplete distance tree")
          else if i ≠ 0 then pure i
          else do
            let r ← inflate_codes E fuel tl td bl bd
            pure (if r ≠ 0 then 1 else 0)

/-- `inflate_block`: the result, and whether it is the last block -/
def inflate_block (E : Env) (fuel : Nat) : Run (Nat × Nat) := do
  let e ← bits E 1
  let t ← bits E 2
  if t = 2 then do
    let r ← inflate_dynamic E fuel
    pure (r, e)
  else if t = 0 then do
    let r ← inflate_stored E
    pure (r, e)
  else if t = 1 then do
    let r ← inflate_fixed E fuel
    pure (r, e)
  else pure (2, e)

/-- the blocks up to the last one -/
def blocks (E : Env) (depth : Nat) : (fuel : Nat) → Run Nat
  | 0 => throw .fuel
  | fuel + 1 => do
    modify fun s => { s with hufts := 0 }
    let (r, e) ← inflate_block E depth
    if r ≠ 0 then pure r else if e = 0 then blocks E depth fuel else pure 0

/-- undo too much lookahead: whole bytes are given back -/
def undo : (fuel : Nat) → State → State
  | 0, s => s
  | fuel + 1, s => if 8 ≤ s.bk then undo fuel { s with bk := s.bk - 8, input := Zip.back s.input } else s

/-- the window and the bit buffer are initialized -/
def start (s : State) : State := { s with outcnt := 0, bk := 0, bb := 0, used := 0 }

def inflate (E : Env) (fuel : Nat) : Run Nat := do
  modify start
  let r ← blocks E fuel fuel
  if r ≠ 0 then pure r
  else do
    modify fun s => undo s.bk s
    let s ← get
    flush_output E s.outcnt
    pure 0

end Inflate
