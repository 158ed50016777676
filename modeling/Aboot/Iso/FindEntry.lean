import Aboot.Iso.RecordName

/-!
# The search of a directory

`iso_find_entry` goes over the records of a directory in blocks of 1024 bytes; a record that reaches the
end of its block is put together in `big_data_block`.

* `Dir`            the records of a directory, as ISO 9660 lays them out;
* `Search`         what the search asks of the machine, up to the record it is after;
* `Answer`         what the search has to give;
* `findLoop_run`   the search from any record on;
* `find_entry_first`   it gives the first record with the name.
-/

set_option linter.unusedVariables false

namespace Iso
open Word Prog

/-! ## the volume and the directory -/

/-- what `iso_read_super` leaves for a volume in the format of ISO 9660 -/
structure Standard (sb : SuperBlock) : Prop where
  blocksize : sb.s_blocksize = 1024
  bits : sb.s_blocksize_bits = 10
  sierra : sb.s_high_sierra = 0
  mapping : sb.s_mapping = 'n'.toUInt8
  rock : sb.s_rock = true
  unhide : sb.s_unhide = 'n'.toUInt8
  zone : sb.s_log_zone_size = 9 ∨ sb.s_log_zone_size = 10 ∨ sb.s_log_zone_size = 11

/-- an accepted volume is one of ISO 9660 unless it is one of High Sierra -/
theorem standard_of_read_super {E : Env} {s t : State} (h : iso_read_super E s = some (0, t))
    (hs : t.sb.s_high_sierra = 0) : Standard t.sb := by
  unfold iso_read_super at h
  rw [bind_run (modify_run _ s)] at h
  obtain ⟨v, u, hv, h⟩ := bind_some.mp h
  have hsb := (findVolume_reads _ _ _ _ _ hv).sb
  cases v with
  | none => cases congrArg Prod.fst (Option.some.inj h)
  | some v =>
    dsimp only at h
    cases hz : zoneShift v.logical_block_size with
    | none =>
      rw [hz] at h
      cases congrArg Prod.fst (Option.some.inj h)
    | some z =>
      rw [hz] at h
      dsimp only at h
      rw [bind_run (modify_run _ u)] at h
      obtain ⟨-, rfl⟩ := Prod.mk.inj (Option.some.inj h)
      have hzone : z = 9 ∨ z = 10 ∨ z = 11 := by
        unfold zoneShift at hz
        split at hz
        · exact .inl (Option.some.inj hz).symm
        · split at hz
          · exact .inr (.inl (Option.some.inj hz).symm)
          · split at hz
            · exact .inr (.inr (Option.some.inj hz).symm)
            · cases hz
      have hsierra : v.high_sierra = false := by
        cases hv : v.high_sierra with
        | false => rfl
        | true =>
          have : (superEnd v z u).sb.s_high_sierra = 1 := by
            unfold superEnd
            rw [hv]
            rfl
          omega
      refine ⟨?_, ?_, hs, rfl, ?_, rfl, hzone⟩
      · simp only [superEnd, hsb, superStart]
      · simp only [superEnd, hsb, superStart]
      · show (!v.high_sierra) = true
        rw [hsierra]
        rfl

/-- a directory that starts at a block, and ends below 2 GB -/
structure Extent (e : Entry) : Prop where
  start : 0 < e.i_first_extent
  block : e.i_first_extent % 1024 = 0
  low : e.i_first_extent + e.size + 4096 ≤ 2147483648
  ino : 0 ≤ e.inumber
  ino_low : e.inumber < 2147483648

def nextSector (p : Nat) : Nat := p / ISOFS_BLOCK_SIZE * ISOFS_BLOCK_SIZE + ISOFS_BLOCK_SIZE

/-- the records of a directory of `size` bytes from `p` on: none crosses a sector, and a zero length says
that the rest of the sector is padding -/
inductive Dir (d : Mem) (size : Nat) : (p : Nat) → List Record → Prop where
  | done {p : Nat} (h : size ≤ p) : Dir d size p []
  | pad {p : Nat} {rs : List Record} (hlt : p < size) (h0 : de_length d p = 0)
      (rest : Dir d size (nextSector p) rs) : Dir d size p rs
  | record {r : Record} {rs : List Record} (hlt : r.pos < size) (hlaid : RecordLaid d r.pos)
      (hsector : r.pos % ISOFS_BLOCK_SIZE + de_length d r.pos ≤ ISOFS_BLOCK_SIZE)
      (rest : Dir d size (r.pos + de_length d r.pos) rs) : Dir d size r.pos (r :: rs)

/-- the record is one that is looked for -/
def Wanted (d : Mem) (name : List UInt8) (r : Record) : Prop :=
  Visible d r.pos ∧ Named d r.pos r.texts name

instance (d : Mem) (name : List UInt8) (r : Record) : Decidable (Wanted d name r) :=
  inferInstanceAs (Decidable (_ ∧ _))

/-- what a read of the block with the directory position `p` returns, as the `n`-th one -/
def blockRet (E : Env) (dev : Int) (e : Entry) (n p : Nat) : Int :=
  (E.read n dev 1024 (e.i_first_extent + p / 1024 * 1024 : Nat)).ret

/-- the search for `name` from `p` on, which starts with the `n`-th read and the heap pointer `q`: a record
that reaches the end of its block needs the next block, any other one has room for its name, and the
records up to the one that is looked for have the texts and areas that are given for them, which the machine
can take -/
inductive Search (E : Env) (dev : Int) (e : Entry) (d : Mem) (name : List UInt8) :
    (n q p : Nat) → List Record → Prop where
  | done {n q p : Nat} (h : e.size ≤ p) : Search E dev e d name n q p []
  | pad {n q p : Nat} {rs : List Record} (hlt : p < e.size) (h0 : de_length d p = 0)
      (rest : blockRet E dev e n (nextSector p) = 1024 →
        Search E dev e d name (n + 1) q (nextSector p) rs) : Search E dev e d name n q p rs
  | inside {n q : Nat} {r : Record} {rs : List Record} (hlt : r.pos < e.size)
      (hin : r.pos % 1024 + de_length d r.pos < 1024)
      (hroom : 33 + nameRoom d r.pos r.texts ≤ de_length d r.pos)
      (hsound : NameSound E dev n q d r)
      (rest : ¬ Wanted d name r → Search E dev e d name (n + r.areas.length) (heapBehind E q r.areas)
        (r.pos + de_length d r.pos) rs) : Search E dev e d name n q r.pos (r :: rs)
  | across {n q : Nat} {r : Record} {rs : List Record} (hlt : r.pos < e.size)
      (hout : 1024 ≤ r.pos % 1024 + de_length d r.pos)
      (hread : blockRet E dev e n (r.pos + de_length d r.pos) = 1024)
      (hsound : NameSound E dev (n + 1) q d r)
      (rest : ¬ Wanted d name r → Search E dev e d name (n + 1 + r.areas.length) (heapBehind E q r.areas)
        (r.pos + de_length d r.pos) rs) : Search E dev e d name n q r.pos (r :: rs)

/-! ## the answer -/

/-- the number of a record: its byte address, or that of the directory itself and of its parent -/
def address (s : State) (i : Slot) (d : Mem) (p : Nat) : Nat :=
  let e := s.inode_table i
  if isoId d p = [0] then e.inumber.toNat
  else if isoId d p = [1] then
    if e.inumber = sgn 32 s.sb.s_firstdatazone then e.inumber.toNat else recordExtent s.sb d p
  else e.i_first_extent + p

/-- with the reads `l`, the result `r` is the answer: when all of them succeeded, the first record that is
looked for, and otherwise a failure -/
def Answer (s : State) (i : Slot) (d : Mem) (name : List UInt8) (rs : List Record) (l : List Read)
    (r : Found) : Prop :=
  if ∀ x ∈ l, x.ret = x.count then
    match rs.find? fun r => Wanted d name r with
    | some x => r.ret = 0 ∧ r.ino = address s i d x.pos
    | none => r.ret ≠ 0
  else r.ret ≠ 0

section
variable {s : State} {i : Slot} {d : Mem} {name : List UInt8} {rs : List Record} {x : Record}
  {l l' : List Read} {r : Found}

/-- a read that failed makes a failure right -/
theorem answer_failed {y : Read} (hy : y ∈ l) (hne : y.ret ≠ y.count) (hr : r.ret ≠ 0) :
    Answer s i d name rs l r := by
  unfold Answer
  rw [if_neg fun h => hne (h y hy)]
  exact hr

/-- reads that succeeded do not change the answer -/
theorem Answer.after (h : Answer s i d name rs l r) (hl : ∀ y ∈ l', y.ret = y.count) :
    Answer s i d name rs (l' ++ l) r := by
  have hall : (∀ y ∈ l' ++ l, y.ret = y.count) ↔ ∀ y ∈ l, y.ret = y.count := by
    rw [List.forall_mem_append]
    exact and_iff_right hl
  unfold Answer at h ⊢
  rw [if_congr hall rfl rfl]
  exact h

/-- a record that is not looked for does not change it -/
theorem Answer.skip (h : Answer s i d name rs l r) (hx : ¬ Wanted d name x) :
    Answer s i d name (x :: rs) l r := by
  unfold Answer at h ⊢
  rw [List.find?_cons_of_neg (by simpa using hx)]
  exact h

/-- the record that is looked for -/
theorem answer_found (hl : ∀ y ∈ l, y.ret = y.count) (hx : Wanted d name x) (n : Nat) :
    Answer s i d name (x :: rs) l ⟨0, address s i d x.pos, n⟩ := by
  unfold Answer
  rw [if_pos hl, List.find?_cons_of_pos (by simpa using hx)]
  exact ⟨rfl, rfl⟩

/-- without a record that is looked for the answer is a failure -/
theorem Answer.none (h : Answer s i d name rs l r) (hrs : ∀ x ∈ rs, ¬ Wanted d name x) : r.ret ≠ 0 := by
  have hfind : rs.find? (fun r => Wanted d name r) = Option.none := by
    rw [List.find?_eq_none]
    exact fun x hx => by simpa using hrs x hx
  unfold Answer at h
  rw [hfind] at h
  split at h
  · exact h
  · exact h

theorem area_reads (cs : List Area) : ∀ y ∈ cs.map Area.read, y.ret = y.count := by
  intro y hy
  obtain ⟨c, -, rfl⟩ := List.mem_map.mp hy
  rfl

end

/-! ## the blocks -/

section
variable {E : Env} {s : State} {i : Slot} {e : Entry} {p : Nat}

/-- the directory of `e` on the disc -/
def dirMem (E : Env) (dev : Int) (e : Entry) : Mem := disc E dev e.i_first_extent

/-- the read of the block with the directory position `p` -/
def blockRes (E : Env) (s : State) (e : Entry) (p : Nat) : ReadRes :=
  E.read s.log.length s.cd_device 1024 (e.i_first_extent + p / 1024 * 1024 : Nat)

/-- that read in the log -/
def blockRead (E : Env) (s : State) (e : Entry) (p : Nat) : Read :=
  ⟨1024, (e.i_first_extent + p / 1024 * 1024 : Nat), (blockRes E s e p).ret⟩

/-- the state after that read -/
def afterBlock (E : Env) (s : State) (e : Entry) (p : Nat) : State :=
  { s with
    data_block := s.data_block.put 0 (blockRes E s e p).data
    log := s.log ++ [blockRead E s e p] }

/-- the block number of a directory position -/
def blockOf (e : Entry) (p : Nat) : Int := (e.i_first_extent / 1024 + p / 1024 : Nat)

/-- the cursor at the directory position `p` -/
def cursor (e : Entry) (p : Nat) : Cursor := ⟨blockOf e p, p, p % 1024⟩

/-- the block of a directory position, and where it starts on the disc -/
theorem block_place (hm : Standard s.sb) (he : s.inode_table i = e) (hx : Extent e)
    (hp : p ≤ e.size + 2048) : iso_bmap s i (sgn 32 (p / 2 ^ s.sb.s_blocksize_bits : Nat)) = blockOf e p ∧
      ¬ blockOf e p = 0 ∧ uns 32 (blockOf e p * s.sb.s_blocksize) = e.i_first_extent + p / 1024 * 1024 := by
  have hlow := hx.low
  have hblock := hx.block
  have hstart := hx.start
  have h10 : (2 : Nat) ^ 10 = 1024 := rfl
  have h1 : sgn 32 ((p / 1024 : Nat) : Int) = (p / 1024 : Nat) := sgn32_of_range (by omega) (by omega)
  refine ⟨?_, ?_, ?_⟩
  · unfold iso_bmap blockOf
    rw [he, hm.bits, h10, h1, if_neg (by omega)]
    exact sgn32_of_range (by omega) (by omega)
  · unfold blockOf
    omega
  · rw [hm.blocksize]
    unfold uns blockOf
    omega

/-- the block with the directory position `p` is read -/
theorem readDirBlock_run (hm : Standard s.sb) (he : s.inode_table i = e) (hx : Extent e)
    (hp : p ≤ e.size + 2048) : readDirBlock E i p s =
      some ((some (blockOf e p), decide ((blockRes E s e p).ret = 1024)), afterBlock E s e p) := by
  obtain ⟨hbmap, hne, haddr⟩ := block_place hm he hx hp
  have hread : readBlock E (blockOf e p) s
      = some (decide ((blockRes E s e p).ret = 1024), afterBlock E s e p) := by
    unfold readBlock
    rw [bind_run (get_run s), haddr, hm.blocksize]
    rfl
  unfold readDirBlock
  rw [bind_run (get_run s), hbmap, if_neg hne, bind_run hread, pure_run]

theorem afterBlock_reads (E : Env) (s : State) (e : Entry) (p : Nat) : Reads s (afterBlock E s e p) :=
  ⟨rfl, rfl, rfl, rfl⟩

/-- the directory from `p` on is in `data_block`, to the end of its block -/
def Loaded (E : Env) (s : State) (e : Entry) (p : Nat) : Prop :=
  Agree s.data_block (p % 1024) (dirMem E s.cd_device e) p (1024 - p % 1024)

/-- a block that was read holds the directory -/
theorem afterBlock_agree (h : (blockRes E s e p).ret = 1024) :
    Agree (afterBlock E s e p).data_block 0 (dirMem E s.cd_device e) (p / 1024 * 1024) 1024 := by
  intro j hj
  rw [Nat.zero_add]
  refine (E.put_read_exact h _ hj).trans ?_
  unfold dirMem disc
  congr 1
  push_cast
  omega

theorem afterBlock_loaded (h : (blockRes E s e p).ret = 1024) : Loaded E (afterBlock E s e p) e p := by
  have hd := (afterBlock_agree h).drop (p % 1024)
  rw [Nat.zero_add, show p / 1024 * 1024 + p % 1024 = p by omega] at hd
  exact hd.mono (by omega)

theorem Loaded.length (h : Loaded E s e p) :
    de_length s.data_block (p % 1024) = de_length (dirMem E s.cd_device e) p :=
  congrArg UInt8.toNat (h 0 (by omega))

/-! ## one round of the search -/

variable {depth fuel : Nat} {name : List UInt8}

/-- the search behind the directory -/
theorem findLoop_done (he : s.inode_table i = e) (h : e.size ≤ p) :
    findLoop E depth i name (fuel + 1) (cursor e p) s = some (⟨-1, 0, 0⟩, s) := by
  unfold findLoop
  rw [bind_run (get_run s), he, if_pos (show e.size ≤ (cursor e p).f_pos from h), pure_run]

/-- the byte address of a record, as the code has it -/
theorem byte_address (hm : Standard s.sb) (hx : Extent e) (hlt : p < e.size) :
    uns 32 (blockOf e p * 2 ^ s.sb.s_blocksize_bits + (p % 1024 &&& (s.sb.s_blocksize - 1) : Nat))
      = e.i_first_extent + p := by
  have hlow := hx.low
  have hblock := hx.block
  have hand : p % 1024 &&& (1024 - 1) = p % 1024 := by
    rw [show (1024 : Nat) - 1 = 2 ^ 10 - 1 from rfl, Nat.and_two_pow_sub_one_eq_mod]
    omega
  rw [hm.bits, hm.blocksize, hand]
  unfold uns blockOf
  omega

/-- the search at the padding of a sector -/
theorem findLoop_pad (hm : Standard s.sb) (he : s.inode_table i = e) (hx : Extent e) (hl : Loaded E s e p)
    (hlt : p < e.size) (h0 : de_length (dirMem E s.cd_device e) p = 0) :
    findLoop E depth i name (fuel + 1) (cursor e p) s =
      if (blockRes E s e (nextSector p)).ret = 1024 then
        findLoop E depth i name fuel (cursor e (nextSector p)) (afterBlock E s e (nextSector p))
      else some (⟨-1, 0, 0⟩, afterBlock E s e (nextSector p)) := by
  have hlow := hx.low
  have hpos : uns 32 (p / ISOFS_BLOCK_SIZE * ISOFS_BLOCK_SIZE + ISOFS_BLOCK_SIZE : Nat) = nextSector p := by
    refine uns32_natCast ?_
    unfold ISOFS_BLOCK_SIZE
    omega
  have hnext : nextSector p ≤ e.size + 2048 := by
    unfold nextSector ISOFS_BLOCK_SIZE
    omega
  have hmod : nextSector p % 1024 = 0 := by
    unfold nextSector ISOFS_BLOCK_SIZE
    omega
  rw [findLoop, bind_run (get_run s), he, if_neg (show ¬ e.size ≤ (cursor e p).f_pos from not_le.mpr hlt)]
  unfold cursor
  dsimp only
  rw [hl.length, h0, if_pos rfl, hpos, bind_run (readDirBlock_run hm he hx hnext), hmod]
  by_cases hret : (blockRes E s e (nextSector p)).ret = 1024
  · rw [if_pos hret, decide_eq_true hret]
  · rw [if_neg hret, decide_eq_false hret]
    rfl

/-- the search after a record was examined: it is over, or goes on behind the record -/
def goOn (E : Env) (depth : Nat) (i : Slot) (name : List UInt8) (fuel : Nat) (e : Entry) (p : Nat)
    (o : Option Found × State) : Option (Found × State) :=
  match o.1 with
  | some r => some (r, o.2)
  | none => findLoop E depth i name fuel (cursor e p) o.2

/-- the search at a record inside a block -/
theorem findLoop_inside (hm : Standard s.sb) (he : s.inode_table i = e) (hx : Extent e)
    (hl : Loaded E s e p) (hlt : p < e.size) {n : Nat} (hn : de_length (dirMem E s.cd_device e) p = n)
    (hpos : n ≠ 0) (hin : p % 1024 + n < 1024) {o : Option Found × State}
    (hrun : matchRecord E depth i name .data (p % 1024) (e.i_first_extent + p) s = some o) :
    findLoop E depth i name (fuel + 1) (cursor e p) s = goOn E depth i name fuel e (p + n) o := by
  have hlow := hx.low
  have hf : uns 32 (p + n : Nat) = p + n := uns32_natCast (by omega)
  have hnext : (⟨blockOf e p, p + n, p % 1024 + n⟩ : Cursor) = cursor e (p + n) := by
    unfold cursor blockOf
    rw [show (p + n) / 1024 = p / 1024 by omega, show (p + n) % 1024 = p % 1024 + n by omega]
  rw [findLoop, bind_run (get_run s), he, if_neg (show ¬ e.size ≤ (cursor e p).f_pos from not_le.mpr hlt)]
  unfold cursor
  dsimp only
  rw [hl.length, hn, if_neg hpos, byte_address hm hx hlt, hm.blocksize, if_pos hin, bind_run hrun, hf, hnext]
  unfold goOn
  cases o.1 with
  | none => rfl
  | some r => rfl

/-- the first part of a record that reaches the end of its block is copied -/
def begun (s : State) (p : Nat) : State :=
  { s with big_data_block := s.big_data_block.put 0 (s.data_block.get (p % 1024) (1024 - p % 1024)) }

/-- the next block was read, and the rest of the record copied from it -/
def gathered (E : Env) (s : State) (e : Entry) (p n : Nat) : State :=
  let u := afterBlock E (begun s p) e (p + n)
  { u with big_data_block := u.big_data_block.put (1024 - p % 1024) (u.data_block.get 0 ((p + n) % 1024)) }

theorem gathered_reads (E : Env) (s : State) (e : Entry) (p n : Nat) : Reads s (gathered E s e p n) :=
  ⟨rfl, rfl, rfl, rfl⟩

theorem blockRes_begun (E : Env) (s : State) (e : Entry) (p q : Nat) :
    blockRes E (begun s p) e q = blockRes E s e q := rfl

/-- the record is put together -/
theorem gathered_agree (hl : Loaded E s e p) {n : Nat} (hout : 1024 ≤ p % 1024 + n) (h256 : n < 256)
    (hret : (blockRes E s e (p + n)).ret = 1024) :
    Agree (gathered E s e p n).big_data_block 0 (dirMem E s.cd_device e) p n := by
  have hblock := afterBlock_agree (s := begun s p) hret
  intro j hj
  have hrest : (p + n) % 1024 = p % 1024 + n - 1024 := by omega
  rw [Nat.zero_add]
  show ((s.big_data_block.put 0 (s.data_block.get (p % 1024) (1024 - p % 1024))).put (1024 - p % 1024)
    ((afterBlock E (begun s p) e (p + n)).data_block.get 0 ((p + n) % 1024))) j = _
  rw [hrest, glue_in _ _ _ hout (by omega)]
  by_cases hlt : j < 1024 - p % 1024
  · rw [if_pos hlt]
    exact hl j (by omega)
  · rw [if_neg hlt]
    have h2 := hblock (j - (1024 - p % 1024)) (by omega)
    rw [Nat.zero_add] at h2
    rw [h2]
    congr 1
    omega

theorem gathered_log {n : Nat} (hret : (blockRes E s e (p + n)).ret = 1024) : (gathered E s e p n).log
    = s.log ++ [⟨1024, (e.i_first_extent + (p + n) / 1024 * 1024 : Nat), 1024⟩] := by
  show s.log ++ [⟨_, _, (blockRes E s e (p + n)).ret⟩] = _
  rw [hret]

theorem gathered_heap (E : Env) (s : State) (e : Entry) (p n : Nat) :
    (gathered E s e p n).free_mem_ptr = s.free_mem_ptr := rfl

theorem gathered_loaded {n : Nat} (hret : (blockRes E s e (p + n)).ret = 1024) :
    Loaded E (gathered E s e p n) e (p + n) :=
  afterBlock_loaded (s := begun s p) hret

/-- the search at a record that reaches the end of its block, when the next block can be read -/
theorem findLoop_across (hm : Standard s.sb) (he : s.inode_table i = e) (hx : Extent e)
    (hl : Loaded E s e p) (hlt : p < e.size) {n : Nat} (hn : de_length (dirMem E s.cd_device e) p = n)
    (hout : 1024 ≤ p % 1024 + n) (h256 : n < 256) (hret : (blockRes E s e (p + n)).ret = 1024)
    {o : Option Found × State}
    (hrun : matchRecord E depth i name .big 0 (e.i_first_extent + p) (gathered E s e p n) = some o) :
    findLoop E depth i name (fuel + 1) (cursor e p) s = goOn E depth i name fuel e (p + n) o := by
  have hlow := hx.low
  have hf : uns 32 (p + n : Nat) = p + n := uns32_natCast (by omega)
  have hand : p + n &&& (1024 - 1) = (p + n) % 1024 := by
    rw [show (1024 : Nat) - 1 = 2 ^ 10 - 1 from rfl, Nat.and_two_pow_sub_one_eq_mod]
  have hread := readDirBlock_run (E := E) (s := begun s p) (p := p + n) hm he hx (by omega)
  rw [blockRes_begun, decide_eq_true hret] at hread
  rw [findLoop, bind_run (get_run s), he, if_neg (show ¬ e.size ≤ (cursor e p).f_pos from not_le.mpr hlt)]
  unfold cursor
  dsimp only
  rw [hl.length, hn, if_neg (by omega), byte_address hm hx hlt, hm.blocksize, if_neg (by omega), hf, hand,
    bind_run (modify_run _ s)]
  refine (bind_run hread).trans ?_
  refine (bind_run (modify_run _ _)).trans ?_
  refine (bind_run hrun).trans ?_
  unfold goOn cursor
  cases o.1 with
  | none => rfl
  | some r => rfl

/-! ## the search -/

/-- the number that the code gives a record is its address -/
theorem recordNumber_address (d : Mem) (he : s.inode_table i = e) (hx : Extent e) :
    (recordNumber s i d p (e.i_first_extent + p)).1 = address s i d p := by
  have hino := hx.ino
  have hlow := hx.ino_low
  have hu : uns 32 e.inumber = e.inumber.toNat := by
    unfold uns
    omega
  have hid : ∀ b : UInt8, (d (de_name p) = b ∧ de_name_len d p = 1) ↔ isoId d p = [b] := by
    intro b
    unfold isoId
    constructor
    · rintro ⟨h1, h2⟩
      rw [h2, ← h1]
      rfl
    · intro h
      have hlen := congrArg List.length h
      rw [Mem.length_get] at hlen
      have hlen : de_name_len d p = 1 := hlen
      rw [hlen] at h
      exact ⟨(List.cons.inj h).1, hlen⟩
  unfold recordNumber address
  rw [he]
  dsimp only
  rw [if_congr (hid 0) rfl rfl, if_congr (hid 1) rfl rfl, hu]
  split
  · rfl
  · split
    · by_cases hroot : e.inumber = sgn 32 s.sb.s_firstdatazone
      · rw [if_neg (not_not.mpr hroot.symm), if_pos hroot]
      · rw [if_pos (Ne.symm hroot), if_neg hroot]
    · rfl

/-- an address is not -1 -/
theorem address_ne (d : Mem) (hm : Standard s.sb) (he : s.inode_table i = e) (hx : Extent e)
    (hlt : p < e.size) : sgn 32 (address s i d p) ≠ -1 := by
  have hino := hx.ino
  have hinolow := hx.ino_low
  have hlow := hx.low
  have hself : sgn 32 (e.inumber.toNat : Nat) ≠ -1 := by
    rw [sgn32_of_range (by omega) (by omega)]
    omega
  -- the zone size is even
  have hparent : sgn 32 (recordExtent s.sb d p : Nat) ≠ -1 := by
    unfold recordExtent
    generalize de_extent d p + de_ext_attr_length d p = y
    obtain ⟨q, hq, -⟩ := uns32_cases (y * 2 ^ s.sb.s_log_zone_size)
    obtain ⟨q', hq', -⟩ := sgn32_cases (uns 32 (y * 2 ^ s.sb.s_log_zone_size) : Nat)
    rcases hm.zone with hz | hz | hz
    all_goals
      rw [hz] at hq hq' ⊢
      omega
  unfold address
  rw [he]
  dsimp only
  split
  · exact hself
  · split
    · split
      · exact hself
      · exact hparent
    · rw [sgn32_of_range (by omega) (by omega)]
      omega

/-- the search comes to the answer, from the state `s` at the directory position `p` on -/
def Comes (E : Env) (s0 : State) (i : Slot) (name : List UInt8) (rs : List Record) (N p : Nat) (s : State) :
    Prop :=
  ∀ depth fuel, N ≤ depth → N ≤ fuel → ∃ r t l,
    findLoop E depth i name fuel (cursor (s0.inode_table i) p) s = some (r, t) ∧ t.log = s.log ++ l ∧
      Answer s0 i (dirMem E s0.cd_device (s0.inode_table i)) name rs l r

/-- a search that goes on behind a record comes to the answer -/
theorem goOn_comes {s0 t : State} {x : Record} {rs : List Record} {N q : Nat} {l : List Read}
    (hl : ∀ y ∈ l, y.ret = y.count) (ht : t.log = s.log ++ l) {n : Nat}
    (hrest : ¬ Wanted (dirMem E s0.cd_device (s0.inode_table i)) name x → Comes E s0 i name rs N q t)
    (hd : N ≤ depth) (hf : N ≤ fuel) :
    ∃ r u l', goOn E depth i name fuel (s0.inode_table i) q
        (if Wanted (dirMem E s0.cd_device (s0.inode_table i)) name x then
          some ⟨0, address s0 i (dirMem E s0.cd_device (s0.inode_table i)) x.pos, n⟩ else none, t)
          = some (r, u) ∧ u.log = s.log ++ l' ∧
      Answer s0 i (dirMem E s0.cd_device (s0.inode_table i)) name (x :: rs) l' r := by
  by_cases hw : Wanted (dirMem E s0.cd_device (s0.inode_table i)) name x
  · rw [if_pos hw]
    exact ⟨_, t, l, rfl, ht, answer_found hl hw n⟩
  · rw [if_neg hw]
    obtain ⟨r, u, l', hrun, hlog, hanswer⟩ := hrest hw depth fuel hd hf
    refine ⟨r, u, l ++ l', hrun, ?_, (hanswer.skip hw).after hl⟩
    rw [hlog, ht, List.append_assoc]

theorem address_reads {s0 : State} (h : Reads s0 s) (d : Mem) : address s i d p = address s0 i d p := by
  unfold address
  rw [h.inode_table, h.sb]

/-- the search is at the directory position `p`, before the `n`-th read, with the heap pointer `q` -/
structure At (E : Env) (s0 : State) (e : Entry) (n q p : Nat) (s : State) : Prop where
  reads : Reads s0 s
  count : s.log.length = n
  heap : s.free_mem_ptr = q
  loaded : Loaded E s e p

section
variable {s0 : State} {n q : Nat} {r : Record} {rs : List Record}

theorem At.dir (h : At E s0 e n q p s) : dirMem E s.cd_device e = dirMem E s0.cd_device e := by
  rw [h.reads.cd_device]

theorem At.ret (h : At E s0 e n q p s) (p' : Nat) :
    (blockRes E s e p').ret = blockRet E s0.cd_device e n p' := by
  unfold blockRes blockRet
  rw [h.count, h.reads.cd_device]

/-- the records behind the padding of a sector -/
theorem Dir.behind_pad {d : Mem} {size : Nat} (h : Dir d size p rs) (hlt : p < size)
    (h0 : de_length d p = 0) : Dir d size (nextSector p) rs := by
  cases h with
  | done h => omega
  | pad _ _ rest => exact rest
  | record _ hlaid =>
    have := hlaid.room
    omega

theorem Dir.behind_record {d : Mem} {size : Nat} (h : Dir d size r.pos (r :: rs))
    (hne : de_length d r.pos ≠ 0) : r.pos < size ∧ RecordLaid d r.pos ∧
      Dir d size (r.pos + de_length d r.pos) rs := by
  generalize hp : r.pos = p at h hne ⊢
  cases h with
  | pad _ h0 rest => exact absurd h0 hne
  | record hlt hlaid _ rest => exact ⟨hp ▸ hlt, hp ▸ hlaid, hp ▸ rest⟩

/-- the records behind a record matter only if it is not the one that is looked for -/
theorem rest_comes {P : Prop} {Q : Nat → Prop} (h : ¬ P → ∃ N, Q N) : ∃ N, ¬ P → Q N := by
  by_cases hP : P
  · exact ⟨0, fun hn => absurd hP hn⟩
  · obtain ⟨N, hN⟩ := h hP
    exact ⟨N, fun _ => hN⟩

/-- one round at the padding of a sector -/
theorem pad_step (hm : Standard s0.sb) (he : s0.inode_table i = e) (hx : Extent e)
    (hat : At E s0 e n q p s) (hlt : p < e.size) (h0 : de_length (dirMem E s0.cd_device e) p = 0)
    (depth fuel : Nat) (name : List UInt8) : findLoop E depth i name (fuel + 1) (cursor e p) s =
      if blockRet E s0.cd_device e n (nextSector p) = 1024 then
        findLoop E depth i name fuel (cursor e (nextSector p)) (afterBlock E s e (nextSector p))
      else some (⟨-1, 0, 0⟩, afterBlock E s e (nextSector p)) := by
  have hes : s.inode_table i = e := by rw [hat.reads.inode_table, he]
  have hms : Standard s.sb := by rw [hat.reads.sb]; exact hm
  rw [findLoop_pad hms hes hx hat.loaded hlt (by rw [hat.dir]; exact h0), hat.ret]

/-- one round at a record inside its block -/
theorem inside_step (hm : Standard s0.sb) (he : s0.inode_table i = e) (hx : Extent e)
    (hat : At E s0 e n q r.pos s) (hlt : r.pos < e.size) {len : Nat}
    (hlen : de_length (dirMem E s0.cd_device e) r.pos = len) (hin : r.pos % 1024 + len < 1024)
    (hroom : 33 + nameRoom (dirMem E s0.cd_device e) r.pos r.texts ≤ len)
    (hsound : NameSound E s0.cd_device n q (dirMem E s0.cd_device e) r)
    (hlaid : RecordLaid (dirMem E s0.cd_device e) r.pos)
    (hdepth : 256 + r.areas.length ≤ depth) (fuel : Nat) (name : List UInt8) :
    ∃ k t, findLoop E depth i name (fuel + 1) (cursor e r.pos) s = goOn E depth i name fuel e (r.pos + len)
        (if Wanted (dirMem E s0.cd_device e) name r then
          some ⟨0, address s0 i (dirMem E s0.cd_device e) r.pos, k⟩ else none, t) ∧
      t.log = s.log ++ r.areas.map Area.read ∧
      At E s0 e (n + r.areas.length) (heapBehind E q r.areas) (r.pos + len) t := by
  have hdir := hat.dir
  have hl := hat.loaded
  obtain ⟨hr, rfl, rfl, -⟩ := hat
  generalize dirMem E s0.cd_device e = d at hlen hroom hlaid hsound hdir ⊢
  have hes : s.inode_table i = e := by rw [hr.inode_table, he]
  have hms : Standard s.sb := by rw [hr.sb]; exact hm
  have hl' : Agree s.data_block (r.pos % 1024) d r.pos (1024 - r.pos % 1024) := by
    rw [← hdir]
    exact hl
  have hnum := recordNumber_address (p := r.pos) d hes hx
  have hne := address_ne d hms hes hx hlt
  rw [← hr.cd_device] at hsound
  obtain ⟨m', hrun, hframe⟩ := matchRecord_run (b := .data) hms.rock hms.mapping hms.sierra hms.unhide
    (hl'.mono (by omega)) hlaid hsound hdepth i name (hnum ▸ hne)
  rw [hnum, address_reads hr] at hrun
  have hpos := hlaid.room
  refine ⟨_, _, findLoop_inside hms hes hx hl hlt (by rw [hdir]; exact hlen) (by omega) hin hrun,
    examined_log _ _ _ _ _, hr.trans _ _ _ (examined_reads _ _ _ _ _), ?_, examined_heap _ _ _ _ _, ?_⟩
  · rw [examined_log, List.length_append, List.length_map]
  · unfold Loaded
    rw [(examined_reads _ _ _ _ _).cd_device, hdir]
    intro j hj
    show m' _ = _
    rw [hframe _ (.inr (by unfold de_name; omega)), show (r.pos + len) % 1024 + j = r.pos % 1024 + (len + j) by omega,
      Nat.add_assoc]
    exact hl' _ (by push_cast; omega)

/-- one round at a record that reaches the end of its block -/
theorem across_step (hm : Standard s0.sb) (he : s0.inode_table i = e) (hx : Extent e)
    (hat : At E s0 e n q r.pos s) (hlt : r.pos < e.size) {len : Nat}
    (hlen : de_length (dirMem E s0.cd_device e) r.pos = len) (hout : 1024 ≤ r.pos % 1024 + len)
    (hread : blockRet E s0.cd_device e n (r.pos + len) = 1024)
    (hsound : NameSound E s0.cd_device (n + 1) q (dirMem E s0.cd_device e) r)
    (hlaid : RecordLaid (dirMem E s0.cd_device e) r.pos)
    (hdepth : 256 + r.areas.length ≤ depth) (fuel : Nat) (name : List UInt8) :
    ∃ k t off, findLoop E depth i name (fuel + 1) (cursor e r.pos) s
        = goOn E depth i name fuel e (r.pos + len)
          (if Wanted (dirMem E s0.cd_device e) name r then
            some ⟨0, address s0 i (dirMem E s0.cd_device e) r.pos, k⟩ else none, t) ∧
      t.log = s.log ++ (⟨1024, off, 1024⟩ :: r.areas.map Area.read) ∧
      At E s0 e (n + 1 + r.areas.length) (heapBehind E q r.areas) (r.pos + len) t := by
  have hdir := hat.dir
  have hl := hat.loaded
  have hret := (hat.ret (r.pos + len)).trans hread
  obtain ⟨hr, rfl, rfl, -⟩ := hat
  generalize dirMem E s0.cd_device e = d at hlen hlaid hsound hdir ⊢
  have hes : s.inode_table i = e := by rw [hr.inode_table, he]
  have hms : Standard s.sb := by rw [hr.sb]; exact hm
  have h256 : len < 256 := hlen ▸ UInt8.toNat_lt _
  have hstep : ∀ o, matchRecord E depth i name .big 0 (e.i_first_extent + r.pos) (gathered E s e r.pos len)
        = some o →
      findLoop E depth i name (fuel + 1) (cursor e r.pos) s = goOn E depth i name fuel e (r.pos + len) o :=
    fun o => findLoop_across hms hes hx hl hlt (by rw [hdir]; exact hlen) hout h256 hret
  have hu := hr.trans _ _ _ (gathered_reads E s e r.pos len)
  have hlog := gathered_log hret
  have hheap := gathered_heap E s e r.pos len
  have hagree := gathered_agree hl hout h256 hret
  have hloaded := gathered_loaded hret
  rw [hdir] at hagree
  generalize gathered E s e r.pos len = u at hstep hu hlog hheap hagree hloaded
  have hues : u.inode_table i = e := by rw [hu.inode_table, he]
  have hum : Standard u.sb := by rw [hu.sb]; exact hm
  have hcount : u.log.length = s.log.length + 1 := by rw [hlog, List.length_append, List.length_singleton]
  have hnum := recordNumber_address (p := r.pos) d hues hx
  have hne := address_ne d hum hues hx hlt
  rw [← hu.cd_device, ← hcount, ← hheap] at hsound
  obtain ⟨m', hrun, -⟩ := matchRecord_run (b := .big) hum.rock hum.mapping hum.sierra hum.unhide
    (by rw [hlen]; exact hagree) hlaid hsound hdepth i name (hnum ▸ hne)
  rw [hnum, address_reads hu] at hrun
  refine ⟨_, _, ((e.i_first_extent + (r.pos + len) / 1024 * 1024 : Nat) : Int), hstep _ hrun, ?_,
    hu.trans _ _ _ (examined_reads _ _ _ _ _), ?_, ?_, ?_⟩
  · rw [examined_log, hlog, List.append_assoc]
    rfl
  · rw [examined_log, List.length_append, List.length_map, hcount]
  · rw [examined_heap, hheap]
  · unfold Loaded at hloaded ⊢
    rw [(examined_reads _ _ _ _ _).cd_device]
    intro j hj
    refine Eq.trans ?_ (hloaded j hj)
    unfold examined
    rw [followAll_eq]
    rfl

/-- **The search from a record on.** -/
theorem findLoop_run (hm : Standard s0.sb) (he : s0.inode_table i = e) (hx : Extent e)
    (h : Search E s0.cd_device e (dirMem E s0.cd_device e) name n q p rs) :
    Dir (dirMem E s0.cd_device e) e.size p rs →
    ∃ N, ∀ s, At E s0 e n q p s → Comes E s0 i name rs N p s := by
  subst he
  induction h with
  | @done n q p hle =>
    intro hdir
    refine ⟨1, fun s hat depth fuel _ hf => ?_⟩
    obtain ⟨fuel, rfl⟩ : ∃ k, fuel = k + 1 := ⟨fuel - 1, by omega⟩
    refine ⟨_, s, [], findLoop_done (by rw [hat.reads.inode_table]) hle, (List.append_nil _).symm, ?_⟩
    unfold Answer
    rw [if_pos fun x hx => absurd hx List.not_mem_nil]
    show (-1 : Int) ≠ 0
    decide
  | @pad n q p rs hlt h0 rest ih =>
    intro hdir
    have hbehind := hdir.behind_pad hlt h0
    by_cases hret : blockRet E s0.cd_device (s0.inode_table i) n (nextSector p) = 1024
    · obtain ⟨N, hN⟩ := ih hret hbehind
      refine ⟨N + 1, fun s hat depth fuel hd hf => ?_⟩
      obtain ⟨fuel, rfl⟩ : ∃ k, fuel = k + 1 := ⟨fuel - 1, by omega⟩
      have hpad := pad_step hm rfl hx hat hlt h0 depth fuel name
      have hsret := (hat.ret (nextSector p)).trans hret
      rw [if_pos hret] at hpad
      have hnext : At E s0 (s0.inode_table i) (n + 1) q (nextSector p)
          (afterBlock E s (s0.inode_table i) (nextSector p)) := by
        refine ⟨hat.reads.trans _ _ _ (afterBlock_reads E s _ _), ?_, hat.heap, afterBlock_loaded hsret⟩
        show (s.log ++ [_]).length = n + 1
        rw [List.length_append, hat.count, List.length_singleton]
      obtain ⟨r, t, l, hrun, hlog, hanswer⟩ := hN _ hnext depth fuel (by omega) (by omega)
      refine ⟨r, t, [blockRead E s (s0.inode_table i) (nextSector p)] ++ l, hpad.trans hrun, ?_,
        hanswer.after fun y hy => ?_⟩
      · rw [hlog, afterBlock, List.append_assoc]
      · rw [List.mem_singleton.mp hy]
        exact hsret
    · refine ⟨1, fun s hat depth fuel hd hf => ?_⟩
      obtain ⟨fuel, rfl⟩ : ∃ k, fuel = k + 1 := ⟨fuel - 1, by omega⟩
      have hpad := pad_step hm rfl hx hat hlt h0 depth fuel name
      rw [if_neg hret] at hpad
      refine ⟨_, _, [blockRead E s (s0.inode_table i) (nextSector p)], hpad, rfl,
        answer_failed List.mem_cons_self ?_ (by decide)⟩
      show (blockRes E s (s0.inode_table i) (nextSector p)).ret ≠ 1024
      rw [hat.ret]
      exact hret
  | @inside n q r rs hlt hin hroom hsound rest ih =>
    intro hdir
    obtain ⟨-, hlaid, hbehind⟩ := hdir.behind_record (by omega)
    obtain ⟨N, hN⟩ := rest_comes fun hw => ih hw hbehind
    refine ⟨256 + r.areas.length + N + 1, fun s hat depth fuel hd hf => ?_⟩
    obtain ⟨fuel, rfl⟩ : ∃ k, fuel = k + 1 := ⟨fuel - 1, by omega⟩
    obtain ⟨k, t, hstep, hlog, hnext⟩ := inside_step hm rfl hx hat hlt rfl hin hroom hsound hlaid
      (by omega : 256 + r.areas.length ≤ depth) fuel name
    rw [hstep]
    exact goOn_comes (area_reads _) hlog (fun hw => hN hw t hnext) (by omega) (by omega)
  | @across n q r rs hlt hout hread hsound rest ih =>
    intro hdir
    obtain ⟨-, hlaid, hbehind⟩ := hdir.behind_record (by omega)
    obtain ⟨N, hN⟩ := rest_comes fun hw => ih hw hbehind
    refine ⟨256 + r.areas.length + N + 1, fun s hat depth fuel hd hf => ?_⟩
    obtain ⟨fuel, rfl⟩ : ∃ k, fuel = k + 1 := ⟨fuel - 1, by omega⟩
    obtain ⟨k, t, off, hstep, hlog, hnext⟩ := across_step hm rfl hx hat hlt rfl hout hread hsound hlaid
      (by omega : 256 + r.areas.length ≤ depth) fuel name
    rw [hstep]
    refine goOn_comes ?_ hlog (fun hw => hN hw t hnext) (by omega) (by omega)
    exact List.forall_mem_cons.mpr ⟨rfl, area_reads _⟩

/-- the whole search, from the first block on -/
theorem iso_find_entry_run (hm : Standard s.sb) (he : s.inode_table i = e) (hx : Extent e)
    (hdir : Dir (dirMem E s.cd_device e) e.size 0 rs)
    (h : blockRet E s.cd_device e s.log.length 0 = 1024 →
      Search E s.cd_device e (dirMem E s.cd_device e) name (s.log.length + 1) s.free_mem_ptr 0 rs) :
    ∃ N, ∀ fuel, N ≤ fuel → ∃ r t l, iso_find_entry E fuel i name s = some (r, t) ∧ t.log = s.log ++ l ∧
      Answer s i (dirMem E s.cd_device e) name rs l r := by
  subst he
  have hread := readDirBlock_run (E := E) (p := 0) hm rfl hx (Nat.zero_le _)
  have hstart : (s.inode_table i).i_first_extent ≠ 0 := Nat.pos_iff_ne_zero.mp hx.start
  by_cases hret : (blockRes E s (s.inode_table i) 0).ret = 1024
  · obtain ⟨N, hN⟩ := findLoop_run hm rfl hx (h hret) hdir
    refine ⟨N, fun fuel hf => ?_⟩
    have hat : At E s (s.inode_table i) (s.log.length + 1) s.free_mem_ptr 0
        (afterBlock E s (s.inode_table i) 0) :=
      ⟨afterBlock_reads E s _ 0, List.length_append, rfl, afterBlock_loaded hret⟩
    obtain ⟨r, t, l, hrun, hlog, hanswer⟩ := hN _ hat fuel fuel hf hf
    refine ⟨r, t, [blockRead E s (s.inode_table i) 0] ++ l, ?_, ?_, hanswer.after fun y hy => ?_⟩
    · unfold iso_find_entry
      rw [bind_run (get_run s), if_neg hstart, bind_run hread, decide_eq_true hret]
      exact hrun
    · rw [hlog, afterBlock, List.append_assoc]
    · rw [List.mem_singleton.mp hy]
      exact hret
  · refine ⟨0, fun fuel _ => ⟨⟨-1, 0, 0⟩, afterBlock E s (s.inode_table i) 0,
      [blockRead E s (s.inode_table i) 0], ?_, rfl, answer_failed List.mem_cons_self hret (by decide)⟩⟩
    unfold iso_find_entry
    rw [bind_run (get_run s), if_neg hstart, bind_run hread, decide_eq_false hret]
    rfl

end

/-! ## the rest of the block -/

/-- wherever the record is examined, the bytes of `data_block` outside it stay as they are; one in its place
there has to have room for its name -/
def LeavesRest (E : Env) (s : State) (i : Slot) (name : List UInt8) (d : Mem) (r : Record) : Prop :=
  ∀ (u t : State) (b : Buf) (de fuel n : Nat) (o : Option Found), Reads s u →
    Agree (u.buf b) de d r.pos (de_length d r.pos) →
    NameSound E u.cd_device u.log.length u.free_mem_ptr d r →
    (b = .data → 33 + nameRoom d r.pos r.texts ≤ de_length d r.pos) → 256 + r.areas.length ≤ fuel →
    matchRecord E fuel i name b de n u = some (o, t) →
    ∀ x, b = .big ∨ x < de ∨ de + de_length d r.pos ≤ x → t.data_block x = u.data_block x

theorem leavesRest {r : Record} {d : Mem} (hm : Standard s.sb) (hlaid : RecordLaid d r.pos) :
    LeavesRest E s i name d r := by
  intro u t b de fuel n o hu hag hsound hroom hfuel hrun x hx
  have hum : Standard u.sb := by rw [hu.sb]; exact hm
  obtain ⟨m', dlen, heff, -, hframe⟩ := effectiveName_run hum.rock hum.mapping hag hlaid hsound hfuel name
  have ht : t = examined E r.areas m' b u := by
    unfold matchRecord at hrun
    rw [bind_run (get_run u), bind_run heff, bind_run (get_run _)] at hrun
    split at hrun
    · exact (Prod.mk.inj (Option.some.inj hrun)).2.symm
    · exact (Prod.mk.inj (Option.some.inj hrun)).2.symm
  have hlen := hlaid.room
  rw [ht, examined, followAll_eq]
  cases b with
  | big => rfl
  | data =>
    have hr := hroom rfl
    have hx := hx.resolve_left (by decide)
    exact hframe x (by unfold de_name; omega)

/-- every record of a directory leaves the rest of its block -/
theorem dir_leavesRest {d : Mem} {size : Nat} {rs : List Record} (hm : Standard s.sb)
    (h : Dir d size p rs) : ∀ r ∈ rs, LeavesRest E s i name d r := by
  induction h with
  | done => exact fun r hr => absurd hr List.not_mem_nil
  | pad _ _ _ ih => exact ih
  | record _ hlaid _ _ ih => exact List.forall_mem_cons.mpr ⟨leavesRest hm hlaid, ih⟩

end

/-- a disc with the directory `fields` at 40960 -/
def dirDisc (fields : List (Nat × Nat × Nat)) : Mem := fun k => Bytes.record fields (k - 40960)

/-- that disc in a machine with a cleared stack -/
def dirEnv (fields : List (Nat × Nat × Nat)) : Env :=
  { Machine.faultless (fun _ p => dirDisc fields p.toNat) (fun _ _ => 0) [] with stack := fun _ _ => 0 }

/-- the directory in the inode table -/
def dirEntry : Entry := ⟨40960, 0, 40960, false, 2048, 1, 0⟩

/-- a mounted volume with the directory open -/
def dirStart : State :=
  { tinyStart with
    inode_table := fun _ => dirEntry
    sb := ⟨40960, 11, 0, 'n'.toUInt8, true, 'n'.toUInt8, 1024, 10, 'n'.toUInt8⟩ }

theorem dirStart_standard : Standard dirStart.sb := ⟨rfl, rfl, rfl, rfl, rfl, rfl, .inr (.inr rfl)⟩

theorem dirEntry_extent : Extent dirEntry := ⟨by decide, by decide, by decide, by decide, by decide⟩

theorem dirMem_eq (fields : List (Nat × Nat × Nat)) :
    dirMem (dirEnv fields) dirStart.cd_device dirEntry = Bytes.record fields := by
  funext k
  have hpos : ((40960 : Nat) : Int) + (k : Int) = ((40960 + k : Nat) : Int) := (Nat.cast_add _ _).symm
  unfold dirMem disc dirEnv Machine.faultless dirDisc dirEntry
  dsimp only
  rw [hpos, Int.toNat_natCast, Nat.add_sub_cancel_left]

/-- a record whose system-use area has no entry -/
theorem no_area {E : Env} {dev : Int} {d : Mem} {k : Nat}
    (h : AreaEnd d (k + setupLen d k) ((de_length d k : Int) - setupLen d k)) : RecordTexts E dev d k [] [] [] :=
  .inl ⟨.last (.done h) rfl, rfl⟩

/-- a record whose system-use area has one entry, at `a`, with the name `t` -/
theorem one_name {E : Env} {dev : Int} {d : Mem} {k : Nat} {t : List UInt8} (a : Nat)
    (ha : k + setupLen d k = a) (h : NameFits d a ((de_length d k : Int) - setupLen d k))
    (hend : AreaEnd d (a + rr_len d a) ((de_length d k : Int) - setupLen d k - rr_len d a))
    (ht : namesOf d [a] = [t]) (hce : areaOf d [a] = none) : RecordTexts E dev d k [t] [t] [] := by
  refine .inl ⟨?_, rfl⟩
  rw [ha, ← ht]
  exact .last (.entry h (.done hend)) hce

/-- a record that is laid out in the directory -/
theorem dir_record {d : Mem} {size : Nat} {r : Record} {rs : List Record} (len : Nat)
    (hlen : de_length d r.pos = len) (hlt : r.pos < size) (hlaid : RecordLaid d r.pos)
    (hsector : r.pos % ISOFS_BLOCK_SIZE + len ≤ ISOFS_BLOCK_SIZE) (rest : Dir d size (r.pos + len) rs) :
    Dir d size r.pos (r :: rs) := by
  subst hlen
  exact .record hlt hlaid hsector rest

/-- on a cleared stack the texts of a record without areas are taken -/
theorem cleared_sound (fields : List (Nat × Nat × Nat)) (n q : Nat) {p : Nat} {ts : List (List UInt8)}
    (htexts : RecordTexts (dirEnv fields) 0 (Bytes.record fields) p ts ts []) (h : nameOf ts ≠ [1]) :
    NameSound (dirEnv fields) 0 n q (Bytes.record fields) ⟨p, ts, ts, []⟩ :=
  ⟨htexts, trivial, fun pre t post _ _ _ => rfl, h⟩

/-- the directory itself, its parent, and files with the Rock Ridge names `one`, `two`, `three`, `four` and
`xyz`, of which the fourth one crosses a block -/
def fiveFields : List (Nat × Nat × Nat) :=
  [(0, 34, 1), (32, 1, 1), (34, 34, 1), (66, 1, 1), (67, 1, 1),
   (68, 240, 1), (100, 1, 1), (101, 0x50, 1), (102, 0x4d4e, 2), (104, 8, 1), (105, 1, 1), (107, 0x656e6f, 3),
   (308, 240, 1), (340, 1, 1), (341, 0x51, 1), (342, 0x4d4e, 2), (344, 8, 1), (345, 1, 1), (347, 0x6f7774, 3),
   (548, 240, 1), (580, 1, 1), (581, 0x52, 1), (582, 0x4d4e, 2), (584, 10, 1), (585, 1, 1),
   (587, 0x6565726874, 5),
   (788, 240, 1), (820, 1, 1), (821, 0x53, 1), (822, 0x4d4e, 2), (824, 9, 1), (825, 1, 1),
   (827, 0x72756f66, 4),
   (1028, 42, 1), (1060, 1, 1), (1061, 0x42, 1), (1062, 0x4d4e, 2), (1064, 8, 1), (1065, 1, 1),
   (1067, 0x7a7978, 3)]

/-- a record of that directory -/
def named (p : Nat) (t : List UInt8) : Record := ⟨p, [t], [t], []⟩

def fiveRecords : List Record :=
  [⟨0, [], [], []⟩, ⟨34, [], [], []⟩, named 68 [0x6f, 0x6e, 0x65], named 308 [0x74, 0x77, 0x6f],
   named 548 [0x74, 0x68, 0x72, 0x65, 0x65], named 788 [0x66, 0x6f, 0x75, 0x72], named 1028 [0x78, 0x79, 0x7a]]

theorem five_dir : Dir (Bytes.record fiveFields) 2048 0 fiveRecords := by
  refine dir_record (r := ⟨0, [], [], []⟩) 34 (by decide +kernel) (by decide)
    ⟨by decide +kernel, by decide +kernel⟩ (by decide) ?_
  refine dir_record (r := ⟨34, [], [], []⟩) 34 (by decide +kernel) (by decide)
    ⟨by decide +kernel, by decide +kernel⟩ (by decide) ?_
  refine dir_record (r := named 68 _) 240 (by decide +kernel) (by decide)
    ⟨by decide +kernel, by decide +kernel⟩ (by decide) ?_
  refine dir_record (r := named 308 _) 240 (by decide +kernel) (by decide)
    ⟨by decide +kernel, by decide +kernel⟩ (by decide) ?_
  refine dir_record (r := named 548 _) 240 (by decide +kernel) (by decide)
    ⟨by decide +kernel, by decide +kernel⟩ (by decide) ?_
  refine dir_record (r := named 788 _) 240 (by decide +kernel) (by decide)
    ⟨by decide +kernel, by decide +kernel⟩ (by decide) ?_
  refine dir_record (r := named 1028 _) 42 (by decide +kernel) (by decide)
    ⟨by decide +kernel, by decide +kernel⟩ (by decide) ?_
  exact .pad (by decide) (by decide +kernel) (.done (by decide))

/-- a record of that directory without a Rock Ridge name -/
theorem five_plain (n q : Nat) {p : Nat}
    (h : AreaEnd (Bytes.record fiveFields) (p + setupLen (Bytes.record fiveFields) p)
      ((de_length (Bytes.record fiveFields) p : Int) - setupLen (Bytes.record fiveFields) p)) :
    NameSound (dirEnv fiveFields) 0 n q (Bytes.record fiveFields) ⟨p, [], [], []⟩ :=
  cleared_sound _ _ _ (no_area h) (by decide)

/-- one with a Rock Ridge name -/
theorem five_named (n q : Nat) {p : Nat} {t : List UInt8} (a : Nat)
    (ha : p + setupLen (Bytes.record fiveFields) p = a)
    (h : NameFits (Bytes.record fiveFields) a
      ((de_length (Bytes.record fiveFields) p : Int) - setupLen (Bytes.record fiveFields) p))
    (hend : AreaEnd (Bytes.record fiveFields) (a + rr_len (Bytes.record fiveFields) a)
      ((de_length (Bytes.record fiveFields) p : Int) - setupLen (Bytes.record fiveFields) p
        - rr_len (Bytes.record fiveFields) a))
    (ht : namesOf (Bytes.record fiveFields) [a] = [t]) (hce : areaOf (Bytes.record fiveFields) [a] = none)
    (hone : nameOf [t] ≠ [1]) :
    NameSound (dirEnv fiveFields) 0 n q (Bytes.record fiveFields) (named p t) :=
  cleared_sound _ _ _ (one_name a ha h hend ht hce) hone

/-- a record inside its block in the search on a cleared stack -/
theorem search_inside {E : Env} {dev : Int} {e : Entry} {d : Mem} {name : List UInt8} {n q : Nat} {r : Record}
    {rs : List Record} (len : Nat) (hlen : de_length d r.pos = len) (hareas : r.areas = []) (hlt : r.pos < e.size)
    (hin : r.pos % 1024 + len < 1024) (hroom : 33 + nameRoom d r.pos r.texts ≤ len)
    (hsound : NameSound E dev n q d r)
    (rest : ¬ Wanted d name r → Search E dev e d name n q (r.pos + len) rs) :
    Search E dev e d name n q r.pos (r :: rs) := by
  subst hlen
  refine .inside hlt hin hroom hsound fun hw => ?_
  rw [hareas]
  exact rest hw

/-- a search in that directory can be carried out from any state on -/
theorem five_search {e : Entry} (he : e.size = 2048) (name : List UInt8) (n q : Nat) :
    Search (dirEnv fiveFields) 0 e (Bytes.record fiveFields) name n q 0 fiveRecords := by
  have hlt : ∀ {p : Nat}, p < 2048 → p < e.size := fun h => he ▸ h
  refine search_inside (r := ⟨0, [], [], []⟩) 34 (by decide +kernel) rfl (hlt (by decide)) (by decide)
    (by decide +kernel) (five_plain _ _ (by decide +kernel)) fun _ => ?_
  refine search_inside (r := ⟨34, [], [], []⟩) 34 (by decide +kernel) rfl (hlt (by decide)) (by decide)
    (by decide +kernel) (five_plain _ _ (by decide +kernel)) fun _ => ?_
  refine search_inside (r := named 68 _) 240 (by decide +kernel) rfl (hlt (by decide)) (by decide) (by decide +kernel)
    (five_named _ _ 102 (by decide +kernel) (by decide +kernel) (by decide +kernel) (by decide +kernel)
      (by decide +kernel) (by decide)) fun _ => ?_
  refine search_inside (r := named 308 _) 240 (by decide +kernel) rfl (hlt (by decide)) (by decide) (by decide +kernel)
    (five_named _ _ 342 (by decide +kernel) (by decide +kernel) (by decide +kernel) (by decide +kernel)
      (by decide +kernel) (by decide)) fun _ => ?_
  refine search_inside (r := named 548 _) 240 (by decide +kernel) rfl (hlt (by decide)) (by decide) (by decide +kernel)
    (five_named _ _ 582 (by decide +kernel) (by decide +kernel) (by decide +kernel) (by decide +kernel)
      (by decide +kernel) (by decide)) fun _ => ?_
  refine .across (r := named 788 _) (hlt (by decide)) (by decide +kernel) rfl
    (five_named _ _ 822 (by decide +kernel) (by decide +kernel) (by decide +kernel) (by decide +kernel)
      (by decide +kernel) (by decide)) fun _ => ?_
  rw [show (named 788 [0x66, 0x6f, 0x75, 0x72]).pos
    + de_length (Bytes.record fiveFields) (named 788 [0x66, 0x6f, 0x75, 0x72]).pos = 1028 by decide +kernel]
  refine search_inside (r := named 1028 _) 42 (by decide +kernel) rfl (hlt (by decide)) (by decide) (by decide +kernel)
    (five_named _ _ 1062 (by decide +kernel) (by decide +kernel) (by decide +kernel) (by decide +kernel)
      (by decide +kernel) (by decide)) fun _ => ?_
  exact .pad (hlt (by decide)) (by decide +kernel) fun _ => .done (by rw [he]; decide)

/-- the file `A;2` -/
def versionFields : List (Nat × Nat × Nat) := [(0, 36, 1), (32, 3, 1), (33, 0x323b41, 3)]

end Iso
