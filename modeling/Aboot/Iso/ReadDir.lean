import Aboot.Iso.FindEntry

/-!
# The listing of a directory

`iso_readdir_i` gives one name of a directory at each call.  Between calls it keeps its position in static
variables; behind a record that reaches the end of its block it copies what follows the record to the start
of `data_block`, and the last bytes there stay the old ones.

* `iso_readdir_i`, `readdirAll`   a call, and calls until there is no further name;
* `Listing`        what the calls ask of the directory and of the machine;
* `readdirAll_run` the names that they give;
* `listing_iff`    when these are the names of all records.
-/

set_option linter.unusedVariables false

namespace Iso
open Word Prog Append

/-! ## the function -/

/-- a block of the directory is read into `big_data_block`, behind `fraglen` bytes -/
def readBehind (E : Env) (fd : Slot) (diroffset fraglen : Nat) : Prog State Bool := do
  let s ← get
  let block := iso_bmap s fd (sgn 32 (diroffset / 2 ^ s.sb.s_blocksize_bits : Nat))
  if block = 0 then pure false
  else do
    let r ← iso_dev_read E (uns 32 (block * s.sb.s_blocksize)) s.sb.s_blocksize
    modify fun s => { s with big_data_block := s.big_data_block.put fraglen r.data }
    pure (decide (r.ret = s.sb.s_blocksize))

/-- the end of a sector: the next one is read, unless the directory ends -/
def nextBlock (E : Env) (fd : Slot) : Prog State Bool := do
  let s ← get
  if de_length s.data_block s.blockoffset = 0 then do
    let diroffset := uns 32 (s.diroffset / ISOFS_BLOCK_SIZE * ISOFS_BLOCK_SIZE + ISOFS_BLOCK_SIZE : Nat)
    modify fun s => { s with diroffset := diroffset }
    if (s.inode_table fd).size ≤ diroffset then pure false
    else
      match ← readDirBlock E fd diroffset with
      | (some _, true) => do
        modify fun s => { s with blockoffset := 0 }
        pure true
      | _ => pure false
  else pure true

/-- `name_len` before the Rock Ridge name is taken is not 0 -/
def hasName (sb : SuperBlock) (m : Mem) (de : Nat) : Bool :=
  de_name_len m de ≠ 0 ∧ ¬ (de_name_len m de = 1 ∧ (m (de_name de) = 0 ∨ m (de_name de) = 1)) ∧
    ¬ (sb.s_unhide = 'n'.toUInt8 ∧ de_flags m de sb.s_high_sierra &&& 5 ≠ 0)

/-- the name of the record `de` in `b` is put in its place; none if `name_len` is 0 in the end.  The length
of a name that is not a Rock Ridge name is 0, so that the loop over its characters does nothing. -/
def entryName (E : Env) (fuel : Nat) (b : Buf) (de : Nat) : Prog State (Option (List UInt8)) := do
  let s ← get
  if hasName s.sb (s.buf b) de then do
    let (name_len, rrname) ← get_rock_ridge_filename E fuel (s.buf b) de
    if name_len ≠ 0 then do
      let name ← cstr (rrname.put (uns 32 name_len) [0]) fuel 0
      modify fun s => s.setBuf ((s.buf b).put (de_name de) (name ++ [0])) b
      pure (some name)
    else do
      when (s.sb.s_mapping = 'n'.toUInt8) (modify fun s => s.setBuf ((s.buf b).put (de_name de) [0]) b)
      pure none
  else pure none

/-- one record: the position is moved behind it, and a record that reaches the end of its block is put
together in `big_data_block`; none if the next block cannot be read -/
def entry (E : Env) (fuel : Nat) (fd : Slot) : Prog State (Option (Option (List UInt8))) := do
  let s ← get
  let dirent_len := de_length s.data_block s.blockoffset
  let diroffset := uns 32 (s.diroffset + dirent_len : Nat)
  let blockoffset := uns 32 (s.blockoffset + dirent_len : Nat)
  modify fun s => { s with diroffset := diroffset, blockoffset := blockoffset }
  if blockoffset < s.sb.s_blocksize then do
    let name ← entryName E fuel .data s.blockoffset
    pure (some name)
  else do
    let fraglen := s.sb.s_blocksize - s.blockoffset
    modify fun t => { t with big_data_block := t.big_data_block.put 0 (s.data_block.get s.blockoffset fraglen) }
    if ← readBehind E fd diroffset fraglen then do
      let name ← entryName E fuel .big 0
      modify fun t => { t with
        data_block := t.data_block.put 0 (t.big_data_block.get dirent_len (s.sb.s_blocksize - dirent_len))
        blockoffset := 0 }
      pure (some name)
    else pure none

/-- the loop until there is a name; none for a null pointer -/
def entryLoop (E : Env) (depth : Nat) (fd : Slot) : (fuel : Nat) → Prog State (Option (List UInt8))
  | 0 => failure
  | fuel + 1 => do
    if ← nextBlock E fd then do
      match ← entry E depth fd with
      | none => pure none
      | some none => entryLoop E depth fd fuel
      | some (some name) => pure (some name)
    else pure none

/-- the position and the first block of a new listing -/
def rewindDir (E : Env) (fd : Slot) : Prog State Bool := do
  modify fun s => { s with blockoffset := 0, diroffset := 0 }
  match ← readDirBlock E fd 0 with
  | (some _, true) => pure true
  | _ => pure false

/-- `iso_readdir_i`: a name, or none for a null pointer -/
def iso_readdir_i (E : Env) (fuel : Nat) (fd : Slot) (rewind : Bool) : Prog State (Option (List UInt8)) := do
  let s ← get
  if S_ISDIR (s.inode_table fd).mode then do
    if rewind then do
      if ← rewindDir E fd then entryLoop E fuel fd fuel else pure none
    else entryLoop E fuel fd fuel
  else pure none

/-- at most `k` calls, up to the first null pointer -/
def readdirAll (E : Env) (fuel : Nat) (fd : Slot) : (k : Nat) → (rewind : Bool) → Prog State (List (List UInt8))
  | 0, _ => failure
  | k + 1, rewind => do
    match ← iso_readdir_i E fuel fd rewind with
    | none => pure []
    | some name => do
      let names ← readdirAll E fuel fd k false
      pure (name :: names)

/-! ## the names -/

/-- a record that a listing shows: it is visible, and neither the directory itself nor its parent -/
def Listed (d : Mem) (k : Nat) : Prop := Visible d k ∧ isoId d k ≠ [0] ∧ isoId d k ≠ [1]

instance (d : Mem) (k : Nat) : Decidable (Listed d k) := inferInstanceAs (Decidable (_ ∧ _))

/-- the effective name of a record -/
def effective (d : Mem) (r : Record) : List UInt8 :=
  if nameOf r.texts = [] then mapped (isoId d r.pos) else nameOf r.texts

/-- the name that a call gives for a record: none without a Rock Ridge name -/
def shown (d : Mem) (r : Record) : Option (List UInt8) :=
  if Listed d r.pos ∧ nameOf r.texts ≠ [] then some (nameOf r.texts) else none

/-- the continuation areas that a call follows for a record -/
def visited (d : Mem) (r : Record) : List Area := if Listed d r.pos then r.areas else []

/-- the name of a record was taken in the buffer `b`: the bytes outside the record stay as they are -/
structure Taken (E : Env) (cs : List Area) (s t : State) (b : Buf) (de len : Nat) : Prop where
  reads : Reads s t
  log : t.log = s.log ++ cs.map Area.read
  heap : t.free_mem_ptr = heapBehind E s.free_mem_ptr cs
  block : t.blockoffset = s.blockoffset
  pos : t.diroffset = s.diroffset
  rest : ∀ x, x < de ∨ de + len ≤ x → t.buf b x = s.buf b x
  other : ∀ b', b' ≠ b → t.buf b' = s.buf b'

section
variable {E : Env} {d : Mem} {de k fuel : Nat} {s : State} {b : Buf} {r : Record}

theorem taken_none (E : Env) (s : State) (b : Buf) (de len : Nat) : Taken E [] s s b de len :=
  ⟨Reads.refl s, (List.append_nil _).symm, rfl, rfl, rfl, fun _ _ => rfl, fun _ _ => rfl⟩

theorem taken_examined {cs : List Area} {l : List UInt8} {len : Nat}
    (h : 33 + l.length ≤ len) :
    Taken E cs s (examined E cs ((s.buf b).put (de_name de) l) b s) b de len := by
  refine ⟨examined_reads _ _ _ _ _, examined_log _ _ _ _ _, examined_heap _ _ _ _ _, ?_, ?_, fun x hx => ?_,
    fun b' hb => ?_⟩
  · rw [examined, followAll_eq]
    cases b <;> rfl
  · rw [examined, followAll_eq]
    cases b <;> rfl
  · rw [examined_buf]
    exact Mem.put_out _ _ _ _ (by unfold de_name; omega)
  · rw [examined, followAll_eq]
    cases b <;> cases b'
    · exact absurd rfl hb
    · rfl
    · rfl
    · exact absurd rfl hb

/-- whether a name is taken is read from the bytes on the disc -/
theorem hasName_iff (hm : Standard s.sb) (hag : Agree (s.buf b) de d k (de_length d k))
    (hlaid : RecordLaid d k) (hid : isoId d k ≠ []) : hasName s.sb (s.buf b) de = true ↔ Listed d k := by
  have hroom := hlaid.room
  have hlen : de_name_len (s.buf b) de = de_name_len d k := congrArg UInt8.toNat (hag 32 (by omega))
  have hflags : de_flags (s.buf b) de 0 = de_flags d k 0 := congrArg UInt8.toNat (hag 25 (by omega))
  have hpos : de_name_len d k ≠ 0 := by
    intro h0
    unfold isoId at hid
    rw [h0] at hid
    exact hid rfl
  have hone : ∀ c : UInt8, (de_name_len d k = 1 ∧ s.buf b (de_name de) = c) ↔ isoId d k = [c] := by
    intro c
    constructor
    · rintro ⟨h1, rfl⟩
      have hbyte : s.buf b (de_name de) = d (de_name k) := hag 33 (by omega)
      rw [hbyte, isoId, h1]
      rfl
    · intro h
      have h1 := congrArg List.length h
      rw [isoId, Mem.length_get] at h1
      have h1 : de_name_len d k = 1 := h1
      have hbyte : s.buf b (de_name de) = d (de_name k) := hag 33 (by omega)
      rw [isoId, h1] at h
      exact ⟨h1, hbyte.trans (List.cons.inj h).1⟩
  unfold hasName Listed Visible
  rw [hm.unhide, hm.sierra, hlen, hflags, decide_eq_true_eq, and_or_left, hone, hone, not_or]
  constructor
  · rintro ⟨-, h2, h3⟩
    exact ⟨not_not.mp fun h => h3 ⟨rfl, h⟩, h2⟩
  · rintro ⟨h1, h2⟩
    exact ⟨hpos, h2, fun h => h.2 h1⟩

/-- a text that is ended behind its last character -/
theorem cstr_cut {m : Mem} {l : List UInt8} (h : m.get 0 l.length = l) (h0 : 0 ∉ l) (hf : l.length < fuel) :
    cstr (m.put l.length [0]) fuel 0 s = some (l, s) := by
  have hbyte : ∀ q, q < l.length → (m.put l.length [0]) q = m q := fun q hq => Mem.put_out _ _ _ _ (.inl hq)
  have hend : IsEnd (m.put l.length [0]) l.length := by
    refine ⟨Mem.put_in m l.length 0 [0] Nat.zero_lt_one, fun q hq hz => h0 ?_⟩
    rw [← h]
    exact Mem.mem_get.mpr ⟨q, hq, by rw [Nat.zero_add, ← hbyte q hq]; exact hz⟩
  have hget : (m.put l.length [0]).get 0 l.length = l := by
    rw [Mem.get_put_out _ _ _ _ _ (by omega)]
    exact h
  unfold cstr
  rw [bind_run (strEnd_run hend (Nat.zero_le _) (by omega)), pure_run, Nat.sub_zero, hget]

/-- **The name of a record.**  It is its Rock Ridge name, and only bytes of the record are written. -/
theorem entryName_run (hm : Standard s.sb) (hag : Agree (s.buf b) de d r.pos (de_length d r.pos))
    (hlaid : RecordLaid d r.pos) (hid : isoId d r.pos ≠ [])
    (hsound : Listed d r.pos → NameSound E s.cd_device s.log.length s.free_mem_ptr d r ∧
      34 + (nameOf r.texts).length ≤ de_length d r.pos)
    (hfuel : 256 + r.areas.length ≤ fuel) :
    ∃ t, entryName E fuel b de s = some (shown d r, t) ∧
      Taken E (visited d r) s t b de (de_length d r.pos) := by
  have hhas := hasName_iff hm hag hlaid hid
  have hroom := hlaid.room
  unfold entryName shown visited
  by_cases hl : Listed d r.pos
  · obtain ⟨hsound, hfit⟩ := hsound hl
    obtain ⟨rrname, hget, htext⟩ := filename_named hm.rock hag (by omega) hsound.texts
      hsound.followed hsound.stack hfuel
    rw [bind_run (get_run s), if_pos (hhas.mpr hl), bind_run hget, if_pos hl]
    dsimp only
    by_cases hne : nameOf r.texts = []
    · rw [hne, List.length_nil] at hfit
      rw [hne, if_neg (by decide), if_neg fun h => h.2 rfl, when, if_pos hm.mapping,
        bind_run (modify_run _ _), pure_run, followAll_buf]
      exact ⟨_, rfl, taken_examined (l := [0]) hfit⟩
    · obtain ⟨htext, hstop⟩ := htext hne
      have hle := nameOf_length r.texts
      have hpos : 0 < (nameOf r.texts).length := List.length_pos_iff.mpr hne
      have hcstr : cstr (rrname.put (nameOf r.texts).length [0]) fuel 0 (followAll E r.areas s) = _ :=
        cstr_cut htext (texts_noNul hsound.texts) (by omega)
      rw [if_pos (by omega), uns32_natCast (by omega), bind_run hcstr, bind_run (modify_run _ _), pure_run,
        followAll_buf, if_pos ⟨hl, hne⟩]
      refine ⟨_, rfl, taken_examined ?_⟩
      rw [List.length_append, List.length_singleton]
      omega
  · rw [bind_run (get_run s), if_neg fun h => hl (hhas.mp h), if_neg fun h => hl h.1, if_neg hl]
    exact ⟨s, rfl, taken_none E s b de _⟩

end

/-! ## what a listing asks for -/

/-- the listing from the directory position `p` on, before the `n`-th read and with the heap pointer `q`:
the directory is in `data_block` from `b` on for `v` bytes.  A record inside a block has to be among these
bytes; a record that reaches the end of its block has to be the first one of its sector, and the bytes in
front of the next block are lost at the end of `data_block`. -/
inductive Listing (E : Env) (dev : Int) (e : Entry) (d : Mem) :
    (n q p b v : Nat) → List Record → Prop where
  | stop {n q p b v : Nat} (hv : 1 ≤ v) (h0 : de_length d p = 0) (hend : e.size ≤ nextSector p) :
      Listing E dev e d n q p b v []
  | pad {n q p b v : Nat} {rs : List Record} (hv : 1 ≤ v) (h0 : de_length d p = 0)
      (hlt : nextSector p < e.size) (hread : blockRet E dev e n (nextSector p) = 1024)
      (hfirst : de_length d (nextSector p) ≠ 0 ∨ de_name_len d (nextSector p) = 0)
      (rest : Listing E dev e d (n + 1) q (nextSector p) 0 1024 rs) : Listing E dev e d n q p b v rs
  | inside {n q b v : Nat} {r : Record} {rs : List Record} (hne : de_length d r.pos ≠ 0) (hv : de_length d r.pos ≤ v)
      (hin : b + de_length d r.pos < 1024) (hid : isoId d r.pos ≠ [])
      (hsound : Listed d r.pos → NameSound E dev n q d r ∧
        34 + (nameOf r.texts).length ≤ de_length d r.pos)
      (rest : Listing E dev e d (n + (visited d r).length) (heapBehind E q (visited d r))
        (r.pos + de_length d r.pos) (b + de_length d r.pos) (v - de_length d r.pos) rs) :
      Listing E dev e d n q r.pos b v (r :: rs)
  | across {n q b v : Nat} {r : Record} {rs : List Record} (hne : de_length d r.pos ≠ 0)
      (hpos : 1 ≤ v) (hv : 1024 ≤ b + v) (hout : 1024 ≤ b + de_length d r.pos) (hid : isoId d r.pos ≠ [])
      (hread : blockRet E dev e n (r.pos + de_length d r.pos) = 1024)
      (hsound : Listed d r.pos → NameSound E dev (n + 1) q d r ∧
        34 + (nameOf r.texts).length ≤ de_length d r.pos)
      (rest : Listing E dev e d (n + 1 + (visited d r).length) (heapBehind E q (visited d r))
        (r.pos + de_length d r.pos) 0 (1024 - de_length d r.pos) rs) :
      Listing E dev e d n q r.pos b v (r :: rs)

/-- the listing is at the directory position `p`; the bytes of a whole block are those of a block of the
directory -/
structure ListAt (E : Env) (s0 : State) (e : Entry) (n q p b v : Nat) (s : State) : Prop where
  reads : Reads s0 s
  count : s.log.length = n
  heap : s.free_mem_ptr = q
  pos : s.diroffset = p
  block : s.blockoffset = b
  inside : b + v ≤ 1024
  valid : Agree s.data_block b (dirMem E s0.cd_device e) p v
  whole : b + v = 1024 → b = p % 1024

section
variable {E : Env} {s0 s t : State} {i : Slot} {e : Entry} {d : Mem} {n q p b v : Nat} {r : Record}
  {rs : List Record} {depth fuel : Nat}

theorem ListAt.length (h : ListAt E s0 e n q p b v s) (hv : 1 ≤ v) :
    de_length s.data_block s.blockoffset = de_length (dirMem E s0.cd_device e) p := by
  rw [h.block]
  exact congrArg UInt8.toNat (h.valid 0 (by omega))

theorem ListAt.ret (h : ListAt E s0 e n q p b v s) (p' : Nat) :
    (blockRes E s e p').ret = blockRet E s0.cd_device e n p' := by
  unfold blockRes blockRet
  rw [h.count, h.reads.cd_device]

/-! ## the end of a sector -/

/-- at a record no block is read -/
theorem nextBlock_record (h : ListAt E s0 e n q p b v s) (hv : 1 ≤ v)
    (hne : de_length (dirMem E s0.cd_device e) p ≠ 0) : nextBlock E i s = some (true, s) := by
  unfold nextBlock
  rw [bind_run (get_run s), h.length hv, if_neg hne, pure_run]

theorem nextSector_uns (hx : Extent e) (hp : p ≤ e.size + 256) :
    uns 32 (p / ISOFS_BLOCK_SIZE * ISOFS_BLOCK_SIZE + ISOFS_BLOCK_SIZE : Nat) = nextSector p := by
  have hlow := hx.low
  refine uns32_natCast ?_
  unfold ISOFS_BLOCK_SIZE
  omega

/-- at the end of the last sector the listing ends -/
theorem nextBlock_stop (he : s0.inode_table i = e) (hx : Extent e) (h : ListAt E s0 e n q p b v s)
    (hv : 1 ≤ v) (hp : p ≤ e.size + 256) (h0 : de_length (dirMem E s0.cd_device e) p = 0)
    (hend : e.size ≤ nextSector p) :
    nextBlock E i s = some (false, { s with diroffset := nextSector p }) := by
  have hes : s.inode_table i = e := by rw [h.reads.inode_table, he]
  unfold nextBlock
  rw [bind_run (get_run s), h.length hv, if_pos h0, h.pos, nextSector_uns hx hp, bind_run (modify_run _ s),
    hes, if_pos hend, pure_run]

/-- at the end of another sector the next one is read -/
theorem nextBlock_pad (hm : Standard s0.sb) (he : s0.inode_table i = e) (hx : Extent e)
    (h : ListAt E s0 e n q p b v s) (hv : 1 ≤ v) (hp : p ≤ e.size + 256)
    (h0 : de_length (dirMem E s0.cd_device e) p = 0) (hlt : nextSector p < e.size)
    (hread : blockRet E s0.cd_device e n (nextSector p) = 1024) :
    ∃ t, nextBlock E i s = some (true, t) ∧ ListAt E s0 e (n + 1) q (nextSector p) 0 1024 t := by
  have hes : s.inode_table i = e := by rw [h.reads.inode_table, he]
  have hret := (h.ret (nextSector p)).trans hread
  generalize hu : { s with diroffset := nextSector p } = u
  have hus : Reads s u := by rw [← hu]; exact ⟨rfl, rfl, rfl, rfl⟩
  have hu0 := h.reads.trans _ _ _ hus
  have huret : (blockRes E u e (nextSector p)).ret = 1024 := by rw [← hu]; exact hret
  have hdir := readDirBlock_run (E := E) (p := nextSector p) (s := u) (by rw [hu0.sb]; exact hm)
    (by rw [hu0.inode_table, he]) hx (by omega)
  rw [decide_eq_true huret] at hdir
  have hloaded := afterBlock_loaded huret
  refine ⟨{ afterBlock E u e (nextSector p) with blockoffset := 0 }, ?_, ?_⟩
  · unfold nextBlock
    rw [bind_run (get_run s), h.length hv, if_pos h0, h.pos, nextSector_uns hx hp, bind_run (modify_run _ s),
      hes, if_neg (by omega), hu, bind_run hdir]
    rfl
  · have hmod : nextSector p % 1024 = 0 := by
      unfold nextSector ISOFS_BLOCK_SIZE
      omega
    refine ⟨hu0.trans _ _ _ ⟨rfl, rfl, rfl, rfl⟩, ?_, ?_, ?_, rfl, (by omega), ?_, fun _ => hmod.symm⟩
    · show (u.log ++ [_]).length = n + 1
      rw [List.length_append, ← hu, h.count, List.length_singleton]
    · show u.free_mem_ptr = q
      rw [← hu]
      exact h.heap
    · show u.diroffset = nextSector p
      rw [← hu]
    · unfold Loaded at hloaded
      rw [hmod, (afterBlock_reads E u e _).cd_device, hu0.cd_device] at hloaded
      exact hloaded.mono (by omega)

/-! ## one record -/

/-- a sector of padding only is passed like a record of no bytes -/
theorem entry_empty (hm : Standard s0.sb) (h : ListAt E s0 e n q p 0 1024 s) (hp : p < 4294967296)
    (h0 : de_length (dirMem E s0.cd_device e) p = 0) (hname : de_name_len (dirMem E s0.cd_device e) p = 0) :
    entry E depth i s = some (some none, s) := by
  have hslen := (h.length (by omega)).trans h0
  have hsname : de_name_len s.data_block 0 = 0 :=
    (congrArg UInt8.toNat (h.valid 32 (by omega))).trans hname
  obtain ⟨hr, -, -, rfl, hb, -⟩ := h
  have hhas : ¬ hasName s.sb (s.buf .data) 0 = true := by
    unfold hasName
    rw [decide_eq_true_eq]
    exact fun hc => hc.1 hsname
  have hentry : entryName E depth .data s.blockoffset s = some (none, s) := by
    unfold entryName
    rw [bind_run (get_run s), hb, if_neg hhas, pure_run]
  unfold entry
  rw [bind_run (get_run s), hslen, Nat.add_zero, Nat.add_zero, uns32_natCast hp, uns32_natCast (by omega),
    bind_run (modify_run _ s), if_pos (by rw [hr.sb, hm.blocksize, hb]; omega)]
  exact bind_run hentry

/-- a record inside the block -/
theorem entry_inside (hm : Standard s0.sb) (hx : Extent e) (h : ListAt E s0 e n q r.pos b v s)
    (hlt : r.pos < e.size) {len : Nat} (hlen : de_length (dirMem E s0.cd_device e) r.pos = len)
    (hv : len ≤ v) (hin : b + len < 1024) (hid : isoId (dirMem E s0.cd_device e) r.pos ≠ [])
    (hsound : Listed (dirMem E s0.cd_device e) r.pos →
      NameSound E s0.cd_device n q (dirMem E s0.cd_device e) r ∧ 34 + (nameOf r.texts).length ≤ len)
    (hlaid : RecordLaid (dirMem E s0.cd_device e) r.pos)
    (hdepth : 256 + r.areas.length ≤ depth) :
    ∃ t, entry E depth i s = some (some (shown (dirMem E s0.cd_device e) r), t) ∧
      ListAt E s0 e (n + (visited (dirMem E s0.cd_device e) r).length)
        (heapBehind E q (visited (dirMem E s0.cd_device e) r)) (r.pos + len) (b + len) (v - len) t := by
  have hlow := hx.low
  have hroom := hlaid.room
  have hslen := h.length (by omega)
  generalize hd : dirMem E s0.cd_device e = d at *
  obtain ⟨hr, rfl, rfl, hpos, rfl, hbv, hvalid, hwhole⟩ := h
  rw [hd] at hvalid
  generalize hu : { s with diroffset := r.pos + len, blockoffset := s.blockoffset + len } = u
  have hus : Reads s u := by rw [← hu]; exact ⟨rfl, rfl, rfl, rfl⟩
  have hu0 := hr.trans _ _ _ hus
  have hum : Standard u.sb := by rw [hu0.sb]; exact hm
  have hulog : u.log = s.log := by rw [← hu]
  have huheap : u.free_mem_ptr = s.free_mem_ptr := by rw [← hu]
  have hudata : u.data_block = s.data_block := by rw [← hu]
  rw [← hu0.cd_device, ← hulog, ← huheap] at hsound
  obtain ⟨t, hname, htaken⟩ := entryName_run (b := .data) hum
    (show Agree u.data_block s.blockoffset d r.pos (de_length d r.pos) by
      rw [hudata]; exact hvalid.mono (by omega)) hlaid hid (by rw [hlen]; exact hsound) hdepth
  refine ⟨t, ?_, hu0.trans _ _ _ htaken.reads, ?_, ?_, ?_, ?_, by omega, ?_, ?_⟩
  · unfold entry
    rw [bind_run (get_run s), hslen, hlen, hpos, uns32_natCast (by omega), uns32_natCast (by omega),
      bind_run (modify_run _ s), hu, hr.sb, hm.blocksize, if_pos hin, bind_run hname, pure_run]
  · rw [htaken.log, List.length_append, List.length_map, hulog]
  · rw [htaken.heap, huheap]
  · rw [htaken.pos, ← hu]
  · rw [htaken.block, ← hu]
  · rw [hd]
    intro j hj
    have hrest := htaken.rest (s.blockoffset + len + j) (by rw [hlen]; omega)
    have hbytes : t.data_block (s.blockoffset + len + j) = s.data_block (s.blockoffset + len + j) := by
      rw [← hudata]
      exact hrest
    rw [hbytes, Nat.add_assoc, Nat.add_assoc]
    exact hvalid (len + j) (by omega)
  · intro hw
    have := hwhole (by omega)
    omega

/-- the state after the block with the directory position `p` was read behind `f` bytes -/
def afterBehind (E : Env) (s : State) (e : Entry) (p f : Nat) : State :=
  { s with
    big_data_block := s.big_data_block.put f (blockRes E s e p).data
    log := s.log ++ [blockRead E s e p] }

theorem readBehind_run (hm : Standard s.sb) (he : s.inode_table i = e) (hx : Extent e)
    (hp : p ≤ e.size + 2048) (f : Nat) : readBehind E i p f s =
      some (decide ((blockRes E s e p).ret = 1024), afterBehind E s e p f) := by
  obtain ⟨hbmap, hne, haddr⟩ := block_place hm he hx hp
  unfold readBehind
  rw [bind_run (get_run s), hbmap, if_neg hne, haddr, hm.blocksize]
  rfl

/-- the first part of a record that reaches the end of its block is copied, and the position moved to `q`
behind its `len` bytes -/
def firstPart (s : State) (q len : Nat) : State :=
  { s with
    diroffset := q
    blockoffset := s.blockoffset + len
    big_data_block := s.big_data_block.put 0 (s.data_block.get s.blockoffset (1024 - s.blockoffset)) }

/-- the state when such a record was put together -/
def joined (E : Env) (s : State) (e : Entry) (q len : Nat) : State :=
  afterBehind E (firstPart s q len) e q (1024 - s.blockoffset)

theorem joined_reads (E : Env) (s : State) (e : Entry) (q len : Nat) : Reads s (joined E s e q len) :=
  ⟨rfl, rfl, rfl, rfl⟩

/-- the two parts of a record and the bytes behind it, to the end of the next block -/
theorem joined_agree (hb : s.blockoffset = p % 1024)
    (hvalid : Agree s.data_block s.blockoffset (dirMem E s.cd_device e) p (1024 - s.blockoffset))
    (len : Nat) (hout : 1024 ≤ s.blockoffset + len) (h256 : len < 256)
    (hret : (blockRes E s e (p + len)).ret = 1024) :
    Agree (joined E s e (p + len) len).big_data_block 0 (dirMem E s.cd_device e) p 1024 := by
  intro j hj
  rw [Nat.zero_add]
  show ((s.big_data_block.put 0 (s.data_block.get s.blockoffset (1024 - s.blockoffset))).put
    (1024 - s.blockoffset) (blockRes E s e (p + len)).data) j = _
  by_cases hlt : j < 1024 - s.blockoffset
  · rw [Mem.put_out _ _ _ _ (.inl hlt)]
    have hin := Mem.put_in s.big_data_block 0 j (s.data_block.get s.blockoffset (1024 - s.blockoffset))
      (by rw [Mem.length_get]; exact hlt)
    rw [Nat.zero_add] at hin
    rw [hin]
    refine Eq.trans ?_ (hvalid j (by omega))
    simp [Mem.get]
  · obtain ⟨k, rfl⟩ := Nat.exists_eq_add_of_le (not_lt.mp hlt)
    refine (E.put_read_at hret _ _ (by omega)).trans ?_
    unfold dirMem disc
    congr 1
    push_cast
    omega

/-- the bytes behind a record that was put together are copied to the start of `data_block` -/
def copyBack (s : State) (len : Nat) : State :=
  { s with
    data_block := s.data_block.put 0 (s.big_data_block.get len (1024 - len))
    blockoffset := 0 }

/-- the call at a record that reaches the end of its block -/
theorem entry_joined (hm : Standard s.sb) (he : s.inode_table i = e) (hx : Extent e) {len : Nat}
    (hlen : de_length s.data_block s.blockoffset = len) (hp : s.diroffset = p) (hlt : p < e.size)
    (h256 : len < 256) (hb : s.blockoffset < 1024) (hout : 1024 ≤ s.blockoffset + len)
    (hret : (blockRes E s e (p + len)).ret = 1024) {o : Option (List UInt8)}
    (hname : entryName E depth .big 0 (joined E s e (p + len) len) = some (o, t)) :
    entry E depth i s = some (some o, copyBack t len) := by
  have hlow := hx.low
  have hbehind := readBehind_run (E := E) (i := i) (e := e) (p := p + len) (s := firstPart s (p + len) len)
    hm he hx (by omega) (1024 - s.blockoffset)
  rw [decide_eq_true (show (blockRes E (firstPart s (p + len) len) e (p + len)).ret = 1024 from hret)]
    at hbehind
  unfold entry
  rw [bind_run (get_run s), hlen, hp, uns32_natCast (by omega), uns32_natCast (by omega),
    bind_run (modify_run _ s), hm.blocksize, if_neg (by omega), bind_run (modify_run _ _)]
  refine (bind_run hbehind).trans ?_
  rw [if_pos rfl]
  refine (bind_run hname).trans ?_
  rw [bind_run (modify_run _ t), pure_run]
  rfl

/-- a record that reaches the end of its block -/
theorem entry_across (hm : Standard s0.sb) (he : s0.inode_table i = e) (hx : Extent e)
    (h : ListAt E s0 e n q r.pos b v s) (hlt : r.pos < e.size) {len : Nat}
    (hlen : de_length (dirMem E s0.cd_device e) r.pos = len) (hv : 1024 ≤ b + v) (hout : 1024 ≤ b + len)
    (hid : isoId (dirMem E s0.cd_device e) r.pos ≠ [])
    (hread : blockRet E s0.cd_device e n (r.pos + len) = 1024)
    (hsound : Listed (dirMem E s0.cd_device e) r.pos →
      NameSound E s0.cd_device (n + 1) q (dirMem E s0.cd_device e) r ∧ 34 + (nameOf r.texts).length ≤ len)
    (hlaid : RecordLaid (dirMem E s0.cd_device e) r.pos)
    (hdepth : 256 + r.areas.length ≤ depth) :
    ∃ t, entry E depth i s = some (some (shown (dirMem E s0.cd_device e) r), t) ∧
      ListAt E s0 e (n + 1 + (visited (dirMem E s0.cd_device e) r).length)
        (heapBehind E q (visited (dirMem E s0.cd_device e) r)) (r.pos + len) 0 (1024 - len) t := by
  have hroom := hlaid.room
  have h256 : len < 256 := hlen ▸ UInt8.toNat_lt _
  have hinside := h.inside
  have hb := h.whole (by omega)
  have hslen := h.length (by omega)
  have hret := (h.ret (r.pos + len)).trans hread
  obtain ⟨hr, rfl, rfl, hpos, rfl, -, hvalid, -⟩ := h
  generalize hd : dirMem E s0.cd_device e = d at *
  have hes : s.inode_table i = e := by rw [hr.inode_table, he]
  have hms : Standard s.sb := by rw [hr.sb]; exact hm
  have hagree := joined_agree (e := e) hb (by rw [hr.cd_device, hd]; exact hvalid.mono (by omega)) len hout
    h256 hret
  rw [hr.cd_device, hd] at hagree
  have hentry : ∀ o t, entryName E depth .big 0 (joined E s e (r.pos + len) len) = some (o, t) →
      entry E depth i s = some (some o, copyBack t len) := fun o t =>
    entry_joined hms hes hx (hslen.trans hlen) hpos hlt h256 (by omega) hout hret
  have hu0 := hr.trans _ _ _ (joined_reads E s e (r.pos + len) len)
  have hulog : (joined E s e (r.pos + len) len).log.length = s.log.length + 1 := List.length_append
  have huheap : (joined E s e (r.pos + len) len).free_mem_ptr = s.free_mem_ptr := rfl
  have hupos : (joined E s e (r.pos + len) len).diroffset = r.pos + len := rfl
  generalize joined E s e (r.pos + len) len = u at hagree hentry hu0 hulog huheap hupos
  have hum : Standard u.sb := by rw [hu0.sb]; exact hm
  rw [← hu0.cd_device, ← hulog, ← huheap] at hsound
  obtain ⟨t, hname, htaken⟩ := entryName_run (b := .big) hum (hagree.mono (by omega)) hlaid hid
    (by rw [hlen]; exact hsound) hdepth
  refine ⟨copyBack t len, hentry _ t hname, hu0.trans _ _ _ (htaken.reads.trans _ _ _ ⟨rfl, rfl, rfl, rfl⟩),
    ?_, ?_, ?_, rfl, by omega, ?_, fun hw => by omega⟩
  · show t.log.length = _
    rw [htaken.log, List.length_append, List.length_map, hulog]
  · show t.free_mem_ptr = _
    rw [htaken.heap, huheap]
  · exact htaken.pos.trans hupos
  · rw [hd]
    intro j hj
    have hrest := htaken.rest (len + j) (by rw [hlen]; omega)
    have hin := Mem.put_in t.data_block 0 j (t.big_data_block.get len (1024 - len))
      (by rw [Mem.length_get]; omega)
    have hsame : t.big_data_block (len + j) = d (r.pos + (len + j)) := by
      refine Eq.trans hrest ?_
      have := hagree (len + j) (by omega)
      rwa [Nat.zero_add] at this
    refine hin.trans ?_
    rw [Nat.add_assoc, ← hsame]
    simp [Mem.get]

/-! ## the calls -/

/-- a call whose loop is at its start, and the calls after it -/
def callsFrom (E : Env) (depth : Nat) (fd : Slot) (fuel k : Nat) : Prog State (List (List UInt8)) := do
  match ← entryLoop E depth fd fuel with
  | none => pure []
  | some name => do
    let names ← readdirAll E depth fd k false
    pure (name :: names)

theorem readdirAll_next (hdir : S_ISDIR (s.inode_table i).mode = true) (k : Nat) :
    readdirAll E depth i (k + 1) false s = callsFrom E depth i depth k s := by
  have hcall : iso_readdir_i E depth i false s = entryLoop E depth i depth s := by
    unfold iso_readdir_i
    rw [bind_run (get_run s), if_pos hdir, if_neg Bool.false_ne_true]
  unfold readdirAll callsFrom
  rw [bind_eq, bind_eq, hcall]

/-- one round of the loop: a record gives a name, or the loop goes on behind it -/
theorem entryLoop_record (hnext : nextBlock E i s = some (true, t)) {o : Option (List UInt8)} {u : State}
    (hentry : entry E depth i t = some (some o, u)) : entryLoop E depth i (fuel + 1) s =
      match o with
      | some name => some (some name, u)
      | none => entryLoop E depth i fuel u := by
  rw [entryLoop, bind_run hnext, if_pos rfl, bind_run hentry]
  cases o <;> rfl

/-- behind the end of a sector the loop is at the first record of the next one -/
theorem entryLoop_pad (hnext : nextBlock E i s = some (true, t)) (hrecord : nextBlock E i t = some (true, t)) :
    entryLoop E depth i (fuel + 1) s = entryLoop E depth i (fuel + 1) t := by
  rw [entryLoop, bind_run hnext, bind_run hrecord]

/-- at the end of the last sector there is no name -/
theorem entryLoop_stop (hnext : nextBlock E i s = some (false, t)) :
    entryLoop E depth i (fuel + 1) s = some (none, t) := by
  rw [entryLoop, bind_run hnext]
  rfl

theorem callsFrom_congr {fuel' : Nat} (h : entryLoop E depth i fuel s = entryLoop E depth i fuel' t) (k : Nat) :
    callsFrom E depth i fuel k s = callsFrom E depth i fuel' k t := by
  unfold callsFrom
  rw [bind_eq, bind_eq, h]

/-- a record that gives no name is passed -/
theorem callsFrom_none (hnext : nextBlock E i s = some (true, s)) (hentry : entry E depth i s = some (some none, t))
    (k : Nat) : callsFrom E depth i (fuel + 1) k s = callsFrom E depth i fuel k t :=
  callsFrom_congr (entryLoop_record hnext hentry) k

/-- a record that gives a name is the first one of the calls -/
theorem callsFrom_some (hnext : nextBlock E i s = some (true, s)) {name : List UInt8}
    (hentry : entry E depth i s = some (some (some name), t)) (hdir : S_ISDIR (t.inode_table i).mode = true)
    {k : Nat} {names : List (List UInt8)} {u : State}
    (hrest : callsFrom E depth i depth k t = some (names, u)) :
    callsFrom E depth i (fuel + 1) (k + 1) s = some (name :: names, u) := by
  rw [← readdirAll_next hdir] at hrest
  unfold callsFrom
  rw [bind_run (entryLoop_record hnext hentry)]
  dsimp only
  rw [bind_run hrest, pure_run]

/-- the calls give the names of the records `rs` from any state at the directory position `p` on -/
def Gives (E : Env) (s0 : State) (i : Slot) (rs : List Record) (N n q p b v : Nat) : Prop :=
  ∀ s, ListAt E s0 (s0.inode_table i) n q p b v s → ∀ depth fuel k, N ≤ depth → N ≤ fuel → N ≤ k →
    ∃ t, callsFrom E depth i fuel k s =
      some (rs.filterMap (shown (dirMem E s0.cd_device (s0.inode_table i))), t) ∧ Reads s0 t

/-- the calls from a record on, when they give the names of the records behind it -/
theorem gives_record {N : Nat} {n' q' p' b' v' : Nat}
    (hdir : S_ISDIR (s0.inode_table i).mode = true) (hv : 1 ≤ v)
    (hne : de_length (dirMem E s0.cd_device (s0.inode_table i)) r.pos ≠ 0)
    (hstep : ∀ s, ListAt E s0 (s0.inode_table i) n q r.pos b v s → ∀ depth, 256 + r.areas.length ≤ depth →
      ∃ t, entry E depth i s = some (some (shown (dirMem E s0.cd_device (s0.inode_table i)) r), t) ∧
        ListAt E s0 (s0.inode_table i) n' q' p' b' v' t)
    (hrest : Gives E s0 i rs N n' q' p' b' v') :
    Gives E s0 i (r :: rs) (256 + r.areas.length + N + 1) n q r.pos b v := by
  intro s hat depth fuel k hd hf hk
  obtain ⟨fuel, rfl⟩ : ∃ m, fuel = m + 1 := ⟨fuel - 1, by omega⟩
  obtain ⟨k, rfl⟩ : ∃ m, k = m + 1 := ⟨k - 1, by omega⟩
  obtain ⟨t, hentry, hnext⟩ := hstep s hat depth (by omega)
  have hrecord := nextBlock_record (i := i) hat hv hne
  cases hshown : shown (dirMem E s0.cd_device (s0.inode_table i)) r with
  | none =>
    rw [hshown] at hentry
    rw [callsFrom_none hrecord hentry, List.filterMap_cons_none hshown]
    exact hrest t hnext depth fuel (k + 1) (by omega) (by omega) (by omega)
  | some name =>
    rw [hshown] at hentry
    obtain ⟨u, hrun, hreads⟩ := hrest t hnext depth depth k (by omega) (by omega) (by omega)
    have hdirt : S_ISDIR (t.inode_table i).mode = true := by rw [hnext.reads.inode_table]; exact hdir
    refine ⟨u, ?_, hreads⟩
    rw [callsFrom_some hrecord hentry hdirt hrun, List.filterMap_cons_some hshown]

/-- **The calls of a listing.**  By induction on what they ask for: each round of the loop leaves the listing
at the record behind the one that it examined. -/
theorem listing_gives (hm : Standard s0.sb) (hx : Extent (s0.inode_table i))
    (hdir : S_ISDIR (s0.inode_table i).mode = true)
    (h : Listing E s0.cd_device (s0.inode_table i) (dirMem E s0.cd_device (s0.inode_table i)) n q p b v rs) :
    Dir (dirMem E s0.cd_device (s0.inode_table i)) (s0.inode_table i).size p rs →
      p ≤ (s0.inode_table i).size + 256 → ∃ N, Gives E s0 i rs N n q p b v := by
  induction h with
  | @stop n q p b v hv h0 hend =>
    intro _ hp
    refine ⟨1, fun s hat depth fuel k _ hf _ => ?_⟩
    obtain ⟨fuel, rfl⟩ : ∃ m, fuel = m + 1 := ⟨fuel - 1, by omega⟩
    have hloop : entryLoop E depth i (fuel + 1) s = _ :=
      entryLoop_stop (nextBlock_stop rfl hx hat hv hp h0 hend)
    refine ⟨{ s with diroffset := nextSector p }, ?_, hat.reads.trans _ _ _ ⟨rfl, rfl, rfl, rfl⟩⟩
    unfold callsFrom
    rw [bind_run hloop]
    rfl
  | @pad n q p b v rs hv h0 hlt hread hfirst rest ih =>
    intro hd hp
    have hinside : p < (s0.inode_table i).size := by
      unfold nextSector ISOFS_BLOCK_SIZE at hlt
      omega
    obtain ⟨N, hN⟩ := ih (hd.behind_pad hinside h0) (by omega)
    have hlow := hx.low
    refine ⟨N + 1, fun s hat depth fuel k hdepth hf hk => ?_⟩
    obtain ⟨fuel, rfl⟩ : ∃ m, fuel = m + 1 := ⟨fuel - 1, by omega⟩
    obtain ⟨t, hnext, ht⟩ := nextBlock_pad (i := i) hm rfl hx hat hv hp h0 hlt hread
    by_cases hlen : de_length (dirMem E s0.cd_device (s0.inode_table i)) (nextSector p) = 0
    · have hentry : entry E depth i t = _ :=
        entry_empty hm ht (by omega) hlen (hfirst.resolve_left (not_not.mpr hlen))
      rw [callsFrom_congr (entryLoop_record hnext hentry)]
      exact hN t ht depth fuel k (by omega) (by omega) (by omega)
    · rw [callsFrom_congr (entryLoop_pad hnext (nextBlock_record ht (by omega) hlen))]
      exact hN t ht depth (fuel + 1) k (by omega) (by omega) (by omega)
  | @inside n q b v r rs hne hv hin hid hsound rest ih =>
    intro hd hp
    obtain ⟨hlt, hlaid, hbehind⟩ := hd.behind_record hne
    have h256 : de_length (dirMem E s0.cd_device (s0.inode_table i)) r.pos < 256 := UInt8.toNat_lt _
    obtain ⟨N, hN⟩ := ih hbehind (by omega)
    refine ⟨256 + r.areas.length + N + 1, gives_record hdir (by omega) hne (fun s hat depth hdepth => ?_) hN⟩
    exact entry_inside hm hx hat hlt rfl hv hin hid hsound hlaid hdepth
  | @across n q b v r rs hne hpos hv hout hid hread hsound rest ih =>
    intro hd hp
    obtain ⟨hlt, hlaid, hbehind⟩ := hd.behind_record hne
    have h256 : de_length (dirMem E s0.cd_device (s0.inode_table i)) r.pos < 256 := UInt8.toNat_lt _
    obtain ⟨N, hN⟩ := ih hbehind (by omega)
    refine ⟨256 + r.areas.length + N + 1, gives_record hdir hpos hne (fun s hat depth hdepth => ?_) hN⟩
    exact entry_across hm rfl hx hat hlt rfl hv hout hid hread hsound hlaid hdepth

/-- **The whole listing.**  The calls give the Rock Ridge names of the records, in their order. -/
theorem readdirAll_run (hm : Standard s.sb) (hx : Extent (s.inode_table i))
    (hdir : S_ISDIR (s.inode_table i).mode = true)
    (hrecords : Dir (dirMem E s.cd_device (s.inode_table i)) (s.inode_table i).size 0 rs)
    (hread : blockRet E s.cd_device (s.inode_table i) s.log.length 0 = 1024)
    (h : Listing E s.cd_device (s.inode_table i) (dirMem E s.cd_device (s.inode_table i)) (s.log.length + 1)
      s.free_mem_ptr 0 0 1024 rs) :
    ∃ N, ∀ fuel k, N ≤ fuel → N ≤ k → ∃ t, readdirAll E fuel i k true s =
      some (rs.filterMap (shown (dirMem E s.cd_device (s.inode_table i))), t) ∧ Reads s t := by
  obtain ⟨N, hN⟩ := listing_gives hm hx hdir h hrecords (Nat.zero_le _)
  refine ⟨N + 1, fun fuel k hf hk => ?_⟩
  obtain ⟨k, rfl⟩ : ∃ m, k = m + 1 := ⟨k - 1, by omega⟩
  generalize hu : { s with blockoffset := 0, diroffset := 0 } = u
  have hsu : Reads s u := by rw [← hu]; exact ⟨rfl, rfl, rfl, rfl⟩
  have hret : (blockRes E u (s.inode_table i) 0).ret = 1024 := by rw [← hu]; exact hread
  have hblock := readDirBlock_run (E := E) (i := i) (s := u) (p := 0) (by rw [hsu.sb]; exact hm)
    (congrFun hsu.inode_table i) hx (Nat.zero_le _)
  rw [decide_eq_true hret] at hblock
  have hloaded := afterBlock_loaded hret
  unfold Loaded at hloaded
  rw [(afterBlock_reads E u _ 0).cd_device, hsu.cd_device] at hloaded
  generalize ht : afterBlock E u (s.inode_table i) 0 = t at hblock hloaded
  have hat : ListAt E s (s.inode_table i) (s.log.length + 1) s.free_mem_ptr 0 0 1024 t := by
    rw [← ht, ← hu] at *
    exact ⟨⟨rfl, rfl, rfl, rfl⟩, List.length_append, rfl, rfl, rfl, by omega, hloaded, fun _ => rfl⟩
  obtain ⟨v, hrun, hreads⟩ := hN t hat fuel fuel k (by omega) (by omega) (by omega)
  have hrewind : rewindDir E i s = some (true, t) := by
    unfold rewindDir
    rw [bind_run (modify_run _ s), hu, bind_run hblock]
    rfl
  have hcall : iso_readdir_i E fuel i true s = entryLoop E fuel i fuel t := by
    unfold iso_readdir_i
    rw [bind_run (get_run s), if_pos hdir, if_pos rfl, bind_run hrewind, if_pos rfl]
  refine ⟨v, ?_, hreads⟩
  rw [← hrun]
  unfold readdirAll callsFrom
  rw [bind_eq, bind_eq, hcall]

/-! ## the listing and the search -/

/-- the names that a listing has to give -/
def listedNames (d : Mem) (rs : List Record) : List (List UInt8) :=
  (rs.filter fun r => Listed d r.pos).map (effective d)

/-- the names that it gives are those of the listed records with a Rock Ridge name -/
theorem filterMap_shown (d : Mem) (rs : List Record) : rs.filterMap (shown d) =
    ((rs.filter fun r => Listed d r.pos).filter fun r => nameOf r.texts ≠ []).map fun r => nameOf r.texts := by
  induction rs with
  | nil => rfl
  | cons r rs ih =>
    rw [List.filterMap_cons, ih]
    by_cases hl : Listed d r.pos <;> by_cases hn : nameOf r.texts = [] <;> simp [shown, hl, hn]

/-- they are all the names that it has to give if and only if no listed record is without a Rock Ridge name -/
theorem shown_listed (d : Mem) (rs : List Record) : rs.filterMap (shown d) = listedNames d rs ↔
    ∀ r ∈ rs, Listed d r.pos → nameOf r.texts ≠ [] := by
  rw [filterMap_shown, listedNames]
  constructor
  · intro h r hr hl
    have hlen := congrArg List.length h
    rw [List.length_map, List.length_map, List.length_filter_eq_length_iff] at hlen
    exact of_decide_eq_true (hlen r (List.mem_filter.mpr ⟨hr, decide_eq_true hl⟩))
  · intro h
    have hall : ∀ r ∈ rs.filter fun r => Listed d r.pos, nameOf r.texts ≠ [] := fun r hr =>
      h r (List.mem_filter.mp hr).1 (of_decide_eq_true (List.mem_filter.mp hr).2)
    rw [List.filter_eq_self.mpr fun r hr => decide_eq_true (hall r hr)]
    refine List.map_congr_left fun r hr => ?_
    rw [effective, if_neg (hall r hr)]

/-- a name of a listed record is one under which a record is found -/
theorem wanted_of_listed {d : Mem} {name : List UInt8} (h : name ∈ listedNames d rs) :
    ∃ x ∈ rs, Wanted d name x := by
  obtain ⟨x, hx, rfl⟩ := List.mem_map.mp h
  obtain ⟨hx, hl⟩ := List.mem_filter.mp hx
  have hl : Listed d x.pos := of_decide_eq_true hl
  refine ⟨x, hx, hl.1, ?_⟩
  unfold effective Named
  by_cases hn : nameOf x.texts = []
  · rw [if_pos hn, if_pos hn, IsoNamed, if_neg hl.2.1, if_neg hl.2.2]
    exact .inl rfl
  · rw [if_neg hn, if_neg hn]

/-- the search for `name` can be carried out in the state `u` -/
def Searchable (E : Env) (u : State) (i : Slot) (rs : List Record) (name : List UInt8) : Prop :=
  let e := u.inode_table i
  blockRet E u.cd_device e u.log.length 0 = 1024 →
    Search E u.cd_device e (dirMem E u.cd_device e) name (u.log.length + 1) u.free_mem_ptr 0 rs

/-- the search for `name` in the state `u` finds a record with this name, unless a read of it fails -/
def FoundIn (E : Env) (u : State) (i : Slot) (rs : List Record) (name : List UInt8) : Prop :=
  let d := dirMem E u.cd_device (u.inode_table i)
  ∃ N, ∀ fuel, N ≤ fuel → ∃ r t l, iso_find_entry E fuel i name u = some (r, t) ∧ t.log = u.log ++ l ∧
    ((∀ y ∈ l, y.ret = y.count) → r.ret = 0 ∧ ∃ x ∈ rs, Wanted d name x ∧ r.ino = address u i d x.pos)

theorem found_in {u : State} (hm : Standard u.sb) (hx : Extent (u.inode_table i))
    (hrecords : Dir (dirMem E u.cd_device (u.inode_table i)) (u.inode_table i).size 0 rs) {name : List UInt8}
    (h : name ∈ listedNames (dirMem E u.cd_device (u.inode_table i)) rs) (hsearch : Searchable E u i rs name) :
    FoundIn E u i rs name := by
  obtain ⟨x, hx1, hx2⟩ := wanted_of_listed h
  have hsome : rs.find? (fun r => Wanted (dirMem E u.cd_device (u.inode_table i)) name r) ≠ none := fun hnone =>
    List.find?_eq_none.mp hnone x hx1 (decide_eq_true hx2)
  obtain ⟨y, hfind⟩ := Option.ne_none_iff_exists'.mp hsome
  have hy : Wanted (dirMem E u.cd_device (u.inode_table i)) name y := by simpa using List.find?_some hfind
  obtain ⟨N, hN⟩ := iso_find_entry_run hm rfl hx hrecords hsearch
  refine ⟨N, fun fuel hf => ?_⟩
  obtain ⟨r, t, l, hrun, hlog, hanswer⟩ := hN fuel hf
  refine ⟨r, t, l, hrun, hlog, fun hl => ?_⟩
  unfold Answer at hanswer
  rw [if_pos hl, hfind] at hanswer
  exact ⟨hanswer.1, y, List.mem_of_find?_eq_some hfind, hy, hanswer.2⟩

/-- the listing and the search agree: calls up to the first null pointer give the effective names of the
listed records, in their order and each once, and every name that they give is found in the state `u` -/
def Agreement (E : Env) (s u : State) (i : Slot) (rs : List Record) : Prop :=
  ∃ N names, (∀ fuel k, N ≤ fuel → N ≤ k → ∃ t, readdirAll E fuel i k true s = some (names, t) ∧ Reads s t) ∧
    names = listedNames (dirMem E s.cd_device (s.inode_table i)) rs ∧ ∀ name ∈ names, FoundIn E u i rs name

/-- where the calls give `names` in the end, these are then the names of all listed records -/
theorem Agreement.names {u : State} (h : Agreement E s u i rs) {names : List (List UInt8)} {N : Nat}
    (hN : ∀ fuel k, N ≤ fuel → N ≤ k → ∃ t, readdirAll E fuel i k true s = some (names, t) ∧ Reads s t) :
    names = listedNames (dirMem E s.cd_device (s.inode_table i)) rs := by
  obtain ⟨M, names', hM, hnames, -⟩ := h
  obtain ⟨t, ht, -⟩ := hN (M + N) (M + N) (by omega) (by omega)
  obtain ⟨v, hv, -⟩ := hM (M + N) (M + N) (by omega) (by omega)
  have heq := (Prod.mk.inj (Option.some.inj (ht.symm.trans hv))).1
  exact heq.trans hnames

end

/-- a record without areas inside the block -/
theorem listing_inside {E : Env} {dev : Int} {e : Entry} {d : Mem} {n q b v : Nat} {r : Record}
    {rs : List Record} (len : Nat) (hlen : de_length d r.pos = len) (hareas : r.areas = []) (hne : len ≠ 0)
    (hv : len ≤ v) (hin : b + len < 1024) (hid : isoId d r.pos ≠ [])
    (hsound : NameSound E dev n q d r) (hfit : Listed d r.pos → 34 + (nameOf r.texts).length ≤ len)
    (rest : Listing E dev e d n q (r.pos + len) (b + len) (v - len) rs) :
    Listing E dev e d n q r.pos b v (r :: rs) := by
  have hvisited : visited d r = [] := by
    unfold visited
    rw [hareas, ite_self]
  subst hlen
  refine .inside hne hv hin hid (fun hl => ⟨hsound, hfit hl⟩) ?_
  rw [hvisited]
  exact rest

/-- a mounted volume with the directory open -/
def listStart : State := { dirStart with inode_table := fun _ => { dirEntry with mode := 0o040555 } }

theorem listStart_extent : Extent (listStart.inode_table 0) :=
  ⟨by decide, by decide, by decide, by decide, by decide⟩

theorem five_listing : Listing (dirEnv fiveFields) 0 (listStart.inode_table 0) (Bytes.record fiveFields)
    1 0 0 0 1024 fiveRecords := by
  refine listing_inside (r := ⟨0, [], [], []⟩) 34 (by decide +kernel) rfl (by decide) (by decide) (by decide)
    (by decide +kernel) (five_plain _ _ (by decide +kernel)) (fun _ => by decide) ?_
  refine listing_inside (r := ⟨34, [], [], []⟩) 34 (by decide +kernel) rfl (by decide) (by decide) (by decide)
    (by decide +kernel) (five_plain _ _ (by decide +kernel)) (fun _ => by decide) ?_
  refine listing_inside (r := named 68 _) 240 (by decide +kernel) rfl (by decide) (by decide) (by decide)
    (by decide +kernel) (five_named _ _ 102 (by decide +kernel) (by decide +kernel) (by decide +kernel)
      (by decide +kernel) (by decide +kernel) (by decide)) (fun _ => by decide) ?_
  refine listing_inside (r := named 308 _) 240 (by decide +kernel) rfl (by decide) (by decide) (by decide)
    (by decide +kernel) (five_named _ _ 342 (by decide +kernel) (by decide +kernel) (by decide +kernel)
      (by decide +kernel) (by decide +kernel) (by decide)) (fun _ => by decide) ?_
  refine listing_inside (r := named 548 _) 240 (by decide +kernel) rfl (by decide) (by decide) (by decide)
    (by decide +kernel) (five_named _ _ 582 (by decide +kernel) (by decide +kernel) (by decide +kernel)
      (by decide +kernel) (by decide +kernel) (by decide)) (fun _ => by decide) ?_
  refine .across (r := named 788 _) (by decide +kernel) (by decide) (by decide) (by decide +kernel)
    (by decide +kernel) rfl (fun _ => ⟨five_named _ _ 822 (by decide +kernel) (by decide +kernel)
      (by decide +kernel) (by decide +kernel) (by decide +kernel) (by decide), by decide +kernel⟩) ?_
  have hlen : de_length (Bytes.record fiveFields) (named 788 [0x66, 0x6f, 0x75, 0x72]).pos = 240 := by
    decide +kernel
  have hvisited : visited (Bytes.record fiveFields) (named 788 [0x66, 0x6f, 0x75, 0x72]) = [] := ite_self _
  rw [hlen, hvisited]
  refine listing_inside (r := named 1028 _) 42 (by decide +kernel) rfl (by decide) (by decide) (by decide)
    (by decide +kernel) (five_named _ _ 1062 (by decide +kernel) (by decide +kernel) (by decide +kernel)
      (by decide +kernel) (by decide +kernel) (by decide)) (fun _ => by decide) ?_
  exact .stop (by decide) (by decide +kernel) (by decide)

/-- the directory itself, its parent, the file `A;1`, and the file `B` with the Rock Ridge name `xyz` -/
def fourFields : List (Nat × Nat × Nat) :=
  [(0, 34, 1), (32, 1, 1), (34, 34, 1), (66, 1, 1), (67, 1, 1), (68, 36, 1), (100, 3, 1), (101, 0x313b41, 3),
   (104, 42, 1), (136, 1, 1), (137, 0x42, 1), (138, 0x4d4e, 2), (140, 8, 1), (141, 1, 1), (143, 0x7a7978, 3)]

def fourRecords : List Record :=
  [⟨0, [], [], []⟩, ⟨34, [], [], []⟩, ⟨68, [], [], []⟩, named 104 [0x78, 0x79, 0x7a]]

theorem four_dir : Dir (Bytes.record fourFields) 2048 0 fourRecords := by
  refine dir_record (r := ⟨0, [], [], []⟩) 34 (by decide +kernel) (by decide)
    ⟨by decide +kernel, by decide +kernel⟩ (by decide) ?_
  refine dir_record (r := ⟨34, [], [], []⟩) 34 (by decide +kernel) (by decide)
    ⟨by decide +kernel, by decide +kernel⟩ (by decide) ?_
  refine dir_record (r := ⟨68, [], [], []⟩) 36 (by decide +kernel) (by decide)
    ⟨by decide +kernel, by decide +kernel⟩ (by decide) ?_
  refine dir_record (r := named 104 _) 42 (by decide +kernel) (by decide)
    ⟨by decide +kernel, by decide +kernel⟩ (by decide) ?_
  exact .pad (by decide) (by decide +kernel) (.done (by decide))

/-- the texts of its records -/
theorem four_texts : ∀ r ∈ fourRecords,
    RecordTexts (dirEnv fourFields) 0 (Bytes.record fourFields) r.pos r.texts r.stored r.areas := by
  refine List.forall_mem_cons.mpr ⟨no_area (by decide +kernel), List.forall_mem_cons.mpr
    ⟨no_area (by decide +kernel), List.forall_mem_cons.mpr ⟨no_area (by decide +kernel),
      List.forall_mem_singleton.mpr ?_⟩⟩⟩
  exact one_name 138 (by decide +kernel) (by decide +kernel) (by decide +kernel) (by decide +kernel)
    (by decide +kernel)

theorem four_listing : Listing (dirEnv fourFields) 0 (listStart.inode_table 0) (Bytes.record fourFields)
    1 0 0 0 1024 fourRecords := by
  have htexts := four_texts
  unfold fourRecords at htexts
  simp only [List.forall_mem_cons] at htexts
  obtain ⟨h1, h2, h3, h4, -⟩ := htexts
  refine listing_inside (r := ⟨0, [], [], []⟩) 34 (by decide +kernel) rfl (by decide) (by decide) (by decide)
    (by decide +kernel) (cleared_sound _ _ _ h1 (by decide)) (fun _ => by decide) ?_
  refine listing_inside (r := ⟨34, [], [], []⟩) 34 (by decide +kernel) rfl (by decide) (by decide) (by decide)
    (by decide +kernel) (cleared_sound _ _ _ h2 (by decide)) (fun _ => by decide) ?_
  refine listing_inside (r := ⟨68, [], [], []⟩) 36 (by decide +kernel) rfl (by decide) (by decide) (by decide)
    (by decide +kernel) (cleared_sound _ _ _ h3 (by decide)) (fun _ => by decide) ?_
  refine listing_inside (r := named 104 _) 42 (by decide +kernel) rfl (by decide) (by decide) (by decide)
    (by decide +kernel) (cleared_sound _ _ _ h4 (by decide)) (fun _ => by decide) ?_
  exact .stop (by decide) (by decide +kernel) (by decide)

end Iso
