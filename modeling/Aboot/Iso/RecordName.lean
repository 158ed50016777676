import Aboot.Iso.IsoName
import Aboot.Iso.RockName

/-!
# A directory record under examination

`iso_find_entry` puts the effective name of a record in the place of its ISO name and compares it there.

* `Unnamed`         the system-use areas of a record without a Rock Ridge name;
* `Texts`           the texts that the areas of a record hold;
* `filename_named`  what `get_rock_ridge_filename` gives for them;
* `effectiveName_run`, `matchRecord_run`   what the examination of a record gives, and the bytes it
  writes.
-/

set_option linter.unusedVariables false

namespace Iso
open Word Prog Append

/-! ## records without a Rock Ridge name -/

/-- the entry at `k` ends the search for a name: it says that there is none, the areas are of another
kind, or the directory was relocated -/
structure Stops (d : Mem) (k : Nat) (len : Int) : Prop where
  some : 3 ≤ len
  header : rr_len d k ≠ 0
  stop : (rr_sig d k = SIG 'R' 'R' ∧ 5 ≤ len ∧ rr_flags d k &&& RR_NM = 0) ∨
    (rr_sig d k = SIG 'S' 'P' ∧ 6 ≤ len ∧ checkSP d k = false) ∨ rr_sig d k = SIG 'R' 'E'

/-- the entries of an area up to one that ends the search -/
inductive SuEnds (d : Mem) : (k : Nat) → (len : Int) → List Nat → Prop where
  | stop {k : Nat} {len : Int} (h : Stops d k len) : SuEnds d k len []
  | entry {k : Nat} {len : Int} {es : List Nat} (h : NameFits d k len)
      (rest : SuEnds d (k + rr_len d k) (len - rr_len d k) es) : SuEnds d k len (k :: es)

/-- the texts in front of an entry that ends the search, and the areas up to it -/
inductive Unnamed (E : Env) (dev : Int) : Mem → Nat → Int → List (List UInt8) → List Area → Prop where
  | stop {d : Mem} {k : Nat} {len : Int} {es : List Nat} (h : SuEnds d k len es) :
      Unnamed E dev d k len (namesOf d es) []
  | more {d : Mem} {k : Nat} {len : Int} {es : List Nat} {c : Area} {us : List (List UInt8)}
      {cs : List Area} (h : SuArea d k len es) (hce : areaOf d es = some c)
      (rest : Unnamed E dev (c.mem E dev) 0 c.size us cs) :
      Unnamed E dev d k len (namesOf d es ++ us) (c :: cs)

/-- the texts `ts` of the name that the areas of a record make, and the texts `us` that are stored on the
way: a record whose search is ended has no name -/
def Texts (E : Env) (dev : Int) (d : Mem) (k : Nat) (len : Int) (ts us : List (List UInt8))
    (cs : List Area) : Prop :=
  (NameChain E dev d k len ts cs ∧ us = ts) ∨ (ts = [] ∧ Unnamed E dev d k len us cs)

section
variable {E : Env} {g d m : Mem} {a k n depth fuel : Nat} {len : Int} {es : List Nat}
  {ts us : List (List UInt8)} {cs : List Area} {x : Name} {s : State}

/-- the entry that ends the search, in memory -/
theorem nameStep_stops (h : Agree m a d k len) (hs : Stops d k len) (x : Name) :
    nameStep depth m a x = pure (.out x) := by
  have hsig := sig_agree h (by have := hs.some; omega)
  unfold nameStep
  rw [hsig]
  rcases hs.stop with ⟨hrr, h5, hnm⟩ | ⟨hsp, h6, hmagic⟩ | hre
  · rw [if_pos hrr, flags_agree h h5, if_pos hnm]
  · have hcheck : checkSP m a = checkSP d k := by
      rw [checkSP, checkSP, SP_magic, SP_magic, h 4 (by omega), h 5 (by omega)]
    rw [hsp, if_neg (by decide), if_pos rfl, hcheck, hmagic]
    rfl
  · rw [hre, if_neg (by decide), if_neg (by decide), if_neg (by decide), if_neg (by decide), if_pos rfl]

/-- the walk over an area whose search is ended, where the stack is zero behind its texts -/
theorem area_ends (h : SuEnds d k len es) : ∀ {a n : Nat} {ts : List (List UInt8)} {x : Name} {s : State},
    Agree m a d k len → len.toNat ≤ n → RightName g ts x → StackZero g (ts ++ namesOf d es) → 255 ≤ depth →
    ∃ y, walkArea Flow.next (nameStep depth) m n a len x s = some (.out y, s) := by
  induction h with
  | @stop k len hs =>
    intro a n ts x s hag hn hx hz hd
    have hsome := hs.some
    have hlen : rr_len m a = rr_len d k := rr_len_agree hag hsome
    have hhead := hs.header
    obtain ⟨n, rfl⟩ : ∃ j, n = j + 1 := ⟨n - 1, by omega⟩
    refine ⟨x, ?_⟩
    unfold walkArea
    rw [if_neg (by omega), if_neg (by omega), nameStep_stops hag hs]
    rfl
  | @entry k len es hf rest ih =>
    intro a n ts x s hag hn hx hz hd
    have hsome := hf.some
    have hhead := hf.header
    have hlen : rr_len m a = rr_len d k := rr_len_agree hag hsome
    obtain ⟨n, rfl⟩ : ∃ j, n = j + 1 := ⟨n - 1, by omega⟩
    rw [namesOf_cons, ← List.append_assoc] at hz
    have hz1 := stackZero_append hz
    obtain ⟨⟨f, u⟩, hstep⟩ := nameStep_runs (s := s) hag hf hx hd
    obtain ⟨rfl, y, rfl, hy, -⟩ := nameStep_soFar hag hf (.inl ⟨stackZero_append hz1, hx⟩) hstep
    have hy := (hy.resolve_right fun hc => hc.1 hz1).2
    obtain ⟨z, hz⟩ := ih (s := u) (hag.drop (rr_len d k)) (by omega : _ ≤ n) hy hz hd
    refine ⟨z, ?_⟩
    unfold walkArea
    rw [if_neg (by omega), if_neg (by omega), bind_run hstep]
    dsimp only
    rw [hlen]
    exact hz

/-- the walk over areas whose search is ended gives no name -/
theorem unnamed_runs {dev : Int} (h : Unnamed E dev d k len us cs) :
    ∀ {m : Mem} {a fuel : Nat} {ts : List (List UInt8)} {x : Name} {s : State}, Agree m a d k len →
      RightName g ts x → s.cd_device = dev → StackZero g (ts ++ us) →
      Followed E s.cd_device s.log.length s.free_mem_ptr cs → 255 ≤ depth → cs.length < fuel →
      ∃ y, nameAreas E depth fuel m a len x s = some (.out y, followAll E cs s) := by
  induction h with
  | @stop d k len es hends =>
    intro m a fuel ts x s hag hx hdev hz hf hd hfuel
    obtain ⟨fuel, rfl⟩ : ∃ n, fuel = n + 1 := ⟨fuel - 1, by omega⟩
    obtain ⟨y, hwalk⟩ := area_ends (s := s) hends hag (Nat.le_refl _) hx hz hd
    refine ⟨y, ?_⟩
    unfold nameAreas
    rw [bind_run hwalk]
    rfl
  | @more d k len es c us cs hsu hce rest ih =>
    intro m a fuel ts x s hag hx hdev hz hf hd hfuel
    obtain ⟨fuel, rfl⟩ : ∃ n, fuel = n + 1 := ⟨fuel - 1, by omega⟩
    rw [← List.append_assoc] at hz
    have hz1 := stackZero_append hz
    obtain ⟨⟨f, u⟩, hwalk⟩ := area_runs (s := s) hsu hag (Nat.le_refl _) hx hz1 hd
    obtain ⟨rfl, y, rfl, hy, hlast⟩ := area_soFar hsu hag (Nat.le_refl _)
      (.inl ⟨stackZero_append hz1, hx⟩) hwalk
    rw [hce, Option.elim_some] at hlast
    have hy := (hy.resolve_right fun hc => hc.1 hz1).2
    obtain ⟨b, hmc, hagb, hfv⟩ := maybeContinue_followed hf
    obtain ⟨⟨hext, hoff, hstart, hsize, -⟩, -⟩ := hf
    have hnum := followed_cont hoff hstart hsize
    rw [hdev] at hagb
    obtain ⟨z, hz⟩ := @ih b 0 fuel _ { y with cont := noCont } (c.follow E u) hagb
      ⟨hy.text, hy.len, hy.cut⟩ hdev hz hfv hd (Nat.lt_of_succ_lt_succ hfuel)
    refine ⟨z, ?_⟩
    unfold nameAreas
    rw [bind_run hwalk]
    dsimp only
    rw [hlast, if_neg (followed_extent hext hoff hstart hsize), bind_run hmc, hnum]
    exact hz

/-! ## the Rock Ridge name -/

theorem suArea_noNul (h : SuArea d k len es) : ∀ t ∈ namesOf d es, 0 ∉ t := by
  induction h with
  | done h =>
    intro t ht
    cases ht
  | @entry k len es hf rest ih =>
    intro t ht
    rw [namesOf_cons] at ht
    rcases List.mem_append.mp ht with ht | ht
    · unfold namesOf at ht
      rw [List.flatMap_singleton] at ht
      split at ht
      · rename_i hn
        rw [List.mem_singleton.mp ht]
        exact (hf.text hn).2.2
      · cases ht
    · exact ih t ht

theorem texts_noNul {dev : Int} (h : Texts E dev d k len ts us cs) : 0 ∉ nameOf ts := by
  have hall : ∀ t ∈ ts, 0 ∉ t := by
    rcases h with ⟨h, -⟩ | ⟨rfl, -⟩
    · induction h with
      | last h hce => exact suArea_noNul h
      | more h hce rest ih =>
        intro t ht
        rcases List.mem_append.mp ht with ht | ht
        · exact suArea_noNul h t ht
        · exact ih t ht
    · intro t ht
      cases ht
  intro h0
  obtain ⟨t, ht, h0⟩ := List.mem_flatten.mp (List.mem_of_mem_take h0)
  exact hall t ht h0

/-- what `get_rock_ridge_filename` gives for a record, and what it leaves -/
theorem filename_named (hrock : s.sb.s_rock = true) {de : Nat} (hag : Agree m de d k (de_length d k))
    (h33 : 33 ≤ de_length d k)
    (htexts : Texts E s.cd_device d (k + setupLen d k) ((de_length d k : Int) - setupLen d k) ts us cs)
    (hf : Followed E s.cd_device s.log.length s.free_mem_ptr cs) (hz : StackZero (E.stack s.log.length) us)
    (hfuel : 256 + cs.length ≤ fuel) :
    ∃ retname : Mem, get_rock_ridge_filename E fuel m de s
        = some ((((nameOf ts).length : Int), retname), followAll E cs s) ∧
      (nameOf ts ≠ [] → retname.get 0 (nameOf ts).length = nameOf ts ∧ retname (nameOf ts).length = 0) := by
  obtain ⟨hlen, harea⟩ := record_area hag h33
  rcases htexts with ⟨hchain, rfl⟩ | ⟨rfl, hun⟩
  · obtain ⟨ret, retname, t, h⟩ := filename_runs hrock harea hlen hchain hf hz (by omega : _ ≤ fuel)
    obtain ⟨hnamed, rfl⟩ := filename_soFar hrock harea hlen hchain hf h
    have hnamed := hnamed.mpr hz
    refine ⟨retname, ?_, fun _ => ⟨hnamed.text, hnamed.stop⟩⟩
    rw [← hnamed.length]
    exact h
  · obtain ⟨y, hareas⟩ : ∃ y, nameAreas E fuel fuel m (de + setupLen m de)
        ((de_length d k : Int) - setupLen d k) ⟨(E.stack s.log.length).put 0 [0], 0, false, noCont⟩ s
          = some (.out y, followAll E cs s) :=
      unnamed_runs hun harea (rightName_nil (E.stack s.log.length)) rfl hz hf (by omega) (by omega)
    refine ⟨y.retname, ?_, fun h => absurd rfl h⟩
    unfold get_rock_ridge_filename
    rw [bind_run (get_run s), if_pos hrock, hlen, bind_run hareas]
    rfl

end

/-! ## the state after the areas of a record -/

/-- the heap pointer behind the buffers of some areas -/
def heapBehind (E : Env) (p : Nat) (cs : List Area) : Nat :=
  cs.foldl (fun p c => malloc E.clusters p c.size) p

theorem followAll_eq (E : Env) (cs : List Area) (s : State) : followAll E cs s =
    { s with free_mem_ptr := heapBehind E s.free_mem_ptr cs, log := s.log ++ cs.map Area.read } := by
  induction cs generalizing s with
  | nil =>
    unfold followAll heapBehind
    rw [List.map_nil, List.append_nil]
    rfl
  | cons c cs ih =>
    show followAll E cs (c.follow E s) = _
    rw [ih, Area.follow, List.map_cons, List.append_assoc]
    rfl

/-- the state after a record was examined in the buffer `b`, which came to be `m` -/
def examined (E : Env) (cs : List Area) (m : Mem) (b : Buf) (s : State) : State :=
  (followAll E cs s).setBuf m b

section
variable (E : Env) (cs : List Area) (m : Mem) (b : Buf) (s : State)

theorem followAll_buf : (followAll E cs s).buf b = s.buf b := by
  rw [followAll_eq]
  cases b with
  | data => rfl
  | big => rfl

theorem examined_buf : (examined E cs m b s).buf b = m := by
  cases b with
  | data => rfl
  | big => rfl

theorem examined_reads : Reads s (examined E cs m b s) := by
  refine Reads.trans s (followAll E cs s) _ ?_ (setBuf_reads _ m b)
  rw [followAll_eq]
  exact ⟨rfl, rfl, rfl, rfl⟩

theorem examined_log : (examined E cs m b s).log = s.log ++ cs.map Area.read := by
  unfold examined
  rw [followAll_eq]
  cases b with
  | data => rfl
  | big => rfl

theorem examined_heap : (examined E cs m b s).free_mem_ptr = heapBehind E s.free_mem_ptr cs := by
  unfold examined
  rw [followAll_eq]
  cases b with
  | data => rfl
  | big => rfl

end

/-! ## the effective name -/

/-- the ISO name of a record -/
def isoId (d : Mem) (k : Nat) : List UInt8 := d.get (de_name k) (de_name_len d k)

/-- a record is found under `name`: its Rock Ridge name, or one that its ISO name stands for -/
def Named (d : Mem) (k : Nat) (ts : List (List UInt8)) (name : List UInt8) : Prop :=
  if nameOf ts = [] then IsoNamed (isoId d k) name else name = nameOf ts

instance (d : Mem) (k : Nat) (ts : List (List UInt8)) (name : List UInt8) : Decidable (Named d k ts name) :=
  inferInstanceAs (Decidable (if nameOf ts = [] then IsoNamed (isoId d k) name else name = nameOf ts))

/-- the bytes from the start of its name on that the examination of a record writes -/
def nameRoom (d : Mem) (k : Nat) (ts : List (List UInt8)) : Nat :=
  if nameOf ts = [] then de_name_len d k else (nameOf ts).length + 1

/-- a record of a directory: where it is, the texts of its Rock Ridge name, those that are stored in the
search for it, and the continuation areas that are read -/
structure Record where
  pos : Nat
  texts : List (List UInt8)
  stored : List (List UInt8)
  areas : List Area

/-- the record at `k` is as ISO 9660 lays it out -/
structure RecordLaid (d : Mem) (k : Nat) : Prop where
  room : 33 + de_name_len d k ≤ de_length d k
  id : IdFits (isoId d k)

/-- the texts of the record at `k` of the disc -/
def RecordTexts (E : Env) (dev : Int) (d : Mem) (k : Nat) (ts us : List (List UInt8)) (cs : List Area) : Prop :=
  Texts E dev d (k + setupLen d k) ((de_length d k : Int) - setupLen d k) ts us cs

/-- the record has its texts and areas, and the machine can take them at the `n`-th read: it follows the
areas, and the stack is zero behind the texts -/
structure NameSound (E : Env) (dev : Int) (n p : Nat) (d : Mem) (r : Record) : Prop where
  texts : RecordTexts E dev d r.pos r.texts r.stored r.areas
  followed : Followed E dev n p r.areas
  stack : StackZero (E.stack n) r.stored
  one : nameOf r.texts ≠ [1]

section
variable {E : Env} {d : Mem} {k de fuel : Nat} {r : Record} {s : State} {b : Buf} {name : List UInt8}

/-- the Rock Ridge name is put in its place -/
theorem effectiveName_rock (hrock : s.sb.s_rock = true) (hag : Agree (s.buf b) de d r.pos (de_length d r.pos))
    (hfits : RecordLaid d r.pos)
    (hsound : NameSound E s.cd_device s.log.length s.free_mem_ptr d r) (hfuel : 256 + r.areas.length ≤ fuel)
    (hne : nameOf r.texts ≠ []) (n : Nat) :
    effectiveName E fuel b de n s = some (((nameOf r.texts).length : Int),
      examined E r.areas ((s.buf b).put (de_name de) (nameOf r.texts ++ [0])) b s) := by
  have hroom := hfits.room
  obtain ⟨retname, hget, htext⟩ := filename_named hrock hag (by omega) hsound.texts hsound.followed hsound.stack
    hfuel
  obtain ⟨htext, hstop⟩ := htext hne
  have hpos : 0 < (nameOf r.texts).length := List.length_pos_iff.mpr hne
  have hle := nameOf_length r.texts
  have hend : IsEnd retname (nameOf r.texts).length := by
    refine ⟨hstop, fun q hq h0 => texts_noNul hsound.texts ?_⟩
    rw [← htext]
    exact Mem.mem_get.mpr ⟨q, hq, by rw [Nat.zero_add]; exact h0⟩
  have hcstr : cstr retname fuel 0 (followAll E r.areas s) = some (nameOf r.texts, followAll E r.areas s) := by
    unfold cstr
    rw [bind_run (strEnd_run hend (Nat.zero_le _) (by omega)), pure_run, Nat.sub_zero, htext]
  unfold effectiveName
  rw [bind_run (get_run s), bind_run hget]
  dsimp only
  rw [if_pos (by omega), bind_run hcstr, bind_run (modify_run _ _), pure_run, followAll_buf]
  rfl

/-- the ISO name is mapped in its place -/
theorem effectiveName_iso (hrock : s.sb.s_rock = true) (hmap : s.sb.s_mapping = 'n'.toUInt8)
    (hag : Agree (s.buf b) de d r.pos (de_length d r.pos)) (hfits : RecordLaid d r.pos)
    (hsound : NameSound E s.cd_device s.log.length s.free_mem_ptr d r) (hfuel : 256 + r.areas.length ≤ fuel)
    (hne : nameOf r.texts = []) (n : Nat) :
    ∃ m', effectiveName E fuel b de n s = some (comparedLen m' (de_name de) n (mapped (isoId d r.pos)).length,
        examined E r.areas m' b s) ∧
      m'.get (de_name de) (mapped (isoId d r.pos)).length = mapped (isoId d r.pos) ∧
      ∀ x, x < de_name de ∨ de_name de + de_name_len d r.pos ≤ x → m' x = s.buf b x := by
  have hroom := hfits.room
  have hlen : de_name_len (s.buf b) de = de_name_len d r.pos := congrArg UInt8.toNat (hag 32 (by omega))
  have hid : (s.buf b).get (de_name de) (de_name_len d r.pos) = isoId d r.pos :=
    (hag.drop 33).get (by push_cast; omega)
  obtain ⟨retname, hget, -⟩ := filename_named hrock hag (by omega) hsound.texts hsound.followed hsound.stack hfuel
  obtain ⟨h1, h2, h3⟩ := mapName_run (s.buf b) (de_name de) (de_name_len d r.pos)
  rw [hid] at h1 h2
  refine ⟨_, ?_, h2, h3⟩
  unfold effectiveName
  rw [bind_run (get_run s), bind_run hget]
  dsimp only
  rw [hne, List.length_nil, if_neg (by decide), if_pos hmap, hlen, h1, bind_run (modify_run _ _)]
  rfl

/-- the effective name is put in its place: it compares as the names of the record do, and no byte is
written but the name -/
theorem effectiveName_run (hrock : s.sb.s_rock = true) (hmap : s.sb.s_mapping = 'n'.toUInt8)
    (hag : Agree (s.buf b) de d r.pos (de_length d r.pos)) (hlaid : RecordLaid d r.pos)
    (hsound : NameSound E s.cd_device s.log.length s.free_mem_ptr d r) (hfuel : 256 + r.areas.length ≤ fuel)
    (name : List UInt8) :
    ∃ m' dlen, effectiveName E fuel b de name.length s = some (dlen, examined E r.areas m' b s) ∧
      (iso_match name m' (de_name de) dlen = true ↔ Named d r.pos r.texts name) ∧
      ∀ x, x < de_name de ∨ de_name de + nameRoom d r.pos r.texts ≤ x → m' x = s.buf b x := by
  unfold Named nameRoom
  by_cases hne : nameOf r.texts = []
  · obtain ⟨m', hrun, hget, hframe⟩ := effectiveName_iso hrock hmap hag hlaid hsound hfuel hne
      name.length
    rw [if_pos hne, if_pos hne]
    exact ⟨m', _, hrun, isoName_match hlaid.id hget, hframe⟩
  · have hrun := effectiveName_rock hrock hag hlaid hsound hfuel hne name.length
    have hget : ((s.buf b).put (de_name de) (nameOf r.texts ++ [0])).get (de_name de) (nameOf r.texts).length
        = nameOf r.texts := by
      have hself := Mem.get_put_self (s.buf b) (de_name de) (nameOf r.texts ++ [0])
      rw [List.length_append, Mem.get_add] at hself
      exact (List.append_inj hself (Mem.length_get _ _ _)).1
    have h0 : nameOf r.texts ≠ [0] := fun h => texts_noNul hsound.texts (by rw [h]; exact List.mem_cons_self)
    rw [if_neg hne, if_neg hne]
    refine ⟨_, _, hrun, iso_match_text hget h0 hsound.one, fun x hx => Mem.put_out _ _ _ _ ?_⟩
    rw [List.length_append]
    exact hx

/-! ## the examination -/

/-- a record that is neither hidden nor associated -/
def Visible (d : Mem) (k : Nat) : Prop := de_flags d k 0 &&& 5 = 0

instance (d : Mem) (k : Nat) : Decidable (Visible d k) := inferInstanceAs (Decidable (_ = _))

/-- the numbers of a record are read from its bytes on the disc -/
theorem recordNumber_agree {m : Mem} (hag : Agree m de d k (de_length d k)) (hlaid : RecordLaid d k)
    (dir : Slot) (n : Nat) : recordNumber s dir m de n = recordNumber s dir d k n := by
  have hroom := hlaid.room
  have hlen : de_name_len m de = de_name_len d k := congrArg UInt8.toNat (hag 32 (by omega))
  have hattr : de_ext_attr_length m de = de_ext_attr_length d k := congrArg UInt8.toNat (hag 1 (by omega))
  have hextent : recordExtent s.sb m de = recordExtent s.sb d k := by
    rw [recordExtent, recordExtent, hattr, de_extent, hag.num 2 (by omega)]
    rfl
  unfold recordNumber
  rw [hlen, hextent]
  by_cases h1 : de_name_len d k = 1
  · have hname : m (de_name de) = d (de_name k) := hag 33 (by omega)
    rw [hname]
  · have hne : ∀ p : Prop, ¬ (p ∧ de_name_len d k = 1) := fun p hp => h1 hp.2
    dsimp only
    rw [if_neg (hne _), if_neg (hne _), if_neg (hne _), if_neg (hne _)]

/-- **The examination of a record.**  It is taken if it is visible and has the name, and no byte is written
but the name in its place. -/
theorem matchRecord_run (hrock : s.sb.s_rock = true) (hmap : s.sb.s_mapping = 'n'.toUInt8)
    (hsierra : s.sb.s_high_sierra = 0) (hhide : s.sb.s_unhide = 'n'.toUInt8)
    (hag : Agree (s.buf b) de d r.pos (de_length d r.pos)) (hlaid : RecordLaid d r.pos)
    (hsound : NameSound E s.cd_device s.log.length s.free_mem_ptr d r) (hfuel : 256 + r.areas.length ≤ fuel)
    (dir : Slot) (name : List UInt8) {n : Nat} (hn : sgn 32 (recordNumber s dir d r.pos n).1 ≠ -1) :
    ∃ m', matchRecord E fuel dir name b de n s = some (if Visible d r.pos ∧ Named d r.pos r.texts name then
        some ⟨0, (recordNumber s dir d r.pos n).1, (recordNumber s dir d r.pos n).2⟩ else none,
        examined E r.areas m' b s) ∧
      ∀ x, x < de_name de ∨ de_name de + nameRoom d r.pos r.texts ≤ x → m' x = s.buf b x := by
  obtain ⟨m', dlen, hrun, hmatch, hframe⟩ := effectiveName_run hrock hmap hag hlaid hsound hfuel name
  have hroom := hlaid.room
  have hsb : (examined E r.areas m' b s).sb = s.sb := (examined_reads E r.areas m' b s).sb
  have hflags : de_flags m' de 0 = de_flags d r.pos 0 := by
    have hbyte : m' (de + 25) = d (r.pos + 25) := by
      rw [hframe (de + 25) (.inl (by unfold de_name; omega))]
      exact hag 25 (by omega)
    exact congrArg UInt8.toNat hbyte
  have hshown : de_flags m' de 0 &&& 5 = 0 ∨ s.sb.s_unhide = 'y'.toUInt8 ↔ Visible d r.pos := by
    rw [hflags, hhide]
    exact or_iff_left (by decide)
  refine ⟨m', ?_, hframe⟩
  unfold matchRecord
  rw [bind_run (get_run s), bind_run hrun, bind_run (get_run _), examined_buf, hsb, hsierra,
    recordNumber_agree hag hlaid]
  by_cases hfound : Visible d r.pos ∧ Named d r.pos r.texts name
  · rw [if_pos hfound, if_pos ⟨hshown.mpr hfound.1, hmatch.mpr hfound.2⟩, pure_run, if_neg hn]
  · rw [if_neg hfound, if_neg fun h => hfound ⟨hshown.mp h.1, hmatch.mp h.2⟩, pure_run]

end

end Iso
