import Aboot.E2.Entries
import Aboot.E2.FileBlock

/-!
# Adding an entry to a directory

* `Directory`       a directory whose blocks are tiled by entries;
* `search_spec`     the scan of `ext2_namei` gives what `Records.scan` gives;
* `mknod_spec`      `ext2_mknod` does what `Records.insert` does;
* `mknod_keeps`     after any number of insertions the directory is tiled, and every name is found.
-/

set_option linter.unusedVariables false

namespace E2
open Word Bytes Bitmap
open Ext2 (s_blocks_per_group i_block i_blocks i_size blkptr)

/-- an inode number that the scan takes for a success -/
def Shows (v : Nat) : Prop := 0 ≤ sgn 32 v

instance : DecidablePred Shows := fun v => inferInstanceAs (Decidable (0 ≤ sgn 32 (v : Int)))

theorem shows_zero : Shows 0 := by decide

theorem shows_iff (v : Nat) : Shows v ↔ 0 ≤ sgn 32 (v : Int) := Iff.rfl

/-- a directory on a consistent file system: its blocks are mapped, in reach and tiled by entries -/
structure Directory (s : State) (i : Slot) (bs : List (List DirRec)) : Prop where
  consistent : Consistent s i
  indices : IndicesNear s i
  readonly : s.readonly = false
  size : i_size (s.inode i) = bs.length * 1024
  fits : bs.length ≤ 65548
  mapped : ∀ k, k < bs.length → (forest s i).ptr (pathOf k) ≠ 0
  near : ∀ k, k < bs.length → Near (uns 32 ((forest s i).ptr (pathOf k)))
  tiles : ∀ k (h : k < bs.length), Tiles (fileBlock s i k) 0 bs[k]

section
variable {s : State} {i : Slot} {bs : List (List DirRec)} (h : Directory s i bs)
include h

theorem Directory.sized : ∀ es ∈ bs, Records.Sized need es := by
  intro es hes
  obtain ⟨k, hk, rfl⟩ := List.getElem_of_mem hes
  exact (h.tiles k hk).sized

/-- there is one list of entries -/
theorem Directory.unique {bs' : List (List DirRec)} (h' : Directory s i bs') : bs = bs' := by
  have hlen : bs.length = bs'.length := by
    have h1 := h.size
    have h2 := h'.size
    omega
  apply List.ext_getElem hlen
  intro k hk hk'
  exact (h.tiles k hk).unique (h'.tiles k hk')

/-- after reads of blocks -/
theorem Directory.read {t : State} (ht : ReadOnly s t (contents s.bio)) : Directory t i bs := by
  obtain ⟨hcons, hforest, hc, hshape, hin, hro, -⟩ := h.consistent.read ht
  refine ⟨hcons, fun p hp h0 => ?_, hro.trans h.readonly, ?_, h.fits, fun k hk => ?_, fun k hk => ?_,
    fun k hk => ?_⟩
  · rw [hforest] at h0 ⊢
    exact h.indices p hp h0
  · rw [hin, h.size]
  · rw [hforest]
    exact h.mapped k hk
  · rw [hforest]
    exact h.near k hk
  · rw [fileBlock, hforest, hc]
    exact h.tiles k hk

/-- a block of the directory is read -/
theorem Directory.bread {t : State} (ht : ReadOnly s t (contents s.bio)) {k : Nat} (hk : k < bs.length) :
    ∃ u m, ext2_bread i k t = some (m, u) ∧ Tiles m 0 bs[k] ∧ ReadOnly s u (contents s.bio) := by
  have hd := h.read ht
  have hk' : k ≤ 65547 := by
    have := h.fits
    omega
  obtain ⟨u, hu, hru⟩ := ext2_bread_block hd.consistent hk' hd.indices (hd.mapped k hk) (hd.near k hk)
  exact ⟨u, _, hu, hd.tiles k hk, ht.trans hru⟩

end

/-! ## the numbers of the blocks -/

theorem block_number {s : State} {i : Slot} (h : Consistent s i) {k : Nat} (hk : k ≤ 65548) :
    sgn 32 (k * 1024 / uns 32 s.blocksize : Nat) = k := by
  have hunit : uns 32 s.blocksize = 1024 := by
    rw [h.limits.blocksize]
    decide
  rw [hunit, Nat.mul_div_cancel _ (by decide)]
  exact sgn32_of_range (by omega) (by omega)

theorem next_offset {s : State} {i : Slot} (h : Consistent s i) {k : Nat} (hk : k ≤ 65548) :
    uns 32 ((k * 1024 : Nat) + s.blocksize) = (k + 1) * 1024 := by
  have hsum : (k * 1024 : Nat) + s.blocksize = ((k + 1) * 1024 : Nat) := by
    rw [h.limits.blocksize]
    push_cast
    ring
  rw [hsum]
  exact uns32_natCast (by omega)

theorem drop_cons {α : Type*} {l : List α} {k : Nat} (h : k < l.length) : l.drop k = l[k] :: l.drop (k + 1) :=
  List.drop_eq_getElem_cons h

/-! ## looking up -/

/-- the inode number that the scan of a directory gives, -1 when there is none -/
def found (name : List UInt8) (bs : List (List DirRec)) : Int :=
  (Records.scan Shows name bs).elim (-1) fun v => sgn 32 v

section
variable {s : State} {i : Slot} {bs : List (List DirRec)} (h : Directory s i bs) {fuel : Nat}
  (hf : 128 < fuel) (name : List UInt8)
include h hf

/-- the scan from block `k` on -/
theorem search_from (n : Nat) : ∀ (k : Nat) (t : State), bs.length < k + n → k ≤ bs.length →
    ReadOnly s t (contents s.bio) →
    ∃ u, searchDir fuel i name n (k * 1024) t = some (found name (bs.drop k), u) := by
  induction n with
  | zero =>
    intro k t hn hk
    omega
  | succ n ih =>
    intro k t hn hk ht
    have hd := h.read ht
    have hfits := h.fits
    by_cases hend : k < bs.length
    · obtain ⟨u, m, hu, htiles, hru⟩ := h.bread ht hend
      have hsearch : searchBlock name 1024 m fuel 0
          = some ((Records.first name bs[k]).map fun (v : Nat) => sgn 32 v) :=
        searchBlock_first name htiles (by have := htiles.le; omega)
      have hbegin : searchDir fuel i name (n + 1) (k * 1024) t
          = (if 0 ≤ ((Records.first name bs[k]).map fun (v : Nat) => sgn 32 v).getD (-1)
            then pure (((Records.first name bs[k]).map fun (v : Nat) => sgn 32 v).getD (-1))
            else searchDir fuel i name n ((k + 1) * 1024) : Prog State Int) u := by
        rw [searchDir, Prog.bind_run (Prog.get_run t), if_pos (by rw [hd.size]; omega),
          block_number hd.consistent (by omega), Prog.bind_run hu, next_offset hd.consistent (by omega),
          hd.consistent.limits.blocksize, hsearch]
      rw [hbegin, drop_cons hend, found]
      obtain ⟨v, hv⟩ := ih (k + 1) u (by omega) hend hru
      cases hfirst : Records.first name bs[k] with
      | none =>
        refine ⟨v, ?_⟩
        rw [Records.scan_pass (fun w hw => by rw [hfirst] at hw; cases hw)]
        exact hv
      | some ino =>
        rw [Option.map_some, Option.getD_some]
        by_cases hshows : 0 ≤ sgn 32 (ino : Int)
        · refine ⟨u, ?_⟩
          rw [if_pos hshows, Records.scan_hit hfirst ((shows_iff ino).mpr hshows), Option.elim_some, Prog.pure_run]
        · refine ⟨v, ?_⟩
          have hpass : ∀ w, Records.first name bs[k] = some w → ¬ Shows w := by
            intro w hw
            rw [hfirst] at hw
            cases hw
            rwa [shows_iff]
          rw [if_neg hshows, Records.scan_pass hpass]
          exact hv
    · refine ⟨t, ?_⟩
      rw [searchDir, Prog.bind_run (Prog.get_run t), if_neg (by rw [hd.size]; omega),
        List.drop_eq_nil_of_le (by omega)]
      rfl

/-- **The scan gives the first entry with the name**, in the first block where its number is no
negative `int`. -/
theorem search_spec (hblocks : bs.length < fuel) :
    ∃ u, searchDir fuel i name fuel 0 s = some (found name bs, u) := by
  obtain ⟨a, ha⟩ := h.consistent.sound.coherent
  obtain rfl := contents_eq ha
  obtain ⟨u, hu⟩ := search_from h hf name fuel 0 s (by omega) (Nat.zero_le _) (ReadOnly.refl ha)
  exact ⟨u, by rw [← Nat.zero_mul 1024]; exact hu⟩

end

/-! ## inserting -/

/-- a block of the directory was written -/
theorem Directory.written {s u : State} {i : Slot} {bs : List (List DirRec)} (h : Directory s i bs)
    {k : Nat} (hk : k ≤ bs.length) (hcons : Consistent u i) (hindices : IndicesNear u i)
    (hro : u.readonly = false) (hptr : (forest u i).ptr (pathOf k) ≠ 0)
    (hnear : Near (uns 32 ((forest u i).ptr (pathOf k)))) {m : Mem} {es : List DirRec} (hes : Tiles m 0 es)
    (hblock : fileBlock u i k = buffer (m.get 0 1024))
    (hother : ∀ j, j ≤ 65547 → j ≠ k → (forest s i).ptr (pathOf j) ≠ 0 →
      (forest u i).ptr (pathOf j) = (forest s i).ptr (pathOf j) ∧ fileBlock u i j = fileBlock s i j)
    {bs' : List (List DirRec)} (hbs' : bs' = bs.take k ++ es :: bs.drop (k + 1))
    (hsize : i_size (u.inode i) = bs'.length * 1024) (hfits : bs'.length ≤ 65548) :
    Directory u i bs' := by
  have hlen : (bs.take k).length = k := by
    rw [List.length_take]
    omega
  have hold : ∀ j, j < bs'.length → j ≠ k → ∃ hj : j < bs.length, bs'[j]? = some bs[j] := by
    intro j hj hjk
    rw [hbs', List.length_append, List.length_cons, List.length_drop, hlen] at hj
    refine ⟨by omega, ?_⟩
    rw [hbs']
    rcases Nat.lt_or_gt_of_ne hjk with hlt | hgt
    · rw [List.getElem?_append_left (by omega), List.getElem?_take_of_lt hlt, List.getElem?_eq_getElem]
    · rw [List.getElem?_append_right (by omega), hlen, show j - k = (j - k - 1) + 1 by omega,
        List.getElem?_cons_succ, List.getElem?_drop, show k + 1 + (j - k - 1) = j by omega,
        List.getElem?_eq_getElem]
  have hnew : bs'[k]? = some es := by
    rw [hbs', List.getElem?_append_right (by omega), hlen, Nat.sub_self, List.getElem?_cons_zero]
  refine ⟨hcons, hindices, hro, hsize, hfits, fun j hj => ?_, fun j hj => ?_, fun j hj => ?_⟩
  · by_cases hjk : j = k
    · rwa [hjk]
    · obtain ⟨hj', -⟩ := hold j hj hjk
      rw [(hother j (by omega) hjk (h.mapped j hj')).1]
      exact h.mapped j hj'
  · by_cases hjk : j = k
    · rwa [hjk]
    · obtain ⟨hj', -⟩ := hold j hj hjk
      rw [(hother j (by omega) hjk (h.mapped j hj')).1]
      exact h.near j hj'
  · by_cases hjk : j = k
    · subst hjk
      rw [List.getElem?_eq_getElem hj] at hnew
      rw [Option.some.inj hnew, hblock]
      exact hes.congr fun x _ hx => buffer_get hx
    · obtain ⟨hj', hget⟩ := hold j hj hjk
      rw [List.getElem?_eq_getElem hj] at hget
      rw [Option.some.inj hget, (hother j (by omega) hjk (h.mapped j hj')).2]
      exact h.tiles j hj'

/-- the size of the directory is set -/
theorem Consistent.resized {s : State} {i : Slot} (h : Consistent s i) (x : Int) :
    Consistent (setSize i x s) i ∧ SameShape s (setSize i x s) ∧
      (∀ p, Path p → (forest (setSize i x s) i).ptr p = (forest s i).ptr p) := by
  have hptr : ∀ p, Path p → (forest (setSize i x s) i).ptr p = (forest s i).ptr p := by
    apply Radix.ptr_congr path_closed
    · intro k _
      rw [forest_root, forest_root, setSize_block]
    · intro j k p _ _
      rw [forest_entry, forest_entry]
      rfl
  have haside : Aside s s := ⟨SameShape.refl s, fun _ _ => rfl, rfl, rfl⟩
  obtain ⟨hcons, hshape, -, -⟩ := consistent_of h h.sound haside (N := []) (fun x hx => by cases hx)
    (fun x _ => by simp) (Gives.same rfl rfl fun _ _ => rfl) (f := (setSize i x s).inode_table) (b := s.bio) (l := s.asked)
    (t := setSize i x s) h.sound.coherent rfl (fun _ _ _ => rfl) rfl
    (fun p hp _ => Or.inl ⟨p, hp, hptr p hp⟩)
    (fun p q hp hq hne e => by
      rw [hptr p hp] at hne e
      rw [hptr q hq] at e
      exact h.distinct p q hp hq hne e)
  exact ⟨hcons, hshape, hptr⟩

section
variable {s t : State} {i : Slot} (h : Consistent s i) (ht : ReadOnly s t (contents s.bio)) {k : Nat}
include h ht

/-- reads change nothing about what can be allocated -/
theorem Provided.read (hp : Provided s i k) : Provided t i k := by
  obtain ⟨hgrown, hforest, -⟩ := h.still ht
  have hsup : supply t = supply s := hgrown.supply
  rw [Provided, missing, hforest, hsup]
  exact hp

/-- and nothing about what is in reach -/
theorem Ready.read (hs : Ready s i (draws s i k) (missing s i k)) :
    Ready t i (draws t i k) (missing t i k) := by
  obtain ⟨hgrown, hforest, -⟩ := h.still ht
  rw [draws, missing, hforest]
  exact hgrown.ready hforest hs

theorem BlockNear.read (hb : BlockNear s i k) : BlockNear t i k := by
  obtain ⟨hgrown, hforest, -⟩ := h.still ht
  have hlist : freeList t = freeList s := hgrown.gives.list.symm
  rw [BlockNear, missing, hforest, hlist]
  exact hb

end

/-- a block that is mapped needs no other blocks -/
theorem Directory.ready {s : State} {i : Slot} {bs : List (List DirRec)} (h : Directory s i bs) {k : Nat}
    (hk : k < bs.length) : Ready s i (draws s i k) (missing s i k) ∧ BlockNear s i k := by
  have h0 := h.mapped k hk
  have hfits := h.fits
  rw [draws, if_neg h0, missing_eq_zero (by omega) h0, BlockNear, if_neg h0]
  refine ⟨⟨h.indices, fun g _ _ hlen => absurd hlen (Nat.not_lt_zero _), fun x hx => ?_⟩, h.near k hk⟩
  cases hx

/-- the only entry of a new block -/
theorem setRecLen_setName (m : Mem) (o : Nat) (name : List UInt8) (ino len : Int) :
    setRecLen (setName m o name ino) o len = setName (setRecLen m o len) o name ino := by
  have hcomm : ∀ (m' : Mem) (a : Nat) (d : List UInt8), a + d.length ≤ o + 4 ∨ o + 6 ≤ a →
      (m'.put a d).put (o + 4) (ofNum (uns 16 len) 2) = (m'.put (o + 4) (ofNum (uns 16 len) 2)).put a d := by
    intro m' a d ha
    apply Mem.put_comm
    rw [length_ofNum]
    omega
  unfold setRecLen setName
  rw [Int.toNat_natCast, hcomm _ _ _ (Or.inr (by omega)), hcomm _ _ _ (Or.inr (le_refl _)),
    hcomm _ _ _ (Or.inl (by rw [length_ofNum]))]

theorem tiles_single (m : Mem) {name : List UInt8} (hname : name.length ≤ 255) (ino : Int) :
    Tiles (setRecLen (setName m (0 : Nat) name ino) (0 : Nat) 1024) 0 [⟨name, uns 32 ino, 1024⟩] := by
  have hneed : need name ≤ 1024 := by
    unfold need
    omega
  rw [setRecLen_setName]
  exact ⟨setName_entry (setRecLen_self m 0 (by decide)) hneed (by decide) hname ino, rfl⟩

/-- a block for a file can be had, in reach -/
structure Grows (s : State) (i : Slot) (k : Nat) : Prop where
  fits : k ≤ 65547
  provided : Provided s i k
  ready : Ready s i (draws s i k) (missing s i k)
  near : BlockNear s i k

section
variable {s : State} {i : Slot} {bs : List (List DirRec)} (h : Directory s i bs) {fuel : Nat}
  (hf : 128 < fuel) {name : List UInt8} (hname : name.length ≤ 255) (ino : Int)
include h hf hname

omit hname in
/-- a round of the loop in block `k`, with what `findRoom` gives there -/
theorem mknod_round {k : Nat} (hend : k < bs.length) {t : State} (ht : ReadOnly s t (contents s.bio))
    (dirbuf : Mem) (n : Nat) :
    ∃ u m, ReadOnly s u (contents s.bio) ∧ Tiles m 0 bs[k] ∧ bs[k].length < fuel ∧
      ∀ r, findRoom name.length 1024 m fuel 0 = some r →
        mknodLoop fuel i name ino (n + 1) (k * 1024) dirbuf t = (match r with
          | some (dp, buf) => ext2_bwrite i k (setName buf dp name ino)
          | none => mknodLoop fuel i name ino n ((k + 1) * 1024) m : Prog State Unit) u := by
  have hd := h.read ht
  have hfits := h.fits
  obtain ⟨u, m, hu, htiles, hru⟩ := h.bread ht hend
  have hshort : bs[k].length < fuel := by
    have := htiles.le
    omega
  refine ⟨u, m, hru, htiles, hshort, fun r hr => ?_⟩
  rw [mknodLoop, Prog.bind_run (Prog.get_run t), if_pos (by rw [hd.size]; omega),
    block_number hd.consistent (by omega), Prog.bind_run hu, next_offset hd.consistent (by omega),
    hd.consistent.limits.blocksize, hr]
  cases r <;> rfl

omit hf hname in
/-- the entry goes into block `k`, which is in `u` -/
theorem mknod_fit {k : Nat} (hend : k < bs.length) {u : State} (hru : ReadOnly s u (contents s.bio)) {m : Mem}
    {es' : List DirRec} (htiles : Tiles m 0 es')
    (hfit : Records.fit need name (uns 32 ino) bs[k] = some es') :
    ∃ w, ext2_bwrite i k m u = some ((), w) ∧
      Directory w i (bs.take k ++ Records.insert need 1024 name (uns 32 ino) (bs.drop k)) := by
  have hdu := h.read hru
  have hfits := h.fits
  obtain ⟨hready, hnear⟩ := hdu.ready hend
  obtain ⟨w, hw, hcons, hindices, hro, hsize, hptr, hnear, hblock, hother⟩ :=
    ext2_bwrite_block hdu.consistent (show k ≤ 65547 by omega) hready hnear hdu.readonly m
      (Or.inl (hdu.mapped k hend))
  refine ⟨w, hw, ?_⟩
  have hins : Records.insert need 1024 name (uns 32 ino) (bs.drop k) = es' :: bs.drop (k + 1) := by
    rw [drop_cons hend, Records.insert, hfit]
  have hlen : (bs.take k ++ es' :: bs.drop (k + 1)).length = bs.length := by
    rw [List.length_append, List.length_take, List.length_cons, List.length_drop]
    omega
  rw [hins]
  refine hdu.written (le_of_lt hend) hcons hindices hro hptr hnear htiles hblock hother rfl ?_ ?_
  · rw [hsize, hdu.size, hlen]
  · rw [hlen]
    exact hfits

omit hf in
/-- the entry goes into a new block -/
theorem mknod_new {t : State} (ht : ReadOnly s t (contents s.bio)) (dirbuf : Mem) (n : Nat)
    (hp : Grows s i bs.length) :
    ∃ u, mknodLoop fuel i name ino (n + 1) (bs.length * 1024) dirbuf t = some ((), u) ∧
      Directory u i (bs.take bs.length ++ Records.insert need 1024 name (uns 32 ino) (bs.drop bs.length)) := by
  have hd := h.read ht
  have hfits := h.fits
  have hk := hp.fits
  generalize hm : setRecLen (setName dirbuf 0 name ino) 0 1024 = m
  have htiles : Tiles m 0 [⟨name, uns 32 ino, 1024⟩] := by
    rw [← hm]
    exact tiles_single dirbuf hname ino
  obtain ⟨w, hw, hcons, hindices, hro, hsize, hptr, hnear, hblock, hother⟩ :=
    ext2_bwrite_block hd.consistent hk (hp.ready.read h.consistent ht) (hp.near.read h.consistent ht)
      hd.readonly m (hp.provided.read h.consistent ht)
  refine ⟨setSize i (i_size (w.inode i) + w.blocksize) w, ?_, ?_⟩
  · rw [mknodLoop, Prog.bind_run (Prog.get_run t), if_neg (by rw [hd.size]; omega), hd.size,
      block_number hd.consistent hfits, hd.consistent.limits.blocksize, hm, Prog.bind_run hw]
    rfl
  · obtain ⟨hcons', hshape, hsame⟩ := hcons.resized (i_size (w.inode i) + w.blocksize)
    have hlen : (bs.take bs.length ++ [⟨name, uns 32 ino, 1024⟩] :: bs.drop (bs.length + 1)).length
        = bs.length + 1 := by
      rw [List.length_append, List.length_take, List.length_cons, List.length_drop]
      omega
    have hdata : ∀ j, j ≤ 65547 →
        fileBlock (setSize i (i_size (w.inode i) + w.blocksize) w) i j = fileBlock w i j := by
      intro j hj
      rw [fileBlock, fileBlock, hsame _ (pathOf_path hj)]
      rfl
    have hins : Records.insert need 1024 name (uns 32 ino) (bs.drop bs.length)
        = [⟨name, uns 32 ino, 1024⟩] :: bs.drop (bs.length + 1) := by
      rw [List.drop_length, List.drop_eq_nil_of_le (by omega), Records.insert]
    rw [hins]
    refine hd.written (le_refl _) hcons' (fun p hp h0 => ?_) hro ?_ ?_ htiles ?_ (fun j hj hjk hj0 => ?_)
      rfl ?_ ?_
    · rw [hsame p hp.path] at h0 ⊢
      exact hindices p hp h0
    · rwa [hsame _ (pathOf_path hk)]
    · rwa [hsame _ (pathOf_path hk)]
    · rw [hdata _ hk, hblock]
    · rw [hsame _ (pathOf_path hj), hdata j hj]
      exact hother j hj hjk hj0
    · rw [setSize_size, hsize, hd.size, next_offset hcons hfits, hlen]
    · rw [hlen]
      omega

/-- the insertion from block `k` on -/
theorem mknod_from (n : Nat) : ∀ (k : Nat) (t : State) (dirbuf : Mem), bs.length < k + n → k ≤ bs.length →
    ReadOnly s t (contents s.bio) →
    ((∃ es ∈ bs.drop k, Records.fit need name (uns 32 ino) es ≠ none) ∨ Grows s i bs.length) →
    ∃ u, mknodLoop fuel i name ino n (k * 1024) dirbuf t = some ((), u) ∧
      Directory u i (bs.take k ++ Records.insert need 1024 name (uns 32 ino) (bs.drop k)) := by
  induction n with
  | zero =>
    intro k t dirbuf hn hk
    omega
  | succ n ih =>
    intro k t dirbuf hn hk ht hroom
    by_cases hend : k < bs.length
    · obtain ⟨u, m, hru, htiles, hshort, hround⟩ := mknod_round h hf ino hend ht dirbuf n
      cases hfit : Records.fit need name (uns 32 ino) bs[k] with
      | some es' =>
        obtain ⟨dp, buf, hfind, htiles', -⟩ := findRoom_fit hname htiles hshort hfit
        rw [hround _ hfind]
        exact mknod_fit h ino hend hru htiles' hfit
      | none =>
        have hroom' : (∃ es ∈ bs.drop (k + 1), Records.fit need name (uns 32 ino) es ≠ none) ∨
            Grows s i bs.length := by
          rcases hroom with ⟨es, hes, hne⟩ | hp
          · rw [drop_cons hend] at hes
            rcases List.mem_cons.mp hes with rfl | hes
            · exact absurd hfit hne
            · exact Or.inl ⟨es, hes, hne⟩
          · exact Or.inr hp
        obtain ⟨w, hw, hdir⟩ := ih (k + 1) u m (by omega) hend hru hroom'
        refine ⟨w, by rw [hround _ (findRoom_none htiles hshort hfit)]; exact hw, ?_⟩
        rw [drop_cons hend, Records.insert, hfit]
        rwa [List.take_succ_eq_append_getElem hend, List.append_assoc] at hdir
    · obtain rfl : k = bs.length := by omega
      have hp : Grows s i bs.length := by
        rcases hroom with ⟨es, hes, -⟩ | hp
        · rw [List.drop_length] at hes
          cases hes
        · exact hp
      exact mknod_new h hname ino ht dirbuf n hp

/-- **`ext2_mknod` places the entry first fit**, in a new block when there is no room. -/
theorem mknod_spec (hblocks : bs.length < fuel)
    (hroom : (∃ es ∈ bs, Records.fit need name (uns 32 ino) es ≠ none) ∨ Grows s i bs.length) :
    ∃ u, ext2_mknod fuel i name ino s = some ((), u) ∧
      Directory u i (Records.insert need 1024 name (uns 32 ino) bs) := by
  obtain ⟨a, ha⟩ := h.consistent.sound.coherent
  obtain rfl := contents_eq ha
  obtain ⟨u, hu, hdir⟩ := mknod_from h hf hname ino fuel 0 s s.stack (by omega) (Nat.zero_le _)
    (ReadOnly.refl ha) hroom
  refine ⟨u, ?_, hdir⟩
  unfold ext2_mknod
  rw [Prog.bind_run (Prog.get_run s), ← Nat.zero_mul 1024]
  exact hu

end

/-! ## any number of insertions -/

/-- a name that an entry in use has -/
def InUse (s : State) (i : Slot) (name : List UInt8) : Prop :=
  ∃ bs, Directory s i bs ∧ Records.UsedIn name bs

/-- the inode number that the scan of the directory gives -/
def lookup (fuel : Nat) (s : State) (i : Slot) (name : List UInt8) : Option Int :=
  (searchDir fuel i name fuel 0 s).map Prod.fst

/-- a new name, and an inode number for it; there is room in a block, or a new block is allocated
and what the allocation reads and writes is in reach -/
structure Insertable (s : State) (i : Slot) (name : List UInt8) (ino : Int) : Prop where
  nonempty : 1 ≤ name.length
  length : name.length ≤ 255
  fresh : ¬ InUse s i name
  pos : 0 < ino
  int : ino < 2147483648
  room : ∀ bs, Directory s i bs → (∃ es ∈ bs, Records.fit need name (uns 32 ino) es ≠ none) ∨
    (∀ b t, ext2_blkno i bs.length true s = some (b, t) → b ≠ 0) ∧
      (bs.length ≤ 65547 → Ready s i (draws s i bs.length) (missing s i bs.length) ∧
        BlockNear s i bs.length)

/-- a run of insertions, the last one first -/
inductive Inserted (fuel : Nat) (i : Slot) (s₀ : State) : List (List UInt8 × Int) → State → Prop
  | start : Inserted fuel i s₀ [] s₀
  | insert {l : List (List UInt8 × Int)} {s t : State} {name : List UInt8} {ino : Int} :
      Inserted fuel i s₀ l s → Insertable s i name ino → ext2_mknod fuel i name ino s = some ((), t) →
      Inserted fuel i s₀ ((name, ino) :: l) t

/-- one insertion, on the list of entries -/
theorem insert_step {s : State} {i : Slot} {bs : List (List DirRec)} (h : Directory s i bs) {fuel : Nat}
    (hf : 65550 ≤ fuel) {name : List UInt8} {ino : Int} (hi : Insertable s i name ino) :
    ∃ u, ext2_mknod fuel i name ino s = some ((), u) ∧
      Directory u i (Records.insert need 1024 name (uns 32 ino) bs) := by
  have hfits := h.fits
  refine mknod_spec h (by omega) hi.length ino (by omega) ?_
  rcases hi.room bs h with hroom | ⟨hgiven, hreach⟩
  · exact Or.inl hroom
  · refine Or.inr ?_
    rcases Nat.lt_or_ge 65547 bs.length with hlong | hlen
    · exact absurd rfl (hgiven 0 s (blkno_beyond h.consistent hlong true))
    · obtain ⟨hready, hnear⟩ := hreach hlen
      obtain ⟨b, t, hrun, hiff, -⟩ := blkno_given h.consistent hlen hready h.readonly
      exact ⟨hlen, hiff.mp (hgiven b t hrun), hready, hnear⟩

section
variable {s : State} {i : Slot} {name : List UInt8} {ino : Int} (hi : Insertable s i name ino)
include hi

theorem Insertable.value : uns 32 ino ≠ 0 ∧ sgn 32 (uns 32 ino : Int) = ino ∧ Shows (uns 32 ino) := by
  have hpos := hi.pos
  have hint := hi.int
  have hback : sgn 32 (uns 32 ino : Int) = ino := by
    rw [sgn32_uns32]
    exact sgn32_of_range (by omega) hint
  refine ⟨fun e => ?_, hback, ?_⟩
  · rw [e] at hback
    have h0 : sgn 32 ((0 : Nat) : Int) = 0 := by decide
    omega
  · rw [shows_iff, hback]
    omega

variable {bs : List (List DirRec)} (h : Directory s i bs)
include h

theorem found_self : found name (Records.insert need 1024 name (uns 32 ino) bs) = ino := by
  obtain ⟨-, hback, hshows⟩ := hi.value
  rw [found, Records.scan_insert 1024 Shows hshows h.sized fun hu => hi.fresh ⟨bs, h, hu⟩,
    Option.elim_some, hback]

variable (hshown : Records.Shown Shows bs)
include hshown

theorem found_other {name' : List UInt8} (hu : Records.UsedIn name' bs) :
    found name' (Records.insert need 1024 name (uns 32 ino) bs) = found name' bs := by
  have hne : name' ≠ name := by
    rintro rfl
    exact hi.fresh ⟨bs, h, hu⟩
  rw [found, found, Records.scan_insert_ne 1024 Shows shows_zero hne (hshown name' hu)]

theorem shown_step : Records.Shown Shows (Records.insert need 1024 name (uns 32 ino) bs) := by
  obtain ⟨hne, -, hshows⟩ := hi.value
  exact Records.shown_insert 1024 hne Shows shows_zero hshows h.sized (fun hu => hi.fresh ⟨bs, h, hu⟩) hshown

end

theorem lookup_found {s : State} {i : Slot} {bs : List (List DirRec)} (h : Directory s i bs) {fuel : Nat}
    (hf : 65550 ≤ fuel) (name : List UInt8) : lookup fuel s i name = some (found name bs) := by
  have hfits := h.fits
  obtain ⟨u, hu⟩ := search_spec h (show 128 < fuel by omega) name (by omega)
  rw [lookup, hu]
  rfl

section
variable {s₀ : State} {i : Slot} {bs₀ : List (List DirRec)} (h : Directory s₀ i bs₀)
  (hshown : Records.Shown Shows bs₀) {fuel : Nat} (hf : 65550 ≤ fuel)
include h hshown hf

/-- what holds after every insertion -/
theorem inserted_invariant {l : List (List UInt8 × Int)} {s : State} (hr : Inserted fuel i s₀ l s) :
    ∃ bs, Directory s i bs ∧ Records.Shown Shows bs ∧
      (∀ p ∈ l, found p.1 bs = p.2 ∧ Records.UsedIn p.1 bs) ∧
      ∀ name, Records.UsedIn name bs₀ → found name bs = found name bs₀ ∧ Records.UsedIn name bs := by
  induction hr with
  | start =>
    refine ⟨bs₀, h, hshown, fun p hp => ?_, fun name hu => ⟨rfl, hu⟩⟩
    cases hp
  | @insert l s t name ino _ hi hrun ih =>
    obtain ⟨bs, hd, hsh, hnew, hold⟩ := ih
    obtain ⟨u, hu, hdu⟩ := insert_step hd hf hi
    obtain ⟨-, rfl⟩ := Prod.mk.inj (Option.some.inj (hrun.symm.trans hu))
    obtain ⟨hne, -, -⟩ := hi.value
    have hused : ∀ name', Records.UsedIn name' bs →
        Records.UsedIn name' (Records.insert need 1024 name (uns 32 ino) bs) :=
      fun name' hu' => (Records.usedIn_insert 1024 hne name').mpr (Or.inr hu')
    refine ⟨_, hdu, shown_step hi hd hsh, fun p hp => ?_, fun name' hu' => ?_⟩
    · rcases List.mem_cons.mp hp with rfl | hp
      · exact ⟨found_self hi hd, (Records.usedIn_insert 1024 hne name).mpr (Or.inl rfl)⟩
      · obtain ⟨hfound, hu'⟩ := hnew p hp
        exact ⟨(found_other hi hd hsh hu').trans hfound, hused p.1 hu'⟩
    · obtain ⟨hfound, hu''⟩ := hold name' hu'
      exact ⟨(found_other hi hd hsh hu'').trans hfound, hused name' hu''⟩

/-- **After any number of insertions** the directory is tiled by entries, every name that was inserted
is found, every name that was in use is found as before, and the next insertion succeeds: as long as no
entry that is not in use stops the scan for a name in use. -/
theorem mknod_keeps {l : List (List UInt8 × Int)} {s : State} (hr : Inserted fuel i s₀ l s) :
    (∃ bs, Directory s i bs) ∧ (∀ p ∈ l, lookup fuel s i p.1 = some p.2) ∧
      (∀ name, InUse s₀ i name → lookup fuel s i name = lookup fuel s₀ i name) ∧
      ∀ name ino, Insertable s i name ino → ∃ t, ext2_mknod fuel i name ino s = some ((), t) := by
  obtain ⟨bs, hd, -, hnew, hold⟩ := inserted_invariant h hshown hf hr
  refine ⟨⟨bs, hd⟩, fun p hp => ?_, fun name hu => ?_, fun name ino hi => ?_⟩
  · rw [lookup_found hd hf, (hnew p hp).1]
  · obtain ⟨bs', hd', hu'⟩ := hu
    rw [h.unique hd'] at *
    rw [lookup_found hd hf, lookup_found hd' hf, (hold name hu').1]
  · obtain ⟨t, ht, -⟩ := insert_step hd hf hi
    exact ⟨t, ht⟩

end

/-! ## directories of one block -/

/-- the bytes of an entry -/
def entryBytes (e : DirRec) : List UInt8 :=
  ofNum e.val 4 ++ ofNum e.len 2 ++ ofNum e.key.length 2 ++ e.key
    ++ List.replicate (e.len - 8 - e.key.length) 0

/-- a directory whose only block is block 40 -/
def dirFile (es : List DirRec) (i : Slot) : State :=
  setSize i 1024 (lone (fullDisk.put 40960 (es.flatMap entryBytes)) i 0 40)

theorem dirFile_directory {es : List DirRec} (hlen : (es.flatMap entryBytes).length = 1024)
    (htiles : Tiles (buffer (es.flatMap entryBytes)) 0 es) (i : Slot) : Directory (dirFile es i) i [es] := by
  have hdisk : ∀ x, x < 40 * 1024 ∨ (40 + 1) * 1024 ≤ x →
      fullDisk.put 40960 (es.flatMap entryBytes) x = fullDisk x := by
    intro x hx
    apply Mem.put_out
    rw [hlen]
    omega
  have hleaf : 12 ≤ 0 → ∀ x, 40 * 1024 ≤ x → x < (40 + 1) * 1024 →
      fullDisk.put 40960 (es.flatMap entryBytes) x = 0 := by
    intro h12
    cases h12
  have hlone := lone_consistent i 0 (by decide) (by decide) hdisk hleaf
  obtain ⟨hcons, hshape, hptr⟩ := hlone.resized 1024
  have hpath : Path (pathOf 0) := pathOf_path (by decide)
  have hptr0 : (forest (dirFile es i) i).ptr (pathOf 0) = 40 := by
    refine (hptr _ hpath).trans ?_
    exact lone_ptr i (by decide) (by decide) hleaf hpath
  have hsmall := hshape.small (lone_small _ i 0 40)
  refine ⟨hcons, (hsmall.ready hcons 0 0).indices, rfl, ?_, ?_, fun k hk => ?_, fun k hk => ?_,
    fun k hk => ?_⟩
  · refine (setSize_size i 1024 _).trans ?_
    rw [List.length_singleton]
    decide
  · rw [List.length_singleton]
    decide
  · obtain rfl : k = 0 := by
      rw [List.length_singleton] at hk
      omega
    rw [hptr0]
    decide
  · obtain rfl : k = 0 := by
      rw [List.length_singleton] at hk
      omega
    rw [hptr0, Near]
    decide
  · obtain rfl : k = 0 := by
      rw [List.length_singleton] at hk
      omega
    have huns : uns 32 40 = 40 := by decide
    apply htiles.congr
    intro x _ hx
    rw [fileBlock, hptr0, huns]
    show buffer (contents (lone _ i 0 40).bio 40) x = _
    rw [lone_contents, buffer_get_at _ hx, Mem.put_in _ _ x _ (by omega), buffer, List.getD_eq_getElem?_getD,
      List.getElem?_eq_getElem (by omega), Option.getD_some]

/-- one entry, with space behind it -/
def roomy : List DirRec := [⟨[97], 12, 1024⟩]

theorem roomy_directory (i : Slot) : Directory (dirFile roomy i) i [roomy] :=
  dirFile_directory (by decide +kernel) (by decide +kernel) i

theorem roomy_used {name : List UInt8} (h : Records.UsedIn name [roomy]) : name = [97] := by
  simp only [Records.UsedIn, Records.Used, roomy, List.mem_singleton, exists_eq_left] at h
  exact h.1.symm

theorem roomy_insertable (i : Slot) : Insertable (dirFile roomy i) i [98] 13 := by
  refine ⟨by decide, by decide, ?_, by decide, by decide, fun bs h => ?_⟩
  · rintro ⟨bs, h, hu⟩
    rw [← (roomy_directory i).unique h] at hu
    have := roomy_used hu
    simp at this
  · rw [← (roomy_directory i).unique h]
    exact Or.inl ⟨roomy, List.mem_singleton_self _, by decide⟩

theorem mknod_keeps_roomy : ∃ t, Inserted 65550 0 (dirFile roomy 0) [([98], 13)] t ∧
    (∃ bs, Directory t 0 bs) ∧ lookup 65550 t 0 [98] = some 13 ∧
    lookup 65550 t 0 [97] = lookup 65550 (dirFile roomy 0) 0 [97] := by
  obtain ⟨t, ht, -⟩ := insert_step (roomy_directory 0) (le_refl _) (roomy_insertable 0)
  have hr := Inserted.insert .start (roomy_insertable 0) ht
  have hshown : Records.Shown Shows [roomy] := by
    intro name hu
    rw [roomy_used hu]
    decide
  have hused : InUse (dirFile roomy 0) 0 [97] := by
    refine ⟨_, roomy_directory 0, roomy, List.mem_singleton_self _, ⟨[97], 12, 1024⟩, ?_, rfl, ?_⟩
    · exact List.mem_singleton_self _
    · decide
  obtain ⟨hdir, hnew, hold, -⟩ := mknod_keeps (roomy_directory 0) hshown (le_refl _) hr
  have hself := hnew ([98], 13) (List.mem_singleton_self _)
  have hother := hold [97] hused
  exact ⟨t, hr, hdir, hself, hother⟩

/-- two entries that are not in use come before those in use with their names -/
def stale : List DirRec := [⟨[97], 0, 12⟩, ⟨[99], 0, 12⟩, ⟨[97], 12, 12⟩, ⟨[99], 14, 988⟩]

theorem stale_directory (i : Slot) : Directory (dirFile stale i) i [stale] :=
  dirFile_directory (by decide +kernel) (by decide +kernel) i

theorem stale_insertable (i : Slot) : Insertable (dirFile stale i) i [98] 20 := by
  refine ⟨by decide, by decide, ?_, by decide, by decide, fun bs h => ?_⟩
  · rintro ⟨bs, h, hu⟩
    rw [← (stale_directory i).unique h] at hu
    simp [Records.UsedIn, Records.Used, stale] at hu
  · rw [← (stale_directory i).unique h]
    exact Or.inl ⟨stale, List.mem_singleton_self _, by decide⟩

/-- the scan finds inode 0 for both names; when the first entry is taken for another name, it finds
the inode of one of them, and still 0 for the other -/
theorem mknod_stale : Directory (dirFile stale 0) 0 [stale] ∧ Insertable (dirFile stale 0) 0 [98] 20 ∧
    InUse (dirFile stale 0) 0 [97] ∧ InUse (dirFile stale 0) 0 [99] ∧
    lookup 65550 (dirFile stale 0) 0 [97] = some 0 ∧
    ∃ t, ext2_mknod 65550 0 [98] 20 (dirFile stale 0) = some ((), t) ∧
      lookup 65550 t 0 [97] = some 12 ∧ lookup 65550 t 0 [99] = some 0 := by
  obtain ⟨t, ht, hdt⟩ := insert_step (stale_directory 0) (le_refl _) (stale_insertable 0)
  have huns : uns 32 20 = 20 := by decide
  rw [huns] at hdt
  refine ⟨stale_directory 0, stale_insertable 0, ⟨_, stale_directory 0, ?_⟩, ⟨_, stale_directory 0, ?_⟩, ?_,
    t, ht, ?_, ?_⟩
  · exact ⟨stale, List.mem_singleton_self _, ⟨[97], 12, 12⟩, by simp [stale], rfl, by decide⟩
  · exact ⟨stale, List.mem_singleton_self _, ⟨[99], 14, 988⟩, by simp [stale], rfl, by decide⟩
  · rw [lookup_found (stale_directory 0) (le_refl _)]
    decide
  · rw [lookup_found hdt (le_refl _)]
    decide
  · rw [lookup_found hdt (le_refl _)]
    decide

end E2
