import Aboot.Lib.History
import Aboot.Tools.Disklabel

/-!
# The label that `set_partition` makes

A history of calls of `set_partition` from a zeroed label on, each with its own `force` and
`total_disk_size`; a call that is refused changes nothing.

* `WellFormed`         what the label should be like;
* `Meets`              a call that keeps it so;
* `stored_fields`      the fields that a call stores;
* `step_wellFormed`    one call;
* `label_wellFormed_iff`   the history.
-/

set_option linter.unusedVariables false

namespace Disklabel
open Word Bytes

/-! ## the stores of `set_partition` -/

/-- partition `num` stored, and the count that goes with it -/
def storePartition (d : Mem) (num : Nat) (offset size fstype : Int) : Mem :=
  let d' := ((d.put (148 + 16 * num + 4) (ofNum (uns 32 offset) 4)).put (148 + 16 * num)
    (ofNum (uns 32 size) 4)).put (148 + 16 * num + 12) (ofNum (uns 8 fstype) 1)
  if num = d_npartitions d then d'.put 138 (ofNum (d_npartitions d + 1) 2) else d'

/-- the count of partitions after partition `num` was stored -/
def countWith (n num : Nat) : Nat := if num = n then n + 1 else n

section
variable (d : Mem) (num : Nat) (offset size fstype : Int)

theorem stored_npartitions (h : d_npartitions d ≤ 8) :
    d_npartitions (storePartition d num offset size fstype) = countWith (d_npartitions d) num := by
  have hout : ∀ (m : Mem) (a : Nat) (bs : List UInt8), 148 ≤ a → (m.put a bs).le 138 2 = m.le 138 2 :=
    fun m a bs ha => le_put_out m a 138 2 bs (Or.inl (by omega))
  unfold storePartition countWith
  by_cases hn : num = d_npartitions d
  · rw [if_pos hn, if_pos hn]
    show (Mem.put _ 138 (ofNum (d_npartitions d + 1) 2)).le 138 2 = _
    rw [le_put_self]
    exact Nat.mod_eq_of_lt (by omega)
  · rw [if_neg hn, if_neg hn]
    show (Mem.put _ _ _).le 138 2 = d.le 138 2
    rw [hout _ _ _ (by omega), hout _ _ _ (by omega), hout _ _ _ (by omega)]

/-- a field of a partition is not touched by the count -/
theorem storePartition_le {a k : Nat} (ha : 140 ≤ a) :
    (storePartition d num offset size fstype).le a k
      = (((d.put (148 + 16 * num + 4) (ofNum (uns 32 offset) 4)).put (148 + 16 * num)
          (ofNum (uns 32 size) 4)).put (148 + 16 * num + 12) (ofNum (uns 8 fstype) 1)).le a k := by
  unfold storePartition
  by_cases hn : num = d_npartitions d
  · rw [if_pos hn]
    exact le_put_out _ _ _ _ _ (Or.inr (by rw [length_ofNum]; omega))
  · rw [if_neg hn]

theorem stored_size : p_size (storePartition d num offset size fstype) num = uns 32 size := by
  obtain ⟨q, -, hlt⟩ := uns32_cases size
  unfold p_size Mem.le32
  rw [storePartition_le _ _ _ _ _ (by omega),
    le_put_out _ _ _ _ _ (Or.inl (by omega)), le_put_self]
  exact Nat.mod_eq_of_lt hlt

theorem stored_offset : p_offset (storePartition d num offset size fstype) num = uns 32 offset := by
  obtain ⟨q, -, hlt⟩ := uns32_cases offset
  unfold p_offset Mem.le32
  rw [storePartition_le _ _ _ _ _ (by omega), le_put_out _ _ _ _ _ (Or.inl (by omega)),
    le_put_out _ _ _ _ _ (Or.inr (by rw [length_ofNum])), le_put_self]
  exact Nat.mod_eq_of_lt hlt

/-- the other partitions keep their sectors -/
theorem stored_other {x : Nat} (hx : x ≠ num) :
    p_size (storePartition d num offset size fstype) x = p_size d x ∧
      p_offset (storePartition d num offset size fstype) x = p_offset d x := by
  have hout : ∀ (m : Mem) (a b k : Nat) (n : Nat), (b + 4 ≤ a ∨ a + k ≤ b) →
      (m.put a (ofNum n k)).le b 4 = m.le b 4 :=
    fun m a b k n h => le_put_out m a b 4 _ (by rwa [length_ofNum])
  constructor
  · unfold p_size Mem.le32
    rw [storePartition_le _ _ _ _ _ (by omega), hout _ _ _ _ _ (by omega), hout _ _ _ _ _ (by omega),
      hout _ _ _ _ _ (by omega)]
  · unfold p_offset Mem.le32
    rw [storePartition_le _ _ _ _ _ (by omega), hout _ _ _ _ _ (by omega), hout _ _ _ _ _ (by omega),
      hout _ _ _ _ _ (by omega)]

end

/-- the size that is stored: with `force` it ends at the end of the disk -/
def storedSize (total offset size : Int) : Int :=
  if sgn 32 (offset + size) > total then sgn 32 (total - offset) else size

/-- `set_partition` refuses a partition past the end of the disk, and one that leaves a gap -/
theorem set_partition_eq (v : Vars) (num : Nat) (offset size fstype : Int) :
    set_partition v num offset size fstype =
      if (sgn 32 (offset + size) > v.total_disk_size ∨ num > d_npartitions v.d) ∧ v.force = false then none
      else some { v with
        d := storePartition v.d num offset (storedSize v.total_disk_size offset size) fstype
        label_modified := true } := by
  show (if sgn 32 (offset + size) > v.total_disk_size ∧ v.force = false then none
    else if num > d_npartitions v.d ∧ v.force = false then none
    else some { v with
      d := storePartition v.d num offset (storedSize v.total_disk_size offset size) fstype
      label_modified := true }) = _
  generalize some { v with
    d := storePartition v.d num offset (storedSize v.total_disk_size offset size) fstype
    label_modified := true } = r
  by_cases h1 : sgn 32 (offset + size) > v.total_disk_size ∧ v.force = false
  · rw [if_pos h1, if_pos ⟨Or.inl h1.1, h1.2⟩]
  · rw [if_neg h1]
    by_cases h2 : num > d_npartitions v.d ∧ v.force = false
    · rw [if_pos h2, if_pos ⟨Or.inr h2.1, h2.2⟩]
    · rw [if_neg h2, if_neg]
      rintro ⟨h | h, hforce⟩
      · exact h1 ⟨h, hforce⟩
      · exact h2 ⟨h, hforce⟩

/-! ## a history of calls -/

/-- a call of `set_partition`, with the values of the two variables that it looks at -/
structure Call where
  num : Nat
  offset : Int
  size : Int
  fstype : Int
  force : Bool
  total_disk_size : Int

/-- the numbers of a call are `int`s that are not negative, and the number of a partition below 8 -/
structure Call.Valid (c : Call) : Prop where
  num : c.num ≤ 7
  offset : 0 ≤ c.offset ∧ c.offset < 2147483648
  size : 0 ≤ c.size ∧ c.size < 2147483648
  fstype : 0 ≤ c.fstype ∧ c.fstype < 2147483648
  total : 0 ≤ c.total_disk_size ∧ c.total_disk_size < 2147483648

/-- the variables, and for each partition that was set the size of the disk that was in effect -/
structure Hist where
  vars : Vars
  sets : Nat → Option Int

def Hist.call (s : Hist) (c : Call) : Option Vars :=
  set_partition { s.vars with force := c.force, total_disk_size := c.total_disk_size } c.num c.offset
    c.size c.fstype

def Hist.step (s : Hist) (c : Call) : Hist :=
  match s.call c with
  | none => s
  | some v => ⟨v, Function.update s.sets c.num (some c.total_disk_size)⟩

/-- a zeroed label -/
def Hist.zeroed (v : Vars) : Hist := ⟨zero_disklabel v, fun _ => none⟩

/-- at most 8 partitions; those that were set are counted, and end on the disk -/
structure Hist.WellFormed (s : Hist) : Prop where
  count : d_npartitions s.vars.d ≤ 8
  counted : ∀ num T, s.sets num = some T → num < d_npartitions s.vars.d
  fits : ∀ num T, s.sets num = some T →
    (p_offset s.vars.d num : Int) + p_size s.vars.d num ≤ T

/-- a call that is refused for its gap, or leaves none, ends at an `int`, and with `force` starts on
the disk -/
def Hist.Meets (s : Hist) (c : Call) : Prop :=
  (d_npartitions s.vars.d < c.num ∧ c.force = false) ∨
  (c.num ≤ d_npartitions s.vars.d ∧ c.offset + c.size < 2147483648 ∧
    (c.force = true → c.offset ≤ c.total_disk_size))

section
variable {s : Hist} {c : Call}

theorem Hist.step_refused (h : s.call c = none) : s.step c = s := by
  rw [step, h]

theorem Hist.step_stored
    (h : ¬ ((sgn 32 (c.offset + c.size) > c.total_disk_size ∨ c.num > d_npartitions s.vars.d) ∧
      c.force = false)) :
    (s.step c).vars.d = storePartition s.vars.d c.num c.offset
        (storedSize c.total_disk_size c.offset c.size) c.fstype ∧
      (s.step c).sets = Function.update s.sets c.num (some c.total_disk_size) := by
  have hcall := set_partition_eq
    { s.vars with force := c.force, total_disk_size := c.total_disk_size } c.num c.offset c.size c.fstype
  rw [if_neg h] at hcall
  unfold step call
  rw [hcall]
  exact ⟨rfl, rfl⟩

/-- what was set before is still there after partition `c.num` is stored -/
theorem Hist.sets_stored {num : Nat} {T : Int}
    (h : Function.update s.sets c.num (some c.total_disk_size) num = some T) :
    (num = c.num ∧ T = c.total_disk_size) ∨ (num ≠ c.num ∧ s.sets num = some T) := by
  by_cases hn : num = c.num
  · rw [hn, Function.update_self] at h
    exact Or.inl ⟨hn, (Option.some.inj h).symm⟩
  · rw [Function.update_of_ne hn] at h
    exact Or.inr ⟨hn, h⟩

/-- the end of a partition that is stored as it was given -/
theorem stored_end {d : Mem} {num : Nat} {offset size fstype : Int} (h1 : 0 ≤ offset) (h2 : 0 ≤ size)
    (h3 : offset < 4294967296) (h4 : size < 4294967296) :
    (p_offset (storePartition d num offset size fstype) num : Int)
      + p_size (storePartition d num offset size fstype) num = offset + size := by
  obtain ⟨q, hq, hlt⟩ := uns32_cases offset
  obtain ⟨r, hr, hlt'⟩ := uns32_cases size
  rw [stored_offset, stored_size]
  omega

/-- what a call that meets the condition stores -/
theorem Hist.meets_size (hv : c.Valid) (hsum : c.offset + c.size < 2147483648)
    (hlt : c.offset ≤ c.total_disk_size) :
    0 ≤ storedSize c.total_disk_size c.offset c.size ∧
      c.offset + storedSize c.total_disk_size c.offset c.size ≤ c.total_disk_size ∧
      storedSize c.total_disk_size c.offset c.size < 4294967296 := by
  have ho := hv.offset
  have hs := hv.size
  have ht := hv.total
  unfold storedSize
  rw [sgn32_of_range (x := c.offset + c.size) (by omega) (by omega)]
  by_cases hbig : c.offset + c.size > c.total_disk_size
  · rw [if_pos hbig, sgn32_of_range (by omega) (by omega)]
    omega
  · rw [if_neg hbig]
    omega

theorem Hist.step_keeps (hv : c.Valid) (h : s.WellFormed) (hm : s.Meets c) : (s.step c).WellFormed := by
  have ho := hv.offset
  have hs := hv.size
  have hnum := hv.num
  by_cases hr : (sgn 32 (c.offset + c.size) > c.total_disk_size ∨ c.num > d_npartitions s.vars.d) ∧
      c.force = false
  · have hcall := set_partition_eq
      { s.vars with force := c.force, total_disk_size := c.total_disk_size } c.num c.offset c.size
      c.fstype
    rw [if_pos hr] at hcall
    rw [step_refused hcall]
    exact h
  · obtain ⟨hd, hsets⟩ := step_stored hr
    rcases hm with ⟨hgap, hf⟩ | ⟨hle, hsum, hforce⟩
    · exact absurd ⟨Or.inr hgap, hf⟩ hr
    have hstart : c.offset ≤ c.total_disk_size := by
      by_cases hf : c.force = true
      · exact hforce hf
      · have hnot : ¬ sgn 32 (c.offset + c.size) > c.total_disk_size :=
          fun e => hr ⟨Or.inl e, Bool.eq_false_iff.mpr hf⟩
        rw [sgn32_of_range (by omega) (by omega)] at hnot
        omega
    obtain ⟨hz1, hz2, hz3⟩ := meets_size hv hsum hstart
    have hcount := stored_npartitions s.vars.d c.num c.offset
      (storedSize c.total_disk_size c.offset c.size) c.fstype h.count
    have hend := @stored_end s.vars.d c.num c.offset (storedSize c.total_disk_size c.offset c.size)
      c.fstype ho.1 hz1 (by omega) hz3
    rw [← hd] at hcount hend
    unfold countWith at hcount
    refine ⟨?_, fun num T hT => ?_, fun num T hT => ?_⟩
    · rw [hcount]
      have := h.count
      split <;> omega
    · rw [hsets] at hT
      rw [hcount]
      rcases sets_stored hT with ⟨rfl, -⟩ | ⟨-, hT⟩
      · split <;> omega
      · have := h.counted num T hT
        split <;> omega
    · rw [hsets] at hT
      rcases sets_stored hT with ⟨rfl, rfl⟩ | ⟨hne, hT⟩
      · omega
      · obtain ⟨h1, h2⟩ := stored_other s.vars.d c.num c.offset
          (storedSize c.total_disk_size c.offset c.size) c.fstype hne
        rw [hd, h1, h2]
        exact h.fits num T hT

/-- a call that does not meet the condition breaks the label at once -/
theorem Hist.step_breaks (hv : c.Valid) (h : s.WellFormed) (hm : ¬ s.Meets c) :
    ¬ (s.step c).WellFormed := by
  have ho := hv.offset
  have hs := hv.size
  have ht := hv.total
  intro hw
  have hset : (s.step c).sets = Function.update s.sets c.num (some c.total_disk_size) →
      (s.step c).sets c.num = some c.total_disk_size := fun e => by rw [e, Function.update_self]
  by_cases hgap : d_npartitions s.vars.d < c.num
  · -- the partition is stored, but not counted
    have hforce : ¬ c.force = false := fun e => hm (Or.inl ⟨hgap, e⟩)
    obtain ⟨hd, hsets⟩ := step_stored (s := s) (c := c) fun e => hforce e.2
    have hlt := hw.counted c.num _ (hset hsets)
    rw [hd, stored_npartitions _ _ _ _ _ h.count, countWith, if_neg (by omega)] at hlt
    omega
  · by_cases hsum : c.offset + c.size < 2147483648
    · -- the partition starts behind the end of the disk
      have hf : c.force = true ∧ c.total_disk_size < c.offset := by
        by_contra hno
        refine hm (Or.inr ⟨by omega, hsum, fun e => ?_⟩)
        by_contra hlt
        exact hno ⟨e, by omega⟩
      obtain ⟨hd, hsets⟩ := step_stored (s := s) (c := c) fun e => absurd (hf.1.symm.trans e.2) (by decide)
      have hfit := hw.fits c.num _ (hset hsets)
      have hsize : storedSize c.total_disk_size c.offset c.size = c.total_disk_size - c.offset := by
        unfold storedSize
        rw [sgn32_of_range (x := c.offset + c.size) (by omega) (by omega), if_pos (by omega),
          sgn32_of_range (by omega) (by omega)]
      obtain ⟨q, hq, hlt⟩ := uns32_cases c.offset
      obtain ⟨r, hr, hlt'⟩ := uns32_cases (c.total_disk_size - c.offset)
      rw [hd, stored_offset, stored_size, hsize] at hfit
      omega
    · -- the end of the partition wraps around and is taken for a small one
      obtain ⟨q, hq, hlo, hhi⟩ := sgn32_cases (c.offset + c.size)
      have hsmall : ¬ sgn 32 (c.offset + c.size) > c.total_disk_size := by omega
      obtain ⟨hd, hsets⟩ := step_stored (s := s) (c := c) fun e => e.1.elim hsmall fun e => hgap e
      have hfit := hw.fits c.num _ (hset hsets)
      have hsize : storedSize c.total_disk_size c.offset c.size = c.size := if_neg hsmall
      rw [hd, hsize, stored_end ho.1 hs.1 (by omega) (by omega)] at hfit
      omega

end

theorem zeroed_wellFormed (v : Vars) : (Hist.zeroed v).WellFormed := by
  have hcount : d_npartitions (zero_disklabel v).d = 0 := by
    have hout : ∀ (m : Mem) (a : Nat) (bs : List UInt8), (138 + 2 ≤ a ∨ a + bs.length ≤ 138) →
        (m.put a bs).le 138 2 = m.le 138 2 := fun m a bs h => le_put_out m a 138 2 bs h
    unfold d_npartitions Mem.le16 zero_disklabel fixmagic
    dsimp only
    rw [hout _ _ _ (Or.inr (by decide)), hout _ _ _ (Or.inr (by rw [length_ofNum]; decide)),
      hout _ _ _ (Or.inr (by rw [length_ofNum]; decide)), hout _ _ _ (Or.inr (by rw [length_ofNum]; decide)),
      hout _ _ _ (Or.inr (by rw [length_ofNum]; decide))]
    have hzero : ∀ j < 2, v.d.put 0 (List.replicate sizeof_disklabel 0) (138 + j) = 0 := by
      intro j hj
      have hin := Mem.put_in v.d 0 (138 + j) (List.replicate sizeof_disklabel 0)
        (by rw [List.length_replicate]; show 138 + j < 276; omega)
      rw [Nat.zero_add] at hin
      rw [hin, List.getElem_replicate]
    have hle : (v.d.put 0 (List.replicate sizeof_disklabel 0)).le 138 2 = Mem.le (fun _ => 0) 138 2 :=
      le_congr hzero
    exact hle.trans rfl
  refine ⟨?_, fun num T h => ?_, fun num T h => ?_⟩
  · show d_npartitions (zero_disklabel v).d ≤ 8
    omega
  · cases h
  · cases h

instance (s : Hist) (c : Call) : Decidable (s.Meets c) := inferInstanceAs (Decidable (_ ∨ _))

/-- **the label stays well formed** exactly if every call meets the condition -/
theorem label_wellFormed_iff (v : Vars) (calls : List Call) (hv : ∀ c ∈ calls, c.Valid) :
    History.Always Hist.step Hist.WellFormed (Hist.zeroed v) calls ↔
      History.Each Hist.step Hist.Meets (Hist.zeroed v) calls := by
  apply History.always_iff_each
  · intro s c hc h
    constructor
    · intro hw
      by_contra hm
      exact Hist.step_breaks (hv c hc) h hm hw
    · exact Hist.step_keeps (hv c hc) h
  · exact zeroed_wellFormed v

/-- the variables at the start, over a cleared stack -/
def cleared : Vars := ⟨fun _ => 0, false, false, 0⟩

/-- two partitions, the second one cut at the end of the disk -/
def twoCalls : List Call := [⟨0, 512, 1000, 8, false, 2000⟩, ⟨1, 1512, 900, 8, true, 2000⟩]

theorem label_wellFormed_two : History.Always Hist.step Hist.WellFormed (Hist.zeroed cleared) twoCalls := by
  refine (label_wellFormed_iff cleared twoCalls ?_).mpr ?_
  · intro c hc
    simp only [twoCalls, List.mem_cons, List.not_mem_nil, or_false] at hc
    rcases hc with rfl | rfl
    · exact ⟨by decide, by decide, by decide, by decide, by decide⟩
    · exact ⟨by decide, by decide, by decide, by decide, by decide⟩
  · exact History.each_cons.mpr ⟨by decide +kernel, History.each_cons.mpr
      ⟨by decide +kernel, History.each_nil⟩⟩

/-- a partition whose end wraps around, on a disk of 100 sectors -/
def farCall : Call := ⟨0, 2147483647, 2147483647, 8, false, 100⟩

theorem label_broken : ((Hist.zeroed cleared).call farCall).isSome = true ∧
    ¬ History.Always Hist.step Hist.WellFormed (Hist.zeroed cleared) [farCall] := by
  refine ⟨by decide +kernel, fun h => ?_⟩
  have hvalid : farCall.Valid := ⟨by decide, by decide, by decide, by decide, by decide⟩
  exact Hist.step_breaks hvalid (zeroed_wellFormed cleared) (by decide +kernel) (h [farCall] [] rfl)

end Disklabel
