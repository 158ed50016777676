import Aboot.Bio.Held
import Aboot.E2.Impl

/-!
# The ext2 writer over the block buffers

`Bio.Held s.bio a` says that the buffers of a state stand for the array of blocks `a`.

* `contents`    the block that the buffers, or else the device, have for a block number;
* `contents_eq`   that it is the array's;
* `bread_run`, `bwrite_run`   what `bread` and `bwrite` do to it;
* `view`        the bytes of the device as the array has them.
-/

set_option linter.unusedVariables false

namespace E2

/-- the contents of a block: what a buffer has, else what the device has -/
def contents (s : Bio.State) (b : Nat) : List UInt8 :=
  match (List.finRange Bio.NBUFS).find? fun i =>
      (s.buflist i).data.isSome && (s.buflist i).blkno == (b : Int) with
  | some i => (s.buflist i).data.getD []
  | none => Bio.dblock s b

theorem contents_eq {s : Bio.State} {a : Nat → List UInt8} (h : Bio.Held s a) : contents s = a := by
  funext b
  unfold contents
  cases hl : (List.finRange Bio.NBUFS).find? fun i =>
      (s.buflist i).data.isSome && (s.buflist i).blkno == (b : Int) with
  | some i =>
    have hi := List.find?_some hl
    simp only [Bool.and_eq_true, beq_iff_eq] at hi
    obtain ⟨d, hd⟩ := Option.isSome_iff_exists.mp hi.1
    show (s.buflist i).data.getD [] = a b
    rw [hd]
    exact h.hit hi.2 hd
  | none =>
    refine h.coh.miss b fun i hi => ?_
    have hn := List.find?_eq_none.mp hl i (List.mem_finRange i)
    obtain ⟨h1, h2⟩ := Bio.of_heldSlot_key hi
    rw [h1, h2] at hn
    simp at hn

/-- the byte at an offset of the device, as the blocks have it -/
def view (a : Nat → List UInt8) (bs : Nat) (x : Nat) : UInt8 := buffer (a (x / bs)) (x % bs)

theorem buffer_get_at {m : Mem} (a : Nat) {n k : Nat} (hk : k < n) :
    buffer (m.get a n) k = m (a + k) := by
  rw [buffer, List.getD_eq_getElem?_getD, Mem.get_getElem? m a n k hk, Option.getD_some]

theorem buffer_get {m : Mem} {n k : Nat} (hk : k < n) : buffer (m.get 0 n) k = m k := by
  rw [buffer_get_at 0 hk, Nat.zero_add]

theorem buffer_whole {l : List UInt8} {n : Nat} (h : l.length = n) : (buffer l).get 0 n = l := by
  apply List.ext_getElem
  · rw [Mem.length_get, h]
  · intro k hk hk'
    simp [Mem.get, buffer, hk']

theorem bread_run {s : State} {a : Nat → List UInt8} (h : Bio.Held s.bio a) {n : Nat} (hn : 1 ≤ n)
    (hr : (n + 1) * s.bio.bio_blocksize ≤ 2147483648) :
    ∃ b, bread n s = some (buffer (a n), s.over b (n :: s.asked)) ∧ Bio.Held b a ∧
      b.bio_blocksize = s.bio.bio_blocksize := by
  obtain ⟨d, b, hb⟩ := Bio.bread_returns h hn
  obtain ⟨rfl, hi, hs⟩ := Bio.bread_held h hr hb
  refine ⟨b, ?_, hi, hs⟩
  rw [bread, hb]
  rfl

theorem bwrite_run {s : State} {a : Nat → List UInt8} (h : Bio.Held s.bio a) {n : Nat} (hn : 1 ≤ n)
    (hr : (n + 1) * s.bio.bio_blocksize ≤ 2147483648) (m : Mem) :
    ∃ b, bwrite n m s = some ((), s.over b (n :: s.asked)) ∧
      Bio.Held b (Function.update a n (m.get 0 s.bio.bio_blocksize)) ∧
      b.bio_blocksize = s.bio.bio_blocksize := by
  obtain ⟨b, hb⟩ := Bio.bwrite_returns h hn (m.get 0 s.bio.bio_blocksize)
  obtain ⟨hi, hs⟩ := Bio.bwrite_held h hr (Mem.length_get m 0 s.bio.bio_blocksize) hb
  refine ⟨b, ?_, hi, hs⟩
  rw [bwrite, hb]
  rfl

end E2
