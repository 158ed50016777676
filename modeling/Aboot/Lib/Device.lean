import Aboot.Lib.Bytes
import Aboot.Lib.Prog

/-!
# Devices behind a file descriptor

A device is its bytes and the position of the descriptor; `writes` records what was written, the
last one first.  Its transfers succeed; `lseek` to a negative offset does not.

* `lseek`, `read`, `write`   the calls;
* `seek`        a program that ends when `lseek` fails;
* `copy`        a file copied to the device piece by piece;
* `.._run`      what each of them does.
-/

/-- a file: its size is an `off_t` -/
structure File where
  bytes : List UInt8
  size_lt : bytes.length < 9223372036854775808

/-- the bytes of a file, and zeros -/
def File.mem (file : File) : Mem := fun k => file.bytes.getD k 0

structure Device where
  bytes : Mem
  pos : Nat
  writes : List (Nat × List UInt8)

namespace Device
open Prog

/-- a device that was just opened -/
def opened (m : Mem) : Device := ⟨m, 0, []⟩

def lseek (off : Int) : Prog Device Bool := fun s =>
  if 0 ≤ off then some (true, { s with pos := off.toNat }) else some (false, s)

def read (n : Nat) : Prog Device (List UInt8) := fun s =>
  some (s.bytes.get s.pos n, { s with pos := s.pos + n })

def write (d : List UInt8) : Prog Device Unit := fun s =>
  some ((), ⟨s.bytes.put s.pos d, s.pos + d.length, (s.pos, d) :: s.writes⟩)

/-- `lseek`, or the end of the program -/
def seek (off : Int) : Prog Device Unit := do
  if ← lseek off then pure () else failure

/-- a file copied through a buffer of `size` bytes, which is returned: every round but the last moves
on, so that as many rounds as there are bytes are enough -/
def copy (size : Nat) : Nat → List UInt8 → Mem → Prog Device Mem
  | 0, _, buf => pure buf
  | fuel + 1, file, buf =>
    if file.take size = [] then pure buf
    else do
      write (file.take size)
      copy size fuel (file.drop size) (buf.put 0 (file.take size))

/-! ## runs -/

variable {s : Device}

theorem lseek_run (n : Nat) : lseek n s = some (true, { s with pos := n }) := by
  rw [lseek, if_pos (Int.natCast_nonneg n), Int.toNat_natCast]

theorem seek_run (n : Nat) : seek n s = some ((), { s with pos := n }) := by
  unfold seek
  rw [bind_run (lseek_run n)]
  rfl

theorem read_run (n : Nat) :
    read n s = some (s.bytes.get s.pos n, { s with pos := s.pos + n }) := rfl

theorem write_run (d : List UInt8) :
    write d s = some ((), ⟨s.bytes.put s.pos d, s.pos + d.length, (s.pos, d) :: s.writes⟩) := rfl

/-- the writes `w` cover the bytes from `a` to `b`, and no others -/
structure Covers (w : List (Nat × List UInt8)) (a b : Nat) : Prop where
  inside : ∀ x ∈ w, a ≤ x.1 ∧ x.1 + x.2.length ≤ b
  all : ∀ y, a ≤ y → y < b → ∃ x ∈ w, x.1 ≤ y ∧ y < x.1 + x.2.length

theorem Covers.nil (a : Nat) : Covers [] a a :=
  ⟨fun _ hx => absurd hx List.not_mem_nil, fun y h1 h2 => absurd h1 (by omega)⟩

theorem Covers.append {w w' : List (Nat × List UInt8)} {a b c : Nat} (h : Covers w a b)
    (h' : Covers w' b c) (hab : a ≤ b) (hbc : b ≤ c) : Covers (w' ++ w) a c := by
  refine ⟨fun x hx => ?_, fun y h1 h2 => ?_⟩
  · rcases List.mem_append.mp hx with hx | hx
    · have := h'.inside x hx
      omega
    · have := h.inside x hx
      omega
  · rcases Nat.lt_or_ge y b with hy | hy
    · obtain ⟨x, hx, hin⟩ := h.all y h1 hy
      exact ⟨x, List.mem_append_right _ hx, hin⟩
    · obtain ⟨x, hx, hin⟩ := h'.all y hy h2
      exact ⟨x, List.mem_append_left _ hx, hin⟩

theorem Covers.single (a : Nat) (d : List UInt8) : Covers [(a, d)] a (a + d.length) := by
  refine ⟨fun x hx => ?_, fun y h1 h2 => ⟨(a, d), List.mem_singleton_self _, h1, h2⟩⟩
  rw [List.mem_singleton.mp hx]
  exact ⟨le_refl _, le_refl _⟩

/-- a file that is copied is stored at the position, and only there -/
theorem copy_run {size : Nat} (hsize : 0 < size) (fuel : Nat) :
    ∀ (file : List UInt8) (buf : Mem) (s : Device), file.length ≤ fuel → ∃ buf' w,
      copy size fuel file buf s
        = some (buf', ⟨s.bytes.put s.pos file, s.pos + file.length, w ++ s.writes⟩) ∧
      Covers w s.pos (s.pos + file.length) := by
  induction fuel with
  | zero =>
    intro file buf s h
    obtain rfl : file = [] := List.length_eq_zero_iff.mp (by omega)
    refine ⟨buf, [], ?_, Covers.nil _⟩
    rw [Mem.put_nil]
    rfl
  | succ fuel ih =>
    intro file buf s h
    unfold copy
    by_cases he : file.take size = []
    · rw [if_pos he]
      have hnil : file = [] := by
        cases file with
        | nil => rfl
        | cons b file =>
          obtain ⟨k, rfl⟩ : ∃ k, size = k + 1 := ⟨size - 1, by omega⟩
          cases he
      subst hnil
      refine ⟨buf, [], ?_, Covers.nil _⟩
      rw [Mem.put_nil]
      rfl
    · rw [if_neg he, bind_run (write_run (s := s) _)]
      have hpos : 0 < (file.take size).length := List.length_pos_iff.mpr he
      have hlen : (file.take size).length + (file.drop size).length = file.length := by
        rw [← List.length_append, List.take_append_drop]
      obtain ⟨buf', w, hrun, hw⟩ := ih (file.drop size) (buf.put 0 (file.take size))
        ⟨s.bytes.put s.pos (file.take size), s.pos + (file.take size).length,
          (s.pos, file.take size) :: s.writes⟩ (by omega)
      refine ⟨buf', w ++ [(s.pos, file.take size)], ?_, ?_⟩
      · rw [hrun, Mem.put_append, List.take_append_drop, Nat.add_assoc, hlen, List.append_assoc]
        rfl
      · rw [← hlen, ← Nat.add_assoc]
        exact (Covers.single s.pos _).append hw (Nat.le_add_right _ _) (Nat.le_add_right _ _)

end Device
