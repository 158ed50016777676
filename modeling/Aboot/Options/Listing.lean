import Aboot.Options.Config
import Aboot.Machine

/-!
# disk.c, utils.c: listing the configuration file

`print_config_file` reads a block, puts a NUL behind it and prints it.  `printf` formats into a
static buffer of 1024 bytes and then makes room in it for a carriage return at each linefeed.

* `expand`         the loop that makes room, from the end of the text to its start;
* `printf_writes_iff`   where `printf` writes;
* `print_config_file_safe_iff`   when the listing stays within its buffers.

`writes` records the places of the static buffer that were written; nothing in the source depends on
it.
-/

namespace Options
open CString

/-! ## printf -/

/-- `static char buf[1024]`, with the places that were written -/
structure Formatted where
  buf : Mem
  writes : List Int

/-- the size of the buffer -/
def FORMATTED : Int := 1024

def Formatted.store (s : Formatted) (i : Int) (c : UInt8) : Formatted :=
  ⟨s.buf.put i.toNat [c], s.writes ++ [i]⟩

/-- `vsprintf(buf, "%s", text)` -/
def vsprintf (text : List UInt8) (s : Formatted) : Formatted :=
  ⟨strcpy s.buf 0 text, s.writes ++ (List.range (text.length + 1)).map fun k : Nat => (k : Int)⟩

abbrev cr : UInt8 := '\r'.toUInt8

/-- expand each linefeed: `n` characters are still to be moved, the last of them to `dst` -/
def expand : (n : Nat) → (dst : Int) → Formatted → Formatted
  | 0, _, s => s
  | n + 1, dst, s =>
    if s.buf n = newline then
      expand n (dst - 2) ((s.store dst cr).store (dst - 1) ((s.store dst cr).buf n))
    else expand n (dst - 1) (s.store dst (s.buf n))

/-- `printf("%s", text)`, up to `cons_puts` -/
def printf (text : List UInt8) (s : Formatted) : Formatted :=
  let s := vsprintf text s
  let line := str (text.length + 1) s.buf 0
  let num_lf := line.count newline
  if num_lf ≠ 0 then expand (line.length + 1) ((line.length : Int) + num_lf) s else s

/-! ## print_config_file -/

section
variable {blocksize : Nat} (bread : Nat → BlockRead blocksize) (buf out : Mem)

/-- `buf` after a `bread` and its NUL; before `buf` there is other memory -/
def readBlock (r : BlockRead blocksize) (buf : Mem) : Mem :=
  if 0 ≤ r.ret then (buf.put 0 r.data).put r.ret.toNat [0] else buf.put 0 r.data

/-- `buf`, of `blocksize + 1` bytes, before the `k`-th round -/
def bufAt : Nat → Mem
  | 0 => buf
  | k + 1 => readBlock (bread k) (bufAt k)

/-- what is printed in the `k`-th round -/
def textAt (k : Nat) : List UInt8 := str (blocksize + 1) (bufAt bread buf (k + 1)) 0

/-- the buffer of `printf` before the `k`-th round -/
def outAt : Nat → Mem
  | 0 => out
  | k + 1 => (printf (textAt bread buf k) ⟨outAt k, []⟩).buf

/-- what `printf` does in the `k`-th round -/
def printAt (k : Nat) : Formatted := printf (textAt bread buf k) ⟨outAt bread buf out k, []⟩

/-- the loop comes to the `k`-th round -/
def Reached (k : Nat) : Prop := ∀ i < k, 0 < (bread i).ret

/-- the `k`-th round puts its NUL in `buf`, and `printf` writes in its own buffer -/
def SafeAt (k : Nat) : Prop :=
  (0 ≤ (bread k).ret ∧ (bread k).ret ≤ blocksize) ∧
    ∀ w ∈ (printAt bread buf out k).writes, 0 ≤ w ∧ w < FORMATTED

end

/-- the characters that a block shows -/
def printable {blocksize : Nat} (r : BlockRead blocksize) : List UInt8 :=
  (r.data.take r.ret.toNat).takeWhile (· ≠ 0)

/-! ## where printf writes -/

@[simp] theorem store_writes (s : Formatted) (i : Int) (c : UInt8) :
    (s.store i c).writes = s.writes ++ [i] := rfl

/-- a store changes nothing below it -/
theorem store_below (s : Formatted) {i : Int} (c : UInt8) {k : Nat} (h : (k : Int) < i) :
    (s.store i c).buf k = s.buf k := by
  show s.buf.put i.toNat [c] k = s.buf k
  exact Mem.put_out _ _ _ _ (Or.inl (by omega))

/-- the linefeeds among the first `n` bytes -/
def linefeeds (buf : Mem) (n : Nat) : Nat := (buf.get 0 n).count newline

theorem linefeeds_succ (buf : Mem) (n : Nat) :
    linefeeds buf (n + 1) = linefeeds buf n + if buf n = newline then 1 else 0 := by
  unfold linefeeds
  rw [Mem.get_add, List.count_append, Nat.zero_add]
  congr 1
  show [buf n].count newline = _
  by_cases h : buf n = newline
  · rw [if_pos h, h, List.count_singleton_self]
  · rw [if_neg h, List.count_singleton, if_neg (by simpa using h)]

theorem linefeeds_congr {buf buf' : Mem} {n : Nat} (h : ∀ k < n, buf' k = buf k) :
    linefeeds buf' n = linefeeds buf n := by
  unfold linefeeds
  rw [Mem.get_eq_of_forall buf' buf 0 n fun k hk => by rw [Nat.zero_add]; exact h k hk]

/-- the loop writes from the start of the buffer up to `dst`, and begins there -/
theorem expand_writes (n : Nat) : ∀ (s : Formatted) (dst : Int),
    dst + 1 = n + linefeeds s.buf n →
    ∃ ws, (expand n dst s).writes = s.writes ++ ws ∧ (∀ w ∈ ws, 0 ≤ w ∧ w ≤ dst) ∧
      (0 < n → dst ∈ ws) := by
  induction n with
  | zero => intro s dst h; exact ⟨[], (List.append_nil _).symm, by simp, by omega⟩
  | succ n ih =>
    intro s dst h
    rw [linefeeds_succ] at h
    rw [expand]
    by_cases hlf : s.buf n = newline
    · rw [if_pos hlf] at h ⊢
      have hkeep : ∀ k < n, ((s.store dst cr).store (dst - 1) ((s.store dst cr).buf n)).buf k
          = s.buf k := fun k hk => by
        rw [store_below _ _ (by omega), store_below _ _ (by omega)]
      obtain ⟨ws, hws, hle, -⟩ := ih _ (dst - 2) (by rw [linefeeds_congr hkeep]; omega)
      refine ⟨[dst, dst - 1] ++ ws, ?_, ?_, fun _ => by simp⟩
      · rw [hws, store_writes, store_writes, List.append_assoc, List.append_assoc]
        rfl
      · intro w hw
        rcases List.mem_append.mp hw with hw | hw
        · simp only [List.mem_cons, List.not_mem_nil, or_false] at hw
          omega
        · have := hle w hw
          omega
    · rw [if_neg hlf] at h ⊢
      have hkeep : ∀ k < n, (s.store dst (s.buf n)).buf k = s.buf k := fun k hk => by
        rw [store_below _ _ (by omega)]
      obtain ⟨ws, hws, hle, -⟩ := ih _ (dst - 1) (by rw [linefeeds_congr hkeep]; omega)
      refine ⟨[dst] ++ ws, ?_, ?_, fun _ => by simp⟩
      · rw [hws, store_writes, List.append_assoc]
      · intro w hw
        rcases List.mem_append.mp hw with hw | hw
        · rw [List.mem_singleton.mp hw]
          omega
        · have := hle w hw
          omega

/-- `printf` stays in its buffer when the text, its linefeeds counted twice, fits with a NUL -/
theorem printf_writes_iff {text : List UInt8} (h : 0 ∉ text) (out : Mem) :
    (∀ w ∈ (printf text ⟨out, []⟩).writes, 0 ≤ w ∧ w < FORMATTED) ↔
      ((text.length + text.count newline : Nat) : Int) < FORMATTED := by
  have hline : str (text.length + 1) (strcpy out 0 text) 0 = text := str_strcpy (Nat.lt_succ_self _) h
  have hall : ∀ w ∈ (vsprintf text ⟨out, []⟩).writes, 0 ≤ w ∧ w ≤ text.length := by
    intro w hw
    obtain ⟨k, hk, rfl⟩ := List.mem_map.mp hw
    have := List.mem_range.mp hk
    omega
  have hnul : (text.length : Int) ∈ (vsprintf text ⟨out, []⟩).writes :=
    List.mem_map.mpr ⟨text.length, List.mem_range.mpr (Nat.lt_succ_self _), rfl⟩
  have hdef : printf text ⟨out, []⟩ = if text.count newline ≠ 0 then
      expand (text.length + 1) ((text.length : Int) + text.count newline) (vsprintf text ⟨out, []⟩)
      else vsprintf text ⟨out, []⟩ := by
    unfold printf
    dsimp only
    rw [show (vsprintf text ⟨out, []⟩).buf = strcpy out 0 text from rfl, hline]
  rw [hdef]
  by_cases h0 : text.count newline = 0
  · rw [if_neg (not_not.mpr h0), h0, Nat.add_zero]
    constructor
    · exact fun hw => (hw _ hnul).2
    · intro hlt w hw
      have := hall w hw
      exact ⟨this.1, by omega⟩
  · have hlf : linefeeds (vsprintf text ⟨out, []⟩).buf (text.length + 1) = text.count newline := by
      have hget : (strcpy out 0 text).get 0 (text ++ [0]).length = text ++ [0] := Mem.get_put_self _ _ _
      rw [List.length_append, List.length_singleton] at hget
      show ((strcpy out 0 text).get 0 (text.length + 1)).count newline = _
      rw [hget, List.count_append]
      rfl
    obtain ⟨ws, hws, hle, hfirst⟩ := expand_writes (text.length + 1) (vsprintf text ⟨out, []⟩)
      ((text.length : Int) + text.count newline) (by rw [hlf]; push_cast; ring)
    rw [if_pos h0, hws]
    constructor
    · intro hw
      have := (hw _ (List.mem_append_right _ (hfirst (Nat.succ_pos _)))).2
      push_cast
      exact this
    · intro hlt w hw
      rcases List.mem_append.mp hw with hw | hw
      · have := hall w hw
        exact ⟨this.1, by push_cast at hlt; omega⟩
      · have := hle w hw
        exact ⟨this.1, by push_cast at hlt; omega⟩

/-! ## the rounds -/

/-- the string that ends at a NUL at the latest -/
theorem str_nul {size n : Nat} {m : Mem} (hn : n < size) (h0 : m n = 0) :
    str size m 0 = (m.get 0 n).takeWhile (· ≠ 0) := by
  obtain ⟨j, rfl⟩ : ∃ j, size = n + (j + 1) := ⟨size - n - 1, by omega⟩
  have hrest : (m.get (0 + n) (j + 1)).takeWhile (· ≠ 0) = [] := by
    rw [Nat.zero_add]
    exact str_nil h0
  rw [str, Mem.get_add, List.takeWhile_append, hrest, List.append_nil]
  split
  · rename_i h
    exact ((List.takeWhile_prefix _).eq_of_length h).symm
  · rfl

theorem zero_not_mem_printable {blocksize : Nat} (r : BlockRead blocksize) : 0 ∉ printable r := by
  intro h
  have := List.mem_takeWhile_imp h
  simp at this

/-- what is printed is what the block shows -/
theorem textAt_printable {blocksize : Nat} (bread : Nat → BlockRead blocksize) (buf : Mem) {k : Nat}
    (h : 0 ≤ (bread k).ret) : textAt bread buf k = printable (bread k) := by
  have hle := (bread k).ret_le
  have hlen := (bread k).stored
  have hnul : bufAt bread buf (k + 1) (bread k).ret.toNat = 0 := by
    rw [bufAt, readBlock, if_pos h]
    exact Mem.put_in _ _ 0 [0] (by decide)
  have hget : (bufAt bread buf (k + 1)).get 0 (bread k).ret.toNat
      = (bread k).data.take (bread k).ret.toNat := by
    rw [bufAt, readBlock, if_pos h, Mem.get_put_out _ _ _ _ _ (Or.inl (by omega))]
    apply List.ext_getElem
    · rw [Mem.length_get, List.length_take_of_le hlen]
    · intro j h1 h2
      rw [List.length_take_of_le hlen] at h2
      have hj : j < (bread k).data.length := by omega
      simp only [Mem.get, List.getElem_map, List.getElem_range, List.getElem_take]
      exact Mem.put_in _ 0 j _ hj
  rw [textAt, str_nul (by omega) hnul, hget]
  rfl

/-- **print_config_file stays within its buffers**, in every round that the loop comes to, exactly
when no `bread` of these rounds fails and the characters that each block shows, linefeeds counted
twice, fit into 1024 bytes with a NUL. -/
theorem print_config_file_safe_iff (blocksize : Nat) (bread : Nat → BlockRead blocksize)
    (buf out : Mem) :
    (∀ k, Reached bread k → SafeAt bread buf out k) ↔
      ∀ k, Reached bread k → 0 ≤ (bread k).ret ∧
        (((printable (bread k)).length + (printable (bread k)).count newline : Nat) : Int) < FORMATTED := by
  refine forall_congr' fun k => imp_congr_right fun _ => ?_
  by_cases h0 : 0 ≤ (bread k).ret
  · rw [SafeAt, printAt, textAt_printable bread buf h0, printf_writes_iff (zero_not_mem_printable _)]
    exact and_congr_left fun _ => ⟨fun h => h.1, fun h => ⟨h, (bread k).ret_le⟩⟩
  · exact iff_of_false (fun h => h0 h.1.1) fun h => h0 h.1

/-- a full block of letters -/
def letters : BlockRead 1024 where
  ret := 1024
  data := List.replicate 1024 65
  ret_ge := by decide
  ret_le := le_refl _
  stored := by rw [List.length_replicate]; rfl

/-- a block that shows 1024 characters: the NUL is put behind the buffer of `printf` -/
theorem print_config_file_full_block :
    ¬ ∀ (blocksize : Nat) (bread : Nat → BlockRead blocksize) (buf out : Mem), blocksize ≤ 8192 →
      ∀ k, Reached bread k → SafeAt bread buf out k := by
  intro h
  have hsafe := h 1024 (fun _ => letters) (fun _ => 0) (fun _ => 0) (by decide) 0 (fun i hi => by omega)
  have hw := hsafe.2
  have hlen : (printable letters).length = 1024 := by
    have htake : letters.data.take letters.ret.toNat = List.replicate 1024 65 :=
      List.take_of_length_le (le_of_eq (List.length_replicate ..))
    rw [printable, htake, List.takeWhile_replicate, if_pos (by decide), List.length_replicate]
  rw [printAt, textAt_printable _ _ (by decide), printf_writes_iff (zero_not_mem_printable _), hlen] at hw
  unfold FORMATTED at hw
  omega

end Options
