import Aboot.Zip.Dynamic

/-!
# zip/inflate.c: inflate

* `blocks_ends`     the blocks of a stream;
* `inflate_ends`    what is flushed is what the stream means, and the input goes on behind it;
* `inflate_given_back`   the bytes that were read ahead, and no others, are given back;
* `inflate_file`    a stream in a file.
-/

set_option linter.unusedVariables false

namespace Inflate
open Word PrefixCode Raise BitStream Deflate

section
variable {E : Env} {i : Zip.Input} {base out : List UInt8} {s s' : State} {w q pos fuel depth : Nat}

theorem inflate_block_ends (hdepth : BMAX ≤ fuel) (ho : Output E i base s s.outcnt out) (hpos : s.used = pos) :
    Ends (inflate_block E fuel)
      (fun r s' => r.2 = peek (bytes E i) pos 1 ∧ Post E i base (Blk E i pos out) r.1 s')
      (fun e _ => Fails E i (Thin (bytes E i) pos) (Blk E i pos out) (pos + fuel) e) s := by
  have hinput : ∀ {m x}, ¬ Readable E i m → m ≤ (pos + 16) / 8 →
      Fails E i (Thin (bytes E i) pos) (Blk E i pos out) (pos + fuel) (.unzip_error x) := fun hnot hm =>
    .input fun q o hD hr => by
      have := Block.lt hD
      exact hnot (hr.mono (by omega))
  obtain ⟨ha, hwin, hlt⟩ := ho
  unfold inflate_block
  refine .seq (bits_ends ha (by omega) fun hnot x t => hinput hnot (by omega)) ?_ fun _ _ he => he
  rintro e s1 ⟨he, hsame1, hused1, ha1⟩
  refine .seq (bits_ends ha1 (by omega) fun hnot x t => hinput hnot (by omega)) ?_ fun _ _ he => he
  rintro t s2 ⟨ht, hsame2, hused2, ha2⟩
  rw [hpos] at he
  rw [hused1, hpos] at ht
  have hsame := hsame1.trans hsame2
  have ho2 : Output E i base s2 s2.outcnt out := by
    rw [hsame.outcnt]
    exact ⟨ha2, hwin.same hsame, hlt⟩
  have hused : s2.used = pos + 3 := by omega
  refine .ite (fun h2 => ?_) fun h2 => .ite (fun h0 => ?_) fun h0 => .ite (fun h1 => ?_) fun h1 => ?_
  · refine .seq (inflate_dynamic_ends hdepth ho2 hused (by omega)) ?_ fun _ _ he => he
    exact fun r s3 h => .pure ⟨he, h⟩
  · refine .seq (inflate_stored_ends ho2 hused (by omega)) ?_ fun _ _ he => he
    exact fun r s3 h => .pure ⟨he, h⟩
  · refine .seq (inflate_fixed_ends hdepth ho2 hused (by omega)) ?_ fun _ _ he => he
    exact fun r s3 h => .pure ⟨he, h⟩
  · refine .pure ⟨he, (by cases ·), fun _ q o hD => ?_⟩
    cases hD with
    | stored h _ _ _ => omega
    | fixed h _ => omega
    | dynamic h _ _ _ _ => omega

/-- what a stream means -/
def Strm (E : Env) (i : Zip.Input) (pos : Nat) (out : List UInt8) (free : Prop) (q : Nat) (o : List UInt8) : Prop :=
  Stream (bytes E i) free pos out q o

/-- the blocks up to the last one -/
theorem blocks_ends (hdepth : BMAX ≤ depth) (hfuel : fuel ≤ depth) (ho : Output E i base s s.outcnt out)
    (hpos : s.used = pos) :
    Ends (blocks E depth fuel) (Post E i base (Strm E i pos out))
      (fun e _ => Fails E i (ThinStream (bytes E i) pos out) (Strm E i pos out) (pos + fuel) e) s := by
  induction fuel generalizing s pos out with
  | zero => exact .throw ⟨(by cases ·), fun q o hD => .inr ⟨rfl, (Stream.lt hD).le⟩⟩
  | succ fuel ih =>
    have hinv : ∀ q o, Strm E i pos out False q o → ∃ p m, Blk E i pos out False p m ∧ p ≤ q := fun q o hD => by
      cases hD with
      | last _ hb => exact ⟨_, _, hb, le_rfl⟩
      | more _ hb rest => exact ⟨_, _, hb, rest.lt.le⟩
    rw [blocks]
    refine .bind (.modify ?_)
    have ho1 : Output E i base { s with hufts := 0 } s.outcnt out := ho.written ⟨rfl, rfl, rfl, rfl, rfl⟩ rfl rfl
    refine .seq (inflate_block_ends hdepth ho1 hpos) ?_ fun e t he => he.part hinv .here (by omega)
    rintro ⟨r, e⟩ s2 ⟨hbit, hr0, hr⟩
    dsimp only at hbit hr0 hr ⊢
    refine .ite (fun hne => .pure ⟨fun h => absurd h hne, fun _ q o hD => ?_⟩) fun heq => ?_
    · obtain ⟨p, m, hb, -⟩ := hinv q o hD
      exact hr hne p m hb
    obtain ⟨m, hb, ho2⟩ := hr0 (not_not.mp heq)
    refine .ite (fun h0 => ?_) fun h0 => .pure ⟨fun _ => ⟨m, ?_, ho2⟩, fun h => absurd rfl h⟩
    · have hbwd : ∀ q o, Strm E i pos out False q o → Strm E i s2.used m False q o ∧ pos < s2.used := fun q o hD => by
        cases hD with
        | last hbit' _ => omega
        | more _ hb' rest =>
          obtain ⟨rfl, rfl⟩ := hb'.det hb
          exact ⟨rest, hb'.lt⟩
      have hstep : Step (Strm E i pos out) (Strm E i s2.used m) :=
        ⟨fun q o hD => .more (hbit.symm.trans h0) hb hD, fun q o hD => (hbwd q o hD).1⟩
      refine (ih (by omega) ho2 rfl).imp (fun r s3 h => h.step hstep) fun e t h => ⟨fun he => ?_, fun q o hD => ?_⟩
      · exact .more (hbit.symm.trans h0) hb (h.1 he)
      · refine (h.2 q o (hstep.bwd q o hD)).imp id fun ⟨he, hle⟩ => ⟨he, ?_⟩
        have := (hbwd q o hD).2
        omega
    · have hlt : peek (bytes E i) pos 1 < 2 ^ 1 := peek_lt
      exact .last (by omega) hb

/-! ## the decompressor -/

/-- the bytes before the output -/
def before (s : State) : List UInt8 := s.window.get 0 WSIZE

theorem Output.start (s : State) : Output E s.input s.windows.flatten (start s) (start s).outcnt (before s) := by
  have hlen : (before s).length = WSIZE := Mem.length_get _ _ _
  have hsize : WSIZE = 32768 := rfl
  refine ⟨⟨0, ⟨rfl, fun j hj => absurd hj (Nat.not_lt_zero j), rfl, ?_⟩, Nat.zero_le _⟩,
    ⟨Nat.zero_le _, by rw [hlen]; rfl, fun a ha => ?_, ?_⟩, Nat.two_pow_pos 15⟩
  · exact (Nat.zero_div _).symm
  · show s.window a = (before s).getD ((before s).length - 0 + a - (if a < 0 then 0 else WSIZE)) 0
    have hidx : (before s).length - 0 + a - (if a < 0 then 0 else WSIZE) = a := by
      rw [if_neg (Nat.not_lt_zero a), hlen]
      omega
    rw [hidx, List.getD_eq_getElem?_getD, before, Mem.get_getElem? _ _ _ _ ha, Nat.zero_add]
    rfl
  · show s.windows.flatten = _
    rw [List.drop_of_length_le hlen.le, List.take_nil, List.append_nil]

/-- the rest of the window is flushed -/
theorem Win.rest (h : Win base s w out) :
    s.windows.flatten ++ s.window.get 0 w = base ++ out.drop WSIZE := by
  have hlen := h.len
  have hle := h.le
  have hwin : s.window.get 0 w = (out.drop WSIZE).drop (out.length - WSIZE - w) := by
    refine List.ext_getElem? fun a => ?_
    by_cases ha : a < w
    · have hidx : out.length - w + a - 0 = WSIZE + (out.length - WSIZE - w + a) := by omega
      rw [Mem.get_getElem? _ _ _ _ ha, Nat.zero_add, h.ring a (by omega), if_pos ha, hidx, List.getElem?_drop,
        List.getElem?_drop, List.getD_eq_getElem?_getD, List.getElem?_eq_getElem (by omega)]
      rfl
    · rw [List.getElem?_eq_none (by rw [Mem.length_get]; omega),
        List.getElem?_eq_none (by rw [List.length_drop, List.length_drop]; omega)]
  rw [h.flushed, hwin, List.append_assoc, List.take_append_drop]

theorem undo_same (n : Nat) (s : State) : Same s (undo n s) ∧ (undo n s).used = s.used := by
  induction n generalizing s with
  | zero => exact ⟨.refl, rfl⟩
  | succ n ih =>
    rw [undo]
    split
    · obtain ⟨hsame, hused⟩ := ih { s with bk := s.bk - 8, input := Zip.back s.input }
      exact ⟨⟨hsame.window, hsame.outcnt, hsame.tables, hsame.windows⟩, hused⟩
    · exact ⟨.refl, rfl⟩

/-- the output, and where the input goes on -/
structure Finished (E : Env) (s : State) (q : Nat) (o : List UInt8) (t : State) : Prop where
  windows : t.windows.flatten = s.windows.flatten ++ o.drop WSIZE
  next : s.input.insize ≤ Zip.INBUFSIZ →
    Zip.get_byte E.blocksize E.bread t.input = Zip.get_byte E.blocksize E.bread (after E s.input ((q + 7) / 8))

/-- **inflate**: a result of 0 comes with what the bits mean, and any other one if they mean nothing -/
theorem inflate_ends (E : Env) (s : State) {fuel : Nat} (hfuel : BMAX ≤ fuel) :
    Ends (inflate E fuel)
      (fun r t => (r = 0 → ∃ q o, Strm E s.input 0 (before s) True q o ∧ Finished E s q o t) ∧
        (r ≠ 0 → ∀ q o, ¬ Strm E s.input 0 (before s) False q o))
      (fun e _ => Fails E s.input (ThinStream (bytes E s.input) 0 (before s)) (Strm E s.input 0 (before s)) fuel e)
      s := by
  unfold inflate
  refine .bind (.modify ?_)
  have hrun := blocks_ends hfuel le_rfl (Output.start (E := E) s) (rfl : (start s).used = 0)
  rw [show (start s).used = 0 from rfl, Nat.zero_add] at hrun
  refine .seq hrun ?_ fun _ _ he => he
  rintro r s1 ⟨hr0, hr⟩
  refine .ite (fun hne => .pure ⟨fun h => absurd h hne, hr⟩) fun heq => ?_
  obtain ⟨o, hD, ha, hwin, hlt⟩ := hr0 (not_not.mp heq)
  refine .bind (.modify (.bind (.get ?_)))
  obtain ⟨hsame, hused⟩ := undo_same s1.bk s1
  have hnext := ha.undo (E := E) (i := s.input)
  generalize undo s1.bk s1 = s2 at hsame hused hnext ⊢
  have hwin2 := hwin.same hsame
  rw [← hsame.outcnt] at hwin2
  have hflat := hwin2.rest
  unfold flush_output
  refine .bind (.bind (.modify (.ite (fun h0 => ?_) fun _ => .bind (.modify (.bind (.get (.ite (fun _ => ?_) fun _ =>
    .throw .flush)))))))
  · refine .pure (.pure ⟨fun _ => ⟨_, o, hD, ?_, hnext⟩, fun h => absurd rfl h⟩)
    rw [h0, Mem.get_zero, List.append_nil] at hflat
    exact hflat
  · refine .pure (.pure ⟨fun _ => ⟨_, o, hD, ?_, hnext⟩, fun h => absurd rfl h⟩)
    show (s2.windows ++ [s2.window.get 0 s2.outcnt]).flatten = _
    rw [List.flatten_append, List.flatten_singleton]
    exact hflat

end

theorem flush_output_input (E : Env) (w : Nat) (s : State) :
    Ends (flush_output E w) (fun _ t => t.input = s.input) (fun _ _ => True) s := by
  unfold flush_output
  refine .bind (.modify (.ite (fun _ => .pure rfl) fun _ => ?_))
  exact .bind (.modify (.bind (.get (.ite (fun _ => .pure rfl) fun _ => .throw trivial))))

/-- a run that returns 0: the blocks, and the input after the bytes that are given back -/
theorem inflate_ok {t : State} (hfuel : BMAX ≤ fuel) (hrun : inflate E fuel s = .ok 0 t) :
    ∃ u, blocks E fuel fuel (start s) = .ok 0 u ∧ t.input = (undo u.bk u).input ∧
      ∃ o, Strm E s.input 0 (before s) True u.used o ∧ Ahead15 E s.input u := by
  have hblocks := blocks_ends hfuel le_rfl (Output.start (E := E) s) (rfl : (start s).used = 0)
  unfold inflate at hrun
  rw [bind_ok modify_ok] at hrun
  cases hr : blocks E fuel fuel (start s) with
  | error e u =>
    rw [bind_error hr] at hrun
    cases hrun
  | ok r u =>
    rw [bind_ok hr] at hrun
    by_cases hne : r ≠ 0
    · rw [if_pos hne] at hrun
      obtain ⟨rfl, -⟩ := EStateM.Result.ok.inj hrun
      exact absurd rfl hne
    · obtain rfl := not_not.mp hne
      rw [if_neg hne, bind_ok modify_ok, bind_ok get_ok] at hrun
      obtain ⟨o, hD, ho⟩ := (hblocks.ok hr).1 rfl
      refine ⟨u, rfl, ?_, o, hD, ho.ahead⟩
      have hflush := flush_output_input E (undo u.bk u).outcnt (undo u.bk u)
      cases hf : flush_output E (undo u.bk u).outcnt (undo u.bk u) with
      | ok a v =>
        rw [bind_ok hf] at hrun
        obtain ⟨-, rfl⟩ := EStateM.Result.ok.inj hrun
        exact hflush.ok hf
      | error e v =>
        rw [bind_error hf] at hrun
        cases hrun

/-! ## the input is a file -/

section
variable {blocksize : Nat} {bread : Nat → BlockRead Zip.INBUFSIZ} {E : Env} {i : Zip.Input} {pos j m n : Nat}

theorem delivered_mono (h : m ≤ n) : Zip.delivered bread m <+: Zip.delivered bread n := by
  induction n with
  | zero => exact Nat.le_zero.mp h ▸ List.prefix_rfl
  | succ n ih =>
    rcases Nat.le_succ_iff.mp h with h | rfl
    · rw [Zip.delivered_succ]
      exact (ih h).trans (List.prefix_append _ _)
    · exact List.prefix_rfl

theorem delivered_eq {b c : UInt8} {k : Nat} (hb : (Zip.delivered bread m)[k]? = some b)
    (hc : (Zip.delivered bread n)[k]? = some c) : b = c := by
  have hmono : ∀ {m n : Nat} {b : UInt8}, m ≤ n → (Zip.delivered bread m)[k]? = some b →
      (Zip.delivered bread n)[k]? = some b := fun hle hb => by
    obtain ⟨hlt, rfl⟩ := List.getElem?_eq_some_iff.mp hb
    exact List.prefix_iff_getElem?.mp (delivered_mono hle) k hlt
  rcases le_total m n with h | h
  · rw [hmono h hb] at hc
    exact Option.some.inj hc
  · rw [hmono h hc] at hb
    exact (Option.some.inj hb).symm

/-- the bytes of a file: those up to the first call of `bread` that does not fill the buffer -/
def contents (bread : Nat → BlockRead Zip.INBUFSIZ) (j : Nat) : List UInt8 := Zip.delivered bread (j + 1)

/-- a byte before the end of the file -/
theorem get_byte_file (hdvd : blocksize ∣ Zip.INBUFSIZ) (hj : Zip.FirstShort blocksize bread j)
    (hinv : Zip.Inv blocksize bread i pos) (hpos : pos < (contents bread j).length) :
    ∃ t, Zip.get_byte blocksize bread i = (.ok ((contents bread j).getD pos 0), t) ∧
      Zip.Inv blocksize bread t (pos + 1) := by
  have hlen : (contents bread j).length = j * Zip.INBUFSIZ + (bread j).ret.toNat := by
    rw [contents, Zip.delivered_succ, List.length_append, Zip.length_delivered hj.1,
      List.length_take_of_le (bread j).stored]
  have hout := Zip.get_byte_outcome hdvd hinv
  cases hget : Zip.get_byte blocksize bread i with
  | mk r t =>
    rw [hget] at hout
    cases hout with
    | next hb _ ht _ =>
      refine ⟨t, ?_, ht⟩
      have hc : (contents bread j)[pos]? = some ((contents bread j).getD pos 0) := by
        rw [List.getElem?_eq_getElem hpos, List.getD_eq_getElem _ _ hpos]
      rw [delivered_eq hb hc]
    | @stale _ _ hb k hk hend =>
      -- there is one first call that does not fill the buffer
      have hkj : k = j := by
        rcases Nat.lt_trichotomy k j with hlt | heq | hlt
        · exact absurd (hj.1 k hlt) hk.2.1
        · exact heq
        · exact absurd (hk.1 j hlt) hj.2.1
      subst hkj
      omega
    | eof _ hnone => exact absurd hj (hnone j)

theorem after_file (hdvd : E.blocksize ∣ Zip.INBUFSIZ) (hj : Zip.FirstShort E.blocksize E.bread j)
    (hinv : Zip.Inv E.blocksize E.bread i pos) (hn : pos + n ≤ (contents E.bread j).length) :
    Zip.Inv E.blocksize E.bread (after E i n) (pos + n) := by
  induction n with
  | zero => exact hinv
  | succ n ih =>
    obtain ⟨t, ht, hinv'⟩ := get_byte_file hdvd hj (ih (by omega)) (by omega)
    rw [after, ht]
    exact hinv'

/-- the bytes of the input are those of the file -/
theorem bytes_file (hdvd : E.blocksize ∣ Zip.INBUFSIZ) (hj : Zip.FirstShort E.blocksize E.bread j)
    (hinv : Zip.Inv E.blocksize E.bread i pos) (hn : pos + n < (contents E.bread j).length) :
    (Zip.get_byte E.blocksize E.bread (after E i n)).1 = .ok (bytes E i n) ∧
      bytes E i n = (contents E.bread j).getD (pos + n) 0 := by
  obtain ⟨t, ht, -⟩ := get_byte_file hdvd hj (after_file hdvd hj hinv hn.le) hn
  have hb : bytes E i n = (contents E.bread j).getD (pos + n) 0 := by
    rw [bytes, ht]
  exact ⟨by rw [ht, hb], hb⟩

theorem readable_file (hdvd : E.blocksize ∣ Zip.INBUFSIZ) (hj : Zip.FirstShort E.blocksize E.bread j)
    (hinv : Zip.Inv E.blocksize E.bread i pos) (hn : pos + n ≤ (contents E.bread j).length) : Readable E i n :=
  fun k hk => (bytes_file hdvd hj hinv (by omega)).1

theorem inv_insize (h : Zip.Inv blocksize bread i pos) : i.insize ≤ Zip.INBUFSIZ := by
  rcases h with h | ⟨m, h⟩
  · rw [h.insize]
    exact Nat.zero_le _
  · exact h.insize.le

end

/-! ## the results -/

section
variable {s t : State} {fuel q pos j : Nat} {o : List UInt8}

/-- a file that one call of `bread` reads -/
def file (data : List UInt8) (h : data.length ≤ Zip.INBUFSIZ) : Env where
  blocksize := 512
  bread := fun _ => ⟨data.length, data, by omega, by exact_mod_cast h, by simp⟩
  clusters := []
  stack := fun _ _ => 0
  beyond := fun _ => 0
  flushes := fun _ => true

/-- nothing is read yet -/
def unread : State := ⟨⟨fun _ => 7, 0, 0, 0, 0⟩, fun _ => 0, 0, 0, 0, 0, [], 0, [], 0⟩

/-- a block with codes of its own, which ends with its fourteenth byte -/
def dynamicBlock : Env := file [5, 193, 129, 0, 0, 0, 0, 128, 32, 182, 247, 135, 170, 58, 65, 66, 67] (by decide)

/-- the lengths of its codes for code lengths, and of its literal and length codes -/
def dynamicCodes : List Nat := [0, 2, 2, 0, 0, 0, 0, 0, 0, 0, 0, 0, 0, 0, 0, 0, 0, 0, 1]

def dynamicLit : List Nat := List.replicate 65 0 ++ [2, 2] ++ List.replicate 189 0 ++ [1]

/-- a block that says that no length has a code -/
def noCodes : Env := file [5, 0, 0, 0, 0, 0, 0, 0] (by decide)

/-- the run returns `r` -/
def returns (run : EStateM.Result Exit State Nat) (r : Nat) : Bool :=
  match run with
  | .ok a _ => a == r
  | .error _ _ => false

theorem returns_run {run : EStateM.Result Exit State Nat} {r : Nat} (h : returns run r) : ∃ t, run = .ok r t := by
  cases run with
  | ok a t => exact ⟨t, by rw [beq_iff_eq.mp h]⟩
  | error e t => cases h

section
variable {byte : Nat → UInt8} {pos p : Nat} {ls ls' : List Nat}

/-- a length of one bit or two bits -/
theorem dynamicCodes_length {v : Nat} (hv : v = 1 ∨ v = 2) (hlt : ls.length < 259)
    (hcode : value 2 (ahead byte pos % 2 ^ 2) = codeOf dynamicCodes v)
    (rest : CodeLengths byte False dynamicCodes 259 (pos + 2) (ls ++ [v]) p ls') :
    CodeLengths byte False dynamicCodes 259 pos ls p ls' := by
  rcases hv with rfl | rfl
  · exact .length hlt ⟨rfl, by decide, hcode⟩ (by decide) rest
  · exact .length hlt ⟨rfl, by decide, hcode⟩ (by decide) rest

/-- some zeros -/
theorem dynamicCodes_zeros {n : Nat} (hlt : ls.length < 259) (hle : ls.length + n ≤ 259)
    (hcode : value 1 (ahead byte pos % 2 ^ 1) = codeOf dynamicCodes 18) (hn : 11 + peek byte (pos + 1) 7 = n)
    (rest : CodeLengths byte False dynamicCodes 259 (pos + 8) (ls ++ List.replicate n 0) p ls') :
    CodeLengths byte False dynamicCodes 259 pos ls p ls' := by
  subst hn
  exact .again (v := 18) (k := 1) (e := 7) hlt ⟨rfl, by decide, hcode⟩ (by decide) rfl hle rest

end

theorem dynamicBlock_lengths : CodeLengths (bytes dynamicBlock unread.input) False dynamicCodes 259 71 [] 105
    (dynamicLit ++ [1, 1]) := by
  have hdone : ∀ ls, ls = dynamicLit ++ [1, 1] →
      CodeLengths (bytes dynamicBlock unread.input) False dynamicCodes 259 105 ls 105 (dynamicLit ++ [1, 1]) := by
    rintro ls rfl
    exact .done (by decide +kernel)
  refine dynamicCodes_zeros (n := 65) (by decide) (by decide) (by decide +kernel) (by decide +kernel) ?_
  refine dynamicCodes_length (v := 2) (.inr rfl) (by decide) (by decide +kernel) ?_
  refine dynamicCodes_length (v := 2) (.inr rfl) (by decide) (by decide +kernel) ?_
  refine dynamicCodes_zeros (n := 138) (by decide) (by decide) (by decide +kernel) (by decide +kernel) ?_
  refine dynamicCodes_zeros (n := 51) (by decide +kernel) (by decide +kernel) (by decide +kernel)
    (by decide +kernel) ?_
  refine dynamicCodes_length (v := 1) (.inl rfl) (by decide +kernel) (by decide +kernel) ?_
  refine dynamicCodes_length (v := 1) (.inl rfl) (by decide +kernel) (by decide +kernel) ?_
  refine dynamicCodes_length (v := 1) (.inl rfl) (by decide +kernel) (by decide +kernel) ?_
  exact hdone _ (by decide +kernel)

theorem dynamicBlock_codes : codeLengths (bytes dynamicBlock unread.input) 17 18 = dynamicCodes := by
  decide +kernel

theorem dynamicBlock_header : Header (bytes dynamicBlock unread.input) False 0 105 dynamicLit [1, 1] := by
  have hall : Accepted dynamicCodes := .inl (by decide +kernel)
  have hlit : (dynamicLit ++ [1, 1]).take 257 = dynamicLit := by decide +kernel
  have hdist : (dynamicLit ++ [1, 1]).drop 257 = [1, 1] := by decide +kernel
  have h := @Header.mk (bytes dynamicBlock unread.input) False 0 257 2 18 105 (dynamicLit ++ [1, 1])
    (by decide +kernel) (by decide +kernel) (by decide +kernel) (by decide) (by decide)
  rw [show 0 + 17 = 17 from rfl, dynamicBlock_codes, hlit, hdist] at h
  exact h hall dynamicBlock_lengths

/-- three literals -/
theorem dynamicBlock_stream (out : List UInt8) :
    Stream (bytes dynamicBlock unread.input) False 0 out 112 (out ++ [65, 66, 65]) := by
  have hs : Symbols (bytes dynamicBlock unread.input) False dynamicLit [1, 1] 105 out 112
      (out ++ [65] ++ [66] ++ [65]) := by
    refine .literal (v := 65) (k := 2) ⟨by decide +kernel, by decide, by decide +kernel⟩ (by decide) ?_
    refine .literal (v := 66) (k := 2) ⟨by decide +kernel, by decide, by decide +kernel⟩ (by decide) ?_
    refine .literal (v := 65) (k := 2) ⟨by decide +kernel, by decide, by decide +kernel⟩ (by decide) ?_
    exact .stop (k := 1) ⟨by decide +kernel, by decide, by decide +kernel⟩
  rw [List.append_assoc, List.append_assoc] at hs
  exact .last (by decide +kernel) (.dynamic (by decide +kernel) dynamicBlock_header (.inl (by decide +kernel))
    (.inl (by decide +kernel)) hs)

theorem dynamicBlock_run : ∃ t, inflate dynamicBlock 113 unread = .ok 0 t :=
  returns_run (show returns (inflate dynamicBlock 113 unread) 0 by decide +kernel)

/-- **huft_build.**  A set of at least one and at most `N_MAX` lengths is accepted if its codes take all patterns or
there is at most one code, of one bit; and then any bits lead to the entry of the code that they start with -/
theorem huft_build_tables (E : Env) (b : List Nat) (sv : Nat) (d e : List Nat) (m : Nat) (st : State)
    (hsome : b ≠ []) (hn : b.length ≤ N_MAX) (hb : ∀ x ∈ b, x ≤ BMAX) (hm : 1 ≤ m)
    (hfew : b.length < 2 ^ m ∨ ∀ x ∈ b, x < 2 * m) :
    Ends (huft_build E b sv d e m)
      (fun r st' => (r.1 = 0 ↔ Accepted b) ∧ (r.1 = 2 ↔ 2 ^ BMAX < kraft b) ∧
        (∀ id < st.tables.length, st'.tables[id]? = st.tables[id]?) ∧
        (r.1 = 0 → (∃ x ∈ b, x ≠ 0) → ∃ R, r.2.1 = some R ∧ Bounded R st'.tables ∧
          ∀ x, ∃ k h, k ≤ BMAX ∧ Decodes st'.tables R r.2.2 x k h ∧ Means E b sv d e x k h))
      (fun x _ => ∃ y, x = .error y) st := by
  refine (huft_build_ends E b sv d e m st hb hm hfew).imp ?_ fun x t he => he.1
  rintro ⟨r, t, l⟩ st' ⟨hf, hbuilt⟩
  refine ⟨hbuilt.accepted, hbuilt.over_iff, hf.old, fun hr ⟨x, hx, hne⟩ => ?_⟩
  dsimp only at hr ⊢
  cases hbuilt with
  | surplus _ => cases hr
  | empty h => exact absurd (h x hx) hne
  | large _ _ _ => cases hr
  | tables h _ _ _ _ _ _ hbound => exact ⟨_, rfl, hbound, h.lookup⟩

theorem huft_build_tables_fixed :
    Ends (huft_build dynamicBlock fixedLengths 257 cplens cplext 7)
      (fun r st' => (r.1 = 0 ↔ Accepted fixedLengths) ∧ (r.1 = 2 ↔ 2 ^ BMAX < kraft fixedLengths) ∧
        (∀ id < unread.tables.length, st'.tables[id]? = unread.tables[id]?) ∧
        (r.1 = 0 → (∃ x ∈ fixedLengths, x ≠ 0) → ∃ R, r.2.1 = some R ∧ Bounded R st'.tables ∧
          ∀ x, ∃ k h, k ≤ BMAX ∧ Decodes st'.tables R r.2.2 x k h ∧
            Means dynamicBlock fixedLengths 257 cplens cplext x k h))
      (fun x _ => ∃ y, x = .error y) unread :=
  huft_build_tables dynamicBlock fixedLengths 257 cplens cplext 7 unread (by decide +kernel) (by decide +kernel)
    (by decide +kernel) (by decide) (.inr (by decide +kernel))

end

end Inflate
