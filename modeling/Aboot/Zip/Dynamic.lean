import Aboot.Zip.Blocks

/-!
# zip/inflate.c: blocks with codes of their own

* `bitLengths_ends`       the lengths of the codes for lengths;
* `lengthCode_ends`       one code for a length;
* `readLengths_ends`      the lengths of the literal and distance codes;
* `inflate_dynamic_ends`  the block.
-/

set_option linter.unusedVariables false

namespace Inflate
open Word PrefixCode Raise BitStream Deflate

/-! ## the codes for lengths -/

section
variable {E : Env} {i : Zip.Input} {s s' : State} {J : Exit → State → Prop} {cl : List Nat} {l : Nat} {t : Option Nat}
  {M : List Table}

/-- three bits for each length -/
theorem bitLengths_ends {js : List Nat} (hjs : js.Nodup) (ha : Ahead15 E i s)
    (hread : ¬ Readable E i ((s.used + 3 * js.length + 7) / 8) → ∀ x t, J (.unzip_error x) t) (ll : Nat → Nat) :
    Ends (bitLengths E js ll)
      (fun ll' s' => (∀ q, ll' q = if q ∈ js then peek (bytes E i) (s.used + 3 * js.idxOf q) 3 else ll q) ∧
        Same s s' ∧ s'.used = s.used + 3 * js.length ∧ Ahead15 E i s') J s := by
  induction js generalizing s ll with
  | nil => exact .pure ⟨fun q => by rw [if_neg List.not_mem_nil], .refl, rfl, ha⟩
  | cons j js ih =>
    obtain ⟨hj, hjs⟩ := List.nodup_cons.mp hjs
    have hlen : (j :: js).length = js.length + 1 := rfl
    rw [bitLengths]
    refine .seq (bits_ends ha (by omega) fun hnot => hread fun hr => hnot (hr.mono (by omega))) ?_ fun _ _ he => he
    rintro x s1 ⟨rfl, hsame1, hused1, ha1⟩
    refine (ih hjs ha1 (fun hnot => hread fun hr => hnot (hr.mono (by omega))) _).mono ?_
    rintro ll' s2 ⟨hll, hsame2, hused2, ha2⟩
    refine ⟨fun q => ?_, hsame1.trans hsame2, by omega, ha2⟩
    rw [hll q]
    by_cases hq : q = j
    · subst hq
      rw [if_neg hj, Function.update_self, if_pos List.mem_cons_self, List.idxOf_cons_self]
      rfl
    · rw [Function.update_of_ne hq, List.idxOf_cons, beq_false_of_ne (Ne.symm hq), cond_false]
      by_cases hmem : q ∈ js
      · rw [if_pos hmem, if_pos (List.mem_cons_of_mem j hmem), hused1, Nat.mul_succ, Nat.add_assoc, Nat.add_comm 3]
      · rw [if_neg hmem, if_neg fun h => (List.mem_cons.mp h).elim hq hmem]

theorem border_spec : ∀ nb < 20, ∀ v < 19,
    (v ∈ border.drop nb ↔ ¬ order.idxOf v < nb) ∧
      (order.idxOf v < nb → v ∈ border.take nb ∧ (border.take nb).idxOf v = order.idxOf v) := by
  decide +kernel

/-- the lengths that are read, and 0 for those that are not -/
theorem codeLengths_eq {ll ll' : Nat → Nat} {nb pos : Nat} (hnb : nb < 20)
    (h : ∀ q, ll' q = if q ∈ border.take nb then peek (bytes E i) (pos + 3 * (border.take nb).idxOf q) 3 else ll q) :
    ((List.range 19).map fun q => if q ∈ border.drop nb then 0 else ll' q) = codeLengths (bytes E i) pos nb := by
  refine List.map_congr_left fun v hv => ?_
  obtain ⟨hdrop, htake⟩ := border_spec nb hnb v (List.mem_range.mp hv)
  by_cases hlt : order.idxOf v < nb
  · obtain ⟨hmem, hidx⟩ := htake hlt
    rw [if_neg fun hd => hdrop.mp hd hlt, if_pos hlt, h v, if_pos hmem, hidx]
  · rw [if_pos (hdrop.mpr hlt), if_neg hlt]

theorem codeLengths_le (pos nb : Nat) : ∀ x ∈ codeLengths (bytes E i) pos nb, x ≤ 7 := by
  intro x hx
  obtain ⟨v, -, rfl⟩ := List.mem_map.mp hx
  split
  · have hlt : peek (bytes E i) (pos + 3 * order.idxOf v) 3 < 2 ^ 3 := peek_lt
    omega
  · exact Nat.zero_le 7

/-- the table of the codes for lengths: each of them is looked up in one step -/
inductive Flat (cl : List Nat) (M : List Table) : Option Nat → Nat → Prop
  | none (h : ∀ x ∈ cl, x = 0) : Flat cl M none 0
  | some {R l : Nat} (hl : l ≤ 7)
      (h : ∀ x, ∃ r, ent M R (x % 2 ^ l) = some r ∧ r.b ≤ l ∧ Leaf r ∧
        ((∃ v, Starts cl x v r.b ∧ r.v = .n v) ∨ Open cl x)) : Flat cl M (some R) l

theorem Built.flat (h : Built E cl 19 [] [] 7 M (0, t, l)) (hlen : cl.length = 19) (h7 : ∀ x ∈ cl, x ≤ 7) :
    Flat cl M t l := by
  have hacc := h.accepted.mp rfl
  cases h with
  | empty h => exact .none h
  | tables _ _ _ _ hfull hlm hroot _ =>
    refine .some (hlm rfl (by rw [hlen]; omega)) fun x => ?_
    obtain ⟨k, r, hk, hd, hmeans⟩ := hroot h7 x
    obtain ⟨hent, rfl, hleaf⟩ := hd.at_root hk
    refine ⟨r, hent, hk, hleaf, ?_⟩
    rcases hmeans with ⟨v, hv, hr⟩ | ⟨hnone, -⟩
    · have hlt := hv.lt
      rw [meaning, if_pos (by omega), Nat.mod_eq_of_lt (by omega)] at hr
      exact .inl ⟨v, hv, (Prod.mk.inj hr).2⟩
    · rcases hacc with hk | ⟨hs, -⟩
      · obtain ⟨v, k, hv⟩ := hfull hk x
        exact absurd hv (hnone v k)
      · exact .inr ⟨hs, hnone⟩

/-- the code for a length -/
theorem lengthCode_ends {α : Type} {Q : α → State → Prop} {next : Nat → Run α} (hd : Flat cl s.tables t l)
    (ha : Ahead15 E i s)
    (hnext : ∀ j s', Same s s' → Ahead15 E i s' → s.used ≤ s'.used →
      ((∃ k, Starts cl (ahead (bytes E i) s.used) j k ∧ s'.used = s.used + k) ∨
        Open cl (ahead (bytes E i) s.used)) → Ends (next j) Q J s')
    (hopen : Open cl (ahead (bytes E i) s.used) → ∀ e t, J e t)
    (hread : (∀ v k, Starts cl (ahead (bytes E i) s.used) v k → ¬ Readable E i ((s.used + k + 15) / 8)) →
      ∀ x t, J (.unzip_error x) t) :
    Ends (do
      NEEDBITS E l
      let s ← get
      let td ← lookup t (s.bb &&& mask_bits l)
      DUMPBITS td.b
      let j ← number td.v
      next j) Q J s := by
  cases hd with
  | none h =>
    have hJ := hopen (open_of_zero h)
    refine .bind ((ends_true _ _).imp (fun _ s1 _ => .bind (.get (.bind ?_))) fun e t _ => hJ e t)
    exact .bind (.get (.throw (hJ .wild _)))
  | @some R l hl h =>
    obtain ⟨R0, hb, h15⟩ := ha
    obtain ⟨r, hent, hrb, hleaf, hr⟩ := h (ahead (bytes E i) s.used)
    refine .seq (NEEDBITS_ends hb (by omega) fun hnot => hread fun v k hv hr => hnot (hr.mono ?_)) ?_ fun _ _ he => he
    · have := hv.pos
      omega
    rintro ⟨⟩ s1 ⟨hsame1, hused1, hle1, hmax1, R1, hb1⟩
    have hmod : s1.bb &&& mask_bits l = ahead (bytes E i) s.used % 2 ^ l := by
      rw [hb1.mask hle1 (by omega), hused1, ahead, peek_mod (by omega)]
    refine .bind (.get (.bind (lookup_ends (by rw [hmod, hsame1.tables]; exact hent) ?_)))
    refine .seq (DUMPBITS_ends (J := J)) ?_ fun _ _ he => he
    rintro ⟨⟩ s2 rfl
    have hsame2 : Same s (dumped s1 r.b) := hsame1.trans (same_dumped s1 r.b)
    have ha2 : Ahead15 E i (dumped s1 r.b) := by
      refine ⟨R1, hb1.dumped (by omega) (by omega), ?_⟩
      rw [dumped_bk (by omega) (by omega)]
      omega
    have hused2 : (dumped s1 r.b).used = s.used + r.b := by
      show s1.used + r.b = _
      rw [hused1]
    rcases hr with ⟨v, hv, hrv⟩ | hop
    · rw [hrv]
      exact .bind (.pure (hnext v _ hsame2 ha2 (by omega) (.inl ⟨r.b, hv, hused2⟩)))
    · cases hrv : r.v with
      | n v => exact .bind (.pure (hnext v _ hsame2 ha2 (by omega) (.inr hop)))
      | t id => exact .bind (.throw (hopen hop .wild _))

end

/-! ## the code lengths -/

section
variable {E : Env} {i : Zip.Input} {s s' : State} {J : Exit → State → Prop} {cl ls : List Nat} {l n pos last : Nat}
  {t : Option Nat} {M : List Table}

/-- what the code lengths mean -/
def Lens (E : Env) (i : Zip.Input) (cl : List Nat) (n pos : Nat) (ls : List Nat) (free : Prop) (q : Nat)
    (o : List Nat) : Prop := CodeLengths (bytes E i) free cl n pos ls q o

/-- the lengths that are read; none if they mean nothing -/
def Read (D : Prop → Nat → List Nat → Prop) (n : Nat) (r : Option (Nat → Nat)) (s : State) : Prop :=
  match r with
  | none => ∀ q o, ¬ D False q o
  | some ll => D True s.used ((List.range n).map ll) ∧ ∀ x ∈ (List.range n).map ll, x ≤ 15

theorem Read.step {D D' : Prop → Nat → List Nat → Prop} {r : Option (Nat → Nat)} (h : Read D' n r s)
    (hs : Step D D') : Read D n r s := by
  cases r with
  | none => exact fun q o hD => h q o (hs.bwd q o hD)
  | some ll => exact ⟨hs.fwd _ _ h.1, h.2⟩

/-- how often a length is repeated, and which one -/
theorem repeat_ends {α : Type} {Q : α → State → Prop} {next : Nat × Nat → Run α} (j : Nat) (ha : Ahead15 E i s)
    (hread : ∀ x times e, repeats ls j = (x, times, e) → ¬ Readable E i ((s.used + e + 7) / 8) →
      ∀ x t, J (.unzip_error x) t)
    (hnext : ∀ x times e s', repeats ls j = (x, times, e) → Same s s' → s'.used = s.used + e → Ahead15 E i s' →
      Ends (next (times + peek (bytes E i) s.used e, x)) Q J s') :
    Ends (if j = 16 then do
        let x ← bits E 2
        let r ← pure (3 + x, ls.getLastD 0)
        next r
      else if j = 17 then do
        let x ← bits E 3
        let r ← pure (3 + x, 0)
        next r
      else do
        let x ← bits E 7
        let r ← pure (11 + x, 0)
        next r) Q J s := by
  have hone : ∀ {x times e : Nat}, e ≤ 16 → repeats ls j = (x, times, e) → Ends (do
      let y ← bits E e
      let r ← pure (times + y, x)
      next r) Q J s := by
    intro x times e he hr
    refine .seq (bits_ends ha he (hread x times e hr)) ?_ fun _ _ he => he
    rintro y s1 ⟨rfl, hsame, hused, ha1⟩
    exact .bind (.pure (hnext x times e s1 hr hsame hused ha1))
  refine .ite (fun h16 => hone (by omega) ?_) fun h16 => .ite (fun h17 => hone (by omega) ?_) fun h17 =>
    hone (by omega) ?_
  · rw [repeats, if_pos h16]
  · rw [repeats, if_neg h16, if_pos h17]
  · rw [repeats, if_neg h16, if_neg h17]

theorem map_update (a j : Nat) (ll : Nat → Nat) :
    (List.range (a + 1)).map (Function.update ll a j) = (List.range a).map ll ++ [j] := by
  rw [List.range_succ, List.map_append, List.map_singleton, Function.update_self]
  congr 1
  refine List.map_congr_left fun q hq => ?_
  rw [Function.update_of_ne (List.mem_range.mp hq).ne]

theorem map_repeat (a m x : Nat) (ll : Nat → Nat) :
    (List.range (a + m)).map (fun q => if a ≤ q ∧ q < a + m then x else ll q) =
      (List.range a).map ll ++ List.replicate m x := by
  rw [List.range_add, List.map_append, List.map_map]
  congr 1
  · refine List.map_congr_left fun q hq => ?_
    have := List.mem_range.mp hq
    rw [if_neg (by omega)]
  · refine List.eq_replicate_iff.mpr ⟨by rw [List.length_map, List.length_range], fun y hy => ?_⟩
    obtain ⟨q, hq, rfl⟩ := List.mem_map.mp hy
    have := List.mem_range.mp hq
    exact if_pos ⟨Nat.le_add_right a q, Nat.add_lt_add_left this a⟩

theorem getLastD_replicate (ls : List Nat) {m : Nat} (hm : 1 ≤ m) (x : Nat) :
    (ls ++ List.replicate m x).getLastD 0 = x := by
  obtain ⟨m, rfl⟩ := Nat.exists_eq_add_of_le' hm
  rw [List.replicate_succ', ← List.append_assoc, List.getLastD_concat]

theorem repeats_le {j x times e : Nat} (h : repeats ls j = (x, times, e)) (hls : ∀ y ∈ ls, y ≤ 15) :
    1 ≤ times ∧ x ≤ 15 := by
  unfold repeats at h
  split at h
  · cases h
    refine ⟨by omega, ?_⟩
    cases hl : ls.getLast? with
    | none => rw [List.getLastD_eq_getLast?, hl]; exact Nat.zero_le 15
    | some y => rw [List.getLastD_eq_getLast?, hl]; exact hls y (List.mem_of_getLast? hl)
  · split at h <;> cases h <;> exact ⟨by omega, by omega⟩

/-- **the code lengths** -/
theorem readLengths_ends (ls : List Nat) (last : Nat) {fuel a : Nat} {ll : Nat → Nat}
    (hd : Flat cl s.tables t l) (ha : Ahead15 E i s) (hls : (List.range a).map ll = ls) (hfuel : n < a + fuel) (han : a ≤ n) (hsmall : ∀ x ∈ ls, x ≤ 15) :
    Ends (readLengths E t l n fuel a (ls.getLastD 0) ll)
      (fun r s' => Same s s' ∧ Ahead15 E i s' ∧ s.used ≤ s'.used ∧ Read (Lens E i cl n s.used ls) n r s')
      (fun e _ => Fails E i (Sparse cl) (Lens E i cl n s.used ls) last e) s := by
  induction fuel generalizing a ll ls s with
  | zero => omega
  | succ fuel ih =>
    have hlen : ls.length = a := by rw [← hls, List.length_map, List.length_range]
    rw [readLengths]
    refine .ite (fun hlt => ?_) fun hge => ?_
    · have hlt' : ls.length < n := hlen.trans_lt hlt
      have hnone : Open cl (ahead (bytes E i) s.used) → ∀ q o, ¬ Lens E i cl n s.used ls False q o := by
        intro hop q o hD
        obtain ⟨v, k, hv, -⟩ := CodeLengths.starts hD hlt'
        exact hop.2 v k hv
      -- anything may follow a code without a meaning
      have hany : Open cl (ahead (bytes E i) s.used) → ∀ p {ls' : List Nat}, ls'.length ≤ n →
          Step (Lens E i cl n s.used ls) (Lens E i cl n p ls') := fun hop p ls' hle =>
        ⟨fun q o hD => .openCode trivial hlt' (CodeLengths.length_eq hD hle) hop,
          fun q o hD => absurd hD (hnone hop q o)⟩
      have hinput : ∀ {m x}, ¬ Readable E i m → (∀ q o, Lens E i cl n s.used ls False q o → m ≤ (q + 15) / 8) →
          Fails E i (Sparse cl) (Lens E i cl n s.used ls) last (.unzip_error x) := fun hnot hm =>
        .input fun q o hD hr => hnot (hr.mono (hm q o hD))
      refine lengthCode_ends hd ha ?_ (fun hop e t => .none hop.1 (hnone hop)) fun hnot x t => ?_
      · intro j s1 hsame1 ha1 hle1 hj
        have hd1 : Flat cl s1.tables t l := by
          rw [hsame1.tables]
          exact hd
        refine .ite (fun hj16 => ?_) fun hj16 => ?_
        · have hstep : Step (Lens E i cl n s.used ls) (Lens E i cl n s1.used (ls ++ [j])) := by
            rcases hj with ⟨k, hk, hused1⟩ | hop
            · rw [hused1]
              exact ⟨fun q o hD => .length hlt' hk hj16 hD, fun q o hD => CodeLengths.length_inv hk hj16 hlt' hD⟩
            · exact hany hop _ (by rw [List.length_append, List.length_singleton]; exact hlt')
          have hrun := @ih _ (ls ++ [j]) (a + 1) (Function.update ll a j) hd1 ha1
            (by rw [map_update, hls]) (by omega) (by omega) fun x hx => by
              rcases List.mem_append.mp hx with hx | hx
              · exact hsmall x hx
              · rw [List.mem_singleton.mp hx]
                omega
          rw [List.getLastD_concat] at hrun
          exact hrun.imp (fun r s2 h => ⟨hsame1.trans h.1, h.2.1, hle1.trans h.2.2.1, h.2.2.2.step hstep⟩)
            fun e t h => h.step hstep.bwd id le_rfl
        · have hj' : 16 ≤ j := not_lt.mp hj16
          refine repeat_ends j ha1 (fun x times e hr hnot x t => ?_) ?_
          · rcases hj with ⟨k, hk, hused1⟩ | hop
            · refine hinput hnot fun q o hD => ?_
              have hle := (CodeLengths.again_inv hk hj' hlt' hr hD).2.le
              omega
            · exact .error (hnone hop)
          · intro y times e s2 hr hsame2 hused2 ha2
            obtain ⟨htimes, hy⟩ := repeats_le hr hsmall
            dsimp only
            generalize hm : times + peek (bytes E i) s1.used e = m
            refine .ite (fun hover => .pure ⟨hsame1.trans hsame2, ha2, by omega, fun q o hD => ?_⟩) fun hle => ?_
            · rcases hj with ⟨k, hk, hused1⟩ | hop
              · have := (CodeLengths.again_inv hk hj' hlt' hr hD).1
                rw [← hused1, hm] at this
                omega
              · exact hnone hop q o hD
            · have hstep : Step (Lens E i cl n s.used ls) (Lens E i cl n s2.used (ls ++ List.replicate m y)) := by
                rcases hj with ⟨k, hk, hused1⟩ | hop
                · rw [hused1] at hm hused2
                  rw [hused2, ← hm]
                  exact ⟨fun q o hD => .again hlt' hk hj' hr (by rw [hm]; omega) hD, fun q o hD =>
                    (CodeLengths.again_inv hk hj' hlt' hr hD).2⟩
                · exact hany hop _ (by rw [List.length_append, List.length_replicate]; omega)
              have hd2 : Flat cl s2.tables t l := by
                rw [hsame2.tables]
                exact hd1
              have hrun := @ih _ (ls ++ List.replicate m y) (a + m) (fun q => if a ≤ q ∧ q < a + m then y else ll q)
                hd2 ha2 (by rw [map_repeat, hls]) (by omega) (by omega) fun x hx => by
                  rcases List.mem_append.mp hx with hx | hx
                  · exact hsmall x hx
                  · rw [List.eq_of_mem_replicate hx]
                    exact hy
              rw [getLastD_replicate ls (by omega)] at hrun
              exact hrun.imp
                (fun r s3 h => ⟨(hsame1.trans hsame2).trans h.1, h.2.1, by omega, h.2.2.2.step hstep⟩)
                fun e t h => h.step hstep.bwd id le_rfl
      · refine .input fun q o hD hr => ?_
        obtain ⟨v, k, hv, hle⟩ := CodeLengths.starts hD hlt'
        exact hnot v k hv (hr.mono (by omega))
    · obtain rfl : a = n := by omega
      refine .pure ⟨.refl, ha, le_rfl, ?_, ?_⟩
      · rw [hls]
        exact .done hlen
      · rw [hls]
        exact hsmall

end

/-! ## the block -/

section
variable {E : Env} {i : Zip.Input} {base out : List UInt8} {s s' : State} {w q pos fuel last nl nd nb : Nat}

theorem Block.dynamic_inv {o : List UInt8} (h : peek (bytes E i) (pos + 1) 2 = 2) (hD : Blk E i pos out False q o) :
    ∃ p lit dist, Header (bytes E i) False pos p lit dist ∧ Accepted lit ∧ Accepted dist ∧
      Sym E i lit dist p out False q o := by
  cases hD with
  | stored h' _ _ _ => omega
  | fixed h' _ => omega
  | dynamic _ hh hlit hdist hs => exact ⟨_, _, _, hh, hlit, hdist, hs⟩

/-- a block has a header -/
theorem Block.header_inv {o : List UInt8} (h : peek (bytes E i) (pos + 1) 2 = 2)
    (hl : nl = 257 + peek (bytes E i) (pos + 3) 5) (hd : nd = 1 + peek (bytes E i) (pos + 8) 5)
    (hb : nb = 4 + peek (bytes E i) (pos + 13) 4) (hD : Blk E i pos out False q o) :
    nl ≤ 286 ∧ nd ≤ 30 ∧ Accepted (codeLengths (bytes E i) (pos + 17) nb) ∧
      ∃ p ls, Lens E i (codeLengths (bytes E i) (pos + 17) nb) (nl + nd) (pos + 17 + 3 * nb) [] False p ls ∧
        p ≤ q := by
  obtain ⟨p, lit, dist, ⟨rfl, rfl, rfl, hnl, hnd, hcl, hls⟩, -, -, hs⟩ := Block.dynamic_inv h hD
  subst hl hd hb
  exact ⟨hnl, hnd, hcl, p, _, hls, Symbols.le hs⟩

/-- a list of lengths is split -/
theorem split_lengths (ll : Nat → Nat) :
    ((List.range (nl + nd)).map ll).take nl = (List.range nl).map ll ∧
      ((List.range (nl + nd)).map ll).drop nl = (List.range nd).map fun q => ll (nl + q) := by
  have hlen : ((List.range nl).map ll).length = nl := by rw [List.length_map, List.length_range]
  rw [List.range_add, List.map_append, List.map_map]
  exact ⟨List.take_left' hlen, List.drop_left' hlen⟩

/-- the tables of a block, and its symbols -/
theorem inflate_trees_ends {lit dist : List Nat} (hdepth : BMAX ≤ fuel) (ho : Output E i base s s.outcnt out)
    (hh : Header (bytes E i) True pos s.used lit dist) (h2 : peek (bytes E i) (pos + 1) 2 = 2)
    (hlit : lit.length ≤ 286) (hdist : dist.length ≤ 30) (hsmall : (∀ x ∈ lit, x ≤ 15) ∧ ∀ x ∈ dist, x ≤ 15)
    (hpos : pos ≤ s.used) :
    Ends (do
        let (i, tl, bl) ← huft_build E lit 257 cplens cplext lbits
        if i = 1 then throw (.unzip_error "incomplete literal tree")
        else if i ≠ 0 then pure i
        else do
          let (i, td, bd) ← huft_build E dist 0 cpdist cpdext dbits
          if i = 1 then throw (.unzip_error "incomplete distance tree")
          else if i ≠ 0 then pure i
          else do
            let r ← inflate_codes E fuel tl td bl bd
            pure (if r ≠ 0 then 1 else 0))
      (Post E i base (Blk E i pos out)) (fun e _ => Fails E i (Thin (bytes E i) pos) (Blk E i pos out) (pos + fuel) e)
      s := by
  have hinv : ∀ q o, Blk E i pos out False q o →
      Accepted lit ∧ Accepted dist ∧ Sym E i lit dist s.used out False q o := by
    intro q o hD
    obtain ⟨p, lit', dist', hh', hlit', hdist', hs⟩ := Block.dynamic_inv h2 hD
    obtain ⟨rfl, rfl, rfl⟩ := hh'.det hh
    exact ⟨hlit', hdist', hs⟩
  have h16 : ∀ {x : Nat}, x ≤ 15 → x ≤ BMAX := fun h => h.trans (by decide)
  refine .seq (huft_build_ends E lit 257 cplens cplext lbits s (fun x hx => h16 (hsmall.1 x hx)) (by decide)
    (.inl ?_)) ?_ fun _ _ he => he.fails
  · exact hlit.trans_lt (by decide)
  rintro ⟨r1, tl, bl⟩ s1 ⟨hf1, hbuilt1⟩
  dsimp only
  refine .ite (fun hr => .throw (.error fun q o hD => ?_)) fun _ =>
    .ite (fun hr => .pure ⟨fun h => absurd h hr, ?_⟩) fun hr => ?_
  · have := hbuilt1.accepted.mpr (hinv q o hD).1
    omega
  · exact fun _ q o hD => hr (hbuilt1.accepted.mpr (hinv q o hD).1)
  have hr1 : r1 = 0 := not_not.mp hr
  refine .seq (huft_build_ends E dist 0 cpdist cpdext dbits s1 (fun x hx => h16 (hsmall.2 x hx)) (by decide)
    (.inl ?_)) ?_ fun _ _ he => he.fails
  · exact hdist.trans_lt (by decide)
  rintro ⟨r2, td, bd⟩ s2 ⟨hf2, hbuilt2⟩
  dsimp only
  refine .ite (fun hr => .throw (.error fun q o hD => ?_)) fun _ =>
    .ite (fun hr => .pure ⟨fun h => absurd h hr, ?_⟩) fun hr => ?_
  · have := hbuilt2.accepted.mpr (hinv q o hD).2.1
    omega
  · exact fun _ q o hD => hr (hbuilt2.accepted.mpr (hinv q o hD).2.1)
  have hr2 : r2 = 0 := not_not.mp hr
  have hd1 := hbuilt1.decoder hr1 (hlit.trans_lt (by decide)) (by decide)
  have hd2 := hbuilt2.decoder hr2 (hdist.trans_lt (by decide)) (by decide)
  have hT : BlockTables E lit dist s2.tables tl td bl bd :=
    ⟨hd1.mono hf2.grows, hd2, hlit.trans (by decide), hdist⟩
  have hout : s2.outcnt = s.outcnt := hf2.outcnt.trans hf1.outcnt
  have hused : s2.used = s.used := hf2.used.trans hf1.used
  have ho2 := (ho.frame hf1).frame hf2
  rw [← hout] at ho2
  have hstep : Step (Blk E i pos out) (Sym E i lit dist s2.used out) := by
    rw [hused]
    exact ⟨fun q o hD => .dynamic h2 hh (hbuilt1.accepted.mp hr1) (hbuilt2.accepted.mp hr2) hD,
      fun q o hD => (hinv q o hD).2.2⟩
  refine .seq (inflate_codes_ends hT hdepth ho2) ?_ fun e _ he => he.step hstep.bwd (.codes h2 hh) (by omega)
  intro r s3 h
  exact .pure (h.step hstep).pass

theorem inflate_dynamic_ends (hdepth : BMAX ≤ fuel) (ho : Output E i base s s.outcnt out) (hpos : s.used = pos + 3)
    (h2 : peek (bytes E i) (pos + 1) 2 = 2) :
    Ends (inflate_dynamic E fuel) (Post E i base (Blk E i pos out))
      (fun e _ => Fails E i (Thin (bytes E i) pos) (Blk E i pos out) (pos + fuel) e) s := by
  obtain ⟨ha, hwin, hlt⟩ := ho
  obtain ⟨nl, hnl⟩ : ∃ nl, nl = 257 + peek (bytes E i) (pos + 3) 5 := ⟨_, rfl⟩
  obtain ⟨nd, hnd⟩ : ∃ nd, nd = 1 + peek (bytes E i) (pos + 8) 5 := ⟨_, rfl⟩
  obtain ⟨nb, hnb⟩ : ∃ nb, nb = 4 + peek (bytes E i) (pos + 13) 4 := ⟨_, rfl⟩
  have hnb20 : nb < 20 := by
    have hlt : peek (bytes E i) (pos + 13) 4 < 2 ^ 4 := peek_lt
    omega
  have hlen : (border.take nb).length = nb := by
    rw [List.length_take]
    show min nb 19 = nb
    omega
  have hinput : ∀ {m x}, ¬ Readable E i m → m ≤ (pos + 17 + 3 * nb + 15) / 8 →
      Fails E i (Thin (bytes E i) pos) (Blk E i pos out) (pos + fuel) (.unzip_error x) := fun hnot hm =>
    .input fun q o hD hr => by
      obtain ⟨-, -, -, p, ls, hls, hle⟩ := Block.header_inv h2 hnl hnd hnb hD
      have := CodeLengths.le hls
      exact hnot (hr.mono (by omega))
  unfold inflate_dynamic
  refine .seq (bits_ends ha (by omega) fun hnot x t => hinput hnot (by omega)) ?_ fun _ _ he => he
  rintro x s1 ⟨rfl, hsame1, hused1, ha1⟩
  refine .seq (bits_ends ha1 (by omega) fun hnot x t => hinput hnot (by omega)) ?_ fun _ _ he => he
  rintro x s2 ⟨rfl, hsame2, hused2, ha2⟩
  refine .seq (bits_ends ha2 (by omega) fun hnot x t => hinput hnot (by omega)) ?_ fun _ _ he => he
  rintro x s3 ⟨rfl, hsame3, hused3, ha3⟩
  have hused2' : s2.used = pos + 13 := by omega
  have hused1' : s1.used = pos + 8 := by omega
  have hused3' : s3.used = pos + 17 := by omega
  rw [hused2', hused1', hpos, ← hnl, ← hnd, ← hnb]
  refine .ite (fun hbad => .pure ⟨(by cases ·), fun _ q o hD => ?_⟩) fun hok => ?_
  · obtain ⟨h1, h2, -⟩ := Block.header_inv h2 hnl hnd hnb hD
    omega
  refine .bind (.get (.seq (bitLengths_ends (List.Nodup.sublist (List.take_sublist nb border) (by decide)) ha3
    (fun hnot x t => hinput hnot ?_) _) ?_ fun _ _ he => he))
  · rw [hlen]
    omega
  rintro ll s4 ⟨hll, hsame4, hused4, ha4⟩
  rw [hused3'] at hll
  dsimp only
  rw [codeLengths_eq hnb20 hll]
  generalize hcl : codeLengths (bytes E i) (pos + 17) nb = cl
  have hcl7 : ∀ x ∈ cl, x ≤ 7 := hcl ▸ codeLengths_le (pos + 17) nb
  have hcl19 : cl.length = 19 := by rw [← hcl, codeLengths, List.length_map, List.length_range]
  refine .seq (huft_build_ends E cl 19 [] [] 7 s4 (fun x hx => (hcl7 x hx).trans (by decide)) (by omega)
    (.inl (by rw [hcl19]; omega))) ?_ fun _ _ he => he.fails
  rintro ⟨r, tl, bl⟩ s5 ⟨hf5, hbuilt⟩
  dsimp only
  refine .ite (fun hr => .pure ⟨fun h => absurd h hr, fun _ q o hD => hr ?_⟩) fun hr => ?_
  · obtain ⟨-, -, hacc, -⟩ := Block.header_inv h2 hnl hnd hnb hD
    rw [hcl] at hacc
    exact hbuilt.accepted.mpr hacc
  obtain rfl : r = 0 := not_not.mp hr
  have hsame := hsame1.trans (hsame2.trans (hsame3.trans hsame4))
  have ho5 : Output E i base s5 s.outcnt out := Output.frame ⟨ha4, hwin.same hsame, hlt⟩ hf5
  have hused5 : s5.used = pos + 17 + 3 * nb := by
    rw [hf5.used, hused4, hlen, hused3']
  refine .seq (readLengths_ends [] (pos + fuel) (hbuilt.flat hcl19 hcl7) ho5.ahead rfl (by omega)
    (Nat.zero_le _) fun x hx => absurd hx List.not_mem_nil) ?_ fun e t he =>
      he.part (fun q o hD => ?_) (fun hs => ?_) le_rfl
  · rintro r s6 ⟨hsame6, ha6, hle, hread⟩
    cases r with
    | none =>
      refine .pure ⟨(by cases ·), fun _ q o hD => ?_⟩
      obtain ⟨-, -, -, p, ls, hls, -⟩ := Block.header_inv h2 hnl hnd hnb hD
      rw [hcl, ← hused5] at hls
      exact hread p ls hls
    | some ll' =>
      obtain ⟨hls, hsmall⟩ := hread
      have hh := Header.mk hnl hnd hnb (by omega) (by omega) (by rw [hcl]; exact hbuilt.accepted.mp rfl)
        (by rw [hcl, ← hused5]; exact hls)
      obtain ⟨htake, hdrop⟩ := @split_lengths nl nd ll'
      have hout : s6.outcnt = s.outcnt := hsame6.outcnt.trans (hf5.outcnt.trans hsame.outcnt)
      have ho6 := ho5.same hsame6 ha6
      rw [← hout] at ho6
      rw [htake, hdrop] at hh
      dsimp only
      refine inflate_trees_ends hdepth ho6 hh h2 ?_ ?_ ⟨fun x hx => ?_, fun x hx => ?_⟩ (by omega)
      · rw [List.length_map, List.length_range]
        omega
      · rw [List.length_map, List.length_range]
        omega
      · rw [← htake] at hx
        exact hsmall x (List.mem_of_mem_take hx)
      · rw [← hdrop] at hx
        exact hsmall x (List.mem_of_mem_drop hx)
  · obtain ⟨-, -, -, p, ls, hls, hle⟩ := Block.header_inv h2 hnl hnd hnb hD
    rw [hcl, ← hused5] at hls
    exact ⟨p, ls, hls, hle⟩
  · refine .lengths h2 ?_
    rw [← hnb, hcl]
    exact hs

end

end Inflate
