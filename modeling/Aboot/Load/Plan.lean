import Aboot.Load.Impl

/-!
# Compressed kernels: the plan of the copies

`flush_window` reads the entries of the segment table from memory, and its copies go to memory as
well.  The plan is what it does with the segments of a list: which bytes of the table it looks at
and what it copies, window after window.  It depends on the segments and on the lengths of the
windows only.

* `Event`, `flushPlan`, `planAll`   the plan;
* `TableKept`         no copy of it goes over bytes of the table that are read later;
* `flushLoop_plan`    then one window goes by the plan;
* `flushAll_plan`     and so do all windows.
-/

set_option linter.unusedVariables false

namespace Load
open Word State

/-! ## the plan -/

/-- what the loop of `flush_window` does with the memory -/
inductive Event
  /-- `n` bytes of the table are read, from `off` on -/
  | table (off n : Nat)
  | copy (c : Copy)
deriving DecidableEq, Repr

/-- the copies among some events -/
def copiesOf : List Event → List Copy
  | [] => []
  | .table _ _ :: es => copiesOf es
  | .copy c :: es => c :: copiesOf es

/-- a window of `outcnt` bytes, and where the loop of `flush_window` stands after it: the segments from
`chunks[chunk]` on; `stuck` after a copy of negative length -/
structure Flush where
  outcnt : Nat
  chunk : Nat
  todo : List Segment
  file_offset : Nat
  events : List Event
  stuck : Bool
deriving DecidableEq, Repr

/-- some events before the others -/
def Flush.after (es : List Event) (r : Flush) : Flush := { r with events := es ++ r.events }

/-- the loop of `flush_window` on the segments of a list, which begin with `chunks[chunk]` -/
def flushPlan (n : Nat) : (chunk : Nat) → List Segment → (file_offset outcnt : Nat) → Flush
  | chunk, [], f, _ => ⟨n, chunk, [], f, [], false⟩
  | chunk, seg :: segs, f, outcnt =>
    if (outcnt : Int) ≤ srcOf f seg then
      ⟨n, chunk, seg :: segs, uns 64 (f + outcnt : Nat), [.table (sizeof_segment * chunk + 8) 8], false⟩
    else
      let k := to_copy f outcnt seg
      let es := [.table (sizeof_segment * chunk) sizeof_segment, .copy (copyOf n f outcnt seg)]
      if k < 0 then ⟨n, chunk, seg :: segs, f, es, true⟩
      else if k < outcnt then
        (flushPlan n (chunk + 1) segs (uns 64 (f + k)) (uns 32 (outcnt - k))).after es
      else ⟨n, chunk, seg :: segs, uns 64 (f + k), es, false⟩

/-- the windows of the lengths `ns`, one after the other -/
def planAll : (ns : List Nat) → (chunk : Nat) → List Segment → (file_offset : Nat) → List Flush
  | [], _, _, _ => []
  | n :: ns, chunk, segs, f =>
    if n = 0 then planAll ns chunk segs f
    else
      let r := flushPlan n chunk segs f n
      r :: if r.stuck then [] else planAll ns r.chunk r.todo r.file_offset

@[simp] theorem planAll_zero (ns : List Nat) (chunk : Nat) (segs : List Segment) (f : Nat) :
    planAll (0 :: ns) chunk segs f = planAll ns chunk segs f := if_pos rfl

/-- the range that a copy is stored to -/
def Copy.range (c : Copy) : Nat × Nat := (c.dest, c.len)

/-- a copy, and bytes of the table at `t` that are read after it -/
def Spares (t : Nat) : Event → Event → Prop
  | .copy c, .table off n => ApartFrom c.range (t + off, n)
  | _, _ => True

/-- no copy of a plan goes over bytes of the table at `t` that are read later -/
def TableKept (t : Nat) (plan : List Flush) : Prop := (plan.flatMap Flush.events).Pairwise (Spares t)

/-- the window at `window` stays while it is copied from: no copy of a plan goes over bytes that a later
one takes from the same window, nor over its own source as it goes on, nor over bytes of the window
that are filled again later -/
structure WindowKept (window : Nat) (plan : List Flush) : Prop where
  sources : ∀ r ∈ plan, (copiesOf r.events).Pairwise fun c d => ApartFrom c.range (window + d.src, d.len)
  forward : ∀ r ∈ plan, ∀ c ∈ copiesOf r.events,
    c.dest ≤ window + c.src ∨ window + c.src + c.len ≤ c.dest
  fills : plan.Pairwise fun r r' => ∀ c ∈ copiesOf r.events, ApartFrom c.range (window, r'.outcnt)

/-- the copies of a plan -/
def planCopies (plan : List Flush) : List Copy := copiesOf (plan.flatMap Flush.events)

theorem copiesOf_append (es es' : List Event) : copiesOf (es ++ es') = copiesOf es ++ copiesOf es' := by
  induction es with
  | nil => rfl
  | cons e es ih =>
    cases e with
    | table off n => exact ih
    | copy c => exact congrArg (c :: ·) ih

theorem mem_copiesOf {es : List Event} {c : Copy} : c ∈ copiesOf es ↔ .copy c ∈ es := by
  induction es with
  | nil => simp [copiesOf]
  | cons e es ih => cases e <;> simp [copiesOf, ih]

/-- the bytes of the table that some events read are those of `T` -/
def Reads (t : Nat) (T : Mem) (es : List Event) (m : Mem) : Prop :=
  ∀ off n, .table off n ∈ es → ∀ x, t + off ≤ x → x < t + off + n → m x = T x

theorem Reads.of_cons {t : Nat} {T m : Mem} {e : Event} {es : List Event}
    (h : Reads t T (e :: es) m) : Reads t T es m :=
  fun off n he => h off n (List.mem_cons_of_mem _ he)

/-- a copy that spares what is read later -/
theorem Reads.copy {t : Nat} {T m : Mem} {c : Copy} {es : List Event} (h : Reads t T es m)
    (hc : ∀ e ∈ es, Spares t (.copy c) e) (src : Nat) : Reads t T es (m.copy c.dest src c.len) := by
  intro off n he x h1 h2
  rw [Mem.copy_out m c.dest src c.len x ((hc _ he).out h1 h2)]
  exact h off n he x h1 h2

theorem flushPlan_suffix (n : Nat) (segs : List Segment) :
    ∀ chunk f outcnt, (flushPlan n chunk segs f outcnt).todo <:+ segs := by
  induction segs with
  | nil => intro chunk f outcnt; exact List.suffix_refl _
  | cons seg segs ih =>
    intro chunk f outcnt
    unfold flushPlan
    simp only
    split
    · exact List.suffix_refl _
    · split
      · exact List.suffix_refl _
      · split
        · exact (ih _ _ _).trans (List.suffix_cons _ _)
        · exact List.suffix_refl _

/-- the window that a plan and its copies are of -/
theorem flushPlan_outcnt (n : Nat) (segs : List Segment) :
    ∀ chunk f outcnt, (flushPlan n chunk segs f outcnt).outcnt = n ∧
      ∀ c ∈ copiesOf (flushPlan n chunk segs f outcnt).events, c.outcnt = n := by
  induction segs with
  | nil => intro chunk f outcnt; exact ⟨rfl, by simp [flushPlan, copiesOf]⟩
  | cons seg segs ih =>
    intro chunk f outcnt
    unfold flushPlan
    simp only
    split
    · exact ⟨rfl, by simp [copiesOf]⟩
    · split
      · exact ⟨rfl, by simp [copiesOf, copyOf]⟩
      · split
        · obtain ⟨h1, h2⟩ := ih (chunk + 1) (uns 64 (f + to_copy f outcnt seg))
            (uns 32 (outcnt - to_copy f outcnt seg))
          exact ⟨h1, List.forall_mem_cons.mpr ⟨rfl, h2⟩⟩
        · exact ⟨rfl, by simp [copiesOf, copyOf]⟩

/-- the bytes that are read lie in the table -/
theorem flushPlan_within (n : Nat) (segs : List Segment) :
    ∀ chunk f outcnt, ∀ off k, .table off k ∈ (flushPlan n chunk segs f outcnt).events →
      off + k ≤ sizeof_segment * (chunk + segs.length) := by
  induction segs with
  | nil => intro chunk f outcnt off k h; cases h
  | cons seg segs ih =>
    intro chunk f outcnt off k h
    have hhead : ∀ e : Event, e ∈ [.table (sizeof_segment * chunk) sizeof_segment,
        .copy (copyOf n f outcnt seg)] → e = .table off k →
        off + k ≤ sizeof_segment * (chunk + (seg :: segs).length) := by
      intro e he heq
      rw [heq] at he
      simp only [List.mem_cons, Event.table.injEq, reduceCtorEq, List.not_mem_nil, or_false] at he
      rw [List.length_cons, he.1, he.2]
      unfold sizeof_segment
      omega
    unfold flushPlan at h
    simp only at h
    split at h
    · simp only [List.mem_singleton, Event.table.injEq] at h
      rw [List.length_cons, h.1, h.2]
      unfold sizeof_segment
      omega
    · split at h
      · exact hhead _ h rfl
      · split at h
        · rcases List.mem_append.mp h with h | h
          · exact hhead _ h rfl
          · have := ih _ _ _ off k h
            rw [List.length_cons]
            rwa [show chunk + (segs.length + 1) = chunk + 1 + segs.length by omega]
        · exact hhead _ h rfl

/-! ## one window -/

section
variable {σ : Type} {M : Machine}

/-- the state after a part of the plan -/
def play (window : Nat) (r : Flush) (s : State σ) : State σ :=
  { (copiesOf r.events).foldl (copyOut window) s with stuck := s.stuck || r.stuck }

theorem foldl_copyOut (window : Nat) (cs : List Copy) :
    ∀ s : State σ, cs.foldl (copyOut window) s
      = { s with
          mem := cs.foldl (fun m c => m.copy c.dest (window + c.src) c.len) s.mem
          writes := s.writes ++ cs.map Copy.range
          copies := s.copies ++ cs } := by
  induction cs with
  | nil => intro s; simp
  | cons c cs ih =>
    intro s
    rw [List.foldl_cons, ih]
    simp [copyOut, Copy.range]

/-- the state after a part of the plan, field by field -/
theorem play_eq (window : Nat) (r : Flush) (s : State σ) :
    play window r s
      = { s with
          mem := (copiesOf r.events).foldl (fun m c => m.copy c.dest (window + c.src) c.len) s.mem
          writes := s.writes ++ (copiesOf r.events).map Copy.range
          copies := s.copies ++ copiesOf r.events
          stuck := s.stuck || r.stuck } := by
  rw [play, foldl_copyOut]

theorem play_after (window : Nat) (t : Nat) (c : Copy) (r : Flush) (off k : Nat) (s : State σ) :
    play window (r.after [.table off k, .copy c]) s = play window r (copyOut window s c) := rfl

/-- what the loop gives of its place -/
def Flush.place (r : Flush) : Option (Nat × Nat) := if r.stuck then none else some (r.chunk, r.file_offset)

/-- **one window goes by the plan** as long as the bytes of the table are there when they are read -/
theorem flushLoop_plan {t window n : Nat} {T : Mem} (segs : List Segment) :
    ∀ (chunk f outcnt : Nat) (s : State σ), s.elf.table = t → Holds T t chunk segs →
      Reads t T (flushPlan n chunk segs f outcnt).events s.mem →
      (flushPlan n chunk segs f outcnt).events.Pairwise (Spares t) →
      flushLoop n window segs.length chunk f outcnt s
        = ((flushPlan n chunk segs f outcnt).place, play window (flushPlan n chunk segs f outcnt) s) := by
  induction segs with
  | nil =>
    intro chunk f outcnt s _ _ _ _
    simp [flushLoop, flushPlan, Flush.place, play, copiesOf]
  | cons seg segs ih =>
    intro chunk f outcnt s ht hT hr hp
    have hseg : chunkAt T t chunk = seg := hT.1
    rw [List.length_cons, flushLoop]
    unfold flushPlan at hr hp ⊢
    simp only [ht] at hr hp ⊢
    by_cases hskip : (outcnt : Int) ≤ srcOf f seg
    · -- only the offset is looked at
      rw [if_pos hskip] at hr hp ⊢
      have hoff : (chunkAt s.mem t chunk).offset = seg.offset := by
        rw [← hseg, chunkAt_offset, chunkAt_offset]
        exact Bytes.le_congr fun j hj =>
          hr _ _ (List.mem_singleton_self _) _ (by omega) (by omega)
      have hsrc : srcOf f (chunkAt s.mem t chunk) = srcOf f seg := by
        unfold srcOf chunk_offset
        rw [hoff]
      rw [hsrc, if_pos hskip]
      simp [Flush.place, play, copiesOf]
    · rw [if_neg hskip] at hr hp ⊢
      have hread : ∀ {es : List Event}, Reads t T (.table (sizeof_segment * chunk) sizeof_segment :: es)
          s.mem → chunkAt s.mem t chunk = seg := by
        intro es h
        rw [← hseg]
        refine chunkAt_congr fun x h1 h2 => h _ _ List.mem_cons_self x h1 ?_
        rw [Nat.mul_succ] at h2
        omega
      by_cases hneg : to_copy f outcnt seg < 0
      · rw [if_pos hneg] at hr hp ⊢
        rw [hread hr, if_neg hskip, if_pos hneg]
        simp [Flush.place, play, copiesOf]
      · rw [if_neg hneg] at hr hp ⊢
        by_cases hmore : to_copy f outcnt seg < outcnt
        · rw [if_pos hmore] at hr hp ⊢
          rw [hread hr, if_neg hskip, if_neg hneg, if_pos hmore, play_after _ t]
          obtain ⟨-, hp⟩ := List.pairwise_cons.mp hp
          obtain ⟨hc, hp⟩ := List.pairwise_cons.mp hp
          exact ih (chunk + 1) _ _ _ ht hT.2 ((hr.of_cons.of_cons).copy hc _) hp
        · rw [if_neg hmore] at hr hp ⊢
          rw [hread hr, if_neg hskip, if_neg hneg, if_neg hmore]
          simp [Flush.place, play, copiesOf, copyOut]

/-- the part of `flush_window` that follows the headers, by the plan -/
theorem flushCopies_plan {t n : Nat} {T : Mem} {z : Zip} {s : State σ} {todo : List Segment} {r : Flush}
    (hplan : flushPlan n z.chunk todo z.file_offset n = r) (ht : s.elf.table = t)
    (hT : Holds T t z.chunk todo) (hcount : z.chunk + todo.length = s.elf.nchunks)
    (hr : Reads t T r.events s.mem) (hp : r.events.Pairwise (Spares t)) :
    flushCopies n z s
      = (if r.stuck then none else some ⟨uns 64 (z.bytes_out + n : Nat), z.window, r.chunk, r.file_offset⟩,
        play z.window r s) := by
  subst hplan
  have hleft : s.elf.nchunks - z.chunk = todo.length := by omega
  unfold flushCopies
  rw [hleft, flushLoop_plan todo z.chunk z.file_offset n s ht hT hr hp]
  simp only [Flush.place]
  split <;> rfl

/-! ## all windows -/

/-- the entries that are left after a window -/
structure Rest (t : Nat) (T : Mem) (chunk : Nat) (segs : List Segment) (r : Flush) : Prop where
  count : r.chunk + r.todo.length = chunk + segs.length
  holds : Holds T t chunk segs → Holds T t r.chunk r.todo

theorem flushPlan_rest (t : Nat) (T : Mem) (n : Nat) (segs : List Segment) :
    ∀ chunk f outcnt, Rest t T chunk segs (flushPlan n chunk segs f outcnt) := by
  induction segs with
  | nil => intro chunk f outcnt; exact ⟨rfl, id⟩
  | cons seg segs ih =>
    intro chunk f outcnt
    unfold flushPlan
    simp only
    split
    · exact ⟨rfl, id⟩
    · split
      · exact ⟨rfl, id⟩
      · split
        · have hi := ih (chunk + 1) (uns 64 (f + to_copy f outcnt seg))
            (uns 32 (outcnt - to_copy f outcnt seg))
          refine ⟨?_, fun h => hi.holds h.2⟩
          show (flushPlan n (chunk + 1) segs _ _).chunk + (flushPlan n (chunk + 1) segs _ _).todo.length = _
          rw [hi.count, List.length_cons]
          omega
        · exact ⟨rfl, id⟩

theorem planAll_within (ns : List Nat) :
    ∀ chunk segs f, ∀ off k, .table off k ∈ (planAll ns chunk segs f).flatMap Flush.events →
      off + k ≤ sizeof_segment * (chunk + segs.length) := by
  induction ns with
  | nil => intro chunk segs f off k h; cases h
  | cons n ns ih =>
    intro chunk segs f off k h
    unfold planAll at h
    split at h
    · exact ih chunk segs f off k h
    · simp only [List.flatMap_cons] at h
      rcases List.mem_append.mp h with h | h
      · exact flushPlan_within n segs chunk f n off k h
      · split at h
        · cases h
        · have := ih _ _ _ off k h
          rwa [(flushPlan_rest 0 (fun _ => 0) n segs chunk f n).count] at this

/-- the copies out of a window at `window` -/
def runCopies (window : Nat) (cs : List Copy) (m : Mem) : Mem :=
  cs.foldl (fun m c => m.copy c.dest (window + c.src) c.len) m

/-- what the memory holds after all windows of a plan -/
def playAll (window : Nat) :
    List (Window σ) → (chunk : Nat) → List Segment → (file_offset : Nat) → Mem → Mem
  | [], _, _, _, m => m
  | w :: ws, chunk, segs, f, m =>
    if w.outcnt = 0 then playAll window ws chunk segs f m
    else
      let r := flushPlan w.outcnt chunk segs f w.outcnt
      playAll window ws r.chunk r.todo r.file_offset
        (runCopies window (copiesOf r.events) (m.paste window w.outcnt w.bytes))

/-- the state after some windows that went by a plan; `done` when they all did -/
structure Planned (plan : List Flush) (m : Mem) (done : Bool) (s t : State σ) : Prop where
  logs : ∃ cs, cs <+: planCopies plan ∧ (done = true → cs = planCopies plan) ∧
    t.copies = s.copies ++ cs ∧ t.writes = s.writes ++ cs.map Copy.range
  whole : done = true → ∀ r ∈ plan, r.stuck = false
  mem : done = true → t.mem = m
  elf : ∃ q e, t.elf = { s.elf with free_mem_ptr := q, exhausted := e }

/-- nothing more is done -/
theorem Planned.stopped {plan : List Flush} {m : Mem} {s t : State σ} {q : Nat} {e : Bool}
    (h1 : t.copies = s.copies) (h2 : t.writes = s.writes)
    (h3 : t.elf = { s.elf with free_mem_ptr := q, exhausted := e }) : Planned plan m false s t :=
  ⟨⟨[], List.nil_prefix, by simp, by rw [h1, List.append_nil], by rw [h2]; simp⟩, by simp, by simp,
    ⟨q, e, h3⟩⟩

theorem planCopies_cons (r : Flush) (plan : List Flush) :
    planCopies (r :: plan) = copiesOf r.events ++ planCopies plan := by
  rw [planCopies, List.flatMap_cons, copiesOf_append]
  rfl

/-- one window before the others -/
theorem Planned.cons {r : Flush} {plan : List Flush} {m : Mem} {done : Bool} {s s₁ t : State σ}
    {q : Nat} {e : Bool} (h : Planned plan m done s₁ t) (hr : r.stuck = false)
    (h1 : s₁.copies = s.copies ++ copiesOf r.events)
    (h2 : s₁.writes = s.writes ++ (copiesOf r.events).map Copy.range)
    (h3 : s₁.elf = { s.elf with free_mem_ptr := q, exhausted := e }) :
    Planned (r :: plan) m done s t := by
  obtain ⟨cs, hc1, hc2, hc3, hc4⟩ := h.logs
  refine ⟨⟨copiesOf r.events ++ cs, ?_, fun hd => ?_, ?_, ?_⟩, fun hd => ?_, h.mem, ?_⟩
  · rw [planCopies_cons]
    exact (List.prefix_append_right_inj _).mpr hc1
  · rw [planCopies_cons, hc2 hd]
  · rw [hc3, h1, List.append_assoc]
  · rw [hc4, h2, List.map_append, List.append_assoc]
  · exact List.forall_mem_cons.mpr ⟨hr, h.whole hd⟩
  · obtain ⟨q', e', hq⟩ := h.elf
    rw [h3] at hq
    exact ⟨q', e', hq⟩

/-- copies that spare what is read later -/
theorem Reads.copies {t window : Nat} {T : Mem} {es : List Event} (cs : List Copy) :
    ∀ {m : Mem}, Reads t T es m → (∀ c ∈ cs, ∀ e ∈ es, Spares t (.copy c) e) →
      Reads t T es (runCopies window cs m) := by
  induction cs with
  | nil => intro m h _; exact h
  | cons c cs ih =>
    intro m h hc
    exact ih (h.copy (hc c List.mem_cons_self) _) fun d hd => hc d (List.mem_cons_of_mem _ hd)

/-- the windows from the position `p` of a stream on: each is full, the last one may be shorter -/
def Feeds (F : Nat → UInt8) (N : Nat) : Nat → List (Window σ) → Prop
  | p, [] => p = N
  | p, w :: ws => w.outcnt = min WSIZE (N - p) ∧ (∀ k < w.outcnt, w.bytes k = F (p + k)) ∧
      Feeds F N (p + w.outcnt) ws

/-- the table and the window at `window` are different blocks -/
def BlocksApart (t window n : Nat) : Prop := ApartFrom (window, WSIZE) (t, sizeof_segment * n)

instance (t window n : Nat) : Decidable (BlocksApart t window n) := inferInstanceAs (Decidable (_ ∨ _))

/-- filling the window leaves the table alone -/
theorem Reads.paste {t window n k : Nat} {T m b : Mem} {es : List Event} (h : Reads t T es m)
    (hw : BlocksApart t window k) (hn : n ≤ WSIZE)
    (hes : ∀ off l, .table off l ∈ es → off + l ≤ sizeof_segment * k) :
    Reads t T es (m.paste window n b) := by
  intro off l he x h1 h2
  have hle := hes off l he
  rw [Mem.paste_out m window n b ((hw.shorter hn).out (by omega) (by simp only; omega))]
  exact h off l he x h1 h2

/-- before the windows of the lengths `ns`: the entries `todo` are left, and the bytes of the table are
there when they are read -/
structure Ready (t : Nat) (T : Mem) (ns : List Nat) (z : Zip) (s : State σ) (todo : List Segment) :
    Prop where
  table : s.elf.table = t
  holds : Holds T t z.chunk todo
  count : z.chunk + todo.length = s.elf.nchunks
  blocks : BlocksApart t z.window s.elf.nchunks
  reads : Reads t T ((planAll ns z.chunk todo z.file_offset).flatMap Flush.events) s.mem
  kept : TableKept t (planAll ns z.chunk todo z.file_offset)

/-- one window that is not empty -/
theorem Ready.step {t n : Nat} {T b : Mem} {ns : List Nat} {z : Zip} {s : State σ} {todo : List Segment}
    {r : Flush} (h : Ready t T (n :: ns) z s todo) (hn : n ≠ 0) (hle : n ≤ WSIZE)
    (hplan : flushPlan n z.chunk todo z.file_offset n = r) :
    flushCopies n z (fillWindow z.window b n s)
        = (if r.stuck then none
            else some ⟨uns 64 (z.bytes_out + n : Nat), z.window, r.chunk, r.file_offset⟩,
          play z.window r (fillWindow z.window b n s)) ∧
      (r.stuck = false → Ready t T ns
        ⟨uns 64 (z.bytes_out + n : Nat), z.window, r.chunk, r.file_offset⟩
        (play z.window r (fillWindow z.window b n s)) r.todo) := by
  have hrest := flushPlan_rest t T n todo z.chunk z.file_offset n
  have hwithin := planAll_within (n :: ns) z.chunk todo z.file_offset
  have hk := h.kept
  have hr := h.reads.paste (b := b) h.blocks hle (by rw [← h.count]; exact hwithin)
  unfold TableKept at hk
  unfold planAll at hr hk
  rw [if_neg hn] at hr hk
  simp only [hplan, List.flatMap_cons] at hr hk hrest
  obtain ⟨hk1, hk2, hk3⟩ := List.pairwise_append.mp hk
  refine ⟨flushCopies_plan hplan h.table h.holds h.count
    (fun off l he => hr off l (List.mem_append_left _ he)) hk1, fun hs => ?_⟩
  rw [hs] at hk2 hk3 hr
  rw [play_eq]
  refine ⟨h.table, hrest.holds h.holds, hrest.count.trans h.count, h.blocks, ?_, hk2⟩
  exact Reads.copies (copiesOf r.events) (fun off l he => hr off l (List.mem_append_right _ he))
    fun c hc e he => hk3 _ (mem_copiesOf.mp hc) e he

/-- a window that is not empty, before the others -/
theorem flush_step {t n p : Nat} {T b : Mem} {ws : List (Window σ)} {z : Zip} {s : State σ}
    {todo : List Segment} (h : Ready t T (n :: ws.map Window.outcnt) z s todo) (hn : n ≠ 0)
    (hle : n ≤ WSIZE) (hb : uns 64 (z.bytes_out + n : Nat) = p)
    (hrest : ∀ (z : Zip) (s : State σ) (todo : List Segment), z.bytes_out = p →
      Ready t T (ws.map Window.outcnt) z s todo →
      Planned (planAll (ws.map Window.outcnt) z.chunk todo z.file_offset)
        (playAll z.window ws z.chunk todo z.file_offset s.mem) (flushAll M ws z s).1.isSome s
        (flushAll M ws z s).2) (res : Option Zip × State σ)
    (hres : res = match flushCopies n z (fillWindow z.window b n s) with
      | (none, s) => (none, s)
      | (some z, s) => flushAll M ws z s) :
    Planned (planAll (n :: ws.map Window.outcnt) z.chunk todo z.file_offset)
      (playAll z.window (⟨b, n, [], s.fs⟩ :: ws) z.chunk todo z.file_offset s.mem) res.1.isSome s
      res.2 := by
  subst hres
  generalize hplan : flushPlan n z.chunk todo z.file_offset n = r
  obtain ⟨hfl, hnext⟩ := h.step (b := b) hn hle hplan
  rw [hfl]
  unfold planAll playAll
  rw [if_neg hn, if_neg hn]
  simp only [hplan]
  cases hstuck : r.stuck with
  | true =>
    simp only [if_true]
    rw [play_eq]
    refine ⟨⟨copiesOf r.events, ?_, by simp, rfl, rfl⟩, by simp, by simp, ⟨_, _, rfl⟩⟩
    rw [planCopies_cons]
    exact List.prefix_append _ _
  | false =>
    simp only [Bool.false_eq_true, if_false]
    have hi := hrest _ _ _ hb (hnext hstuck)
    rw [play_eq, hstuck] at hi
    rw [play_eq, hstuck]
    exact Planned.cons (s := s) hi hstuck rfl rfl rfl

/-- **all windows after the headers go by the plan** -/
theorem flushAll_plan {F : Nat → UInt8} {N t : Nat} {T : Mem} (hN : N < 18446744073709551616)
    (ws : List (Window σ)) :
    ∀ (p : Nat) (z : Zip) (s : State σ) (todo : List Segment), Feeds F N p ws → 0 < p → p ≤ N →
      z.bytes_out = p → Ready t T (ws.map Window.outcnt) z s todo →
      Planned (planAll (ws.map Window.outcnt) z.chunk todo z.file_offset)
        (playAll z.window ws z.chunk todo z.file_offset s.mem) (flushAll M ws z s).1.isSome s
        (flushAll M ws z s).2 := by
  induction ws with
  | nil =>
    intro p z s todo _ _ _ _ _
    refine ⟨⟨[], List.nil_prefix, fun _ => rfl, (List.append_nil _).symm, (List.append_nil _).symm⟩,
      fun _ r hr => ?_, fun _ => rfl, ⟨_, _, rfl⟩⟩
    cases hr
  | cons w ws ih =>
    intro p z s todo hfeed hp hpN hb h
    obtain ⟨hout, -, hfeed⟩ := hfeed
    rw [List.map_cons] at h ⊢
    have ha : Ready t T (w.outcnt :: ws.map Window.outcnt) z (allocated M w.mallocs w.fs s).2 todo :=
      ⟨h.table, h.holds, h.count, h.blocks, h.reads, h.kept⟩
    unfold flushAll
    by_cases hal : (allocated M w.mallocs w.fs s).1 = true
    · rw [if_pos hal]
      by_cases hz : w.outcnt = 0
      · -- an empty window changes nothing
        rw [hz] at hfeed ha
        rw [flush_window, if_pos hz, hz, planAll_zero, playAll, if_pos hz]
        have ha' : Ready t T (ws.map Window.outcnt) z (allocated M w.mallocs w.fs s).2 todo :=
          ⟨ha.table, ha.holds, ha.count, ha.blocks, ha.reads, ha.kept⟩
        obtain ⟨h1, h2, h3, h4⟩ := ih p z _ todo hfeed hp hpN hb ha'
        exact ⟨h1, h2, h3, h4⟩
      · rw [flush_window, if_neg hz, if_neg (by omega)]
        have hsum : uns 64 ((z.bytes_out + w.outcnt : Nat) : Int) = p + w.outcnt := by
          rw [hb, uns64_natCast (by omega)]
        have hstep := flush_step (M := M) (b := w.bytes) ha hz (by rw [hout]; exact Nat.min_le_left _ _) hsum
          (fun z s todo hb' h' => ih (p + w.outcnt) z s todo hfeed (by omega) (by omega) hb' h') _ rfl
        exact ⟨hstep.logs, hstep.whole, hstep.mem, hstep.elf⟩
    · rw [if_neg hal]
      exact Planned.stopped rfl rfl rfl

theorem flushLoop_elf (n window left : Nat) :
    ∀ (chunk f outcnt : Nat) (s : State σ), (flushLoop n window left chunk f outcnt s).2.elf = s.elf := by
  induction left with
  | zero => intro chunk f outcnt s; rfl
  | succ left ih =>
    intro chunk f outcnt s
    unfold flushLoop
    simp only
    split
    · rfl
    · split
      · rfl
      · split
        · exact ih _ _ _ _
        · rfl

/-- what `flush_window` leaves of the decompressor's variables and of those of aboot.c -/
theorem flushCopies_frame {n : Nat} {z : Zip} (h : z.bytes_out + n < 18446744073709551616) (s : State σ) :
    (flushCopies n z s).2.elf = s.elf ∧
      ∀ z', (flushCopies n z s).1 = some z' → z'.bytes_out = z.bytes_out + n ∧ z'.window = z.window := by
  refine ⟨flushLoop_elf _ _ _ _ _ _ _, fun z' hz => ?_⟩
  obtain ⟨p, -, rfl⟩ := Option.map_eq_some_iff.mp hz
  exact ⟨uns64_natCast h, rfl⟩

/-- the variables of aboot.c after a run, but for the heap -/
def SameButHeap (v w : Elf) : Prop := ∃ q e, w = { v with free_mem_ptr := q, exhausted := e }

/-- the windows after the first one change the heap only -/
theorem flushAll_heap {F : Nat → UInt8} {N : Nat} (hN : N < 18446744073709551616)
    (ws : List (Window σ)) :
    ∀ (p : Nat) (z : Zip) (s : State σ), Feeds F N p ws → 0 < p → p ≤ N → z.bytes_out = p →
      SameButHeap s.elf (flushAll M ws z s).2.elf := by
  induction ws with
  | nil => intro p z s _ _ _ _; exact ⟨_, _, rfl⟩
  | cons w ws ih =>
    intro p z s hfeed hp hpN hb
    obtain ⟨hout, -, hfeed⟩ := hfeed
    unfold flushAll
    split
    · by_cases hz : w.outcnt = 0
      · rw [flush_window, if_pos hz]
        exact ih (p + w.outcnt) z (allocated M w.mallocs w.fs s).2 hfeed (by omega) (by omega)
          (by omega)
      · rw [flush_window, if_neg hz, if_neg (by omega)]
        obtain ⟨helf, hnext⟩ := flushCopies_frame (z := z) (n := w.outcnt) (by omega)
          (fillWindow z.window w.bytes w.outcnt (allocated M w.mallocs w.fs s).2)
        generalize flushCopies w.outcnt z _ = r at helf hnext ⊢
        obtain ⟨_ | z₁, s₁⟩ := r
        · simp only at helf ⊢
          rw [helf]
          exact ⟨_, _, rfl⟩
        · have hi := ih (p + w.outcnt) z₁ s₁ hfeed (by omega) (by omega)
            (by rw [(hnext z₁ rfl).1, hb])
          simp only at helf ⊢
          rw [helf] at hi
          exact hi
    · exact ⟨_, _, rfl⟩

/-- **a stream goes by the plan**: its headers are turned away before anything is copied, or the
segments of the program headers are copied as planned, if the plan keeps the table -/
theorem flushAll_planned {F : Nat → UInt8} {N : Nat} (hN : N < 18446744073709551616) (hpos : 0 < N)
    {w : Window σ} {ws : List (Window σ)} (hfeed : Feeds F N 0 (w :: ws)) (window : Nat) (s : State σ) :
    ((flushAll M (w :: ws) ⟨0, window, 0, 0⟩ s).1 = none ∧
      (flushAll M (w :: ws) ⟨0, window, 0, 0⟩ s).2.copies = s.copies ∧
      (flushAll M (w :: ws) ⟨0, window, 0, 0⟩ s).2.writes = s.writes) ∨
    ∃ v, is_loadable_elf M.clusters w.bytes w.outcnt (allocated M w.mallocs w.fs s).2.elf
        = (some true, v) ∧ SameButHeap v (flushAll M (w :: ws) ⟨0, window, 0, 0⟩ s).2.elf ∧
      (BlocksApart v.table window v.nchunks →
        TableKept v.table (planAll ((w :: ws).map Window.outcnt) 0 v.segments 0) →
        Planned (planAll ((w :: ws).map Window.outcnt) 0 v.segments 0)
          (playAll window (w :: ws) 0 v.segments 0 (storeTable v s.mem))
          (flushAll M (w :: ws) ⟨0, window, 0, 0⟩ s).1.isSome { s with elf := v }
          (flushAll M (w :: ws) ⟨0, window, 0, 0⟩ s).2) := by
  obtain ⟨hout, -, hfeed⟩ := hfeed
  have hw : w.outcnt ≠ 0 := by unfold WSIZE at hout; omega
  have hle : w.outcnt ≤ WSIZE := by rw [hout]; exact Nat.min_le_left _ _
  have hsum : uns 64 ((0 + w.outcnt : Nat) : Int) = w.outcnt := by
    rw [Nat.zero_add, uns64_natCast (by omega)]
  unfold flushAll
  by_cases ha : (allocated M w.mallocs w.fs s).1 = true
  · rw [if_pos ha, flush_window, if_neg hw, if_pos rfl, loadable]
    -- the headers are in the first window
    generalize hv : is_loadable_elf M.clusters w.bytes w.outcnt
      (fillWindow window w.bytes w.outcnt (allocated M w.mallocs w.fs s).2).elf = e
    obtain ⟨a, v⟩ := e
    rcases a with _ | _ | _
    · exact Or.inl ⟨rfl, rfl, rfl⟩
    · exact Or.inl ⟨rfl, rfl, rfl⟩
    · have htab := is_loadable_elf_table hv
      have hfine := is_loadable_elf_fine hv
      simp only [hfine, Option.isSome_some, and_self, if_true]
      refine Or.inr ⟨v, hv, ?_, fun hblocks hkept => ?_⟩
      · obtain ⟨helf, hnext⟩ := flushCopies_frame (z := ⟨0, window, 0, 0⟩) (n := w.outcnt)
          (by simp only; omega)
          { fillWindow window w.bytes w.outcnt (allocated M w.mallocs w.fs s).2 with
            elf := v
            mem := storeTable v (s.mem.paste window w.outcnt w.bytes) }
        simp only [fillWindow, allocated] at helf hnext ⊢
        generalize flushCopies w.outcnt ⟨0, window, 0, 0⟩ _ = r at helf hnext ⊢
        obtain ⟨_ | z₁, s₁⟩ := r
        · simp only at helf ⊢
          rw [helf]
          exact ⟨_, _, rfl⟩
        · have hi := flushAll_heap (M := M) hN ws _ z₁ s₁ hfeed (by omega) (by omega)
            (hnext z₁ rfl).1
          simp only at helf ⊢
          rw [helf] at hi
          exact hi
      · -- the window can as well be filled after the table is stored
        have hmem : storeTable v (s.mem.paste window w.outcnt w.bytes)
            = (storeTable v s.mem).paste window w.outcnt w.bytes := by
          by_cases h0 : v.nchunks = 0
          · have hnil : v.chunks = [] := by
              rw [htab.nchunks] at h0
              exact List.length_eq_zero_iff.mp h0
            rw [storeTable, storeTable, hnil]
            simp
          · refine (Mem.paste_put _ _ ?_).symm
            rw [length_flatMap_encode, ← htab.nchunks]
            unfold BlocksApart ApartFrom WSIZE sizeof_segment at hblocks
            unfold sizeof_segment
            unfold WSIZE at hle
            simp only at hblocks
            omega
        have hready : Ready v.table (storeTable v s.mem) (w.outcnt :: ws.map Window.outcnt)
            ⟨0, window, 0, 0⟩ { (allocated M w.mallocs w.fs s).2 with elf := v, mem := storeTable v s.mem }
            v.segments :=
          ⟨rfl, htab.holds s.mem, (Nat.zero_add _).trans htab.count, hblocks, fun _ _ _ _ _ _ => rfl, hkept⟩
        have hstep := flush_step (M := M) (b := w.bytes) hready hw hle hsum
          (fun z s todo hb' h' => flushAll_plan hN ws _ z s todo hfeed (by omega) (by omega) (by omega) h')
          _ rfl
        simp only [fillWindow, allocated] at hstep hmem ⊢
        rw [hmem]
        exact ⟨hstep.logs, hstep.whole, hstep.mem, hstep.elf⟩
  · rw [if_neg ha]
    exact Or.inl ⟨rfl, rfl, rfl⟩

end

end Load
