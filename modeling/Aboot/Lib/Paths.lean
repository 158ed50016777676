import Mathlib.Logic.Relation
import Mathlib.Data.List.Basic

/-!
# Path names in a tree of directories

`Tree.Resolves` is the resolution of a path name: the text of a link is interpreted relative to the
directory that contains the link.

A reader may follow links another way: it looks up paths from the root without looking at links
(`walk`), and puts one fixed `base` before the text of every relative link (`Follows`).

* `Resolves.unique`    a path name resolves to at most one file;
* `dirWalk_resolves`   a path name that starts with directories;
* `Follows.resolves`   the reader comes to the file that the path name resolves to, if its paths go
                       through directories and the relative links that it meets lie in `base`.
-/

set_option linter.unusedVariables false

namespace Paths

variable {Node Name : Type}

/-- a path name: whether it starts at the root, its components, and whether it ends in a slash -/
structure Path (Name : Type) where
  absolute : Bool
  comps : List Name
  slash : Bool
deriving DecidableEq

def Path.IsEmpty (p : Path Name) : Prop := p.absolute = false ∧ p.comps = []

/-- the components that a link stands for, with `base` before a relative text -/
def rebase (base : List Name) (p : Path Name) : List Name :=
  if p.absolute then p.comps else base ++ p.comps

/-- directories, links and other files -/
structure Tree (Node Name : Type) where
  root : Node
  isDir : Node → Bool
  child : Node → Name → Option Node
  link : Node → Option (Path Name)
  dir_link : ∀ n, isDir n = true → link n = none

namespace Tree

variable (T : Tree Node Name)

/-- where a path name starts, that is found in the directory `d` -/
def start (d : Node) (p : Path Name) : Node := if p.absolute then T.root else d

/-- the components lead from a directory to a file, links included -/
inductive Resolves : Node → List Name → Node → Prop
  | here {d : Node} : Resolves d [] d
  | file {d n m : Node} {c : Name} {cs : List Name} : T.isDir d = true → T.child d c = some n →
      T.link n = none → Resolves n cs m → Resolves d (c :: cs) m
  | link {d k n m : Node} {c : Name} {cs : List Name} {p : Path Name} : T.isDir d = true →
      T.child d c = some k → T.link k = some p → ¬ p.IsEmpty → Resolves (T.start d p) p.comps n →
      (p.slash = true → T.isDir n = true) → Resolves n cs m → Resolves d (c :: cs) m

/-- the file that a path name names from the directory `d` -/
def Names (d : Node) (p : Path Name) (n : Node) : Prop :=
  ¬ p.IsEmpty ∧ T.Resolves (T.start d p) p.comps n ∧ (p.slash = true → T.isDir n = true)

variable {T}

/-- a path name resolves to at most one file -/
theorem Resolves.unique {d n m : Node} {cs : List Name} (h : T.Resolves d cs n)
    (h' : T.Resolves d cs m) : n = m := by
  induction h generalizing m with
  | here =>
    cases h'
    rfl
  | file hd hc hl _ ih =>
    cases h' with
    | file hd' hc' hl' h2 =>
      obtain rfl := Option.some.inj (hc.symm.trans hc')
      exact ih h2
    | link hd' hc' hl' _ _ _ _ =>
      obtain rfl := Option.some.inj (hc.symm.trans hc')
      cases hl.symm.trans hl'
  | link hd hc hl _ _ _ _ ih ih' =>
    cases h' with
    | file hd' hc' hl' _ =>
      obtain rfl := Option.some.inj (hc.symm.trans hc')
      cases hl.symm.trans hl'
    | link hd' hc' hl' _ h2 _ h3 =>
      obtain rfl := Option.some.inj (hc.symm.trans hc')
      obtain rfl := Option.some.inj (hl.symm.trans hl')
      obtain rfl := ih h2
      exact ih' h3

theorem Names.unique {d n m : Node} {p : Path Name} (h : T.Names d p n) (h' : T.Names d p m) : n = m :=
  h.2.1.unique h'.2.1

/-! ## looking up components -/

variable (T)

/-- the components are looked up one after the other -/
def walk : Node → List Name → Option Node
  | d, [] => some d
  | d, c :: cs => (T.child d c).bind fun n => walk n cs

/-- the same, through directories to a directory -/
def dirWalk : Node → List Name → Option Node
  | d, [] => if T.isDir d then some d else none
  | d, c :: cs => if T.isDir d then (T.child d c).bind fun n => dirWalk n cs else none

variable {T}

theorem dirWalk_nil {d e : Node} : T.dirWalk d [] = some e ↔ T.isDir d = true ∧ d = e := by
  rw [dirWalk, Option.ite_none_right_eq_some, Option.some.injEq]

theorem dirWalk_cons {d e : Node} {c : Name} {cs : List Name} :
    T.dirWalk d (c :: cs) = some e ↔
      T.isDir d = true ∧ ∃ n, T.child d c = some n ∧ T.dirWalk n cs = some e := by
  rw [dirWalk, Option.ite_none_right_eq_some, Option.bind_eq_some_iff]

theorem dirWalk_isDir {d e : Node} {cs : List Name} (h : T.dirWalk d cs = some e) :
    T.isDir d = true ∧ T.isDir e = true := by
  induction cs generalizing d with
  | nil =>
    obtain ⟨hd, rfl⟩ := dirWalk_nil.mp h
    exact ⟨hd, hd⟩
  | cons c cs ih =>
    obtain ⟨hd, n, -, hn⟩ := dirWalk_cons.mp h
    exact ⟨hd, (ih hn).2⟩

theorem dirWalk_walk {d e : Node} {cs : List Name} (h : T.dirWalk d cs = some e) (cs' : List Name) :
    T.walk d (cs ++ cs') = T.walk e cs' := by
  induction cs generalizing d with
  | nil =>
    obtain ⟨-, rfl⟩ := dirWalk_nil.mp h
    rw [List.nil_append]
  | cons c cs ih =>
    obtain ⟨-, n, hc, hn⟩ := dirWalk_cons.mp h
    rw [List.cons_append, walk, hc, Option.bind_some]
    exact ih hn

/-- components that are directories only lead the way -/
theorem dirWalk_resolves {d e n : Node} {cs : List Name} (h : T.dirWalk d cs = some e)
    (cs' : List Name) : T.Resolves d (cs ++ cs') n ↔ T.Resolves e cs' n := by
  induction cs generalizing d with
  | nil =>
    obtain ⟨-, rfl⟩ := dirWalk_nil.mp h
    rw [List.nil_append]
  | cons c cs ih =>
    obtain ⟨hd, k, hc, hk⟩ := dirWalk_cons.mp h
    have hl := T.dir_link k (dirWalk_isDir hk).1
    rw [List.cons_append, ← ih hk]
    constructor
    · intro hr
      cases hr with
      | file _ hc' _ h2 =>
        obtain rfl := Option.some.inj (hc.symm.trans hc')
        exact h2
      | link _ hc' hl' _ _ _ _ =>
        obtain rfl := Option.some.inj (hc.symm.trans hc')
        cases hl.symm.trans hl'
    · exact fun hr => .file hd hc hl hr

/-! ## a fixed base -/

variable (T)

/-- a file is looked up, and as long as it is a link, what its text stands for -/
inductive Follows (base : List Name) : List Name → Node → Prop
  | found {cs : List Name} {n : Node} : T.walk T.root cs = some n → T.link n = none → Follows base cs n
  | link {cs : List Name} {k n : Node} {p : Path Name} : T.walk T.root cs = some k →
      T.link k = some p → Follows base (rebase base p) n → Follows base cs n

/-- the path looked up after another, which leads to a link -/
def next (base cs : List Name) : Option (List Name) :=
  (T.walk T.root cs).bind fun k => (T.link k).map (rebase base)

/-- the paths that are looked up, one after the other -/
def Consulted (base : List Name) : List Name → List Name → Prop :=
  Relation.ReflTransGen fun cs cs' => T.next base cs = some cs'

/-- a path goes through directories, and a link there is one whose text means the same after `base` -/
structure Straight (base cs : List Name) : Prop where
  dirs : ∀ n, T.walk T.root cs = some n → ∃ d, T.dirWalk T.root cs.dropLast = some d
  nonempty : ∀ k p, T.walk T.root cs = some k → T.link k = some p → ¬ p.IsEmpty
  relative : ∀ k p, T.walk T.root cs = some k → T.link k = some p → p.absolute = false →
    T.dirWalk T.root base = T.dirWalk T.root cs.dropLast
  slash : ∀ k p, T.walk T.root cs = some k → T.link k = some p → p.slash = true →
    ∀ n, T.Follows base (rebase base p) n → T.isDir n = true

variable {T}

theorem next_eq {base cs : List Name} {k : Node} {p : Path Name} (hw : T.walk T.root cs = some k)
    (hl : T.link k = some p) : T.next base cs = some (rebase base p) := by
  rw [next, hw, Option.bind_some, hl, Option.map_some]

/-- what holds of every path that is looked up, from a link on, -/
theorem forall_consulted_link {P : List Name → Prop} {base cs c : List Name} (h : P cs)
    (hn : T.next base cs = some c) (hc : ∀ cs', T.Consulted base c cs' → P cs') :
    ∀ cs', T.Consulted base cs cs' → P cs' := by
  intro cs' h'
  obtain rfl | ⟨c', hc', h'⟩ := Relation.ReflTransGen.cases_head h'
  · exact h
  · obtain rfl := Option.some.inj (hn.symm.trans hc')
    exact hc cs' h'

/-- and from the last one on -/
theorem forall_consulted_found {P : List Name → Prop} {base cs : List Name} (h : P cs)
    (hn : T.next base cs = none) : ∀ cs', T.Consulted base cs cs' → P cs' := by
  intro cs' h'
  obtain rfl | ⟨c', hc', -⟩ := Relation.ReflTransGen.cases_head h'
  · exact h
  · cases hn.symm.trans hc'

/-- the last component is looked up in the directory of the path -/
theorem Straight.last {base cs : List Name} (h : T.Straight base cs) {n : Node}
    (hw : T.walk T.root cs = some n) :
    (cs = [] ∧ n = T.root ∧ T.isDir n = true) ∨ ∃ d c, cs = cs.dropLast ++ [c] ∧
      T.dirWalk T.root cs.dropLast = some d ∧ T.isDir d = true ∧ T.child d c = some n := by
  obtain ⟨d, hd⟩ := h.dirs n hw
  rcases List.eq_nil_or_concat cs with rfl | ⟨pre, c, rfl⟩
  · have hn : T.root = n := Option.some.inj hw
    exact .inl ⟨rfl, hn.symm, hn ▸ (dirWalk_isDir hd).1⟩
  · rw [List.concat_eq_append, List.dropLast_concat] at *
    rw [dirWalk_walk hd, walk] at hw
    obtain ⟨m, hc, hm⟩ := Option.bind_eq_some_iff.mp hw
    obtain rfl : m = n := Option.some.inj hm
    exact .inr ⟨d, c, rfl, hd, (dirWalk_isDir hd).2, hc⟩

/-- **A fixed base.**  What is found with `base` before the texts of the relative links is the file
that the path resolves to, if every path on the way is straight. -/
theorem Follows.resolves {base cs : List Name} {n : Node} (h : T.Follows base cs n)
    (hs : ∀ cs', T.Consulted base cs cs' → T.Straight base cs') :
    T.Resolves T.root cs n := by
  induction h with
  | @found cs n hw hl =>
    obtain ⟨rfl, rfl, -⟩ | ⟨d, c, hcs, hd, hdir, hc⟩ := (hs cs .refl).last hw
    · exact .here
    · rw [hcs, dirWalk_resolves hd]
      exact .file hdir hc hl .here
  | @link cs k n p hw hl hf ih =>
    have h0 := hs cs .refl
    have ih := ih fun cs' h' => hs cs' (.head (next_eq hw hl) h')
    obtain ⟨rfl, rfl, hk⟩ | ⟨d, c, hcs, hd, hdir, hc⟩ := h0.last hw
    · rw [T.dir_link _ hk] at hl
      cases hl
    · have hp : T.Resolves (T.start d p) p.comps n := by
        unfold start
        unfold rebase at ih
        by_cases ha : p.absolute = true
        · rw [if_pos ha] at ih ⊢
          exact ih
        · have hbase := h0.relative k p hw hl (by simpa using ha)
          rw [if_neg ha] at ih ⊢
          exact (dirWalk_resolves (hbase.trans hd) p.comps).mp ih
      rw [hcs, dirWalk_resolves hd]
      exact .link hdir hc hl (h0.nonempty k p hw hl) hp
        (fun hslash => h0.slash k p hw hl hslash n hf) .here

end Tree

end Paths
