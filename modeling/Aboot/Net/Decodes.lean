import Aboot.Net.Packed

/-!
# net.c: the kernel's arguments, and the whole round trip

* `takeArgs_packed`    the packed arguments are the kernel's, when it has no others;
* `prompt_done`        arguments other than a single `i` are not asked for again;
* `image_decodes`      packing an image and loading it.
-/

set_option linter.unusedVariables false

namespace Net
open Word Netwrap Prog Device
open CString (str)

/-- a single `i` -/
def letterI : List UInt8 := ['i'.toUInt8]

/-- decompressing the kernel and clearing its bss has left the header -/
def HeaderKept (p : Pack) (s t : State) : Prop :=
  ∀ x, BOOT_ADDR + p.header ≤ x → x < BOOT_ADDR + p.kern → t.mem x = s.mem x

/-! ## the arguments -/

/-- the packed arguments, or none -/
def Pack.arg (p : Pack) : List UInt8 := p.barg.getD []

theorem Pack.arg_spec (p : Pack) : (Pack.arg p).length = argLength p.barg ∧ 0 ∉ Pack.arg p ∧
    (Pack.arg p ≠ [] → headerSize p.barg = 12 + ((Pack.arg p).length + 1)) := by
  have h := p.no_nul
  unfold Pack.arg
  cases hb : p.barg with
  | none => exact ⟨rfl, List.not_mem_nil, fun hne => absurd rfl hne⟩
  | some arg => exact ⟨rfl, h arg hb, fun _ => rfl⟩

theorem takeArgs_packed {p : Pack} {end_ : Nat} (hfit : Fits p end_) {u : State}
    (hsize : u.header_size = headerSize p.barg) (hempty : u.kernel_args 0 = 0)
    (hmem : ∀ k, k ≤ argLength p.barg →
      u.mem (BOOT_ADDR + p.header + 12 + k) = (Pack.arg p).getD k 0) :
    str 256 (takeArgs end_ u).kernel_args 0 = Pack.arg p := by
  obtain ⟨hlen, hz, hsz⟩ := Pack.arg_spec p
  have hshort := p.short
  have h0 : u.mem (BOOT_ADDR + p.header + 12) = (Pack.arg p).getD 0 0 := hmem 0 (Nat.zero_le _)
  unfold takeArgs
  dsimp only
  rw [hfit.header, hsize]
  by_cases hne : Pack.arg p = []
  · rw [if_neg (by rw [h0, hne]; exact fun h => h.2 rfl), hne]
    exact CString.str_nil hempty
  · obtain ⟨b, arg, hb⟩ := List.exists_cons_of_ne_nil hne
    have hcond : u.mem (BOOT_ADDR + p.header + 12) ≠ 0 := by
      rw [h0, hb]
      exact fun h => hz (by rw [hb, ← show b = 0 from h]; exact List.mem_cons_self)
    have hcount : uns 64 ((headerSize p.barg : Int) - 12) = (Pack.arg p).length + 1 := by
      rw [hsz hne]
      have e : ((12 + ((Pack.arg p).length + 1) : Nat) : Int) - 12
        = ((Pack.arg p).length + 1 : Nat) := by omega
      rw [e, uns64_natCast (by omega)]
    have hstr : str ((Pack.arg p).length + 1) u.mem (BOOT_ADDR + p.header + 12) = Pack.arg p := by
      refine CString.str_eq_of_getElem? (by omega) hz (fun k hk => ?_) ?_
      · rw [hmem k (by omega), List.getD_eq_getElem _ _ hk]
      · rw [hmem _ (by omega), List.getD_eq_default _ _ (le_refl _)]
    rw [if_pos ⟨hempty, hcond⟩]
    dsimp only
    rw [hcount]
    unfold strncpy
    rw [hstr]
    dsimp only
    rw [if_pos (by omega)]
    exact CString.str_strcpy (by omega) hz

theorem interactive_iff {args : Mem} : interactive args ↔ str 256 args 0 = letterI := by
  constructor
  · intro h
    refine CString.str_eq_of_getElem? (by decide) (by decide) (fun k hk => ?_) h.2
    obtain rfl : k = 0 := by
      have : letterI.length = 1 := rfl
      omega
    exact h.1
  · intro h
    have hlen : (str 256 args 0).length = 1 := by rw [h]; rfl
    have h0 : args 0 = 'i'.toUInt8 := by
      have e := @CString.str_getElem 256 args 0 0 (by omega)
      rw [← show args (0 + 0) = args 0 from rfl, ← e]
      simp only [h]
      rfl
    refine ⟨h0, ?_⟩
    by_contra h1
    have hcons : args 0 ≠ 0 := by rw [h0]; decide
    have h2 : (str 256 args 0).length ≠ 1 := by
      unfold str
      rw [show (256 : Nat) = 254 + 1 + 1 from rfl, Mem.get, List.range_succ_eq_map, List.map_cons,
        List.range_succ_eq_map, List.map_cons, List.map_cons,
        List.takeWhile_cons_of_pos (by simpa using hcons),
        List.takeWhile_cons_of_pos (by simpa using h1)]
      simp
    exact h2 hlen

/-- arguments other than a single `i` are not asked for again -/
theorem prompt_done {args : Mem} {typed : List UInt8} (n : Nat) (h : str 256 args 0 ≠ letterI) :
    prompt (n + 1) args typed = some args := by
  unfold prompt
  rw [if_neg fun hi => h (interactive_iff.mp hi)]

/-! ## the round trip -/

theorem decompress_some {M : Machine} {inflate : Load.State Fs → Load.Inflated Fs} {s u : State}
    (h : decompress M inflate s = some u) :
    u.header_size = s.header_size ∧ u.kernel_args = s.kernel_args := by
  unfold decompress at h
  split at h
  · cases h
  · rw [← Option.some.inj h]
    exact ⟨rfl, rfl⟩

theorem Loaded.holds {p : Pack} {stack : Mem} {d : Device} (hd : d.bytes = p.contents stack)
    (h1 : p.kern + p.kernel.bytes.length ≤ fileSize d)
    (h2 : ∀ file, p.initrd = some file → p.ird + file.bytes.length ≤ fileSize d) {m : Mem}
    (h : Loaded d m) : Holds p stack m := by
  refine ⟨fun k hk => ?_, fun file hf k hk => ?_⟩
  · rw [h k (by omega), hd]
  · have := h2 file hf
    rw [h k (by omega), hd]

/-- the arguments after the decompression -/
theorem args_packed {p : Pack} {stack : Mem} {end_ : Nat} (hfit : Fits p end_) {clusters : List Cluster}
    {s t u : State} (h : Holds p stack s.mem) (ht : Unpacked p clusters s t)
    (hu : u.header_size = t.header_size ∧ u.kernel_args = t.kernel_args)
    (hkept : HeaderKept p t u) (hempty : s.kernel_args 0 = 0) :
    str 256 (takeArgs end_ u).kernel_args 0 = Pack.arg p := by
  have hpl := p.places
  have hgap := p.kern_gap
  refine takeArgs_packed hfit (hu.1.trans ht.header_size) ?_ fun k hk => ?_
  · rw [hu.2, ht.kernel_args]
    exact hempty
  · have hlt : p.header + (12 + k) < p.kern := by
      have hs : 12 + argLength p.barg < headerSize p.barg ∨ argLength p.barg = 0 := by
        cases p.barg with
        | none => exact Or.inr rfl
        | some arg => exact Or.inl (by show 12 + arg.length < 12 + (arg.length + 1); omega)
      omega
    have e : BOOT_ADDR + p.header + 12 + k = BOOT_ADDR + (p.header + (12 + k)) := by omega
    have hend : BOOT_ADDR + p.kern ≤ Pack.imageEnd p := by
      unfold Pack.imageEnd
      omega
    rw [e, hkept _ (by omega) (by omega), ht.image _ (by omega), h.kern _ (by omega)]
    exact Pack.contents_arg p stack hk

theorem load_kernel_run {M : Machine} {inflate : Load.State Fs → Load.Inflated Fs} {end_ : Nat}
    {s t u : State} (h1 : unpack M.clusters end_ s = some t) (h2 : decompress M inflate t = some u)
    (typed : List UInt8) :
    load_kernel M inflate end_ typed s
      = (prompt (typed.length + 1) (takeArgs end_ u).kernel_args typed).map fun args =>
        (0, { takeArgs end_ u with kernel_args := args }) := by
  unfold load_kernel
  rw [h1, Option.bind_some, h2, Option.bind_some]

/-- **the round trip.**  The wrapper packs the image.  Where the whole file is loaded and there is
room for the copies, the loader finds the sizes and the contents that were packed and copies the
initrd below the heap pointer.  When the kernel is then decompressed and the header is still there,
empty arguments become the packed ones, and only a single `i` is asked for again. -/
theorem image_decodes (p : Pack) (stack buf : Mem) (end_ : Nat) (hfit : Fits p end_)
    (hird : p.irdSize ≤ 2147483136) :
    ∃ d, netabootwrap stack buf p.bootloader p.kernel.toFile (p.initrd.map Part.toFile) p.barg
        (opened fun _ => 0) = some ((), d) ∧
      ∀ (M : Machine) (s : State), Loaded d s.mem → Room p M.clusters s →
        ∃ t, unpack M.clusters end_ s = some t ∧ Unpacked p M.clusters s t ∧
          ∀ (inflate : Load.State Fs → Load.Inflated Fs) (u : State),
            decompress M inflate t = some u → HeaderKept p t u → s.kernel_args 0 = 0 →
              str 256 (takeArgs end_ u).kernel_args 0 = Pack.arg p ∧
              (∀ typed, load_kernel M inflate end_ typed s
                = (prompt (typed.length + 1) (takeArgs end_ u).kernel_args typed).map fun args =>
                  (0, { takeArgs end_ u with kernel_args := args })) ∧
              (Pack.arg p ≠ letterI → ∀ typed,
                load_kernel M inflate end_ typed s = some (0, takeArgs end_ u)) := by
  obtain ⟨d, hrun, hd, h1, h2⟩ := netabootwrap_run p stack buf
  refine ⟨d, hrun, fun M s hload hroom => ?_⟩
  have h := Loaded.holds hd h1 h2 hload
  obtain ⟨t, hunpack, ht⟩ := unpack_packed hfit h M.clusters hird hroom
  refine ⟨t, hunpack, ht, fun inflate u hu hkept hempty => ?_⟩
  have hargs := args_packed hfit h ht (decompress_some hu) hkept hempty
  refine ⟨hargs, load_kernel_run hunpack hu, fun hne typed => ?_⟩
  rw [load_kernel_run hunpack hu, prompt_done _ (by rw [hargs]; exact hne)]
  rfl

/-! ## a small image -/

/-- the decompressor on an empty stored block: it fills its input buffer -/
def inflateEmpty (s : Load.State Fs) : Load.Inflated Fs := ⟨[], true, [], ⟨s.fs.src + 0x20000⟩⟩

theorem malloc_high {clusters : List Cluster} {a n : Nat} (h : 1048576 + n ≤ a)
    (ha : a < 18446744073709551616) : malloc clusters a n = (a - n) / 8 * 8 := by
  unfold malloc
  rw [if_neg (by omega), uns64_sub (by omega) ha]

theorem mallocs_high (clusters : List Cluster) {a : Nat} (h : 2097152 ≤ a)
    (ha : a < 18446744073709551616) : ∃ q, Load.mallocs clusters [Load.INBUFSIZ, Load.WSIZE] a = (some q, q) := by
  have h1 : Load.INBUFSIZ = 131072 := rfl
  have h2 : Load.WSIZE = 32768 := rfl
  obtain ⟨b, hb, hb1⟩ : ∃ b, malloc clusters a Load.INBUFSIZ = b ∧ 1900000 ≤ b ∧ b ≤ a :=
    ⟨_, rfl, by rw [malloc_high (by omega) ha]; omega⟩
  obtain ⟨c, hc, hc1⟩ : ∃ c, malloc clusters b Load.WSIZE = c ∧ 1800000 ≤ c :=
    ⟨_, rfl, by rw [malloc_high (by omega) (by omega)]; omega⟩
  have high : ∀ x, 1800000 ≤ x → ¬ out_of_memory x = true := by
    intro x hx hx'
    unfold out_of_memory at hx'
    rw [decide_eq_true_eq] at hx'
    have hp : PAGE_SIZE = 8192 := rfl
    omega
  refine ⟨c, ?_⟩
  rw [Load.mallocs, hb, if_neg (high b (by omega)), Load.mallocs, hc, if_neg (high c (by omega)),
    Load.mallocs]

theorem uncompress_empty {M : Machine} {s : Load.State Fs} {q : Nat}
    (h : Load.mallocs M.clusters [Load.INBUFSIZ, Load.WSIZE] s.elf.free_mem_ptr = (some q, q)) :
    ∃ t, Load.uncompress_kernel M (fun (_ : Unit) _ => inflateEmpty s) () s = (some 1, t) ∧
      t.mem = s.mem ∧ t.elf.bss_size = s.elf.bss_size ∧ t.elf.bss_start = s.elf.bss_start := by
  have ha : (Load.allocated M [Load.INBUFSIZ, Load.WSIZE] s.fs s).1 = true := by
    unfold Load.allocated
    rw [h]
    rfl
  refine ⟨(Load.allocated M [] ⟨s.fs.src + 0x20000⟩
    (Load.allocated M [Load.INBUFSIZ, Load.WSIZE] s.fs s).2).2, ?_, rfl, rfl, rfl⟩
  unfold Load.uncompress_kernel inflateEmpty
  dsimp only [Load.flushAll]
  rw [if_neg (by rw [ha]; decide), if_pos ⟨rfl, rfl⟩]

theorem decompress_empty {M : Machine} {t : State} (hbss : t.load.elf.bss_size = 0)
    (h : BOOT_ADDR ≤ t.load.elf.free_mem_ptr) (h' : t.load.elf.free_mem_ptr < 18446744073709551616) :
    ∃ u, decompress M inflateEmpty t = some u ∧ u.mem = t.mem := by
  have hb : BOOT_ADDR = 536870912 := rfl
  have hz : uns 64 (0 : Int) = 0 := by decide
  obtain ⟨q, hq⟩ := mallocs_high M.clusters (by omega) h'
  obtain ⟨v, hv, hmem, hsize, -⟩ := uncompress_empty hq
  refine ⟨{ t with load := Load.clearBss v }, ?_, ?_⟩
  · unfold decompress
    rw [hv]
  · show v.mem.put _ (List.replicate (uns 64 v.elf.bss_size) 0) = t.mem
    rw [hsize, hbss, hz, List.replicate_zero, Mem.put_nil, hmem]
    rfl

/-- an empty file in a gzip header with a long name -/
def gzEmpty : List UInt8 :=
  [0x1f, 0x8b, 8, 8, 0, 0, 0, 0, 0, 3] ++ (List.replicate 10240 0x6b ++
    [0, 1, 0, 0, 0xff, 0xff, 0, 0, 0, 0, 0, 0, 0, 0])

theorem length_gzEmpty : gzEmpty.length = 10264 := by
  unfold gzEmpty
  rw [List.length_append, List.length_append, List.length_replicate]
  rfl

def gzPart : Part :=
  ⟨⟨gzEmpty, by rw [length_gzEmpty]; decide⟩, by rw [length_gzEmpty]; decide,
    by rw [length_gzEmpty]; decide⟩

/-- an initrd of `n` bytes -/
def ramdisk (n : Nat) (h : 10240 < n) (h' : n < 2147483648) : Part :=
  ⟨⟨List.replicate n 7, by rw [List.length_replicate]; omega⟩, by rw [List.length_replicate]; omega,
    by rw [List.length_replicate]; omega⟩

/-- a loader of three bytes with a kernel, an initrd and arguments -/
def smallPack (arg : List UInt8) (h : arg.length < 200) (hz : 0 ∉ arg) : Pack :=
  ⟨[1, 2, 3], gzPart, some (ramdisk 10241 (by decide) (by decide)), some arg, h,
    fun _ e => Option.some.inj e ▸ hz, by decide⟩

theorem smallPack_irdSize (arg : List UInt8) (h : arg.length < 200) (hz : 0 ∉ arg) :
    (smallPack arg h hz).irdSize = 10241 := List.length_replicate

theorem smallPack_fits (arg : List UInt8) (h : arg.length < 200) (hz : 0 ∉ arg) :
    Fits (smallPack arg h hz) (BOOT_ADDR + 3) := by
  refine ⟨Nat.le_add_right _ _, ?_⟩
  rw [Nat.add_sub_cancel_left]
  rfl

/-- the loader's variables when it starts, with a heap below 1 GB and the memory `m` -/
def started (m : Mem) : State :=
  ⟨⟨{ Load.Elf.powerOn with free_mem_ptr := 0x40000000 }, ⟨0⟩, m, 0, 0, 0, [], [], false⟩, 0, 0, 0, 0, 0,
    fun _ => 0, fun _ => 0⟩

/-- a memory with a file at `BOOT_ADDR` -/
def memoryOf (d : Device) : Mem := fun x => d.bytes (x - BOOT_ADDR)

theorem memoryOf_loaded (d : Device) : Loaded d (started (memoryOf d)).mem := by
  intro k _
  show d.bytes (BOOT_ADDR + k - BOOT_ADDR) = d.bytes k
  rw [Nat.add_sub_cancel_left]

/-- a machine without a boot device -/
def netMachine : Machine := Machine.faultless (fun _ _ => 0) (fun _ _ => 0) []

theorem started_top (m : Mem) : top [] (started m) = 0x40000000 := by
  show Load.heapTop [] 0x40000000 &&& 0xffffffffffffe000 = 0x40000000
  decide

theorem smallPack_room (arg : List UInt8) (h : arg.length < 200) (hz : 0 ∉ arg) (m : Mem) :
    Room (smallPack arg h hz) netMachine.clusters (started m) := by
  have hgap := (smallPack arg h hz).kern_gap
  have hh : (smallPack arg h hz).header = 512 := by
    show up 3 = 512
    decide
  have hk : (smallPack arg h hz).kernel.bytes.length = 10264 := length_gzEmpty
  have hup := Pack.le_up ((smallPack arg h hz).kern + (smallPack arg h hz).kernel.bytes.length)
  have hird : (smallPack arg h hz).ird
    = up ((smallPack arg h hz).kern + (smallPack arg h hz).kernel.bytes.length) := rfl
  have hb : BOOT_ADDR = 536870912 := rfl
  have e1 : up 10241 = 10752 := by decide
  have e2 : upPage 10241 = 16384 := by decide
  have e3 : upPage 10264 = 16384 := by decide
  unfold Room Pack.imageEnd
  rw [smallPack_irdSize, hk, e1, e2, e3]
  refine le_trans ?_ (le_of_eq (started_top m).symm)
  omega

theorem started_decompressed {p : Pack} {m : Mem} {t : State}
    (ht : Unpacked p netMachine.clusters (started m) t) :
    ∃ u, decompress netMachine inflateEmpty t = some u ∧ HeaderKept p t u := by
  obtain ⟨h1, h2⟩ := ht.place
  have htop : top netMachine.clusters (started m) = 0x40000000 := started_top m
  have hend : BOOT_ADDR ≤ Pack.imageEnd p := by
    unfold Pack.imageEnd
    omega
  have hfree : t.load.elf.free_mem_ptr = t.load.fs.src := congrArg Load.Elf.free_mem_ptr ht.elf
  obtain ⟨u, hu, hmem⟩ := decompress_empty (M := netMachine) (t := t)
    (congrArg Load.Elf.bss_size ht.elf) (by omega) (by omega)
  exact ⟨u, hu, fun x _ _ => by rw [hmem]⟩

/-- `ro` -/
def readOnly : List UInt8 := "ro".toList.map Char.toUInt8

theorem image_decodes_small : ∃ d s u,
    netabootwrap (fun _ => 0) (fun _ => 0) [1, 2, 3] gzPart.toFile
      (some (ramdisk 10241 (by decide) (by decide)).toFile) (some readOnly)
      (opened fun _ => 0) = some ((), d) ∧
    Loaded d s.mem ∧ s.kernel_args 0 = 0 ∧
    load_kernel netMachine inflateEmpty (BOOT_ADDR + 3) [] s = some (0, u) ∧
    str 256 u.kernel_args 0 = readOnly := by
  obtain ⟨d, hrun, h⟩ := image_decodes (smallPack readOnly (by decide) (by decide)) (fun _ => 0)
    (fun _ => 0) (BOOT_ADDR + 3) (smallPack_fits _ _ _) (by rw [smallPack_irdSize]; decide)
  obtain ⟨t, -, ht, hargs⟩ := h netMachine (started (memoryOf d)) (memoryOf_loaded d)
    (smallPack_room _ _ _ _)
  obtain ⟨u, hu, hkept⟩ := started_decompressed ht
  obtain ⟨h1, -, h2⟩ := hargs inflateEmpty u hu hkept rfl
  exact ⟨d, started (memoryOf d), takeArgs (BOOT_ADDR + 3) u, hrun, memoryOf_loaded d, rfl,
    h2 (by decide) [], h1⟩

/-! ## what is not decoded -/

/-- `ro` and a carriage return -/
def typedReadOnly : List UInt8 := [114, 111, 13]

theorem prompt_readOnly {args : Mem} (h : interactive args) (n : Nat) :
    prompt (n + 2) args typedReadOnly
      = some (((args.put 0 [114]).put 1 [111]).put 2 [0]) := by
  have hline : getline 256 typedReadOnly 0 args
    = some (((args.put 0 [114]).put 1 [111]).put 2 [0], []) := rfl
  have hnot : ¬ interactive (((args.put 0 [114]).put 1 [111]).put 2 [0]) := by
    intro hi
    have e : (114 : UInt8) = 'i'.toUInt8 := hi.1
    exact absurd e (by decide)
  unfold prompt
  rw [if_pos h, hline]
  dsimp only
  unfold prompt
  rw [if_neg hnot]

/-- a decompressor that leaves through `unzip_error`, after it has filled its buffer -/
def inflateError (s : Load.State Fs) : Load.Inflated Fs :=
  ⟨[], false, [], ⟨s.fs.src + 0x20000⟩⟩

theorem load_kernel_error (M : Machine) (end_ : Nat) (typed : List UInt8) (s : State) :
    load_kernel M inflateError end_ typed s = none := by
  have h : ∀ t, decompress M inflateError t = none := by
    intro t
    unfold decompress Load.uncompress_kernel inflateError
    by_cases ha : (Load.allocated M [Load.INBUFSIZ, Load.WSIZE] t.load.fs t.load).1 = false
    · rw [if_pos ha]
    · dsimp only [Load.flushAll]
      rw [if_neg ha, if_neg (fun h => Bool.noConfusion h.2)]
  unfold load_kernel
  cases unpack M.clusters end_ s with
  | none => rfl
  | some t => rw [Option.bind_some, h, Option.bind_none]

/-- the blocks of an initrd of almost 2 GB do not fit an `int` -/
theorem load_kernel_large {p : Pack} {stack : Mem} {end_ : Nat} (hfit : Fits p end_) {s : State}
    (h : Holds p stack s.mem) (M : Machine) (hird : 2147483136 < p.irdSize)
    (inflate : Load.State Fs → Load.Inflated Fs) (typed : List UInt8) :
    load_kernel M inflate end_ typed s = none := by
  have hlt := Pack.irdSize_lt p
  have hne : (found p M.clusters s).ird_size ≠ 0 := by
    show (p.irdSize : Int) ≠ 0
    omega
  unfold load_kernel unpack
  rw [pageFree_packed hfit h, loadInitrd, if_pos hne, read_initrd_none (n := p.irdSize) rfl hird hlt,
    Option.bind_none, Option.bind_none]

/-- a kernel, the largest initrd and no arguments -/
def largePack : Pack :=
  ⟨[1, 2, 3], gzPart, some (ramdisk 2147483647 (by decide) (by decide)), none, by decide,
    (fun _ e => by cases e), by decide⟩

/-- packed arguments of a single `i` are asked for again; a file that cannot be decompressed and an
initrd whose blocks do not fit an `int` have no result -/
theorem image_not_decoded :
    (∃ d s u, netabootwrap (fun _ => 0) (fun _ => 0) [1, 2, 3] gzPart.toFile
        (some (ramdisk 10241 (by decide) (by decide)).toFile) (some letterI)
        (opened fun _ => 0) = some ((), d) ∧
      Loaded d s.mem ∧ s.kernel_args 0 = 0 ∧
      load_kernel netMachine inflateEmpty (BOOT_ADDR + 3) typedReadOnly s = some (0, u) ∧
      str 256 u.kernel_args 0 ≠ letterI) ∧
    (∀ s, load_kernel netMachine inflateError (BOOT_ADDR + 3) [] s = none) ∧
    ∃ d, netabootwrap (fun _ => 0) (fun _ => 0) [1, 2, 3] gzPart.toFile
        (some (ramdisk 2147483647 (by decide) (by decide)).toFile) none
        (opened fun _ => 0) = some ((), d) ∧
      ∀ s : State, Loaded d s.mem →
        load_kernel netMachine inflateEmpty (BOOT_ADDR + 3) [] s = none := by
  refine ⟨?_, load_kernel_error netMachine (BOOT_ADDR + 3) [], ?_⟩
  · obtain ⟨d, hrun, hd, h1, h2⟩ := netabootwrap_run (smallPack letterI (by decide) (by decide))
      (fun _ => 0) (fun _ => 0)
    have hfit := smallPack_fits letterI (by decide) (by decide)
    have h := Loaded.holds hd h1 h2 (memoryOf_loaded d)
    obtain ⟨t, hunpack, ht⟩ := unpack_packed hfit h netMachine.clusters
      (by rw [smallPack_irdSize]; decide) (smallPack_room _ _ _ _)
    obtain ⟨u, hu, hkept⟩ := started_decompressed ht
    have hargs := args_packed hfit h ht (decompress_some hu) hkept rfl
    have hi := interactive_iff.mpr hargs
    have hload := load_kernel_run hunpack hu typedReadOnly
    rw [show typedReadOnly.length + 1 = 2 + 2 from rfl, prompt_readOnly hi] at hload
    refine ⟨d, started (memoryOf d), _, hrun, memoryOf_loaded d, rfl, hload, fun he => ?_⟩
    have e : (114 : UInt8) = 'i'.toUInt8 := (interactive_iff.mpr he).1
    exact absurd e (by decide)
  · obtain ⟨d, hrun, hd, h1, h2⟩ := netabootwrap_run largePack (fun _ => 0) (fun _ => 0)
    have hsize : largePack.irdSize = 2147483647 := List.length_replicate
    have hfit : Fits largePack (BOOT_ADDR + 3) := by
      refine ⟨Nat.le_add_right _ _, ?_⟩
      rw [Nat.add_sub_cancel_left]
      rfl
    refine ⟨d, hrun, fun s hload => ?_⟩
    exact load_kernel_large hfit (Loaded.holds hd h1 h2 hload) netMachine (by omega) inflateEmpty []

end Net
