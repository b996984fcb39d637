import Jpgsync.Launch.Forwarding

/-!
# Launch — Children

The command line of a child, taken apart: the directory, the options that
are left behind, and those that `main` appends. When the options are left
behind whole the child accepts it and means the same.
-/

namespace Jpgsync

open ProgramOptions JpgsyncOptions
open Gather (leftBehind)

/-! ## What main appends -/

/-- `--local`. -/
def localArg : Argument := .option .asLocal (ascii "--local") none

/-- `-m`. -/
def masterArg : Argument := .option .master (ascii "-m") none

/-- `-s` and the address. -/
def addressArg (address : Bytes) : Argument := .option .slave (ascii "-s") (some address)

theorem stands_localArg : localArg.Stands jpgsyncOptions := by
  refine ⟨?_, ?_, ?_, ?_⟩ <;> decide

theorem stands_masterArg : masterArg.Stands jpgsyncOptions := by
  refine ⟨?_, ?_, ?_, ?_⟩ <;> decide

theorem stands_addressArg {address : Bytes} (h : isFlag address = false) :
    (addressArg address).Stands jpgsyncOptions := by
  refine ⟨?_, ?_, ?_, ?_, h⟩ <;> decide

/-! ## Layouts -/

variable {as before between after kept : List Argument} {root first second dir : Bytes}
  {blocks : List (List Argument × Bytes)} {post : List Argument} {more : Option (List Bytes)}
  {ts : List Bytes} {po : JpgsyncOptions} {child : Child}

theorem usesIn_one (o : JpgsyncOption) :
    usesIn o [(before, root)] after = uses o (before ++ after) := by
  simp [usesIn, ofBlocks, Arg.uses]

theorem usesIn_two (o : JpgsyncOption) :
    usesIn o [(before, first), (between, second)] after = uses o (before ++ between ++ after) := by
  simp [usesIn, ofBlocks, Arg.uses]

/-- A directory and options. -/
theorem layout_child (hdir : isFlag dir = false) (hstands : ∀ a ∈ as, a.Stands jpgsyncOptions)
    (hoptions : texts as = []) :
    IsLayout jpgsyncOptions (dir :: tokens as) [([], dir)] as none where
  line := by simp [ofBlocks, Arg.tokens, trail]
  wellRead := ⟨hdir, fun h => h.elim, wellRead_of_options hstands hoptions closed_nil⟩
  options := by simp
  last := hoptions

/-- Options only, and a directory behind `--`. -/
theorem layout_odd (hstands : ∀ a ∈ as, a.Stands jpgsyncOptions) (hoptions : texts as = []) :
    IsLayout jpgsyncOptions (tokens as ++ [dashes, dir]) [] as (some [dir]) where
  line := rfl
  wellRead := wellRead_of_options hstands hoptions (closed_trail _)
  options := by simp
  last := hoptions

/-- The arguments of a layout stand as they are written. -/
theorem stands_of_layout {a : Argument} (hl : IsLayout jpgsyncOptions ts blocks post more)
    (ha : a ∈ post ∨ ∃ b ∈ blocks, a ∈ b.1) : a.Stands jpgsyncOptions := by
  refine hl.wellRead.stands a ?_
  rcases ha with ha | ⟨b, hb, ha⟩
  · exact List.mem_append_right _ ha
  · refine List.mem_append_left _ ?_
    clear hl
    induction blocks with
    | nil => cases hb
    | cons block blocks ih =>
        obtain ⟨options, text⟩ := block
        rw [ofBlocks]
        rcases List.mem_cons.mp hb with rfl | hb
        · exact List.mem_append_left _ ha
        · exact List.mem_append_right _ (List.mem_cons_of_mem _ (ih hb))

/-! ## Meaning the same -/

/-- The options of the parent, in any order. -/
structure Means (po : JpgsyncOptions) (all : List Argument) : Prop where
  once : ∀ o : JpgsyncOption, Once o.base.parserFactory (uses o all)
  val : ∀ o, po.val o = valueAfter o (uses o all)

/-- **A child that has the options of its parent follows it.** -/
theorem follows_of_layout {all : List Argument} (hall : Means po all) (hperm : kept.Perm all)
    (hlevel : level kept = level all)
    (hl : IsLayout jpgsyncOptions child.args blocks post more)
    (hone : blocks.map Prod.snd ++ more.getD [] = [child.root.dir])
    (hplain : PlainDir child.root.dir)
    (hsame : ∀ o, o ≠ .asLocal → o ≠ .master → o ≠ .slave → usesIn o blocks post = uses o kept)
    (hlocal : usesIn .asLocal blocks post = [none])
    (hside : po.count .master = true ∨ po.count .slave = true →
      usesIn .master blocks post = uses .master kept ∧ usesIn .slave blocks post = uses .slave kept)
    (honce : (usesIn .master blocks post).length ≤ 1 ∧ (usesIn .slave blocks post).length ≤ 1)
    (hrole : OneSide blocks post) :
    ∃ q, JpgsyncOptions.parse (child.program :: child.args) = .ok q ∧ Follows po q child := by
  have hkept : ∀ o, o ≠ .verbosity → uses o kept = uses o all := by
    intro o ho
    exact (hall.once o).eq_of_perm (factory_ne_level ho) (perm_uses o hperm)
  have hall_once : ∀ o : JpgsyncOption, Once o.base.parserFactory (usesIn o blocks post) := by
    intro o
    cases o with
    | help =>
        rw [hsame .help (by simp) (by simp) (by simp), hkept .help (by simp)]
        exact hall.once .help
    | verbosity => exact fun h => absurd rfl h
    | master => exact fun _ => honce.1
    | slave => exact fun _ => honce.2
    | asLocal =>
        rw [hlocal]
        exact fun _ => Nat.le_refl 1
    | distribute =>
        rw [hsame .distribute (by simp) (by simp) (by simp), hkept .distribute (by simp)]
        exact hall.once .distribute
    | ncTest =>
        rw [hsame .ncTest (by simp) (by simp) (by simp), hkept .ncTest (by simp)]
        exact hall.once .ncTest
  obtain ⟨q, hq, hpos, hacc⟩ := accepts_layout hl hone hplain hall_once hrole
  refine ⟨q, hq, ⟨?_, ?_, ?_, fun hs => ⟨?_, ?_⟩, ?_, hpos⟩⟩
  · rw [hacc.val, hall.val, hsame .verbosity (by simp) (by simp) (by simp), valueAfter_verbosity,
      valueAfter_verbosity]
    exact congrArg (fun n => some (Value.level n)) hlevel
  · rw [hacc.val, hall.val, hsame .distribute (by simp) (by simp) (by simp),
      hkept .distribute (by simp)]
  · rw [hacc.val, hall.val, hsame .ncTest (by simp) (by simp) (by simp), hkept .ncTest (by simp)]
  · rw [hacc.val, hall.val, (hside hs).1, hkept .master (by simp)]
  · rw [hacc.val, hall.val, (hside hs).2, hkept .slave (by simp)]
  · rw [hacc.count (by simp) (by simp), hlocal]
    simp

/-! ## The parent -/

/-- The root the slave runs on. -/
def otherRoot (first second : Bytes) : Root :=
  if (rootOf first).hostname = [] ∧ (rootOf second).hostname ≠ [] then rootOf first
  else rootOf second

theorem rootOf_init {text : Bytes} {root : Root} {n : Nat}
    (h : Root.new.init text = .ok (root, n)) : rootOf text = root := by
  rw [rootOf, h]

/-- A parent with one root. -/
structure OneChild (po : JpgsyncOptions) (masterPort prog root : Bytes) (rest : List Bytes) :
    Prop where
  side : po.count .master = true ∨ po.count .slave = true
  plain : PlainDir (rootOf root).dir
  children_eq : children po masterPort = [⟨rootOf root, programFor (rootOf root) prog,
    (rootOf root).dir :: (rest ++ [ascii "--local"])⟩]

/-- A parent with two roots. -/
structure TwoChildren (po : JpgsyncOptions) (masterPort prog first second : Bytes)
    (rest : List Bytes) : Prop where
  master : po.count .master = false
  slave : po.count .slave = false
  plain : PlainDir (rootOf first).dir ∧ PlainDir (rootOf second).dir
  children_eq : children po masterPort =
    [⟨mainRoot first second, programFor (mainRoot first second) prog,
        (mainRoot first second).dir :: (rest ++ [ascii "--local", ascii "-m"])⟩,
      ⟨otherRoot first second, programFor (otherRoot first second) prog,
        (otherRoot first second).dir :: (rest ++
          [ascii "--local", ascii "-s", slaveArg (mainRoot first second) masterPort])⟩]

variable {prog : Bytes}

/-- **What a parent starts**, by its layout. -/
theorem children_of_layout (masterPort : Bytes) (hl : IsLayout jpgsyncOptions ts blocks post more)
    (h : JpgsyncOptions.parse (prog :: ts) = .ok po) (hhelp : po.help = false)
    (hlocal : po.count .asLocal = false) :
    (∃ root, blocks.map Prod.snd ++ more.getD [] = [root] ∧ OneSide blocks post ∧
        OneChild po masterPort prog root (leftOver blocks post more)) ∨
      ∃ first second, blocks.map Prod.snd ++ more.getD [] = [first, second] ∧
        TwoChildren po masterPort prog first second (leftOver blocks post more) := by
  obtain ⟨hacc, parsed, hreads, hq⟩ := accepted_of_layout hl h
  obtain ⟨hval, -, hcases⟩ := initDefaults_cases hq
  have hcount : ∀ o, (ofParsed parsed).count o = po.count o := by
    intro o
    rw [JpgsyncOptions.count, JpgsyncOptions.count, hval]
  have hargc : (ofParsed parsed).argc = (blocks.map Prod.snd ++ more.getD []).length + 1 :=
    hreads.argc
  have hargv : (ofParsed parsed).argv =
      prog :: (blocks.map Prod.snd ++ more.getD [] ++ leftOver blocks post more) := hreads.argv
  rcases hcases with hslave | hmaster | ⟨first, second, hboth⟩
  · left
    have hlen : (blocks.map Prod.snd ++ more.getD []).length = 1 := by
      have htwo := hslave.argc
      omega
    obtain ⟨root, hroot⟩ := List.length_eq_one_iff.mp hlen
    rw [hroot] at hargv
    have hpo : po.count .slave = true := (hcount .slave).symm.trans hslave.slave
    have hpo' : po.count .master = false := (hcount .master).symm.trans hslave.master
    have hargv' : po.argv = prog :: root :: leftOver blocks post more := hslave.argv.trans hargv
    obtain ⟨n, hinit⟩ := hslave.root
    rw [hargv] at hinit
    have hrootOf : rootOf root = po.slaveRoot := rootOf_init hinit
    refine ⟨root, hroot, ?_, Or.inr hpo, ?_, ?_⟩
    · obtain ⟨value, huse, hword⟩ := hacc.slave_use hl hpo
      have haddress : masterAddress (firstWord value) = some (po.masterHost, po.masterPort) :=
        hword ▸ masterAddress_of_parse h hpo
      exact OneSide.slave (hacc.unused (by simp) (by simp) hpo') value _ huse haddress
    · rw [hrootOf]
      exact Root.plainDir_of_init hinit
    · rw [hrootOf]
      exact children_slave hhelp hlocal hpo hargv'
  · left
    have hlen : (blocks.map Prod.snd ++ more.getD []).length = 1 := by
      have htwo := hmaster.argc
      omega
    obtain ⟨root, hroot⟩ := List.length_eq_one_iff.mp hlen
    rw [hroot] at hargv
    have hpo : po.count .master = true := (hcount .master).symm.trans hmaster.master
    have hpo' : po.count .slave = false := (hcount .slave).symm.trans hmaster.slave
    have hargv' : po.argv = prog :: root :: leftOver blocks post more := hmaster.argv.trans hargv
    obtain ⟨n, hinit⟩ := hmaster.root
    rw [hargv] at hinit
    have hrootOf : rootOf root = po.masterRoot := rootOf_init hinit
    refine ⟨root, hroot, ?_, Or.inl hpo, ?_, ?_⟩
    · exact OneSide.master ((hacc.count (by simp) (by simp)).mp hpo)
        (hacc.unused (by simp) (by simp) hpo')
    · rw [hrootOf]
      exact Root.plainDir_of_init hinit
    · rw [hrootOf]
      exact children_master hhelp hlocal hpo' hpo hargv'
  · right
    have hlen : (blocks.map Prod.snd ++ more.getD []).length = 2 := by
      have hthree := hboth.argc
      omega
    obtain ⟨r, r', hroots⟩ := List.length_eq_two.mp hlen
    rw [hroots] at hargv
    have hpo : po.count .slave = false := (hcount .slave).symm.trans hboth.slave
    have hpo' : po.count .master = false := (hcount .master).symm.trans hboth.master
    obtain ⟨n, hinit⟩ := hboth.initFirst
    obtain ⟨n', hinit'⟩ := hboth.initSecond
    rw [hargv] at hinit hinit'
    have hfirst : rootOf r = first := rootOf_init hinit
    have hsecond : rootOf r' = second := rootOf_init hinit'
    refine ⟨r, r', hroots, hpo', hpo, ?_, ?_⟩
    · rw [hfirst, hsecond]
      exact ⟨Root.plainDir_of_init hinit, Root.plainDir_of_init hinit'⟩
    · have hres := hboth.roots
      rw [mainRoot, otherRoot, hfirst, hsecond]
      split at hres
      · rename_i hswap
        obtain ⟨hm, hs, hv⟩ := hres
        have hargv' : po.argv = prog :: r' :: r :: leftOver blocks post more := by
          rw [hv, hargv]
          rfl
        rw [if_pos hswap, if_pos hswap, ← hm, ← hs]
        exact children_both hhelp hlocal hpo hpo' hargv'
      · rename_i hswap
        obtain ⟨hm, hs, hv⟩ := hres
        have hargv' : po.argv = prog :: r :: r' :: leftOver blocks post more := hv.trans hargv
        rw [if_neg hswap, if_neg hswap, ← hm, ← hs]
        exact children_both hhelp hlocal hpo hpo' hargv'

end Jpgsync
