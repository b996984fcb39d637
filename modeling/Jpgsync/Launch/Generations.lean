import Jpgsync.JpgsyncOptions.Grammar
import Jpgsync.Launch.Children
import Jpgsync.Launch.Delivery

/-!
# Launch — Generations

What a launcher starts are runs of the same program, and nothing but the
`--local` that `main` appends keeps them from being launchers themselves.
Behind a `--` that argument is a root. Then the child is a launcher, but
only where its directory begins with `-`, and its own children, whose
directories are `--local` and an option for one side, are none: there are
at most three generations (`launches_end`), where the words of the first
launcher's commands mean nothing to a shell (`Whole`).
-/

namespace Jpgsync

open ProgramOptions JpgsyncOptions
open Shell (Environment Inert)

variable {environments : Set Environment} {ts rest tail : List Bytes}
  {blocks : List (List Argument × Bytes)} {post : List Argument} {more : Option (List Bytes)}
  {po q : JpgsyncOptions} {prog dir t masterPort : Bytes} {a b c : List Bytes} {child : Child}

/-! ## What a line is read as -/

/-- A flag that is read, and not behind `--`, is an option in use. -/
theorem used_of_mem {as : List Argument} (hstands : ∀ a ∈ as, a.Stands jpgsyncOptions)
    (ht : t ∈ tokens as) (hflag : isFlag t = true) :
    ∃ o, jpgsyncOptions.find t = some o ∧ uses o as ≠ [] := by
  obtain ⟨a, ha, htok⟩ := List.mem_flatMap.mp ht
  have hstand := hstands a ha
  -- neither a positional text nor a value begins like a flag
  have used : ∀ {o : JpgsyncOption} {value : Option Bytes}, Arg.option o t value ∈ as →
      uses o as ≠ [] := by
    intro o value hmem hnil
    have huse : value ∈ uses o as := List.mem_flatMap.mpr ⟨_, hmem, by simp [Arg.uses]⟩
    rw [hnil] at huse
    cases huse
  cases a with
  | positional text =>
      obtain rfl : t = text := by simpa [Arg.tokens] using htok
      rw [show isFlag t = false from hstand] at hflag
      cases hflag
  | option o flag value =>
      cases value with
      | none =>
          obtain rfl : t = flag := by simpa [Arg.tokens] using htok
          exact ⟨o, hstand.2.2.1, used ha⟩
      | some value =>
          rcases (by simpa [Arg.tokens] using htok : t = flag ∨ t = value) with rfl | rfl
          · exact ⟨o, hstand.2.2.1, used ha⟩
          · rw [hstand.2.2.2.2] at hflag
            cases hflag

theorem used_of_line (hl : IsLayout jpgsyncOptions ts blocks post more) (ht : t ∈ ts)
    (hflag : isFlag t = true) (hd : t ≠ dashes) :
    t ∈ more.getD [] ∨ ∃ o, jpgsyncOptions.find t = some o ∧ usesIn o blocks post ≠ [] := by
  rw [hl.line, List.mem_append] at ht
  rcases ht with ht | ht
  · exact Or.inr (used_of_mem hl.wellRead.stands ht hflag)
  · cases more with
    | none => cases ht
    | some more => exact Or.inl ((List.mem_cons.mp ht).resolve_left hd)

/-- A flag that begins a line is read. -/
theorem used_of_head (hl : IsLayout jpgsyncOptions (t :: ts) blocks post more)
    (hflag : isFlag t = true) (hd : t ≠ dashes) :
    ∃ o, jpgsyncOptions.find t = some o ∧ usesIn o blocks post ≠ [] := by
  refine used_of_mem hl.wellRead.stands ?_ hflag
  have hline := hl.line
  cases htok : tokens (ofBlocks blocks ++ post) with
  | nil =>
      rw [htok, List.nil_append] at hline
      cases more with
      | none => cases hline
      | some more => exact absurd (List.cons.inj hline).1 hd
  | cons t' ts' =>
      rw [htok, List.cons_append] at hline
      rw [(List.cons.inj hline).1]
      exact List.mem_cons_self

/-- Without a positional argument in front of `--`, a line begins with a
flag. -/
theorem isFlag_head (hl : IsLayout jpgsyncOptions (t :: ts) [] post more) : isFlag t = true := by
  have hline := hl.line
  cases post with
  | nil =>
      cases more with
      | none => cases hline
      | some more => rw [(List.cons.inj hline).1, isFlag_dashes]
  | cons a post =>
      have hlast := hl.last
      rw [texts_cons, List.append_eq_nil_iff] at hlast
      have hclosed := (hl.wellRead.stands a List.mem_cons_self).closed hlast.1
        (tokens post ++ trail more)
      rw [← List.append_assoc, ← tokens_cons] at hclosed
      rw [show ofBlocks [] ++ (a :: post) = a :: post from rfl] at hline
      rw [← hline] at hclosed
      exact closed_cons.mp hclosed

/-- Where `--local` is not read as the option, `--` stands before it. -/
theorem local_behind
    (hl : IsLayout jpgsyncOptions (rest ++ ascii "--local" :: tail) blocks post more)
    (hlocal : usesIn .asLocal blocks post = []) :
    ∃ front, more = some (front ++ ascii "--local" :: tail) := by
  have hflag : isFlag (ascii "--local") = true := by decide
  have hd : ascii "--local" ≠ dashes := by decide
  have hfind : jpgsyncOptions.find (ascii "--local") = some .asLocal := by decide
  have hnot : ascii "--local" ∉ tokens (ofBlocks blocks ++ post) := by
    intro hmem
    obtain ⟨o, ho, huse⟩ := used_of_mem hl.wellRead.stands hmem hflag
    obtain rfl : JpgsyncOption.asLocal = o := Option.some.inj (hfind.symm.trans ho)
    exact huse hlocal
  have hline := hl.line
  cases more with
  | none =>
      rw [trail, List.append_nil] at hline
      refine absurd ?_ hnot
      rw [← hline]
      exact List.mem_append_right _ List.mem_cons_self
  | some more =>
      rcases List.append_eq_append_iff.mp hline with ⟨xs, htok, htail⟩ | ⟨xs, -, hmore⟩
      · cases xs with
        | nil => exact absurd (List.cons.inj htail).1 hd
        | cons x xs =>
            obtain ⟨rfl, -⟩ := List.cons.inj htail
            refine absurd ?_ hnot
            rw [htok]
            exact List.mem_append_right _ List.mem_cons_self
      · cases xs with
        | nil => exact absurd (List.cons.inj hmore).1.symm hd
        | cons x xs => exact ⟨xs, congrArg some (List.cons.inj hmore).2⟩

/-! ## Launchers -/

/-- A run with the arguments `argv` has a child to start; what it captures
of a master is a port. -/
def Launches (argv : List Bytes) (child : Child) : Prop :=
  ∃ po masterPort, JpgsyncOptions.parse argv = .ok po ∧
    (extractPort 0 masterPort).isSome = true ∧ child ∈ children po masterPort

/-- A run with the arguments `argv` starts one with `argv'`, through some of
the shells in `environments`. -/
def Starts (environments : Set Environment) (argv argv' : List Bytes) : Prop :=
  ∃ child, Launches argv child ∧ child.Arrives environments argv'

/-- A child of the program `prog`: its arguments are the directory, what
`rest` passes on, and what `main` appends. -/
def childOf (prog : Bytes) (root : Root) (rest tail : List Bytes) : Child :=
  ⟨root, programFor root prog, root.dir :: (rest ++ ascii "--local" :: tail)⟩

/-- An option by which one side is asked for. -/
def IsSide (flag : Bytes) : Prop :=
  jpgsyncOptions.find flag = some .master ∨ jpgsyncOptions.find flag = some .slave

/-- The spellings of an option. -/
theorem ProgramOptions.eq_of_find {O : Type*} {options : ProgramOptions O} {flag : Bytes} {o : O}
    (h : options.find flag = some o) :
    flag = dashes ++ (options.base o).name ∨
      ∃ c, (options.base o).shortName = some c ∧ flag = [45, c] := by
  unfold ProgramOptions.find at h
  split at h
  · have hname := List.find?_some h
    simp only [decide_eq_true_eq] at hname
    exact Or.inl (by rw [hname]; rfl)
  · have hshort := List.find?_some h
    simp only [decide_eq_true_eq] at hshort
    exact Or.inr ⟨_, hshort, rfl⟩
  · cases h

theorem IsSide.mem {flag : Bytes} (h : IsSide flag) :
    flag ∈ [ascii "--master", ascii "-m", ascii "--slave", ascii "-s"] := by
  rcases h with h | h <;> rcases eq_of_find h with rfl | ⟨c, hc, rfl⟩
  · decide
  · cases hc
    decide
  · decide
  · cases hc
    decide

theorem IsSide.isFlag {flag : Bytes} (h : IsSide flag) :
    Jpgsync.isFlag flag = true ∧ flag ≠ dashes ∧ flag ≠ ascii "--local" := by
  have hall : ∀ flag ∈ [ascii "--master", ascii "-m", ascii "--slave", ascii "-s"],
      Jpgsync.isFlag flag = true ∧ flag ≠ dashes ∧ flag ≠ ascii "--local" := by decide
  exact hall flag h.mem

/-- As a root it is a directory. -/
theorem IsSide.plainDir {flag : Bytes} (h : IsSide flag) : PlainDir flag := by
  have hall : ∀ flag ∈ [ascii "--master", ascii "-m", ascii "--slave", ascii "-s"],
      flag ≠ [] ∧ (58 : UInt8) ∉ flag := by decide
  exact hall flag h.mem

theorem plainDir_local : PlainDir (ascii "--local") := by
  constructor <;> decide

theorem rootOf_plainDir (h : PlainDir dir) : rootOf dir = ⟨dir, [], []⟩ :=
  rootOf_init (Root.init_plainDir _ h)

/-- Two local directories keep their order. -/
theorem roots_plainDir {first second : Bytes} (h : PlainDir first) (h' : PlainDir second) :
    mainRoot first second = ⟨first, [], []⟩ ∧ otherRoot first second = ⟨second, [], []⟩ := by
  simp [mainRoot, otherRoot, rootOf_plainDir h, rootOf_plainDir h']

/-- Only a run without `--local` starts others. -/
theorem of_mem_children (h : child ∈ children po masterPort) :
    po.help = false ∧ po.count .asLocal = false := by
  cases hhelp : po.help with
  | true => simp [children, hhelp] at h
  | false =>
      cases hlocal : po.count .asLocal with
      | true => simp [children, hlocal] at h
      | false => exact ⟨rfl, rfl⟩

theorem option_mem_ofBlocks {o : JpgsyncOption} {flag : Bytes} {value : Option Bytes}
    (h : .option o flag value ∈ ofBlocks blocks) :
    ∃ b ∈ blocks, .option o flag value ∈ b.1 := by
  induction blocks with
  | nil => cases h
  | cons block blocks ih =>
      obtain ⟨options, text⟩ := block
      rw [ofBlocks] at h
      rcases List.mem_append.mp h with h | h
      · exact ⟨_, List.mem_cons_self, h⟩
      · obtain ⟨b, hb, hmem⟩ := ih ((List.mem_cons.mp h).resolve_left (by simp))
        exact ⟨b, List.mem_cons_of_mem _ hb, hmem⟩

/-- The flag of an option in use is left behind. -/
theorem exists_leftOver (hl : IsLayout jpgsyncOptions ts blocks post more) {o : JpgsyncOption}
    (huse : usesIn o blocks post ≠ []) :
    ∃ flag ∈ leftOver blocks post more, jpgsyncOptions.find flag = some o := by
  obtain ⟨u, hu⟩ := List.exists_mem_of_ne_nil _ huse
  obtain ⟨a, ha, hmem⟩ := List.mem_flatMap.mp hu
  have hstands := hl.wellRead.stands a ha
  cases a with
  | positional text => simp [Arg.uses] at hmem
  | option o' flag value =>
      obtain rfl : o' = o := by
        by_contra hne
        simp [Arg.uses, hne] at hmem
      have hfind : jpgsyncOptions.find flag = some o' := by
        cases value <;> exact hstands.2.2.1
      refine ⟨flag, (perm_leftOver blocks post more).mem_iff.mpr ?_, hfind⟩
      have hflag : flag ∈ (Arg.option o' flag value).tokens := List.mem_cons_self
      rcases List.mem_append.mp ha with ha | ha
      · obtain ⟨b, hb, hin⟩ := option_mem_ofBlocks ha
        refine List.mem_append_left _ (List.mem_flatten.mpr ⟨_, List.mem_map_of_mem hb, ?_⟩)
        exact List.mem_flatMap.mpr ⟨_, hin, hflag⟩
      · exact List.mem_append_right _ (List.mem_append_left _
          (List.mem_flatMap.mpr ⟨_, ha, hflag⟩))

theorem exists_isLayout_of_launches (h : Launches (prog :: ts) child) :
    ∃ blocks post more, IsLayout jpgsyncOptions ts blocks post more := by
  obtain ⟨po, masterPort, hpo, -⟩ := h
  obtain ⟨parsed, hparsed, -⟩ := parse_eq_ok.mp hpo
  exact exists_isLayout hparsed

/-- **What a launcher starts**: for one root, of which it is told the side,
one run; for two roots a master or a slave. -/
theorem launches_cases (hl : IsLayout jpgsyncOptions ts blocks post more)
    (h : Launches (prog :: ts) child) :
    usesIn .asLocal blocks post = [] ∧
      ((∃ root, blocks.map Prod.snd ++ more.getD [] = [root] ∧
          (∃ flag ∈ leftOver blocks post more, IsSide flag) ∧
          child = childOf prog (rootOf root) (leftOver blocks post more) []) ∨
        ∃ first second, blocks.map Prod.snd ++ more.getD [] = [first, second] ∧
          (usesIn .master blocks post = [] ∧ usesIn .slave blocks post = []) ∧
          (child = childOf prog (mainRoot first second) (leftOver blocks post more)
              [ascii "-m"] ∨
            ∃ masterPort, (extractPort 0 masterPort).isSome = true ∧
              child = childOf prog (otherRoot first second) (leftOver blocks post more)
                [ascii "-s", slaveArg (mainRoot first second) masterPort])) := by
  obtain ⟨po, masterPort, hpo, hport, hchild⟩ := h
  obtain ⟨hhelp, hlocal⟩ := of_mem_children hchild
  obtain ⟨hacc, -⟩ := accepted_of_layout hl hpo
  refine ⟨hacc.unused (by simp) (by simp) hlocal, ?_⟩
  rcases children_of_layout masterPort hl hpo hhelp hlocal with
    ⟨root, hroot, hside, hone⟩ | ⟨first, second, hroots, htwo⟩
  · left
    rw [hone.children_eq, List.mem_singleton] at hchild
    refine ⟨root, hroot, ?_, hchild⟩
    cases hside with
    | master hmaster hslave =>
        obtain ⟨flag, hmem, hfind⟩ := exists_leftOver hl hmaster
        exact ⟨flag, hmem, Or.inl hfind⟩
    | slave hmaster value address hslave haddress =>
        obtain ⟨flag, hmem, hfind⟩ := exists_leftOver hl (by rw [hslave]; simp)
        exact ⟨flag, hmem, Or.inr hfind⟩
  · right
    refine ⟨first, second, hroots, ⟨hacc.unused (by simp) (by simp) htwo.master,
      hacc.unused (by simp) (by simp) htwo.slave⟩, ?_⟩
    rw [htwo.children_eq, List.mem_pair] at hchild
    exact hchild.imp_right fun hchild => ⟨masterPort, hport, hchild⟩

/-! ## Generations -/

/-- What `main` appends to `--local`, with `rest` in front of it: nothing,
where the command line asks for a side. -/
inductive Appended (rest : List Bytes) : List Bytes → Prop where
  | nothing (flag : Bytes) (hmem : flag ∈ rest) (hside : IsSide flag) : Appended rest []
  | master : Appended rest [ascii "-m"]
  | slave (address : Bytes) : Appended rest [ascii "-s", address]

theorem exists_childOf (h : Launches a child) :
    ∃ prog root rest tail, child = childOf prog root rest tail ∧ Appended rest tail := by
  cases a with
  | nil =>
      obtain ⟨po, masterPort, hpo, -⟩ := h
      cases hpo
  | cons prog ts =>
      obtain ⟨blocks, post, more, hl⟩ := exists_isLayout_of_launches h
      rcases (launches_cases hl h).2 with
        ⟨root, -, ⟨flag, hmem, hside⟩, hchild⟩ | ⟨first, second, -, -, hchild | ⟨port, -, hchild⟩⟩
      · exact ⟨_, _, _, _, hchild, .nothing flag hmem hside⟩
      · exact ⟨_, _, _, _, hchild, .master⟩
      · exact ⟨_, _, _, _, hchild, .slave _⟩

theorem isDigit_inert {d : UInt8} (h : isDigit d = true) :
    (Shell.kind d).letter = true ∧ Shell.isPattern d = false := by
  obtain ⟨hlo, hhi⟩ := isDigit_iff.mp h
  have hne : ∀ k : UInt8, k.toNat < 48 ∨ 57 < k.toNat → d ≠ k := by
    rintro k hk rfl
    omega
  simp [Shell.kind, Shell.stops, Shell.isPattern, Shell.Kind.letter, hne]

/-- `localhost` and a port. -/
theorem inert_slaveArg {root : Root} (hroot : root.hostname = [])
    (hport : (extractPort 0 masterPort).isSome = true) : Inert (slaveArg root masterPort) := by
  obtain ⟨port, hport⟩ := Option.isSome_iff_exists.mp hport
  have hdigits := ((extractPort_iff (Nat.zero_le _)).mp hport).1
  have hhost : slaveArg root masterPort = ascii "localhost:" ++ masterPort := by
    rw [slaveArg, if_pos hroot]
    rfl
  have hall : ∀ b ∈ ascii "localhost:",
      (Shell.kind b).letter = true ∧ Shell.isPattern b = false :=
    List.forall_iff_forall_mem.mp (by decide)
  have hboth : ∀ b ∈ ascii "localhost:" ++ masterPort,
      (Shell.kind b).letter = true ∧ Shell.isPattern b = false := fun b hb =>
    (List.mem_append.mp hb).elim (hall b) fun hb => isDigit_inert (hdigits b hb)
  rw [hhost]
  exact ⟨⟨rfl, fun b hb => (hboth b hb).1⟩, fun b hb => (hboth b hb).2⟩

theorem IsSide.inert {flag : Bytes} (h : IsSide flag) : Inert flag := by
  have hall : ∀ flag ∈ [ascii "--master", ascii "-m", ascii "--slave", ascii "-s"],
      Inert flag := by decide
  exact hall flag h.mem

/-- **What a launcher that was started has to start**: the directory of its
child is `--local` or an option for one side, and what was not in its own
line means nothing to a shell. -/
structure LastChild (prog : Bytes) (ts : List Bytes) (child : Child) (dir : Bytes)
    (rest tail : List Bytes) : Prop where
  child_eq : child = childOf prog ⟨dir, [], []⟩ rest tail
  dir_eq : dir = ascii "--local" ∨ IsSide dir ∧ tail ≠ []
  rest : ∀ t ∈ rest, t ∈ ts
  tail : ∀ t ∈ tail, Inert t

theorem LastChild.inert {dir : Bytes} (h : LastChild prog ts child dir rest tail) :
    Inert dir := by
  rcases h.dir_eq with rfl | ⟨hside, -⟩
  · decide
  · exact hside.inert

/-- Its roots are `--local` and an option for one side, in some order. -/
theorem lastChild_of_two {x y first second : Bytes} (hxy : [x, y] = [first, second])
    (hx : x = ascii "--local" ∨ IsSide x) (hy : y = ascii "--local" ∨ IsSide y)
    (hrest : ∀ t ∈ rest, t ∈ ts)
    (h : child = childOf prog (mainRoot first second) rest [ascii "-m"] ∨
      ∃ masterPort, (extractPort 0 masterPort).isSome = true ∧
        child = childOf prog (otherRoot first second) rest
          [ascii "-s", slaveArg (mainRoot first second) masterPort]) :
    ∃ dir' tail', LastChild prog ts child dir' rest tail' := by
  obtain ⟨rfl, hsecond⟩ := List.cons.inj hxy
  obtain rfl : y = second := (List.cons.inj hsecond).1
  have plain : ∀ z, z = ascii "--local" ∨ IsSide z → PlainDir z := by
    rintro z (rfl | hz)
    · exact plainDir_local
    · exact hz.plainDir
  obtain ⟨hmain, hother⟩ := roots_plainDir (plain x hx) (plain y hy)
  rw [hmain, hother] at h
  rcases h with hchild | ⟨masterPort, hport, hchild⟩
  · exact ⟨x, _, hchild, hx.imp_right fun h => ⟨h, by simp⟩, hrest, by decide⟩
  · refine ⟨y, _, hchild, hy.imp_right fun h => ⟨h, by simp⟩, hrest, ?_⟩
    rw [List.forall_mem_cons, List.forall_mem_singleton]
    exact ⟨by decide, inert_slaveArg rfl hport⟩

/-- **A child that is a launcher** was passed a flag for its directory, and
passes `--local` or an option for one side on as directories. -/
theorem launcher_of_appended (happ : Appended rest tail)
    (h : Launches (prog :: dir :: (rest ++ ascii "--local" :: tail)) child) :
    isFlag dir = true ∧ ∃ dir' rest' tail',
      LastChild prog (dir :: (rest ++ ascii "--local" :: tail)) child dir' rest' tail' := by
  obtain ⟨blocks, post, more, hl⟩ := exists_isLayout_of_launches h
  obtain ⟨hlocal, hcases⟩ := launches_cases hl h
  have hrest : ∀ t ∈ leftOver blocks post more, t ∈ dir :: (rest ++ ascii "--local" :: tail) :=
    fun t ht => hl.perm.subset (List.mem_append_right _ ht)
  obtain ⟨front, rfl⟩ :=
    local_behind (show IsLayout _ ((dir :: rest) ++ ascii "--local" :: tail) _ _ _ from hl) hlocal
  simp only [Option.getD_some] at hcases
  rcases hcases with ⟨root, hroot, -, hchild⟩ | ⟨first, second, hroots, ⟨hmaster, hslave⟩, hchild⟩
  · -- its only root is `--local`
    obtain ⟨rfl, rfl, rfl⟩ : blocks = [] ∧ front = [] ∧ tail = [] := by
      have hlen := congrArg List.length hroot
      simp only [List.length_append, List.length_map, List.length_cons, List.length_nil] at hlen
      refine ⟨?_, ?_, ?_⟩ <;> refine List.length_eq_zero_iff.mp ?_ <;> omega
    obtain rfl : ascii "--local" = root := (List.cons.inj hroot).1
    rw [rootOf_plainDir plainDir_local] at hchild
    exact ⟨isFlag_head hl, _, _, _, hchild, Or.inl rfl, hrest, List.forall_mem_nil _⟩
  · have hlen := congrArg List.length hroots
    simp only [List.length_append, List.length_map, List.length_cons, List.length_nil] at hlen
    -- in front of `--` there is no root
    have last : ∀ {x y : Bytes}, blocks = [] → [x, y] = [first, second] →
        (x = ascii "--local" ∨ IsSide x) → (y = ascii "--local" ∨ IsSide y) →
        isFlag dir = true ∧ ∃ dir' rest' tail',
          LastChild prog (dir :: (rest ++ ascii "--local" :: tail)) child dir' rest' tail' := by
      intro x y hblocks hxy hx hy
      obtain ⟨dir', tail', hlast⟩ := lastChild_of_two hxy hx hy hrest hchild
      subst hblocks
      exact ⟨isFlag_head hl, dir', _, tail', hlast⟩
    cases happ with
    | nothing flag hmem hside =>
        obtain ⟨hflag, hd, hne⟩ := hside.isFlag
        have hfront : flag ∈ front := by
          have hin : flag ∈ dir :: (rest ++ [ascii "--local"]) :=
            List.mem_cons_of_mem _ (List.mem_append_left _ hmem)
          rcases used_of_line hl hin hflag hd with hbehind | ⟨o, hfind, huse⟩
          · rcases List.mem_append.mp hbehind with hbehind | hbehind
            · exact hbehind
            · exact absurd (List.mem_singleton.mp hbehind) hne
          · rcases hside with hside | hside
            · obtain rfl := Option.some.inj (hside.symm.trans hfind)
              exact absurd hmaster huse
            · obtain rfl := Option.some.inj (hside.symm.trans hfind)
              exact absurd hslave huse
        have hpos := List.length_pos_of_mem hfront
        simp only [List.length_nil] at hlen
        obtain rfl : blocks = [] := List.length_eq_zero_iff.mp (by omega)
        obtain ⟨x, rfl⟩ := List.length_eq_one_iff.mp (show front.length = 1 by omega)
        obtain rfl : flag = x := List.mem_singleton.mp hfront
        exact last rfl hroots (Or.inr hside) (Or.inl rfl)
    | master =>
        obtain ⟨rfl, rfl⟩ : blocks = [] ∧ front = [] := by
          simp only [List.length_cons, List.length_nil] at hlen
          refine ⟨?_, ?_⟩ <;> refine List.length_eq_zero_iff.mp ?_ <;> omega
        exact last rfl hroots (Or.inl rfl) (Or.inr (Or.inl (by decide)))
    | slave address =>
        simp only [List.length_cons, List.length_nil] at hlen
        omega

/-- Such a directory is read as the option, and the child starts nothing. -/
theorem launches_nothing (hdir : dir = ascii "--local" ∨ IsSide dir ∧ tail ≠ [])
    (h : Launches (prog :: dir :: (rest ++ ascii "--local" :: tail)) child) : False := by
  obtain ⟨blocks, post, more, hl⟩ := exists_isLayout_of_launches h
  obtain ⟨hlocal, hcases⟩ := launches_cases hl h
  rcases hdir with rfl | ⟨hside, htail⟩
  · obtain ⟨o, hfind, huse⟩ := used_of_head hl (by decide) (by decide)
    have ho : jpgsyncOptions.find (ascii "--local") = some .asLocal := by decide
    obtain rfl := Option.some.inj (ho.symm.trans hfind)
    exact huse hlocal
  · obtain ⟨hflag, hd, -⟩ := hside.isFlag
    obtain ⟨o, hfind, huse⟩ := used_of_head hl hflag hd
    obtain ⟨front, rfl⟩ :=
      local_behind (show IsLayout _ ((dir :: rest) ++ ascii "--local" :: tail) _ _ _ from hl)
        hlocal
    rcases hcases with ⟨root, hroot, -⟩ | ⟨first, second, -, ⟨hmaster, hslave⟩, -⟩
    · -- with a side there is one root
      have hlen := congrArg List.length hroot
      have hpos := List.length_pos_iff.mpr htail
      simp only [Option.getD_some, List.length_append, List.length_map, List.length_cons,
        List.length_nil] at hlen
      omega
    · rcases hside with hside | hside
      · obtain rfl := Option.some.inj (hside.symm.trans hfind)
        exact huse hmaster
      · obtain rfl := Option.some.inj (hside.symm.trans hfind)
        exact huse hslave

/-! ## Through the shells -/

/-- **The words of a launcher's commands mean nothing to a shell**, whatever
port it captures, nor does the path of the program on another machine. -/
structure Whole (environments : Set Environment) (argv : List Bytes) : Prop where
  child : ∀ child, Launches argv child → child.Literal environments
  path : ∀ env ∈ environments,
    Shell.Literal environments (env.home ++ ascii "/bin/jpgsync")

/-- Its children get their arguments as they are. -/
theorem Whole.exists_childOf (ha : Whole environments a) (hab : Starts environments a b) :
    ∃ prog dir rest tail, b = prog :: dir :: (rest ++ ascii "--local" :: tail) ∧
      Appended rest tail ∧ ∀ t ∈ b, Shell.Literal environments t := by
  obtain ⟨child, hchild, env, henv, env', henv', hdelivered⟩ := hab
  have hliteral := ha.child child hchild
  rw [Child.delivered_eq hliteral henv henv', Option.some_inj] at hdelivered
  obtain ⟨prog, root, rest, tail, rfl, happ⟩ := Jpgsync.exists_childOf hchild
  refine ⟨_, root.dir, rest, tail, hdelivered.symm, happ, fun t ht => ?_⟩
  rw [← hdelivered] at ht
  rcases List.mem_cons.mp ht with rfl | ht
  · unfold Child.path
    split
    next hlocal => exact hliteral.words _ (by rw [if_pos hlocal]; exact List.mem_cons_self)
    next => exact ha.path env' henv'
  · exact hliteral.words t (List.mem_cons_of_mem _ ht)

/-- A run whose words mean nothing to a shell has children of which this is
true as well, where it was started by another run. -/
theorem Whole.of_starts (ha : Whole environments a) (hab : Starts environments a b) :
    Whole environments b := by
  obtain ⟨prog, dir, rest, tail, rfl, happ, hwords⟩ := ha.exists_childOf hab
  refine ⟨fun child hchild => ?_, ha.path⟩
  obtain ⟨-, dir', rest', tail', hlast⟩ := launcher_of_appended happ hchild
  obtain rfl := hlast.child_eq
  refine ⟨fun t ht => ?_, fun h => absurd rfl h⟩
  rcases List.mem_cons.mp ht with rfl | ht
  · exact hwords _ List.mem_cons_self
  rcases List.mem_cons.mp ht with rfl | ht
  · exact hlast.inert.literal
  rcases List.mem_append.mp ht with ht | ht
  · exact hwords t (List.mem_cons_of_mem _ (hlast.rest t ht))
  rcases List.mem_cons.mp ht with rfl | ht
  · exact Inert.literal (by decide)
  · exact (hlast.tail t ht).literal

/-- What is started by a run that was started by another starts nothing. -/
theorem Whole.starts_nothing (ha : Whole environments a) (hab : Starts environments a b)
    (hbc : Starts environments b c) (hc : Launches c child) : False := by
  have hb := ha.of_starts hab
  obtain ⟨prog, dir, rest, tail, rfl, happ, -⟩ := ha.exists_childOf hab
  obtain ⟨child', hchild', env, henv, env', henv', hdelivered⟩ := hbc
  rw [Child.delivered_eq (hb.child child' hchild') henv henv', Option.some_inj] at hdelivered
  obtain ⟨-, dir', rest', tail', hlast⟩ := launcher_of_appended happ hchild'
  obtain rfl := hlast.child_eq
  rw [← hdelivered] at hc
  exact launches_nothing hlast.dir_eq hc

/-- **Launching ends.** Where the words of the first launcher's commands mean
nothing to a shell, a run that it has started is a launcher only where its
directory begins with `-`, and what that one starts are none. -/
theorem launches_end (ha : Whole environments a) (hab : Starts environments a b)
    (hbc : Starts environments b c) :
    (∃ dir, b[1]? = some dir ∧ isFlag dir = true) ∧ ∀ d, ¬ Starts environments c d := by
  refine ⟨?_, fun d ⟨child, hchild, _⟩ => ha.starts_nothing hab hbc hchild⟩
  obtain ⟨prog, dir, rest, tail, rfl, happ, -⟩ := ha.exists_childOf hab
  obtain ⟨child, hchild, -⟩ := hbc
  exact ⟨dir, rfl, (launcher_of_appended happ hchild).1⟩

/-- `jpgsync -- -v B`. -/
def dashedLine : List Bytes := [ascii "jpgsync", ascii "--", ascii "-v", ascii "B"]

/-- Where there are no files, and two local roots. -/
theorem whole_noFiles {first : Child} {words : List Bytes} {master other : Root}
    (h : JpgsyncOptions.parse a = .ok po)
    (hchildren : ∀ masterPort, children po masterPort =
      [first, ⟨other, prog, words ++ [slaveArg master masterPort]⟩])
    (hfirst : first.root.hostname = []) (hother : other.hostname = [])
    (hmaster : master.hostname = []) (hwords : ∀ t ∈ first.program :: first.args, Inert t)
    (hwords' : ∀ t ∈ prog :: words, Inert t) :
    Whole {Environment.noFiles (ascii "/")} a := by
  refine ⟨?_, fun env henv => ?_⟩
  · rintro child ⟨po', masterPort, hpo', hport, hchild⟩
    obtain rfl : po' = po := by simpa [hpo'] using h
    rw [hchildren, List.mem_pair] at hchild
    rcases hchild with rfl | rfl
    · refine ⟨fun t ht => (hwords t ?_).literal, fun h => absurd hfirst h⟩
      rwa [if_pos hfirst] at ht
    · refine ⟨fun t ht => Inert.literal ?_, fun h => absurd hother h⟩
      rw [if_pos hother, ← List.cons_append, List.mem_append, List.mem_singleton] at ht
      rcases ht with ht | rfl
      · exact hwords' t ht
      · exact inert_slaveArg hmaster hport
  · obtain rfl := henv
    exact Inert.literal (by decide)

theorem whole_dashedLine : Whole {Environment.noFiles (ascii "/")} dashedLine := by
  obtain ⟨po, h, hchildren⟩ : ∃ po, JpgsyncOptions.parse dashedLine = .ok po ∧
      ∀ masterPort, children po masterPort =
        [⟨⟨ascii "-v", [], []⟩, ascii "jpgsync",
            [ascii "-v", ascii "--", ascii "--local", ascii "-m"]⟩,
          ⟨⟨ascii "B", [], []⟩, ascii "jpgsync",
            [ascii "B", ascii "--", ascii "--local", ascii "-s"] ++
              [slaveArg ⟨ascii "-v", [], []⟩ masterPort]⟩] :=
    ⟨_, rfl, fun _ => rfl⟩
  exact whole_noFiles h hchildren rfl rfl rfl (by decide) (by decide)

/-- It starts a launcher, for the directory `-v`. -/
theorem launches_end_dashes : ∃ b c,
    Starts {Environment.noFiles (ascii "/")} dashedLine b ∧
      Starts {Environment.noFiles (ascii "/")} b c ∧
      ∀ d, ¬ Starts {Environment.noFiles (ascii "/")} c d := by
  have hab : Starts {Environment.noFiles (ascii "/")} dashedLine
      [ascii "jpgsync", ascii "-v", ascii "--", ascii "--local", ascii "-m"] :=
    ⟨_, ⟨_, [], rfl, rfl, List.mem_cons_self⟩, _, rfl, _, rfl, by decide⟩
  have hbc : Starts {Environment.noFiles (ascii "/")}
      [ascii "jpgsync", ascii "-v", ascii "--", ascii "--local", ascii "-m"]
      [ascii "jpgsync", ascii "--local", ascii "-v", ascii "--", ascii "--local", ascii "-m"] :=
    ⟨_, ⟨_, [], rfl, rfl, List.mem_cons_self⟩, _, rfl, _, rfl, by decide⟩
  exact ⟨_, _, hab, hbc, (launches_end whole_dashedLine hab hbc).2⟩

end Jpgsync
