import Jpgsync.JpgsyncOptions.Defaults
import Jpgsync.ProgramOptions.Positionals

/-!
# JpgsyncOptions — CommandLine

The command lines the program accepts, in terms of their layout: what
`Parse` and `InitDefaults` together make of the uses of each option and of
the positional arguments.
-/

namespace Jpgsync

open ProgramOptions

namespace JpgsyncOptions

/-- An argument of the program. -/
abbrev Argument := Arg JpgsyncOption

/-- The value of an option after some uses. -/
def valueAfter (o : JpgsyncOption) (us : List (Option Bytes)) : Option Value :=
  (valueOf o.base.parserFactory us).or (jpgsyncOptions.initialValue o)

variable {ts : List Bytes} {blocks : List (List Argument × Bytes)} {post : List Argument}
  {more : Option (List Bytes)} {prog : Bytes} {q : JpgsyncOptions} {us us' : List (Option Bytes)}

/-! ## Values -/

theorem valueAfter_nil {o : JpgsyncOption} (hhelp : o ≠ .help) (hlevel : o ≠ .verbosity) :
    valueAfter o [] = none := by
  cases o <;> first | rfl | contradiction

theorem isSome_valueAfter {o : JpgsyncOption} (hhelp : o ≠ .help) (hlevel : o ≠ .verbosity) :
    (valueAfter o us).isSome = true ↔ us ≠ [] := by
  cases us with
  | nil => simp [valueAfter_nil hhelp hlevel]
  | cons u us => cases o <;> simp_all [valueAfter, JpgsyncOption.base, valueOf]

/-- Only `verbosity` may be given more than once. -/
theorem factory_ne_level {o : JpgsyncOption} (h : o ≠ .verbosity) :
    o.base.parserFactory ≠ .level := by
  intro hlevel
  cases o <;> first | exact h rfl | cases hlevel

/-- The level of `verbosity` after some uses. -/
theorem valueAfter_verbosity : valueAfter .verbosity us = some (.level (levelAfter 0 us)) := by
  cases us <;> rfl

theorem valueAfter_slave {value : Bytes} :
    valueAfter .slave [some value] = some (.word (firstWord value)) := rfl

/-! ## What is accepted -/

theorem parse_eq_ok {argv : List Bytes} :
    parse argv = .ok q ↔
      ∃ parsed, jpgsyncOptions.parse argv = .ok parsed ∧
        (ofParsed parsed).initDefaults = .ok q := by
  unfold parse
  cases jpgsyncOptions.parse argv with
  | error e => simp [Except.bind]
  | ok parsed => simp [Except.bind]

/-- An accepted command line, option by option. -/
structure Accepted (q : JpgsyncOptions) (blocks : List (List Argument × Bytes))
    (post : List Argument) : Prop where
  once : ∀ o : JpgsyncOption, Once o.base.parserFactory (usesIn o blocks post)
  val : ∀ o, q.val o = valueAfter o (usesIn o blocks post)

theorem Accepted.count {o : JpgsyncOption} (h : Accepted q blocks post) (hhelp : o ≠ .help)
    (hlevel : o ≠ .verbosity) : q.count o = true ↔ usesIn o blocks post ≠ [] := by
  rw [JpgsyncOptions.count, h.val, isSome_valueAfter hhelp hlevel]

theorem Accepted.unused {o : JpgsyncOption} (h : Accepted q blocks post) (hhelp : o ≠ .help)
    (hlevel : o ≠ .verbosity) (hcount : q.count o = false) : usesIn o blocks post = [] := by
  by_contra hne
  rw [(h.count hhelp hlevel).mpr hne] at hcount
  cases hcount

/-- What is known of an accepted command line. -/
theorem accepted_of_layout (hl : IsLayout jpgsyncOptions ts blocks post more)
    (h : parse (prog :: ts) = .ok q) :
    Accepted q blocks post ∧
      ∃ parsed, Reads jpgsyncOptions prog blocks post more parsed ∧
        (ofParsed parsed).initDefaults = .ok q := by
  obtain ⟨parsed, hparsed, hq⟩ := parse_eq_ok.mp h
  have hreads := hl.parse_iff.mp hparsed
  obtain ⟨hval, -, -⟩ := initDefaults_cases hq
  refine ⟨⟨hreads.once, fun o => ?_⟩, parsed, hreads, hq⟩
  rw [hval]
  exact hreads.val o

/-- The value `-s` was given. -/
theorem Accepted.slave_use (h : Accepted q blocks post)
    (hl : IsLayout jpgsyncOptions ts blocks post more) (hcount : q.count .slave = true) :
    ∃ value, usesIn .slave blocks post = [some value] ∧ q.slave = firstWord value := by
  have hne := (h.count (by simp) (by simp)).mp hcount
  have hlen : (usesIn .slave blocks post).length ≤ 1 := h.once .slave (by simp [JpgsyncOption.base])
  obtain ⟨u, hu⟩ : ∃ u, usesIn .slave blocks post = [u] := by
    refine List.length_eq_one_iff.mp ?_
    have hpos := List.length_pos_iff.mpr hne
    omega
  have hfits := fits_uses hl.wellRead.stands .slave u (by
    have hmem : u ∈ usesIn .slave blocks post := by simp [hu]
    exact hmem)
  cases u with
  | none => exact absurd rfl (hfits rfl)
  | some value =>
      refine ⟨value, hu, ?_⟩
      rw [JpgsyncOptions.slave, h.val, hu, valueAfter_slave]

/-- The address a program with `-s` has is the one its option names. -/
theorem masterAddress_of_parse {argv : List Bytes} (h : parse argv = .ok q)
    (hcount : q.count .slave = true) :
    masterAddress q.slave = some (q.masterHost, q.masterPort) := by
  obtain ⟨parsed, -, hq⟩ := parse_eq_ok.mp h
  obtain ⟨hval, -, hcases⟩ := initDefaults_cases hq
  have hparsed : (ofParsed parsed).count .slave = true := by
    rw [JpgsyncOptions.count, ← hval]
    exact hcount
  rcases hcases with hslave | hmaster | ⟨first, second, hboth⟩
  · refine Eq.trans ?_ hslave.address
    rw [JpgsyncOptions.slave, JpgsyncOptions.slave, hval]
  · rw [hmaster.slave] at hparsed
    cases hparsed
  · rw [hboth.slave] at hparsed
    cases hparsed

/-- The number of positional arguments does not change in `InitDefaults`. -/
theorem length_positionals {parsed : Parsed JpgsyncOption}
    (hreads : Reads jpgsyncOptions prog blocks post more parsed)
    (hq : (ofParsed parsed).initDefaults = .ok q) :
    q.positionals.length = (blocks.map Prod.snd ++ more.getD []).length := by
  obtain ⟨-, hargc, hcases⟩ := initDefaults_cases hq
  have hlen : q.argv.length = parsed.argv.length := by
    rcases hcases with hslave | hmaster | ⟨first, second, hboth⟩
    · rw [hslave.argv]
      rfl
    · rw [hmaster.argv]
      rfl
    · have hroots := hboth.roots
      split at hroots
      · rw [hroots.2.2]
        exact Gather.length_swapAt _ _ _
      · rw [hroots.2.2]
        rfl
  rw [positionals, List.length_drop, List.length_take, hlen, hargc, hreads.argv]
  have hargc' : (ofParsed parsed).argc = (blocks.map Prod.snd ++ more.getD []).length + 1 :=
    hreads.argc
  rw [hargc']
  simp only [List.length_cons, List.length_append]
  omega

/-- With one positional argument nothing is exchanged. -/
theorem positionals_eq {parsed : Parsed JpgsyncOption}
    (hreads : Reads jpgsyncOptions prog blocks post more parsed)
    (hq : (ofParsed parsed).initDefaults = .ok q)
    (hone : q.positionals.length = 1) :
    q.positionals = blocks.map Prod.snd ++ more.getD [] := by
  have hargc : (ofParsed parsed).argc = 2 := by
    rw [length_positionals hreads hq] at hone
    exact hreads.argc.trans (by rw [hone])
  obtain ⟨-, hargc', hcases⟩ := initDefaults_cases hq
  have hargv : q.argv = parsed.argv := by
    rcases hcases with hslave | hmaster | ⟨first, second, hboth⟩
    · exact hslave.argv
    · exact hmaster.argv
    · have hthree := hboth.argc
      omega
  rw [positionals, hargv, hargc']
  exact hreads.positionals

/-- How a command line says which side of the synchronisation it is for. -/
inductive OneSide (blocks : List (List Argument × Bytes)) (post : List Argument) : Prop where
  | master (hmaster : usesIn .master blocks post ≠ []) (hslave : usesIn .slave blocks post = [])
  | slave (hmaster : usesIn .master blocks post = []) (value : Bytes) (address : Bytes × UInt16)
      (hslave : usesIn .slave blocks post = [some value])
      (haddress : masterAddress (firstWord value) = some address)

/-- **A command line with one plain directory is accepted** when its options
are used as often as they may be and one of them says which side it is. -/
theorem accepts_layout {dir : Bytes} (hl : IsLayout jpgsyncOptions ts blocks post more)
    (hone : blocks.map Prod.snd ++ more.getD [] = [dir]) (hplain : PlainDir dir)
    (honce : ∀ o : JpgsyncOption, Once o.base.parserFactory (usesIn o blocks post))
    (hrole : OneSide blocks post) :
    ∃ q, parse (prog :: ts) = .ok q ∧ q.positionals = [dir] ∧ Accepted q blocks post := by
  let parsed : Parsed JpgsyncOption :=
    ⟨fun o => valueAfter o (usesIn o blocks post), 2, prog :: dir :: leftOver blocks post more⟩
  have hreads : Reads jpgsyncOptions prog blocks post more parsed :=
    ⟨honce, fun o => rfl, by rw [hone]; rfl, by rw [hone]; rfl⟩
  have hparse := hl.parse_iff.mpr hreads
  have hvalue : ∀ o, (ofParsed parsed).val o = valueAfter o (usesIn o blocks post) := fun o => rfl
  have done : ∀ p, (ofParsed parsed).initDefaults = .ok p →
      ∃ q, parse (prog :: ts) = .ok q ∧ q.positionals = [dir] ∧ Accepted q blocks post := by
    intro p hp
    have hok : parse (prog :: ts) = .ok p := parse_eq_ok.mpr ⟨parsed, hparse, hp⟩
    have hlen := length_positionals hreads hp
    rw [hone] at hlen
    exact ⟨p, hok, (positionals_eq hreads hp hlen).trans hone, (accepted_of_layout hl hok).1⟩
  cases hrole with
  | master hmaster hslave =>
      have hcount : (ofParsed parsed).count .master = true := by
        rw [JpgsyncOptions.count, hvalue]
        exact (isSome_valueAfter (by simp) (by simp)).mpr hmaster
      have hcount' : (ofParsed parsed).count .slave = false := by
        rw [JpgsyncOptions.count, hvalue, hslave]
        rfl
      exact done _ (initDefaults_master hcount' hcount rfl rfl hplain)
  | slave hmaster value address hslave haddress =>
      have hcount : (ofParsed parsed).count .slave = true := by
        rw [JpgsyncOptions.count, hvalue, hslave]
        rfl
      have hcount' : (ofParsed parsed).count .master = false := by
        rw [JpgsyncOptions.count, hvalue, hmaster]
        rfl
      have hword : (ofParsed parsed).slave = firstWord value := by
        rw [JpgsyncOptions.slave, hvalue, hslave]
        rfl
      have haddress' : masterAddress (ofParsed parsed).slave = some address := by
        rw [hword]
        exact haddress
      exact done _ (initDefaults_slave hcount hcount' rfl rfl hplain haddress')

/-! ## The name of the program -/

/-- The same run of a program with another name. -/
def withProgram (prog : Bytes) (po : JpgsyncOptions) : JpgsyncOptions :=
  { po with argv := po.argv.set 0 prog }

section

variable (prog : Bytes) (po : JpgsyncOptions)

@[simp] theorem argv_withProgram : (po.withProgram prog).argv = po.argv.set 0 prog := rfl

@[simp] theorem argc_withProgram : (po.withProgram prog).argc = po.argc := rfl

@[simp] theorem count_withProgram (o : JpgsyncOption) :
    (po.withProgram prog).count o = po.count o := rfl

@[simp] theorem positionals_withProgram : (po.withProgram prog).positionals = po.positionals := by
  rw [positionals, positionals, argv_withProgram, argc_withProgram]
  cases po.argv with
  | nil => rfl
  | cons _ argv => cases po.argc <;> rfl

theorem initMaster_withProgram :
    (po.withProgram prog).initMaster = (po.initMaster).map (withProgram prog) := by
  unfold initMaster
  rw [count_withProgram, show (po.withProgram prog).slave = po.slave from rfl]
  cases po.count .slave with
  | false => rfl
  | true => cases masterAddress po.slave <;> rfl

theorem initRoots_withProgram :
    (po.withProgram prog).initRoots = (po.initRoots).map (withProgram prog) := by
  have hget : ∀ i, (po.argv.set 0 prog).getD (i + 1) [] = po.argv.getD (i + 1) [] := by
    intro i
    rw [List.getD_eq_getElem?_getD, List.getElem?_set_ne (by omega), List.getD_eq_getElem?_getD]
  unfold initRoots
  simp only [count_withProgram, argv_withProgram, hget 0, hget 1, Gather.swapAt_set]
  cases po.count .slave with
  | true =>
      simp only [if_true]
      rw [show (po.withProgram prog).slaveRoot = po.slaveRoot from rfl]
      cases po.slaveRoot.init (po.argv.getD 1 []) <;> rfl
  | false =>
      simp only [Bool.false_eq_true, if_false]
      rw [show (po.withProgram prog).masterRoot = po.masterRoot from rfl]
      cases po.masterRoot.init (po.argv.getD 1 []) with
      | error e => rfl
      | ok r =>
          obtain ⟨root, remote⟩ := r
          dsimp only [bind, Except.bind]
          cases po.count .master with
          | true => rfl
          | false =>
              simp only [Bool.false_eq_true, if_false]
              rw [show (po.withProgram prog).slaveRoot = po.slaveRoot from rfl]
              cases po.slaveRoot.init (po.argv.getD 2 []) with
              | error e => rfl
              | ok r' =>
                  obtain ⟨root', remote'⟩ := r'
                  by_cases hswap : remote' ≠ 0 ∧ remote = 0
                  · simp only [if_pos hswap]
                    rfl
                  · simp only [if_neg hswap]
                    rfl

theorem initDefaults_withProgram :
    (po.withProgram prog).initDefaults = (po.initDefaults).map (withProgram prog) := by
  unfold initDefaults
  simp only [initRoots_withProgram, count_withProgram, argc_withProgram,
    show (po.withProgram prog).rootsNeeded = po.rootsNeeded from rfl]
  by_cases hboth : (po.count .slave && po.count .master) = true
  · simp only [if_pos hboth]
    rfl
  · by_cases hnum : (po.count .slave || po.count .master).toNat + (po.argc - 1) ≠ 2
    · simp only [if_neg hboth, if_pos hnum]
      rfl
    · simp only [if_neg hboth, if_neg hnum]
      cases po.initRoots with
      | error e => rfl
      | ok po' => exact initMaster_withProgram prog po'

end

/-- **The name of the program does not matter.** -/
theorem parse_withProgram {prog' : Bytes} (h : parse (prog :: ts) = .ok q) :
    parse (prog' :: ts) = .ok (q.withProgram prog') := by
  obtain ⟨parsed, hparsed, hq⟩ := parse_eq_ok.mp h
  obtain ⟨blocks, post, more, hl⟩ := exists_isLayout hparsed
  have hreads := hl.parse_iff.mp hparsed
  refine parse_eq_ok.mpr ⟨{ parsed with argv := parsed.argv.set 0 prog' },
    hl.parse_iff.mpr ⟨hreads.once, hreads.val, hreads.argc, by rw [hreads.argv]; rfl⟩, ?_⟩
  exact (initDefaults_withProgram prog' (ofParsed parsed)).trans (by rw [hq]; rfl)

end JpgsyncOptions

end Jpgsync
