import Jpgsync.ProgramOptions.Outcome

/-!
# ProgramOptions — Positionals

What `Parse` leaves in `argv`: the positional arguments in their order,
and behind them everything else, displaced by the exchanges. A command
line is cut into blocks of options, each in front of a positional argument.
-/

namespace Jpgsync

namespace ProgramOptions

variable {O : Type*} {po : ProgramOptions O}

/-! ## Blocks -/

/-- Options in front of positional arguments. -/
def ofBlocks : List (List (Arg O) × Bytes) → List (Arg O)
  | [] => []
  | (options, text) :: blocks => options ++ .positional text :: ofBlocks blocks

/-- Their tokens. -/
def tokenBlocks (blocks : List (List (Arg O) × Bytes)) : List (List Bytes × Bytes) :=
  blocks.map fun block => (tokens block.1, block.2)

theorem exists_blocks (as : List (Arg O)) :
    ∃ blocks post, as = ofBlocks blocks ++ post ∧ (∀ b ∈ blocks, texts b.1 = []) ∧
      texts post = [] := by
  induction as with
  | nil => exact ⟨[], [], rfl, by simp, rfl⟩
  | cons a as ih =>
      obtain ⟨blocks, post, rfl, hblocks, hpost⟩ := ih
      cases a with
      | positional text =>
          refine ⟨([], text) :: blocks, post, rfl, ?_, hpost⟩
          intro b hb
          rcases List.mem_cons.mp hb with rfl | hb
          · rfl
          · exact hblocks b hb
      | option o flag value =>
          cases blocks with
          | nil => exact ⟨[], .option o flag value :: post, rfl, by simp,
            by simpa [Arg.texts] using hpost⟩
          | cons block blocks =>
              obtain ⟨options, text⟩ := block
              refine ⟨(.option o flag value :: options, text) :: blocks, post, rfl, ?_, hpost⟩
              intro b hb
              rcases List.mem_cons.mp hb with rfl | hb
              · simpa [Arg.texts] using hblocks (options, text) List.mem_cons_self
              · exact hblocks b (List.mem_cons_of_mem _ hb)

theorem tokens_ofBlocks (blocks : List (List (Arg O) × Bytes)) :
    tokens (ofBlocks blocks) = Gather.entries (tokenBlocks blocks) := by
  induction blocks with
  | nil => rfl
  | cons block blocks ih =>
      obtain ⟨options, text⟩ := block
      simp [ofBlocks, tokenBlocks, Gather.entries, Arg.tokens, ih]

theorem texts_ofBlocks {blocks : List (List (Arg O) × Bytes)} (h : ∀ b ∈ blocks, texts b.1 = []) :
    texts (ofBlocks blocks) = blocks.map Prod.snd := by
  induction blocks with
  | nil => rfl
  | cons block blocks ih =>
      obtain ⟨options, text⟩ := block
      have hfirst : texts options = [] := h (options, text) List.mem_cons_self
      simp [ofBlocks, hfirst, Arg.texts, ih fun b hb => h b (List.mem_cons_of_mem _ hb)]

theorem inds_eq_nil {as : List (Arg O)} (i : Nat) (h : texts as = []) : inds i as = [] := by
  rw [← List.length_eq_zero_iff, length_inds, h, List.length_nil]

theorem inds_ofBlocks {blocks : List (List (Arg O) × Bytes)} (i : Nat)
    (h : ∀ b ∈ blocks, texts b.1 = []) :
    inds i (ofBlocks blocks) = Gather.positions i (tokenBlocks blocks) := by
  induction blocks generalizing i with
  | nil => rfl
  | cons block blocks ih =>
      obtain ⟨options, text⟩ := block
      have hfirst : texts options = [] := h (options, text) List.mem_cons_self
      rw [ofBlocks, inds_append, inds_eq_nil i hfirst, List.nil_append, inds,
        ih _ fun b hb => h b (List.mem_cons_of_mem _ hb)]
      rfl

/-! ## What follows the dashes -/

/-- The positional arguments behind `--`, the first of them behind `post`. -/
def trailBlocks (post : List Bytes) : List Bytes → List (List Bytes × Bytes)
  | [] => []
  | text :: more => (post, text) :: trailBlocks [] more

/-- What is left of the tokens behind the last positional argument. -/
def trailRest (post : List Bytes) : List Bytes → List Bytes
  | [] => post
  | _ :: _ => []

theorem entries_trailBlocks (post more : List Bytes) :
    Gather.entries (trailBlocks post more) ++ trailRest post more = post ++ more := by
  induction more generalizing post with
  | nil => simp [trailBlocks, trailRest, Gather.entries]
  | cons text more ih =>
      have hmore := ih []
      cases more with
      | nil => simp [trailBlocks, trailRest, Gather.entries]
      | cons text' more => simpa [trailBlocks, trailRest, Gather.entries] using hmore

theorem positions_trailBlocks (i : Nat) (post more : List Bytes) :
    Gather.positions i (trailBlocks post more) = List.range' (i + post.length) more.length := by
  induction more generalizing i post with
  | nil => rfl
  | cons text more ih =>
      simp [trailBlocks, Gather.positions, ih, List.range'_succ]

theorem snd_trailBlocks (post more : List Bytes) :
    (trailBlocks post more).map Prod.snd = more := by
  induction more generalizing post with
  | nil => rfl
  | cons text more ih => simp [trailBlocks, ih]

/-- The token `--`, where the command line has it. -/
def lead : Option (List Bytes) → List Bytes
  | none => []
  | some _ => [dashes]

theorem trail_eq (more : Option (List Bytes)) : trail more = lead more ++ more.getD [] := by
  cases more <;> rfl

/-! ## The result of the exchanges -/

/-- What is neither a positional argument nor the program, in the order the
exchanges leave it. -/
def leftOver (blocks : List (List (Arg O) × Bytes)) (post : List (Arg O))
    (more : Option (List Bytes)) : List Bytes :=
  Gather.scattered [] (tokenBlocks blocks ++ trailBlocks (tokens post ++ lead more) (more.getD []))
    ++ trailRest (tokens post ++ lead more) (more.getD [])

theorem perm_leftOver (blocks : List (List (Arg O) × Bytes)) (post : List (Arg O))
    (more : Option (List Bytes)) :
    (leftOver blocks post more).Perm
      ((blocks.map fun b => tokens b.1).flatten ++ (tokens post ++ lead more)) := by
  have htrail : ∀ (xs ms : List Bytes),
      ((trailBlocks xs ms).map Prod.fst).flatten ++ trailRest xs ms = xs := by
    intro xs ms
    induction ms generalizing xs with
    | nil => simp [trailBlocks, trailRest]
    | cons m ms ih =>
        have hms := ih []
        cases ms with
        | nil => simp [trailBlocks, trailRest]
        | cons m' ms => simpa [trailBlocks, trailRest] using hms
  refine ((Gather.perm_scattered [] _).append_right _).trans ?_
  rw [List.nil_append, List.map_append, List.flatten_append, List.append_assoc, htrail,
    tokenBlocks, List.map_map]
  exact List.Perm.refl _

variable [DecidableEq O]

variable (po) in
/-- **The positional arguments come first**, the rest is left over. -/
theorem outcome_argv {blocks : List (List (Arg O) × Bytes)} {post : List (Arg O)} (prog : Bytes)
    (more : Option (List Bytes)) (hblocks : ∀ b ∈ blocks, texts b.1 = [])
    (hpost : texts post = []) :
    (po.outcome (prog :: (tokens (ofBlocks blocks ++ post) ++ trail more))
        (ofBlocks blocks ++ post) more).argv =
      prog :: (blocks.map Prod.snd ++ more.getD [] ++ leftOver blocks post more) := by
  have hgather := Gather.gather_entries [prog] [] (trailRest (tokens post ++ lead more)
    (more.getD [])) (tokenBlocks blocks ++ trailBlocks (tokens post ++ lead more) (more.getD []))
  have hinds : inds 1 (ofBlocks blocks ++ post) = Gather.positions 1 (tokenBlocks blocks) := by
    rw [inds_append, inds_ofBlocks 1 hblocks, inds_eq_nil _ hpost, List.append_nil]
  have hrange : List.range' (1 + (tokens (ofBlocks blocks ++ post)).length + 1)
      (more.getD []).length =
      Gather.positions (1 + (Gather.entries (tokenBlocks blocks)).length)
        (trailBlocks (tokens post ++ lead more) (more.getD [])) := by
    rw [positions_trailBlocks, tokens_append, tokens_ofBlocks, List.length_append]
    cases more with
    | none => rfl
    | some more => simp [lead, Nat.add_assoc]
  simp only [List.length_singleton, List.length_nil, Nat.add_zero, List.nil_append,
    List.singleton_append, Gather.entries_append, Gather.positions_append, List.append_assoc,
    entries_trailBlocks, List.map_append, snd_trailBlocks] at hgather
  have hsnd : (tokenBlocks blocks).map Prod.snd = blocks.map Prod.snd := by
    simp [tokenBlocks]
  rw [outcome, hinds, hrange, tokens_append, tokens_ofBlocks, trail_eq, List.append_assoc, hgather,
    hsnd, leftOver, List.append_assoc]

/-! ## Layouts -/

variable (po) in
/-- A command line, taken apart. -/
structure IsLayout (ts : List Bytes) (blocks : List (List (Arg O) × Bytes)) (post : List (Arg O))
    (more : Option (List Bytes)) : Prop where
  line : ts = tokens (ofBlocks blocks ++ post) ++ trail more
  wellRead : WellRead po (ofBlocks blocks ++ post) (trail more)
  options : ∀ b ∈ blocks, texts b.1 = []
  last : texts post = []

/-- Nothing is lost in the exchanges. -/
theorem IsLayout.perm {ts : List Bytes} {blocks : List (List (Arg O) × Bytes)}
    {post : List (Arg O)} {more : Option (List Bytes)} (hl : IsLayout po ts blocks post more) :
    (blocks.map Prod.snd ++ more.getD [] ++ leftOver blocks post more).Perm ts := by
  have hargv := outcome_argv po [] more hl.options hl.last
  rw [outcome, ← hl.line] at hargv
  exact (List.perm_cons []).mp (hargv ▸ Gather.perm_gather _ _ _)

/-- The uses of an option in all blocks. -/
def usesIn (o : O) (blocks : List (List (Arg O) × Bytes)) (post : List (Arg O)) :
    List (Option Bytes) := uses o (ofBlocks blocks ++ post)

/-- The positional arguments `Parse` finds: `argv[1..argc)`. -/
def Parsed.positionals (parsed : Parsed O) : List Bytes := (parsed.argv.take parsed.argc).drop 1

/-- What `Parse` returns for a layout. -/
structure Reads (po : ProgramOptions O) (prog : Bytes) (blocks : List (List (Arg O) × Bytes))
    (post : List (Arg O)) (more : Option (List Bytes)) (parsed : Parsed O) : Prop where
  once : ∀ o, Once (po.base o).parserFactory (usesIn o blocks post)
  val : ∀ o, parsed.val o =
    (valueOf (po.base o).parserFactory (usesIn o blocks post)).or (po.initialValue o)
  argc : parsed.argc = (blocks.map Prod.snd ++ more.getD []).length + 1
  argv : parsed.argv = prog :: (blocks.map Prod.snd ++ more.getD [] ++ leftOver blocks post more)

theorem exists_isLayout {prog : Bytes} {ts : List Bytes} {parsed : Parsed O}
    (h : po.parse (prog :: ts) = .ok parsed) :
    ∃ blocks post more, IsLayout po ts blocks post more := by
  obtain ⟨as, more, hts, hread⟩ := exists_layout h
  obtain ⟨blocks, post, rfl, hblocks, hpost⟩ := exists_blocks as
  exact ⟨blocks, post, more, hts, hread, hblocks, hpost⟩

variable {ts : List Bytes} {blocks : List (List (Arg O) × Bytes)} {post : List (Arg O)}
  {more : Option (List Bytes)} {prog : Bytes} {parsed : Parsed O}

/-- **What `Parse` returns.** -/
theorem IsLayout.parse_iff (h : IsLayout po ts blocks post more) :
    po.parse (prog :: ts) = .ok parsed ↔ Reads po prog blocks post more parsed := by
  have hargv := outcome_argv po prog more h.options h.last
  have hargc : (po.outcome (prog :: (tokens (ofBlocks blocks ++ post) ++ trail more))
      (ofBlocks blocks ++ post) more).argc = (blocks.map Prod.snd ++ more.getD []).length + 1 := by
    simp [outcome, texts_ofBlocks h.options, h.last]
  rw [h.line, ProgramOptions.parse_iff h.wellRead]
  constructor
  · rintro ⟨honce, rfl⟩
    exact ⟨honce, fun o => rfl, hargc, hargv⟩
  · rintro ⟨honce, hval, hc, hv⟩
    refine ⟨honce, ?_⟩
    obtain ⟨val, argc, argv⟩ := parsed
    obtain rfl : val = _ := funext hval
    simp only at hc hv
    rw [← hargc] at hc
    rw [← hargv] at hv
    subst hc hv
    rfl

theorem Reads.positionals (h : Reads po prog blocks post more parsed) :
    parsed.positionals = blocks.map Prod.snd ++ more.getD [] := by
  rw [Parsed.positionals, h.argc, h.argv, List.take_succ_cons, List.drop_succ_cons, List.drop_zero,
    List.take_left]

/-! ## The way a command line is read -/

variable (po) in
/-- A command line is read as these arguments, and what follows them. -/
structure ReadAs (ts : List Bytes) (as : List (Arg O)) (more : Option (List Bytes)) : Prop where
  line : ts = tokens as ++ trail more
  wellRead : WellRead po as (trail more)

omit [DecidableEq O] in
/-- **There is one way** to read it. -/
theorem ReadAs.unique {as as' : List (Arg O)} {more' : Option (List Bytes)}
    (h : ReadAs po ts as more) (h' : ReadAs po ts as' more') : as' = as ∧ more' = more := by
  obtain ⟨cs, rfl, hrest⟩ := h.wellRead.unique h'.wellRead (h.line.symm.trans h'.line)
  have hstands : ∀ c ∈ cs, c.Stands po := fun c hc =>
    h'.wellRead.stands c (List.mem_append_right as hc)
  cases cs with
  | nil =>
      refine ⟨List.append_nil as, ?_⟩
      cases more <;> cases more' <;> simp [trail] at hrest ⊢
      exact hrest.symm
  | cons c cs =>
      -- another argument would begin where the line ends, or with `--`
      obtain ⟨t, ts', ht⟩ := c.tokens_eq_cons
      cases more with
      | none => simp [trail, ht] at hrest
      | some ms =>
          have hmem : dashes ∉ tokens (c :: cs) := dashes_notMem_tokens hstands
          rw [trail, tokens_cons, ht] at hrest
          obtain ⟨rfl, -⟩ := List.cons.inj hrest
          simp [ht] at hmem

omit [DecidableEq O] in
/-- What neither is an option nor belongs to one, nor is `--`. -/
theorem texts_blocks (h : IsLayout po ts blocks post more) :
    texts (ofBlocks blocks ++ post) = blocks.map Prod.snd := by
  rw [texts_append, texts_ofBlocks h.options, h.last, List.append_nil]

/-- **The positional arguments are gathered in order, and nothing is lost.**
In a command line that `Parse` accepts, every argument is an option, the
value of one, the first `--`, or positional, in one way; when `InitDefaults`
is called, `argv` is a permutation of what it was with the program in its
place, `argc` is one more than the number of positional arguments, and
these stand behind the program in the order they were given in. -/
theorem gathers_positionals (h : po.parse (prog :: ts) = .ok parsed) :
    ∃ as more, ReadAs po ts as more ∧
      (∀ as' more', ReadAs po ts as' more' → as' = as ∧ more' = more) ∧
      parsed.argv.Perm (prog :: ts) ∧ parsed.argv.head? = some prog ∧
      parsed.argc = 1 + (texts as ++ more.getD []).length ∧
      parsed.positionals = texts as ++ more.getD [] := by
  obtain ⟨blocks, post, more, hlayout⟩ := exists_isLayout h
  have hread : ReadAs po ts (ofBlocks blocks ++ post) more := ⟨hlayout.line, hlayout.wellRead⟩
  have hparsed := hlayout.parse_iff.mp h
  refine ⟨ofBlocks blocks ++ post, more, hread, fun _ _ => hread.unique, ?_, ?_, ?_, ?_⟩
  · unfold parse at h
    split at h
    · cases h
    · cases h
      exact Gather.perm_gather _ _ _
  · rw [hparsed.argv, List.head?_cons]
  · rw [hparsed.argc, texts_blocks hlayout, Nat.add_comm]
  · rw [hparsed.positionals, texts_blocks hlayout]

/-- A program with `-h` and `-v [LEVEL]`. -/
def helpAndLevel : ProgramOptions Bool where
  options := [false, true]
  base
    | false => ⟨ascii "help", some 104, .flag⟩
    | true => ⟨ascii "verbosity", some 118, .level⟩
  help := false
  verbosity := true

/-- `-v 2 a -h b -- -v`: the value and the `--` are displaced. -/
def mixedLine : List Bytes :=
  [ascii "-v", ascii "2", ascii "a", ascii "-h", ascii "b", ascii "--", ascii "-v"]

theorem gathers_positionals_mixedLine :
    ∃ parsed, helpAndLevel.parse (ascii "p" :: mixedLine) = .ok parsed ∧
      parsed.argv.Perm (ascii "p" :: mixedLine) ∧
      parsed.positionals = [ascii "a", ascii "b", ascii "-v"] :=
  have hparse : ∃ parsed, helpAndLevel.parse (ascii "p" :: mixedLine) = .ok parsed ∧
      parsed.positionals = [ascii "a", ascii "b", ascii "-v"] := ⟨_, rfl, by decide⟩
  hparse.elim fun parsed hp =>
    (gathers_positionals hp.1).elim fun _ h => h.elim fun _ hgathered =>
      ⟨parsed, hp.1, hgathered.2.2.1, hp.2⟩

end ProgramOptions

end Jpgsync
