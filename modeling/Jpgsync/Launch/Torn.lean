import Jpgsync.Launch.Whole

/-!
# Launch — Torn

A child that accepts its command line with the directory as its only
positional argument shows that nothing else was left behind on its own: no
value without its option, and no `--` in front of what `main` appends.
-/

namespace Jpgsync

open ProgramOptions JpgsyncOptions
open Gather (leftBehind)

variable {before between after kept all : List Argument} {root first second dir : Bytes}
  {blocks blocks' : List (List Argument × Bytes)} {post post' : List Argument}
  {more more' : Option (List Bytes)} {ts args : List Bytes} {po q : JpgsyncOptions} {child : Child}
  {masterPort prog : Bytes}

/-! ## The only positional argument -/

/-- Either the first token is the directory, or the last one behind `--`. -/
theorem only_positional {as : List Argument} {rest tail : List Bytes}
    (hline : dir :: (rest ++ tail) = tokens as ++ trail more)
    (hstands : ∀ a ∈ as, a.Stands jpgsyncOptions) (hone : texts as ++ more.getD [] = [dir])
    (htail : tail ≠ []) (hdashes : dashes ∉ tail) :
    (isFlag dir = false ∧ dashes ∉ rest) ∨ (tail = [dir] ∧ ∃ xs, rest = xs ++ [dashes]) := by
  cases more with
  | none =>
      left
      rw [Option.getD_none, List.append_nil] at hone
      refine ⟨isFlag_of_mem_texts hstands (by rw [hone]; exact List.mem_singleton_self dir), ?_⟩
      intro hmem
      refine dashes_notMem_tokens hstands ?_
      rw [trail, List.append_nil] at hline
      rw [← hline]
      exact List.mem_cons_of_mem _ (List.mem_append_left _ hmem)
  | some behind =>
      rw [Option.getD_some] at hone
      rcases List.eq_nil_or_concat tail with rfl | ⟨front, last, rfl⟩
      · exact absurd rfl htail
      · rw [List.concat_eq_append] at hdashes hline ⊢
        rw [trail, ← List.append_assoc, ← List.cons_append] at hline
        cases behind with
        | nil =>
            -- the line would end with the dashes
            obtain ⟨-, hlast⟩ := List.append_inj' hline rfl
            simp [List.singleton_inj.mp hlast] at hdashes
        | cons text behind =>
            obtain ⟨-, htext⟩ : texts as = [] ∧ text :: behind = [dir] := by
              rcases List.append_eq_singleton_iff.mp hone with h | ⟨-, h⟩
              · exact h
              · cases h
            have hends : (dir :: rest ++ front) ++ [last] = (tokens as ++ [dashes]) ++ [dir] := by
              rw [List.cons_append, hline, htext, List.append_assoc]
              rfl
            obtain ⟨hfront, hlast⟩ := List.append_inj' hends rfl
            obtain rfl : last = dir := List.singleton_inj.mp hlast
            rcases List.eq_nil_or_concat front with rfl | ⟨front, x, rfl⟩
            · right
              rw [List.append_nil] at hfront
              cases htokens : tokens as with
              | nil =>
                  rw [htokens, List.nil_append] at hfront
                  obtain ⟨rfl, -⟩ := List.cons.inj hfront
                  simp at hdashes
              | cons t xs =>
                  rw [htokens, List.cons_append] at hfront
                  exact ⟨rfl, xs, (List.cons.inj hfront).2⟩
            · rw [List.concat_eq_append] at hdashes hfront
              rw [← List.append_assoc] at hfront
              obtain ⟨-, hx⟩ := List.append_inj' hfront rfl
              simp [List.singleton_inj.mp hx] at hdashes

/-- The layout of a line with one positional argument. -/
theorem layout_of_child (hq : JpgsyncOptions.parse (prog :: args) = .ok q)
    (hpos : q.positionals = [dir]) :
    ∃ as more, args = tokens as ++ trail more ∧ WellRead jpgsyncOptions as (trail more) ∧
      texts as ++ more.getD [] = [dir] := by
  obtain ⟨parsed, hparsed, -⟩ := parse_eq_ok.mp hq
  obtain ⟨blocks, post, more, hl⟩ := exists_isLayout hparsed
  obtain ⟨-, parsed, hreads, hdefaults⟩ := accepted_of_layout hl hq
  have hone := positionals_eq hreads hdefaults (by rw [hpos]; rfl)
  refine ⟨ofBlocks blocks ++ post, more, hl.line, hl.wellRead, ?_⟩
  rw [texts_append, texts_ofBlocks hl.options, hl.last, List.append_nil, ← hone, hpos]

/-- What is read at the front of such a line has no other positional text. -/
theorem texts_of_front {as : List Argument} {rest : List Bytes}
    (hq : JpgsyncOptions.parse (prog :: (tokens as ++ rest)) = .ok q)
    (hpos : q.positionals = [dir]) (has : WellRead jpgsyncOptions as rest) :
    ∃ xs, texts as ++ xs = [dir] := by
  obtain ⟨as', more, hline, hread, hone⟩ := layout_of_child hq hpos
  obtain ⟨cs, rfl, -⟩ := has.unique hread hline
  refine ⟨texts cs ++ more.getD [], ?_⟩
  rw [← List.append_assoc, ← texts_append, hone]

theorem dashes_mem_leftOver (hl : IsLayout jpgsyncOptions ts blocks post more) :
    dashes ∈ leftOver blocks post more ↔ more ≠ none := by
  rw [(perm_leftOver blocks post more).mem_iff, List.mem_append, List.mem_append]
  have hblocks : dashes ∉ (blocks.map fun b => tokens b.1).flatten := by
    intro hmem
    obtain ⟨as, has, hmem⟩ := List.mem_flatten.mp hmem
    obtain ⟨b, hb, rfl⟩ := List.mem_map.mp has
    exact dashes_notMem_tokens (fun a ha => stands_of_layout hl (Or.inr ⟨b, hb, ha⟩)) hmem
  have hpost : dashes ∉ tokens post :=
    dashes_notMem_tokens fun a ha => stands_of_layout hl (Or.inl ha)
  cases more <;> simp [hblocks, hpost, lead]

/-- The child's level is that of the options left behind. -/
theorem level_of_child (hl : IsLayout jpgsyncOptions args blocks' post' more')
    (hq : JpgsyncOptions.parse (prog :: args) = .ok q)
    (hlevel : q.val .verbosity = po.val .verbosity) (hacc : Accepted po blocks post)
    (hall : ∀ o, usesIn o blocks post = uses o all)
    (hkept : usesIn .verbosity blocks' post' = uses .verbosity kept) : level kept = level all := by
  rw [(accepted_of_layout hl hq).1.val, hacc.val, hkept, hall, valueAfter_verbosity,
    valueAfter_verbosity, Option.some.injEq, Value.level.injEq] at hlevel
  exact hlevel

/-! ## A value by itself -/

/-- A token that is no flag and is nobody's value is positional. -/
theorem texts_of_stray (as : List Argument) {value : Bytes} {rest : List Bytes}
    (hq : JpgsyncOptions.parse (prog :: (tokens as ++ value :: rest)) = .ok q)
    (hpos : q.positionals = [dir]) (has : WellRead jpgsyncOptions as (value :: rest))
    (hvalue : isFlag value = false) : ∃ xs, texts as ++ value :: xs = [dir] := by
  have hread : WellRead jpgsyncOptions (as ++ [.positional value]) rest := by
    rw [wellRead_append]
    exact ⟨has, hvalue, fun h => h.elim, trivial⟩
  have hq' : JpgsyncOptions.parse (prog :: (tokens (as ++ [.positional value]) ++ rest)) =
      .ok q := by
    rw [tokens_append, List.append_assoc]
    exact hq
  obtain ⟨xs, hxs⟩ := texts_of_front hq' hpos hread
  refine ⟨xs, ?_⟩
  rw [← hxs, texts_append, List.append_assoc]
  rfl

/-- Behind the directory there is none. -/
theorem no_stray (as : List Argument) {value : Bytes} {rest : List Bytes}
    (hq : JpgsyncOptions.parse (prog :: (dir :: tokens as ++ value :: rest)) = .ok q)
    (hpos : q.positionals = [dir]) (hdir : isFlag dir = false)
    (has : WellRead jpgsyncOptions as (value :: rest)) (hvalue : isFlag value = false) : False := by
  have hread : WellRead jpgsyncOptions (.positional dir :: as) (value :: rest) :=
    ⟨hdir, fun h => h.elim, has⟩
  obtain ⟨xs, hxs⟩ := texts_of_stray (.positional dir :: as) hq hpos hread hvalue
  have hlen := congrArg List.length hxs
  simp [Arg.texts] at hlen

/-- The tokens an option with a value leaves behind begin with the value. -/
theorem leftBehind_valued {o : JpgsyncOption} {flag value : Bytes} {tail : List Argument} :
    leftBehind (tokens (.option o flag (some value) :: tail)) = value :: (tokens tail ++ [flag]) :=
  rfl

theorem isFlag_value {o : JpgsyncOption} {flag value : Bytes}
    (h : (Arg.option o flag (some value)).Stands jpgsyncOptions) : isFlag value = false :=
  h.2.2.2.2

theorem wellRead_localArg (rest : List Bytes) : WellRead jpgsyncOptions [localArg] rest := by
  refine ⟨stands_localArg, fun h => ?_, trivial⟩
  cases h

/-! ## One root -/

theorem blocks_eq_singleton (h : blocks.map Prod.snd ++ [] = [root]) :
    ∃ before, blocks = [(before, root)] := by
  rw [List.append_nil, List.map_eq_singleton_iff] at h
  obtain ⟨⟨before, text⟩, hblocks, rfl⟩ := h
  exact ⟨before, hblocks⟩

/-- **One root**: the options in front of it and behind it, read off the
line of the child. -/
theorem Forwardable.of_oneChild (hl : IsLayout jpgsyncOptions ts blocks post more)
    (h : JpgsyncOptions.parse (prog :: ts) = .ok po)
    (hroot : blocks.map Prod.snd ++ more.getD [] = [root])
    (hchild : OneChild po masterPort prog root (leftOver blocks post more))
    (hf : Forwarded po masterPort) : Forwardable masterPort ts := by
  have hacc := (accepted_of_layout hl h).1
  rw [Forwarded, hchild.children_eq] at hf
  obtain ⟨q, hq, hfollows⟩ := hf _ (List.mem_singleton_self _)
  simp only at hq
  have hpos : q.positionals = [(rootOf root).dir] := hfollows.positionals
  obtain ⟨as, behind, hline, hread, hone⟩ := layout_of_child hq hpos
  rcases only_positional hline hread.stands hone (by simp) (by decide) with
    ⟨hdir, hdashes⟩ | ⟨htail, xs, hxs⟩
  · -- the directory comes first, and nothing is left behind on its own
    obtain rfl : more = none := by
      by_contra hmore
      exact hdashes ((dashes_mem_leftOver hl).mpr hmore)
    obtain ⟨before, rfl⟩ := blocks_eq_singleton hroot
    have hbare : Bare before := by
      by_contra hnot
      obtain ⟨o, flag, value, tail, rfl⟩ :=
        valued_of_not_bare hnot (hl.options _ List.mem_cons_self)
      rw [leftOver_one none rfl, leftBehind_valued] at hq
      exact no_stray [] hq hpos hdir trivial
        (isFlag_value (stands_of_layout hl (Or.inr ⟨_, List.mem_cons_self, List.mem_cons_self⟩)))
    have hchildLine := layout_oneRoot hl hdir ⟨hbare, rfl⟩
    refine Forwardable.oneRoot before post _ root hl hdir ⟨hbare, rfl⟩ ?_
    refine level_of_child hchildLine hq hfollows.verbosity hacc usesIn_one ?_
    rw [usesIn_one, List.nil_append, uses_append]
    simp [localArg, Arg.uses]
  · -- the directory is `--local`, and the line ends with the dashes
    have hlocal : (rootOf root).dir = ascii "--local" := (List.singleton_inj.mp htail).symm
    cases more with
    | none =>
        have hmem : dashes ∈ leftOver blocks post none := by simp [hxs]
        exact absurd rfl ((dashes_mem_leftOver hl).mp hmem)
    | some behind =>
        cases behind with
        | nil =>
            obtain ⟨before, rfl⟩ := blocks_eq_singleton hroot
            have hbare : Bare before := by
              by_contra hnot
              obtain ⟨o, flag, value, tail, rfl⟩ :=
                valued_of_not_bare hnot (hl.options _ List.mem_cons_self)
              have hvalue := isFlag_value
                (stands_of_layout hl (Or.inr ⟨_, List.mem_cons_self, List.mem_cons_self⟩))
              rw [leftOver_one (some []) rfl, leftBehind_valued, hlocal] at hq
              rw [hlocal] at hpos
              obtain ⟨zs, hzs⟩ := texts_of_stray [localArg] hq hpos (wellRead_localArg _) hvalue
              obtain ⟨rfl, -⟩ := List.cons.inj hzs
              exact absurd hvalue (by decide)
            have hchildLine := layout_oddRoot hl hlocal ⟨hbare, rfl⟩
            refine Forwardable.oddRoot before post _ root hl hlocal ⟨hbare, rfl⟩ ?_
            refine level_of_child hchildLine hq hfollows.verbosity hacc usesIn_one ?_
            simp [usesIn, ofBlocks, localArg, Arg.uses]
        | cons text behind =>
            obtain ⟨rfl, rfl, rfl⟩ : blocks = [] ∧ text = root ∧ behind = [] := by
              rw [Option.getD_some] at hroot
              rcases List.append_eq_singleton_iff.mp hroot with ⟨hb, hm⟩ | ⟨-, hm⟩
              · obtain ⟨rfl, rfl⟩ := List.cons.inj hm
                exact ⟨List.map_eq_nil_iff.mp hb, rfl, rfl⟩
              · cases hm
            exfalso
            cases post with
            | nil =>
                rcases hchild.side with hside | hside
                · exact (hacc.count (by simp) (by simp)).mp hside rfl
                · exact (hacc.count (by simp) (by simp)).mp hside rfl
            | cons a post =>
                obtain ⟨t, ts', ht⟩ := a.tokens_eq_cons
                have hlast : leftOver [] (a :: post) (some [text]) =
                    (ts' ++ (tokens post ++ [dashes])) ++ [t] := by
                  simp [leftOver, tokenBlocks, trailBlocks, trailRest, Gather.scattered, lead, ht,
                    leftBehind]
                rw [hlast] at hxs
                obtain ⟨-, hdashes⟩ := List.append_inj' hxs rfl
                refine dashes_notMem_tokens (fun b hb => stands_of_layout hl (Or.inl hb)) ?_
                rw [← List.singleton_inj.mp hdashes, tokens_cons, ht]
                exact List.mem_append_left _ List.mem_cons_self

/-! ## Two roots -/

/-- The options between the roots, in front of any positional token. -/
theorem wellRead_between
    (hl : IsLayout jpgsyncOptions ts [(before, first), (between, second)] post more)
    {value : Bytes} (rest : List Bytes) : WellRead jpgsyncOptions between (value :: rest) := by
  have hread := hl.wellRead
  simp only [ofBlocks, List.append_assoc, List.cons_append, List.nil_append, wellRead_append,
    WellRead] at hread
  obtain ⟨-, -, -, hbetween, hsecond, -⟩ := hread
  refine hbetween.congr fun hclosed => ?_
  rw [tokens_cons, Arg.tokens, List.singleton_append, List.cons_append, closed_cons] at hclosed
  rw [show isFlag second = false from hsecond] at hclosed
  cases hclosed

/-- Of two roots: the options left behind are whole. -/
theorem kept_of_child {tail : List Bytes}
    (hl : IsLayout jpgsyncOptions ts [(before, first), (between, second)] post none)
    (hslave : usesIn .slave [(before, first), (between, second)] post = [])
    (hq : JpgsyncOptions.parse (prog ::
      (dir :: (leftOver [(before, first), (between, second)] post none ++ tail))) = .ok q)
    (hpos : q.positionals = [dir]) (hdir : isFlag dir = false) :
    ∃ kept, Kept₂ before between post kept := by
  have hbefore : texts before = [] := hl.options (before, first) List.mem_cons_self
  have hbetween : texts between = [] :=
    hl.options (between, second) (List.mem_cons_of_mem _ List.mem_cons_self)
  have hstands : ∀ a, a ∈ before ∨ a ∈ between → a.Stands jpgsyncOptions := by
    intro a ha
    refine stands_of_layout hl (Or.inr ?_)
    rcases ha with ha | ha
    · exact ⟨_, List.mem_cons_self, ha⟩
    · exact ⟨_, List.mem_cons_of_mem _ List.mem_cons_self, ha⟩
  rw [leftOver_two] at hq
  by_cases hbare : Bare before
  · by_cases hbare' : Bare (leftBehind before ++ between)
    · exact ⟨_, Or.inl ⟨hbare, hbare', rfl⟩⟩
    · exfalso
      have htexts : texts (leftBehind before ++ between) = [] := by
        refine List.flatMap_eq_nil_iff.mpr fun a ha => ?_
        rcases List.mem_append.mp ha with ha | ha
        · exact List.flatMap_eq_nil_iff.mp hbefore a (Gather.mem_leftBehind.mp ha)
        · exact List.flatMap_eq_nil_iff.mp hbetween a ha
      obtain ⟨o, flag, value, rest, hvalued⟩ := valued_of_not_bare hbare' htexts
      have hmem : Arg.option o flag (some value) ∈ leftBehind before ++ between := by
        rw [hvalued]
        exact List.mem_cons_self
      have hwhole : (Arg.option o flag (some value)).Stands jpgsyncOptions := by
        refine hstands _ ?_
        rcases List.mem_append.mp hmem with hmem | hmem
        · exact Or.inl (Gather.mem_leftBehind.mp hmem)
        · exact Or.inr hmem
      rw [tokens_leftBehind hbare, ← tokens_append, hvalued, leftBehind_valued] at hq
      exact no_stray [] hq hpos hdir trivial (isFlag_value hwhole)
  · by_cases hempty : between = []
    · exact ⟨_, Or.inr ⟨hbare, hempty, rfl⟩⟩
    · -- the flag goes behind the options before the first root, its value
      -- behind those between the roots
      exfalso
      obtain ⟨o, flag, value, rest, rfl⟩ := valued_of_not_bare hbare hbefore
      have hwhole : (Arg.option o flag (some value)).Stands jpgsyncOptions :=
        hstands _ (Or.inl List.mem_cons_self)
      have hlevel : o.base.parserFactory ≠ .word := by
        intro hword
        obtain rfl : o = .slave := by
          cases o <;> first | rfl | cases hword
        rw [usesIn_two] at hslave
        simp [Arg.uses] at hslave
      have hread : WellRead jpgsyncOptions (rest ++ ([.option o flag none] ++ between))
          (value :: (tokens post ++ tail)) := by
        rw [wellRead_append, wellRead_append]
        refine ⟨wellRead_of_options (fun a ha => hstands a (Or.inl (List.mem_cons_of_mem _ ha))) ?_
            ?_, ⟨⟨hwhole.1, hwhole.2.1, hwhole.2.2.1, hlevel⟩, fun _ => ?_, trivial⟩,
          wellRead_between hl _⟩
        · simpa [Arg.texts] using hbefore
        · rw [tokens_append, List.append_assoc]
          exact closed_cons.mpr hwhole.1
        · cases between with
          | nil => exact absurd rfl hempty
          | cons b between =>
              rw [texts_cons, List.append_eq_nil_iff] at hbetween
              rw [tokens_nil, List.nil_append, tokens_cons, List.append_assoc]
              exact (hstands b (Or.inr List.mem_cons_self)).closed hbetween.1 _
      have hline : dir :: (leftBehind (leftBehind (tokens (.option o flag (some value) :: rest)) ++
          tokens between) ++ tokens post ++ tail) =
            dir :: tokens (rest ++ ([.option o flag none] ++ between)) ++
              value :: (tokens post ++ tail) := by
        rw [leftBehind_valued]
        simp [leftBehind, Arg.tokens]
      rw [hline] at hq
      exact no_stray _ hq hpos hdir hread (isFlag_value hwhole)

/-- `-s` takes the address, or it has none. -/
theorem isFlag_address {as : List Argument} {address : Bytes}
    (hq : JpgsyncOptions.parse (prog :: (tokens as ++ [ascii "-s", address])) = .ok q)
    (hpos : q.positionals = [dir])
    (has : WellRead jpgsyncOptions as [ascii "-s", address]) : isFlag address = false := by
  obtain ⟨as', behind, hline, hread, -⟩ := layout_of_child hq hpos
  obtain ⟨cs, rfl, hcs⟩ := has.unique hread hline
  cases cs with
  | nil =>
      cases behind with
      | none => cases hcs
      | some behind => exact absurd (List.cons.inj hcs).1 (by decide)
  | cons c cs =>
      have hc : c.Stands jpgsyncOptions :=
        hread.stands c (List.mem_append_right _ List.mem_cons_self)
      cases c with
      | positional text =>
          obtain rfl := (List.cons.inj hcs).1
          exact absurd (show isFlag (ascii "-s") = false from hc) (by decide)
      | option o flag value =>
          obtain ⟨rfl, hrest⟩ := List.cons.inj hcs
          cases value with
          | some value =>
              obtain ⟨rfl, -⟩ := List.cons.inj hrest
              exact isFlag_value hc
          | none =>
              have hfind : jpgsyncOptions.find (ascii "-s") = some .slave := by decide
              obtain rfl : JpgsyncOption.slave = o := Option.some.inj (hfind.symm.trans hc.2.2.1)
              exact absurd rfl hc.2.2.2

/-- The line of the slave has an address the slave can take. -/
theorem isAddress_of_child {address : Bytes}
    (line : IsLayout jpgsyncOptions ts [(before, first), (between, second)] after none)
    (kept_eq : Kept₂ before between after kept) (hdir : isFlag dir = false)
    (hunused : uses .slave (before ++ between ++ after) = [])
    (hq : JpgsyncOptions.parse (prog ::
      (dir :: (leftOver [(before, first), (between, second)] after none ++
        [ascii "--local", ascii "-s", address]))) = .ok q)
    (hpos : q.positionals = [dir]) : IsAddress address := by
  have hperm := perm_kept₂ kept_eq
  obtain ⟨hstands, htexts⟩ := kept_stands line (by simpa using hperm)
  have hline : dir :: (leftOver [(before, first), (between, second)] after none ++
      [ascii "--local", ascii "-s", address]) =
        tokens (.positional dir :: (kept ++ [localArg])) ++ [ascii "-s", address] := by
    rw [leftOver_two, tokens_kept₂ kept_eq (line.options (before, first) List.mem_cons_self)]
    simp [Arg.tokens, localArg]
  have hread : WellRead jpgsyncOptions (.positional dir :: (kept ++ [localArg]))
      [ascii "-s", address] := by
    refine ⟨hdir, fun h => h.elim, wellRead_of_options (stands_append hstands ?_) ?_ ?_⟩
    · simpa using stands_localArg
    · rw [texts_append, htexts]
      rfl
    · exact closed_cons.mpr rfl
  have hflag : isFlag address = false := isFlag_address (by rw [← hline]; exact hq) hpos hread
  have hl := layout_twoRoots [localArg, addressArg address] line kept_eq hdir
    ⟨by simpa using ⟨stands_localArg, stands_addressArg hflag⟩, rfl⟩
  have hacc := (accepted_of_layout hl hq).1
  have huses : usesIn .slave [([], dir)] (kept ++ [localArg, addressArg address]) =
      [some address] := by
    rw [usesIn_one, List.nil_append, uses_append, uses_kept_nil hperm hunused]
    rfl
  have hcount : q.count .slave = true := by
    rw [hacc.count (by simp) (by simp), huses]
    simp
  obtain ⟨value, hvalue, hword⟩ := hacc.slave_use hl hcount
  rw [huses, List.singleton_inj, Option.some.injEq] at hvalue
  subst hvalue
  have haddress := masterAddress_of_parse hq hcount
  rw [hword] at haddress
  exact ⟨hflag, _, haddress⟩

theorem slaveArg_ne_dashes (root : Root) (port : Bytes) : slaveArg root port ≠ dashes := by
  intro h
  have hmem : (58 : UInt8) ∈ slaveArg root port := by
    rw [slaveArg]
    exact List.mem_append_left _ (List.mem_append_right _ (by decide))
  rw [h] at hmem
  exact absurd hmem (by decide)

/-- **Two roots**, read off the lines of both children. -/
theorem Forwardable.of_twoChildren (hl : IsLayout jpgsyncOptions ts blocks post more)
    (h : JpgsyncOptions.parse (prog :: ts) = .ok po)
    (hroots : blocks.map Prod.snd ++ more.getD [] = [first, second])
    (hchild : TwoChildren po masterPort prog first second (leftOver blocks post more))
    (hf : Forwarded po masterPort) : Forwardable masterPort ts := by
  have hacc := (accepted_of_layout hl h).1
  rw [Forwarded, hchild.children_eq] at hf
  obtain ⟨q, hq, hfollows⟩ := hf _ List.mem_cons_self
  obtain ⟨q', hq', hfollows'⟩ := hf _ (List.mem_cons_of_mem _ (List.mem_singleton_self _))
  simp only at hq hq'
  have hpos : q.positionals = [(mainRoot first second).dir] := hfollows.positionals
  have hpos' : q'.positionals = [(otherRoot first second).dir] := hfollows'.positionals
  -- more than one token follows what is left behind, so the directories come first
  obtain ⟨hdir, hdashes⟩ : isFlag (mainRoot first second).dir = false ∧
      dashes ∉ leftOver blocks post more := by
    obtain ⟨as, behind, hline, hread, hone⟩ := layout_of_child hq hpos
    rcases only_positional hline hread.stands hone (by simp) (by decide) with hcase | ⟨htail, -⟩
    · exact hcase
    · simp at htail
  have hdir' : isFlag (otherRoot first second).dir = false := by
    obtain ⟨as, behind, hline, hread, hone⟩ := layout_of_child hq' hpos'
    have hnot : dashes ∉
        [ascii "--local", ascii "-s", slaveArg (mainRoot first second) masterPort] := by
      intro hmem
      rcases List.mem_cons.mp hmem with hmem | hmem
      · exact absurd hmem (by decide)
      rcases List.mem_cons.mp hmem with hmem | hmem
      · exact absurd hmem (by decide)
      · exact slaveArg_ne_dashes _ _ (List.mem_singleton.mp hmem).symm
    rcases only_positional hline hread.stands hone (by simp) hnot with ⟨hcase, -⟩ | ⟨htail, -⟩
    · exact hcase
    · simp at htail
  obtain rfl : more = none := by
    by_contra hmore
    exact hdashes ((dashes_mem_leftOver hl).mpr hmore)
  obtain ⟨before, between, rfl⟩ :
      ∃ before between, blocks = [(before, first), (between, second)] := by
    rw [Option.getD_none, List.append_nil, List.map_eq_cons_iff] at hroots
    obtain ⟨⟨before, text⟩, tail, rfl, rfl, htail⟩ := hroots
    rw [List.map_eq_singleton_iff] at htail
    obtain ⟨⟨between, text'⟩, rfl, rfl⟩ := htail
    exact ⟨before, between, rfl⟩
  have hunused : usesIn .slave [(before, first), (between, second)] post = [] :=
    hacc.unused (by simp) (by simp) hchild.slave
  obtain ⟨kept, hkept⟩ := kept_of_child hl hunused hq hpos hdir
  rw [usesIn_two] at hunused
  have hlevel : level kept = level (before ++ between ++ post) := by
    have hextra : ∀ a ∈ [localArg, masterArg], a.Stands jpgsyncOptions := by
      simpa using ⟨stands_localArg, stands_masterArg⟩
    have hline := layout_twoRoots [localArg, masterArg] hl hkept hdir ⟨hextra, rfl⟩
    refine level_of_child hline hq hfollows.verbosity hacc usesIn_two ?_
    rw [usesIn_one, List.nil_append, uses_append]
    simp [localArg, masterArg, Arg.uses]
  have hdirs : isFlag (rootOf first).dir = false ∧ isFlag (rootOf second).dir = false := by
    rcases mainRoot_cases first second with ⟨hm, ho⟩ | ⟨hm, ho⟩
    · rw [hm] at hdir
      rw [ho] at hdir'
      exact ⟨hdir, hdir'⟩
    · rw [hm] at hdir
      rw [ho] at hdir'
      exact ⟨hdir', hdir⟩
  exact Forwardable.twoRoots before between post kept first second hl hdirs hkept hlevel
    (isAddress_of_child hl hkept hdir' hunused hq' hpos')

/-! ## All command lines -/

/-- **Children mean what their parent means exactly when the exchanges tear
no option from its value**, keep the level, and leave no `--` behind. -/
theorem forwarded_iff (h : JpgsyncOptions.parse (prog :: ts) = .ok po) (hhelp : po.help = false)
    (hlocal : po.count .asLocal = false) : Forwarded po masterPort ↔ Forwardable masterPort ts := by
  refine ⟨fun hf => ?_, fun hf => hf.forwarded h hhelp hlocal⟩
  obtain ⟨parsed, hparsed, -⟩ := parse_eq_ok.mp h
  obtain ⟨blocks, post, more, hl⟩ := exists_isLayout hparsed
  rcases children_of_layout masterPort hl h hhelp hlocal with
    ⟨root, hroot, -, hchild⟩ | ⟨first, second, hroots, hchild⟩
  · exact Forwardable.of_oneChild hl h hroot hchild hf
  · exact Forwardable.of_twoChildren hl h hroots hchild hf

/-- Two roots, a remote one second, and an option behind them. -/
theorem forwarded_iff_remoteSlave :
    ∃ po, JpgsyncOptions.parse
        [ascii "jpgsync", ascii "A", ascii "host:B", ascii "-v"] = .ok po ∧
      (Forwarded po (ascii "5000") ↔
        Forwardable (ascii "5000") [ascii "A", ascii "host:B", ascii "-v"]) :=
  ⟨_, rfl, forwarded_iff rfl rfl rfl⟩

/-- `jpgsync -s host:1 A` is accepted; its child gets `A host:1 -s --local`,
in which `-s` has no value. -/
theorem not_forwarded_slaveFirst :
    ∃ po, JpgsyncOptions.parse
        [ascii "jpgsync", ascii "-s", ascii "host:1", ascii "A"] = .ok po ∧
      po.help = false ∧ po.count .asLocal = false ∧ ¬ Forwarded po (ascii "5000") := by
  refine ⟨_, rfl, rfl, rfl, fun hf => ?_⟩
  obtain ⟨q, hq, -⟩ := hf _ (List.mem_singleton_self _)
  cases hq

end Jpgsync
