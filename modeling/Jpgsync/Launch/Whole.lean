import Jpgsync.Launch.Children

/-!
# Launch — Whole

When the options are left behind whole, every child gets a command line it
accepts and that means the same.
-/

namespace Jpgsync

open ProgramOptions JpgsyncOptions
open Gather (leftBehind)

variable {before between after kept all : List Argument} {root first second dir : Bytes}
  {blocks blocks' : List (List Argument × Bytes)} {post post' : List Argument}
  {more more' : Option (List Bytes)} {ts : List Bytes} {po : JpgsyncOptions} {child : Child}
  {masterPort prog : Bytes}

theorem leftOver_one (more : Option (List Bytes)) (h : more.getD [] = []) :
    leftOver [(before, root)] after more =
      leftBehind (tokens before) ++ (tokens after ++ lead more) := by
  simp [leftOver, tokenBlocks, trailBlocks, Gather.scattered, trailRest, h]

theorem leftOver_two :
    leftOver [(before, first), (between, second)] after none =
      leftBehind (leftBehind (tokens before) ++ tokens between) ++ tokens after := by
  simp [leftOver, tokenBlocks, trailBlocks, Gather.scattered, trailRest, lead]

/-! ## What the child's options are -/

theorem means_of_accepted (hacc : Accepted po blocks post)
    (hall : ∀ o, usesIn o blocks post = uses o all) : Means po all where
  once := fun o => by
    rw [← hall]
    exact hacc.once o
  val := fun o => by
    rw [← hall]
    exact hacc.val o

/-- An option the parent does not have is not left behind. -/
theorem uses_kept_nil {o : JpgsyncOption} (hperm : kept.Perm all) (h : uses o all = []) :
    uses o kept = [] := by
  have hnil := perm_uses o hperm
  rw [h] at hnil
  exact hnil.eq_nil

theorem JpgsyncOptions.OneSide.congr (h : OneSide blocks post)
    (hmaster : usesIn .master blocks' post' = usesIn .master blocks post)
    (hslave : usesIn .slave blocks' post' = usesIn .slave blocks post) : OneSide blocks' post' := by
  cases h with
  | master hm hs => exact OneSide.master (by rwa [hmaster]) (by rwa [hslave])
  | slave hm value address hs haddress =>
      exact OneSide.slave (by rwa [hmaster]) value address (by rwa [hslave]) haddress

theorem stands_append {as bs : List Argument} (has : ∀ a ∈ as, a.Stands jpgsyncOptions)
    (hbs : ∀ a ∈ bs, a.Stands jpgsyncOptions) : ∀ a ∈ as ++ bs, a.Stands jpgsyncOptions := by
  intro a ha
  rcases List.mem_append.mp ha with ha | ha
  · exact has a ha
  · exact hbs a ha

/-- What is left behind of a layout stands as it is written, without texts. -/
theorem kept_stands (hl : IsLayout jpgsyncOptions ts blocks post more)
    (hperm : kept.Perm ((blocks.map Prod.fst).flatten ++ post)) :
    (∀ a ∈ kept, a.Stands jpgsyncOptions) ∧ texts kept = [] := by
  have hmem : ∀ a ∈ kept, a ∈ post ∨ ∃ b ∈ blocks, a ∈ b.1 := by
    intro a ha
    rcases List.mem_append.mp (hperm.mem_iff.mp ha) with ha | ha
    · obtain ⟨as, has, ha⟩ := List.mem_flatten.mp ha
      obtain ⟨b, hb, rfl⟩ := List.mem_map.mp has
      exact Or.inr ⟨b, hb, ha⟩
    · exact Or.inl ha
  refine ⟨fun a ha => stands_of_layout hl (hmem a ha), ?_⟩
  refine List.flatMap_eq_nil_iff.mpr fun a ha => ?_
  rcases hmem a ha with ha | ⟨b, hb, ha⟩
  · exact List.flatMap_eq_nil_iff.mp hl.last a ha
  · exact List.flatMap_eq_nil_iff.mp (hl.options b hb) a ha

/-! ## One root -/

/-- The only child of a parent with one root. -/
theorem follows_one (hacc : Accepted po blocks post)
    (hall : ∀ o, usesIn o blocks post = uses o all) (hside : OneSide blocks post)
    (hperm : kept.Perm all) (hlevel : level kept = level all)
    (hl : IsLayout jpgsyncOptions child.args blocks' post' more')
    (hone : blocks'.map Prod.snd ++ more'.getD [] = [child.root.dir])
    (hplain : PlainDir child.root.dir)
    (hsame : ∀ o, o ≠ .asLocal → usesIn o blocks' post' = uses o kept)
    (hlocal : usesIn .asLocal blocks' post' = [none]) :
    ∃ q, JpgsyncOptions.parse (child.program :: child.args) = .ok q ∧ Follows po q child := by
  have hmeans := means_of_accepted hacc hall
  have hsides : ∀ o, o ≠ .asLocal → o ≠ .verbosity →
      usesIn o blocks' post' = usesIn o blocks post := by
    intro o ho hv
    rw [hsame o ho, hall, (hmeans.once o).eq_of_perm (factory_ne_level hv) (perm_uses o hperm)]
  refine follows_of_layout hmeans hperm hlevel hl hone hplain (fun o ho _ _ => hsame o ho) hlocal
    (fun _ => ⟨hsame _ (by simp), hsame _ (by simp)⟩) ⟨?_, ?_⟩
    (hside.congr (hsides _ (by simp) (by simp)) (hsides _ (by simp) (by simp)))
  · rw [hsides _ (by simp) (by simp)]
    exact hacc.once .master (by simp [JpgsyncOption.base])
  · rw [hsides _ (by simp) (by simp)]
    exact hacc.once .slave (by simp [JpgsyncOption.base])

/-- The line of the only child. -/
theorem layout_oneRoot (line : IsLayout jpgsyncOptions ts [(before, root)] after none)
    (dir : isFlag (rootOf root).dir = false) (kept_eq : Kept₁ before after kept) :
    IsLayout jpgsyncOptions
      ((rootOf root).dir :: (leftOver [(before, root)] after none ++ [ascii "--local"]))
      [([], (rootOf root).dir)] (kept ++ [localArg]) none := by
  have hperm := perm_kept₁ kept_eq
  obtain ⟨hstands, htexts⟩ := kept_stands line (by simpa using hperm)
  have hline : leftOver [(before, root)] after none ++ [ascii "--local"] =
      tokens (kept ++ [localArg]) := by
    rw [leftOver_one none rfl, lead, List.append_nil, tokens_kept₁ kept_eq, tokens_append]
    rfl
  rw [hline]
  refine layout_child dir (stands_append hstands ?_) ?_
  · simpa using stands_localArg
  · rw [texts_append, htexts]
    rfl

/-- The same, when its directory is read as `--local`. -/
theorem layout_oddRoot (line : IsLayout jpgsyncOptions ts [(before, root)] after (some []))
    (dir : (rootOf root).dir = ascii "--local") (kept_eq : Kept₁ before after kept) :
    IsLayout jpgsyncOptions
      ((rootOf root).dir :: (leftOver [(before, root)] after (some []) ++ [ascii "--local"]))
      [] (localArg :: kept) (some [(rootOf root).dir]) := by
  have hperm := perm_kept₁ kept_eq
  obtain ⟨hstands, htexts⟩ := kept_stands line (by simpa using hperm)
  have hline : (rootOf root).dir ::
      (leftOver [(before, root)] after (some []) ++ [ascii "--local"]) =
        tokens (localArg :: kept) ++ [dashes, (rootOf root).dir] := by
    rw [leftOver_one (some []) rfl, lead, ← List.append_assoc, tokens_kept₁ kept_eq, dir]
    simp [localArg, Arg.tokens]
  rw [hline]
  refine layout_odd (fun a ha => ?_) ?_
  · rcases List.mem_cons.mp ha with rfl | ha
    · exact stands_localArg
    · exact hstands a ha
  · rw [texts_cons, htexts]
    rfl

theorem uses_asLocal_kept (line : IsLayout jpgsyncOptions ts [(before, root)] after more)
    (kept_eq : Kept₁ before after kept) (h : JpgsyncOptions.parse (prog :: ts) = .ok po)
    (hlocal : po.count .asLocal = false) : uses .asLocal kept = [] := by
  refine uses_kept_nil (perm_kept₁ kept_eq) ?_
  rw [← usesIn_one]
  exact (accepted_of_layout line h).1.unused (by simp) (by simp) hlocal

theorem forwarded_one {rest : List Bytes} (hchild : OneChild po masterPort prog root rest)
    (h : ∀ child : Child, child.root = rootOf root →
      child.args = (rootOf root).dir :: (rest ++ [ascii "--local"]) →
      ∃ q, JpgsyncOptions.parse (child.program :: child.args) = .ok q ∧ Follows po q child) :
    Forwarded po masterPort := by
  intro child hmem
  rw [hchild.children_eq, List.mem_singleton] at hmem
  subst hmem
  exact h _ rfl rfl

theorem Forwardable.forwarded_oneRoot
    (line : IsLayout jpgsyncOptions ts [(before, root)] after none)
    (dir : isFlag (rootOf root).dir = false) (kept_eq : Kept₁ before after kept)
    (same : level kept = level (before ++ after))
    (h : JpgsyncOptions.parse (prog :: ts) = .ok po) (hhelp : po.help = false)
    (hlocal : po.count .asLocal = false) : Forwarded po masterPort := by
  have hacc := (accepted_of_layout line h).1
  have hperm := perm_kept₁ kept_eq
  have hnone := uses_asLocal_kept line kept_eq h hlocal
  rcases children_of_layout masterPort line h hhelp hlocal with
    ⟨r, hr, hside, hchild⟩ | ⟨r, r', hr, -⟩
  · obtain rfl : root = r := by simpa using hr
    refine forwarded_one hchild fun child hroot hargs => ?_
    have hl := layout_oneRoot line dir kept_eq
    rw [← hargs] at hl
    refine follows_one hacc usesIn_one hside hperm same hl (by simp [hroot])
      (by rw [hroot]; exact hchild.plain) (fun o ho => ?_) ?_
    · rw [usesIn_one, List.nil_append, uses_append]
      simp [localArg, Arg.uses, Ne.symm ho]
    · rw [usesIn_one, List.nil_append, uses_append, hnone]
      rfl
  · simp at hr

theorem Forwardable.forwarded_oddRoot
    (line : IsLayout jpgsyncOptions ts [(before, root)] after (some []))
    (dir : (rootOf root).dir = ascii "--local") (kept_eq : Kept₁ before after kept)
    (same : level kept = level (before ++ after))
    (h : JpgsyncOptions.parse (prog :: ts) = .ok po) (hhelp : po.help = false)
    (hlocal : po.count .asLocal = false) : Forwarded po masterPort := by
  have hacc := (accepted_of_layout line h).1
  have hperm := perm_kept₁ kept_eq
  have hnone := uses_asLocal_kept line kept_eq h hlocal
  rcases children_of_layout masterPort line h hhelp hlocal with
    ⟨r, hr, hside, hchild⟩ | ⟨r, r', hr, -⟩
  · obtain rfl : root = r := by simpa using hr
    refine forwarded_one hchild fun child hroot hargs => ?_
    have hl := layout_oddRoot line dir kept_eq
    rw [← hargs] at hl
    refine follows_one hacc usesIn_one hside hperm same hl (by simp [hroot])
      (by rw [hroot]; exact hchild.plain) (fun o ho => ?_) ?_
    · simp [usesIn, ofBlocks, localArg, Arg.uses, Ne.symm ho]
    · simp [usesIn, ofBlocks, localArg, Arg.uses, hnone]
  · simp at hr

/-! ## Two roots -/

theorem mainRoot_cases (first second : Bytes) :
    (mainRoot first second = rootOf first ∧ otherRoot first second = rootOf second) ∨
      (mainRoot first second = rootOf second ∧ otherRoot first second = rootOf first) := by
  unfold mainRoot otherRoot
  split
  · exact Or.inr ⟨rfl, rfl⟩
  · exact Or.inl ⟨rfl, rfl⟩

/-- The line of one of two children. -/
theorem layout_twoRoots (extra : List Argument)
    (line : IsLayout jpgsyncOptions ts [(before, first), (between, second)] after none)
    (kept_eq : Kept₂ before between after kept) (hdir : isFlag dir = false)
    (hextra : (∀ a ∈ extra, a.Stands jpgsyncOptions) ∧ texts extra = []) :
    IsLayout jpgsyncOptions
      (dir :: (leftOver [(before, first), (between, second)] after none ++ tokens extra))
      [([], dir)] (kept ++ extra) none := by
  obtain ⟨hstands, htexts⟩ := kept_stands line (by simpa using perm_kept₂ kept_eq)
  rw [leftOver_two, tokens_kept₂ kept_eq (line.options (before, first) List.mem_cons_self),
    ← tokens_append]
  refine layout_child hdir (stands_append hstands hextra.1) ?_
  rw [texts_append, htexts, hextra.2, List.append_nil]

/-- One of the two children. -/
theorem follows_two {extra : List Argument} (hacc : Accepted po blocks post)
    (hall : ∀ o, usesIn o blocks post = uses o all) (hperm : kept.Perm all)
    (hlevel : level kept = level all) (hmaster : po.count .master = false)
    (hslave : po.count .slave = false) (hlocal : po.count .asLocal = false)
    (hl : IsLayout jpgsyncOptions child.args [([], child.root.dir)] (kept ++ extra) none)
    (hplain : PlainDir child.root.dir)
    (hother : ∀ o, o ≠ .asLocal → o ≠ .master → o ≠ .slave → uses o extra = [])
    (hlocal' : uses .asLocal extra = [none]) (hside : OneSide [([], child.root.dir)] extra)
    (honce : (uses .master extra).length ≤ 1 ∧ (uses .slave extra).length ≤ 1) :
    ∃ q, JpgsyncOptions.parse (child.program :: child.args) = .ok q ∧ Follows po q child := by
  have hmeans := means_of_accepted hacc hall
  have hnone : ∀ o, o ≠ .help → o ≠ .verbosity → po.count o = false → uses o kept = [] := by
    intro o hhelp hv hcount
    refine uses_kept_nil hperm ?_
    rw [← hall]
    exact hacc.unused hhelp hv hcount
  have huses : ∀ o, usesIn o [([], child.root.dir)] (kept ++ extra) =
      uses o kept ++ uses o extra := by
    intro o
    rw [usesIn_one, List.nil_append, uses_append]
  have hextra_uses : ∀ o, usesIn o [([], child.root.dir)] extra = uses o extra := by
    intro o
    rw [usesIn_one, List.nil_append]
  have hm := hnone .master (by simp) (by simp) hmaster
  have hs := hnone .slave (by simp) (by simp) hslave
  refine follows_of_layout hmeans hperm hlevel hl rfl hplain (fun o ho hom hos => ?_) ?_
    (fun hcount => ?_) ⟨?_, ?_⟩ (hside.congr ?_ ?_)
  · rw [huses, hother o ho hom hos, List.append_nil]
  · rw [huses, hnone .asLocal (by simp) (by simp) hlocal, hlocal', List.nil_append]
  · rcases hcount with hcount | hcount
    · rw [hmaster] at hcount
      cases hcount
    · rw [hslave] at hcount
      cases hcount
  · rw [huses, hm, List.nil_append]
    exact honce.1
  · rw [huses, hs, List.nil_append]
    exact honce.2
  · rw [huses, hextra_uses, hm, List.nil_append]
  · rw [huses, hextra_uses, hs, List.nil_append]

theorem Forwardable.forwarded_twoRoots
    (line : IsLayout jpgsyncOptions ts [(before, first), (between, second)] after none)
    (dirs : isFlag (rootOf first).dir = false ∧ isFlag (rootOf second).dir = false)
    (kept_eq : Kept₂ before between after kept)
    (same : level kept = level (before ++ between ++ after))
    (address : IsAddress (slaveArg (mainRoot first second) masterPort))
    (h : JpgsyncOptions.parse (prog :: ts) = .ok po) (hhelp : po.help = false)
    (hlocal : po.count .asLocal = false) : Forwarded po masterPort := by
  have hacc := (accepted_of_layout line h).1
  have hperm := perm_kept₂ kept_eq
  rcases children_of_layout masterPort line h hhelp hlocal with
    ⟨r, hr, -⟩ | ⟨r, r', hr, hchild⟩
  · simp at hr
  · obtain ⟨rfl, rfl⟩ : first = r ∧ second = r' := by simpa using hr
    -- both roots are as plain as those in the line
    have hroots : ∀ root, root = mainRoot first second ∨ root = otherRoot first second →
        isFlag root.dir = false ∧ PlainDir root.dir := by
      intro root hroot
      have hcase : root = rootOf first ∨ root = rootOf second := by
        rcases mainRoot_cases first second with ⟨hm, ho⟩ | ⟨hm, ho⟩ <;>
          rcases hroot with hroot | hroot <;> simp [hroot, hm, ho]
      rcases hcase with rfl | rfl
      · exact ⟨dirs.1, hchild.plain.1⟩
      · exact ⟨dirs.2, hchild.plain.2⟩
    obtain ⟨hflag, hostPort, haddress⟩ := address
    intro child hmem
    rw [hchild.children_eq] at hmem
    rcases List.mem_cons.mp hmem with rfl | hmem
    · obtain ⟨hdir, hplain⟩ := hroots (mainRoot first second) (Or.inl rfl)
      have hextra : ∀ a ∈ [localArg, masterArg], a.Stands jpgsyncOptions := by
        simpa using ⟨stands_localArg, stands_masterArg⟩
      have hside : OneSide [([], (mainRoot first second).dir)] [localArg, masterArg] := by
        refine OneSide.master ?_ rfl
        simp [usesIn, ofBlocks, localArg, masterArg, Arg.uses]
      refine follows_two hacc usesIn_two hperm same hchild.master hchild.slave hlocal
        (layout_twoRoots [localArg, masterArg] line kept_eq hdir ⟨hextra, rfl⟩) hplain
        (fun o ho hm hs => ?_) rfl hside ⟨by decide, by decide⟩
      simp [localArg, masterArg, Arg.uses, Ne.symm ho, Ne.symm hm]
    · obtain rfl := List.mem_singleton.mp hmem
      obtain ⟨hdir, hplain⟩ := hroots (otherRoot first second) (Or.inr rfl)
      have hextra : ∀ a ∈ [localArg, addressArg (slaveArg (mainRoot first second) masterPort)],
          a.Stands jpgsyncOptions := by
        simpa using ⟨stands_localArg, stands_addressArg hflag⟩
      have hside : OneSide [([], (otherRoot first second).dir)]
          [localArg, addressArg (slaveArg (mainRoot first second) masterPort)] :=
        OneSide.slave rfl _ hostPort rfl haddress
      refine follows_two hacc usesIn_two hperm same hchild.master hchild.slave hlocal
        (layout_twoRoots _ line kept_eq hdir ⟨hextra, rfl⟩) hplain (fun o ho hm hs => ?_) rfl
        hside ⟨Nat.zero_le 1, Nat.le_refl 1⟩
      simp [localArg, addressArg, Arg.uses, Ne.symm ho, Ne.symm hs]

/-- **What survives the exchanges is forwarded.** -/
theorem Forwardable.forwarded (hf : Forwardable masterPort ts)
    (h : JpgsyncOptions.parse (prog :: ts) = .ok po) (hhelp : po.help = false)
    (hlocal : po.count .asLocal = false) : Forwarded po masterPort := by
  cases hf with
  | oneRoot before after kept root line dir kept_eq same =>
      exact forwarded_oneRoot line dir kept_eq same h hhelp hlocal
  | twoRoots before between after kept first second line dirs kept_eq same address =>
      exact forwarded_twoRoots line dirs kept_eq same address h hhelp hlocal
  | oddRoot before after kept root line dir kept_eq same =>
      exact forwarded_oddRoot line dir kept_eq same h hhelp hlocal

end Jpgsync
