import Jpgsync.Launch
import Jpgsync.Lib.Shell

/-!
# Launch — Command

The command line an executor builds for `popen`, and what is left of it
behind the shell that splits it: for a remote root behind two of them, the
local one and the one that `ssh` starts. Arguments are appended as they
are. They come through when they mean nothing to a shell, and in no other
case.
-/

namespace Jpgsync

open ProgramOptions
open Shell (Environment Literal Bare kind read bare quote)

/-! ## The executors -/

/-- `Executor::SetArguments`. -/
def setArguments (cmd : Bytes) (args : List Bytes) : Bytes :=
  args.foldl (fun cmd arg => cmd ++ 32 :: arg) cmd

/-- `LocalExecutor`. -/
def localCommand (argv0 : Bytes) (args : List Bytes) : Bytes :=
  setArguments argv0 args

/-- `user@host`. -/
def target (root : Root) : Bytes :=
  (if root.user = [] then [] else root.user ++ ascii "@") ++ root.hostname

/-- `RemoteExecutor`, whose `SetArguments` closes the quote that the
constructor has opened. -/
def remoteCommand (root : Root) (args : List Bytes) : Bytes :=
  setArguments (ascii "ssh " ++ target root ++ ascii " '" ++ ascii "~/bin/jpgsync") args ++
    ascii "'"

theorem setArguments_eq (cmd : Bytes) (args : List Bytes) :
    setArguments cmd args = cmd ++ args.flatMap (32 :: ·) := by
  induction args generalizing cmd with
  | nil => simp [setArguments]
  | cons arg args ih =>
      rw [setArguments, List.foldl_cons, ← setArguments, ih, List.flatMap_cons]
      simp

/-- What `ssh` gets to run. -/
def remoteLine (args : List Bytes) : Bytes :=
  ascii "~/bin/jpgsync" ++ args.flatMap (32 :: ·)

theorem remoteCommand_eq (root : Root) (args : List Bytes) :
    remoteCommand root args =
      ascii "ssh" ++ 32 :: (target root ++ 32 :: 39 :: (remoteLine args ++ [39])) := by
  rw [remoteCommand, setArguments_eq, remoteLine,
    show ascii "ssh " = ascii "ssh" ++ [32] by decide, show ascii " '" = [32, 39] by decide,
    show ascii "'" = [39] by decide]
  simp

/-! ## Behind the shells -/

/-- The local shell runs the program with the arguments. -/
def CarriesLocally (environments : Set Environment) (argv0 : Bytes) (args : List Bytes) : Prop :=
  ∀ env ∈ environments, env.fields (localCommand argv0 args) = some (argv0 :: args)

/-- The local shell runs `ssh` with the target and one argument, in which
the remote shell finds the program, below its home, and the arguments. -/
def CarriesRemotely (environments : Set Environment) (root : Root) (args : List Bytes) : Prop :=
  ∀ env ∈ environments, ∃ line,
    env.fields (remoteCommand root args) = some [ascii "ssh", target root, line] ∧
      ∀ env' ∈ environments,
        env'.fields line = some ((env'.home ++ ascii "/bin/jpgsync") :: args)

section

variable {environments : Set Environment} {root : Root} {args : List Bytes} {home rest : Bytes}

theorem read_ssh :
    read home (.unquoted none) (ascii "ssh" ++ 32 :: rest) =
      (read home (.unquoted none) rest).map (bare (ascii "ssh") :: ·) := by
  rw [Shell.read_bare (by decide), Shell.read_blank]
  rfl

/-- The word of the program on the other side. -/
def programWord (home : Bytes) : Shell.Word := quote home ++ bare (ascii "/bin/jpgsync")

theorem text_programWord (home : Bytes) :
    (programWord home).text = home ++ ascii "/bin/jpgsync" := by
  simp [programWord]

theorem read_program :
    read home (.unquoted none) (ascii "~/bin/jpgsync" ++ rest) =
      read home (.unquoted (some (programWord home))) rest := by
  rw [show ascii "~/bin/jpgsync" ++ rest = 126 :: 47 :: (ascii "bin/jpgsync" ++ rest) from rfl,
    Shell.read_tilde, Shell.read_letters (List.all_eq_true.mp (by decide)), List.append_assoc]
  rfl

theorem expand_program {env : Environment} (home : Bytes) :
    env.expand (programWord home) = [home ++ ascii "/bin/jpgsync"] := by
  rw [Environment.expand_eq_text, text_programWord]
  intro l hl
  rcases List.mem_append.mp hl with hl | hl
  · obtain ⟨b, -, rfl⟩ := List.mem_map.mp hl
    exact .inl rfl
  · right
    have hall : ∀ l ∈ bare (ascii "/bin/jpgsync"), Shell.isPattern l.byte = false := by decide
    exact hall l hl

/-- The local shell, when the target stands for itself and no argument has
a quote. -/
theorem read_remoteCommand (htarget : Bare (target root)) (hquote : 39 ∉ remoteLine args) :
    read home (.unquoted none) (remoteCommand root args) =
      some [bare (ascii "ssh"), bare (target root), quote (remoteLine args)] := by
  rw [remoteCommand_eq, read_ssh, Shell.read_bare htarget, Shell.read_blank,
    Shell.read_open_quote, Option.getD_none, Shell.read_quoted hquote]
  rfl

/-- The remote shell, when the arguments stand for themselves. -/
theorem read_remoteLine (hargs : ∀ a ∈ args, Bare a) :
    read home (.unquoted none) (remoteLine args) = some (programWord home :: args.map bare) := by
  rw [remoteLine, read_program, Shell.read_joined hargs]

theorem not_mem_remoteLine (hargs : ∀ a ∈ args, Bare a) : 39 ∉ remoteLine args := by
  intro hmem
  rcases List.mem_append.mp hmem with hmem | hmem
  · revert hmem
    decide
  · obtain ⟨a, ha, hmem⟩ := List.mem_flatMap.mp hmem
    rcases List.mem_cons.mp hmem with hmem | hmem
    · cases hmem
    · exact absurd ((hargs a ha).2 39 hmem) (by decide)

/-- What two shells make of a target and arguments that stand for
themselves. -/
theorem fields_remoteCommand {env : Environment} (htarget : Bare (target root))
    (hquote : 39 ∉ remoteLine args) :
    env.fields (remoteCommand root args) =
      some (ascii "ssh" :: (env.expand (bare (target root)) ++ [remoteLine args])) := by
  have hssh : env.expand (bare (ascii "ssh")) = [ascii "ssh"] := by
    rw [Environment.expand_eq_text (by decide), Shell.text_bare]
  rw [Environment.fields, read_remoteCommand htarget hquote, Option.map_some]
  simp [hssh, Environment.expand_quote]

theorem fields_remoteLine {env : Environment} (hargs : ∀ a ∈ args, Bare a) :
    env.fields (remoteLine args) = some ((env.home ++ ascii "/bin/jpgsync") :: args) ↔
      ∀ a ∈ args, env.expand (bare a) = [a] := by
  have hexpand := env.flatMap_expand_eq_iff (args.map bare)
  simp only [List.map_map, Function.comp_def, Shell.text_bare, List.map_id', List.forall_mem_map]
    at hexpand
  rw [Environment.fields, read_remoteLine hargs, Option.map_some, Option.some_inj,
    List.flatMap_cons, expand_program, ← hexpand]
  exact List.cons_inj_right _

/-- **The quoted line comes through** only where the target and the
arguments stand for themselves. -/
theorem bare_of_carriesRemotely (hnone : Environment.noFiles (ascii "/") ∈ environments)
    (h : CarriesRemotely environments root args) :
    Bare (target root) ∧ ∀ a ∈ args, Bare a := by
  obtain ⟨line, hlocal, hremote⟩ := h _ hnone
  replace hremote := hremote _ hnone
  rw [Environment.fields_noFiles, Option.map_eq_some_iff] at hlocal hremote
  obtain ⟨ws, hlocal, hws⟩ := hlocal
  obtain ⟨vs, hremote, hvs⟩ := hremote
  rw [remoteCommand_eq, read_ssh, Option.map_eq_some_iff] at hlocal
  obtain ⟨later, hlocal, rfl⟩ := hlocal
  replace hws : later.map Shell.Word.text = [target root, line] := by simpa using hws
  have hvsize := Shell.size_eq vs
  have hlsize := Shell.size_eq later
  have hraw : (remoteLine args).length + 1 = Shell.size vs := by
    rw [hvsize, hvs, remoteLine, List.flatMap_cons, List.length_append, List.length_append,
      Nat.add_right_comm]
    rfl
  -- the remote shell cannot have found more than it was given
  have hshort := Shell.size_read_le (by decide) hremote
  have hlong : (target root).length + (remoteLine args).length + 2 ≤ Shell.size later := by
    rw [hlsize, hws]
    simp only [Shell.State.held, Option.getD_none, List.length_nil] at hshort
    simp only [List.flatMap_cons, List.flatMap_nil, List.length_append, List.length_cons,
      List.length_nil]
    omega
  obtain ⟨targets, rfl, hbare⟩ := Shell.read_last_quoted (by decide) (by simp [Shell.State.Clean])
    hlocal (by simpa [Shell.State.held] using hlong)
  have hwords : targets.map Shell.Word.text ++ [remoteLine args] = [target root] ++ [line] := by
    simpa using hws
  obtain ⟨htargets, hline⟩ := List.append_inj' hwords rfl
  obtain rfl := List.singleton_inj.mp hline
  have hall := Shell.bare_of_read (by decide) (by simp [Shell.State.Clean]) hremote
    (by simp [Shell.State.held, hraw])
  exact ⟨Shell.bare_texts htargets hbare _ (by simp),
    fun a ha => Shell.bare_texts hvs hall a (List.mem_cons_of_mem _ ha)⟩

/-- Literal words come through the local shell, -/
theorem carriesLocally_of_literal {argv0 : Bytes}
    (h : ∀ a ∈ argv0 :: args, Literal environments a) :
    CarriesLocally environments argv0 args := fun env henv => by
  rw [localCommand, setArguments_eq]
  exact (Shell.fields_command fun a ha => (h a ha).1).mpr fun a ha => (h a ha).2 env henv

/-- and through both. -/
theorem carriesRemotely_of_literal (h : ∀ a ∈ target root :: args, Literal environments a) :
    CarriesRemotely environments root args := by
  have hargs : ∀ a ∈ args, Bare a := fun a ha => (h a (List.mem_cons_of_mem _ ha)).1
  have htarget := h (target root) (by simp)
  refine fun env henv => ⟨remoteLine args, ?_, fun env' henv' =>
    (fields_remoteLine hargs).mpr fun a ha => (h a (List.mem_cons_of_mem _ ha)).2 env' henv'⟩
  rw [fields_remoteCommand htarget.1 (not_mem_remoteLine hargs), htarget.2 env henv]
  rfl

/-- **Through one shell or two**, arguments come as they are if and only if
they are literal. -/
theorem carries_iff (hnone : Environment.noFiles (ascii "/") ∈ environments) :
    (∀ (argv0 : Bytes) (args : List Bytes), CarriesLocally environments argv0 args ↔
        ∀ a ∈ argv0 :: args, Literal environments a) ∧
      ∀ (root : Root) (args : List Bytes), CarriesRemotely environments root args ↔
        ∀ a ∈ target root :: args, Literal environments a := by
  refine ⟨fun argv0 args => ?_, fun root args => ⟨fun h => ?_, carriesRemotely_of_literal⟩⟩
  · simp only [CarriesLocally, localCommand, setArguments_eq]
    exact Shell.fields_joined_iff (by decide) hnone
  · obtain ⟨htarget, hargs⟩ := bare_of_carriesRemotely hnone h
    have hboth : ∀ env ∈ environments, env.expand (bare (target root)) = [target root] ∧
        ∀ a ∈ args, ∀ env' ∈ environments, env'.expand (bare a) = [a] := by
      intro env henv
      obtain ⟨line, hlocal, hremote⟩ := h env henv
      rw [fields_remoteCommand htarget (not_mem_remoteLine hargs), Option.some_inj] at hlocal
      have hwords : env.expand (bare (target root)) ++ [remoteLine args] =
          [target root] ++ [line] := (List.cons.inj hlocal).2
      obtain ⟨hfirst, hline⟩ := List.append_inj' hwords rfl
      obtain rfl := List.singleton_inj.mp hline
      exact ⟨hfirst, fun a ha env' henv' => (fields_remoteLine hargs).mp (hremote env' henv') a ha⟩
    intro a ha
    rcases List.mem_cons.mp ha with rfl | ha
    · exact ⟨htarget, fun env henv => (hboth env henv).1⟩
    · exact ⟨hargs a ha, fun env henv => (hboth env henv).2 a ha env henv⟩

/-- Without a file that matches anything, for a user and a directory. -/
theorem carries_iff_plainDir :
    CarriesLocally (Set.range Environment.noFiles) (ascii "./jpgsync")
        [ascii "/srv/pictures", ascii "--local"] ∧
      CarriesRemotely (Set.range Environment.noFiles) ⟨ascii "pictures", ascii "host", ascii "user"⟩
        [ascii "pictures", ascii "--local", ascii "-m"] := by
  have hall := carries_iff (Set.mem_range_self (f := Environment.noFiles) (ascii "/"))
  refine ⟨(hall.1 _ _).mpr fun a ha => Shell.literal_noFiles ?_,
    (hall.2 _ _).mpr fun a ha => Shell.literal_noFiles ?_⟩
  · revert a
    decide
  · revert a
    decide

/-- A blank in the name of a directory divides the argument, and an
apostrophe leaves the quote of the remote command open. -/
theorem not_always_carries :
    ¬ (∀ (environments : Set Environment) (argv0 : Bytes) (args : List Bytes),
        (∀ a ∈ argv0 :: args, a ≠ [] ∧ 0 ∉ a) → CarriesLocally environments argv0 args) ∧
      ¬ (∀ (environments : Set Environment) (root : Root) (args : List Bytes),
        root.hostname ≠ [] → (∀ a ∈ args, a ≠ [] ∧ 0 ∉ a) →
          CarriesRemotely environments root args) := by
  constructor
  · intro h
    have hfields := h {Environment.noFiles (ascii "/")} (ascii "jpgsync")
      [ascii "my pictures", ascii "--local"] (by decide) _ rfl
    revert hfields
    decide
  · intro h
    obtain ⟨line, hfields, -⟩ := h {Environment.noFiles (ascii "/")}
      ⟨ascii "it's", ascii "host", []⟩ [ascii "it's", ascii "--local"] (by decide) (by decide) _ rfl
    rw [show (Environment.noFiles (ascii "/")).fields
      (remoteCommand ⟨ascii "it's", ascii "host", []⟩ [ascii "it's", ascii "--local"]) = none by
        decide] at hfields
    cases hfields

end

end Jpgsync
