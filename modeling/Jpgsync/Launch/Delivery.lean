import Jpgsync.Launch.Command

/-!
# Launch — Delivery

The arguments a child is run with. The executor joins them to one line, and
the shell that `popen` starts takes it apart again; for a remote root it
runs `ssh`, and the shell on the other side does. A child whose words are
literal gets its arguments as they are (`delivered_eq`).
-/

namespace Jpgsync

open Shell (Environment)

namespace Child

variable {environments : Set Environment} {env env' : Environment} {child : Child}

/-- The program that is run: `~` is the home directory on the other side. -/
def path (env' : Environment) (child : Child) : Bytes :=
  if child.root.hostname = [] then child.program else env'.home ++ ascii "/bin/jpgsync"

/-- The words of the line that reaches the program, where `env` is the shell
`popen` starts and `env'` the one on the other side; none where the first
one does not run `ssh` for this host, with one line. A host that begins
with `-` is an option of `ssh`. -/
def fields (env env' : Environment) (child : Child) : Option (List Bytes) :=
  if child.root.hostname = [] then env.fields (localCommand child.program child.args)
  else
    match env.fields (remoteCommand child.root child.args) with
    | some [ssh, host, line] =>
        if ssh = ascii "ssh" ∧ host = target child.root ∧ isFlag host = false then
          env'.fields line
        else none
    | _ => none

/-- The `argv` of a child; none where it is not run, or something else is. -/
def delivered (env env' : Environment) (child : Child) : Option (List Bytes) :=
  (child.fields env env').filter fun argv => argv.head? = some (child.path env')

/-- `argv` arrives, through some of the shells in `environments`. -/
def Arrives (environments : Set Environment) (child : Child) (argv : List Bytes) : Prop :=
  ∃ env ∈ environments, ∃ env' ∈ environments, child.delivered env env' = some argv

/-- **The words of the command mean nothing to a shell**, and its host nothing
else to `ssh`, so that they come as they are. -/
structure Literal (environments : Set Environment) (child : Child) : Prop where
  words : ∀ word ∈
    (if child.root.hostname = [] then child.program else target child.root) :: child.args,
      Shell.Literal environments word
  host : child.root.hostname ≠ [] → isFlag (target child.root) = false

/-- Where there are no files, no word is a pattern. -/
theorem Literal.of_bare
    (hwords : ∀ word ∈
      (if child.root.hostname = [] then child.program else target child.root) :: child.args,
        Shell.Bare word)
    (hhost : child.root.hostname ≠ [] → isFlag (target child.root) = false) :
    child.Literal (Set.range Environment.noFiles) :=
  ⟨fun word hword => Shell.literal_noFiles (hwords word hword), hhost⟩

/-- **A child gets its arguments**, where they are literal. -/
theorem delivered_eq (h : child.Literal environments) (henv : env ∈ environments)
    (henv' : env' ∈ environments) :
    child.delivered env env' = some (child.path env' :: child.args) := by
  have hfields : child.fields env env' = some (child.path env' :: child.args) := by
    obtain ⟨hwords, hhost⟩ := h
    unfold fields path
    split at hwords
    next hlocal =>
      rw [if_pos hlocal, if_pos hlocal]
      exact carriesLocally_of_literal hwords env henv
    next hremote =>
      obtain ⟨line, hline, hargs⟩ := carriesRemotely_of_literal hwords env henv
      rw [if_neg hremote, if_neg hremote, hline]
      simpa [hhost hremote] using hargs env' henv'
  rw [delivered, hfields]
  simp

theorem exists_arrives (h : child.Literal environments) (hne : environments.Nonempty) :
    ∃ name, child.Arrives environments (name :: child.args) := by
  obtain ⟨env, henv⟩ := hne
  exact ⟨_, env, henv, env, henv, delivered_eq h henv henv⟩

end Child

end Jpgsync
