import Jpgsync.Launch
import Jpgsync.JpgsyncOptions.CommandLine

/-!
# Launch — Forwarding

What a child should make of the arguments it is passed, and which command
lines make sure of it. The exchanges that bring the roots to the front move
single tokens: an option stays with its value only when it is not one of
those that are moved, or moves with nothing in between. `Kept₁` and `Kept₂`
say which options are left behind whole, and in which order.
-/

namespace Jpgsync

open ProgramOptions JpgsyncOptions
open Gather (leftBehind)

/-! ## Meaning the same -/

/-- `q`, which the child parses, means what the parent's `po` means. -/
structure Follows (po q : JpgsyncOptions) (child : Child) : Prop where
  verbosity : q.val .verbosity = po.val .verbosity
  distribute : q.val .distribute = po.val .distribute
  ncTest : q.val .ncTest = po.val .ncTest
  /-- With one root the child is on the side its parent is on. -/
  side : po.count .master = true ∨ po.count .slave = true →
    q.val .master = po.val .master ∧ q.val .slave = po.val .slave
  asLocal : q.count .asLocal = true
  positionals : q.positionals = [child.root.dir]

theorem Follows.count_ncTest {po q : JpgsyncOptions} {child : Child} (h : Follows po q child) :
    q.count .ncTest = po.count .ncTest := by
  rw [JpgsyncOptions.count, JpgsyncOptions.count, h.ncTest]

/-- **Every child accepts its arguments, and means the same.** -/
def Forwarded (po : JpgsyncOptions) (masterPort : Bytes) : Prop :=
  ∀ child ∈ children po masterPort,
    ∃ q, JpgsyncOptions.parse (child.program :: child.args) = .ok q ∧ Follows po q child

/-- A child that is called by another name means the same. -/
theorem Forwarded.parse {po : JpgsyncOptions} {masterPort : Bytes} {child : Child}
    (h : Forwarded po masterPort) (hmem : child ∈ children po masterPort) (prog : Bytes) :
    ∃ q, JpgsyncOptions.parse (prog :: child.args) = .ok q ∧ Follows po q child := by
  obtain ⟨q, hq, hf⟩ := h child hmem
  exact ⟨_, parse_withProgram hq, hf.verbosity, hf.distribute, hf.ncTest, hf.side, hf.asLocal,
    (positionals_withProgram prog q).trans hf.positionals⟩

/-! ## Command lines that survive the exchanges -/

/-- `Root::Init` of a root in the command line. -/
def rootOf (text : Bytes) : Root :=
  match Root.new.init text with
  | .ok (root, _) => root
  | .error _ => Root.new

/-- The root the master runs on: of two, the remote one comes first. -/
def mainRoot (first second : Bytes) : Root :=
  if (rootOf first).hostname = [] ∧ (rootOf second).hostname ≠ [] then rootOf second
  else rootOf first

/-- The first of some options has no value. -/
def Bare (options : List Argument) : Prop := ∀ a ∈ options.head?, a.tokens.length = 1

/-- One root, with the options before and after it: the first one before it
is moved. -/
def Kept₁ (before after kept : List Argument) : Prop :=
  Bare before ∧ kept = leftBehind before ++ after

/-- Two roots: the first two options in front of them are moved, or one
option that begins the line, with its value. -/
def Kept₂ (before between after kept : List Argument) : Prop :=
  (Bare before ∧ Bare (leftBehind before ++ between) ∧
      kept = leftBehind (leftBehind before ++ between) ++ after) ∨
    (¬ Bare before ∧ between = [] ∧ kept = leftBehind before ++ after)

/-- The level of verbosity some arguments ask for. -/
def level (as : List Argument) : UInt32 := levelAfter 0 (uses .verbosity as)

/-- The slave can take this for the address of its master. -/
def IsAddress (address : Bytes) : Prop :=
  isFlag address = false ∧ ∃ hostPort, masterAddress (firstWord address) = some hostPort

/-- **The command lines that mean the same to every child.** -/
inductive Forwardable (masterPort : Bytes) (ts : List Bytes) : Prop where
  | oneRoot (before after kept : List Argument) (root : Bytes)
      (line : IsLayout jpgsyncOptions ts [(before, root)] after none)
      (dir : isFlag (rootOf root).dir = false)
      (kept_eq : Kept₁ before after kept)
      (same : level kept = level (before ++ after))
  | twoRoots (before between after kept : List Argument) (first second : Bytes)
      (line : IsLayout jpgsyncOptions ts [(before, first), (between, second)] after none)
      (dirs : isFlag (rootOf first).dir = false ∧ isFlag (rootOf second).dir = false)
      (kept_eq : Kept₂ before between after kept)
      (same : level kept = level (before ++ between ++ after))
      (address : IsAddress (slaveArg (mainRoot first second) masterPort))
  -- `HOST:--local` behind which the line ends with `--`: the argument in
  -- place of the root is read as the option, the option as the directory
  | oddRoot (before after kept : List Argument) (root : Bytes)
      (line : IsLayout jpgsyncOptions ts [(before, root)] after (some []))
      (dir : (rootOf root).dir = ascii "--local")
      (kept_eq : Kept₁ before after kept)
      (same : level kept = level (before ++ after))

/-! ## Options that are moved -/

section

variable {before between after kept as : List Argument}

theorem tokens_leftBehind (h : Bare as) : leftBehind (tokens as) = tokens (leftBehind as) := by
  cases as with
  | nil => rfl
  | cons a as =>
      obtain ⟨t, ht⟩ := List.length_eq_one_iff.mp (h a rfl)
      simp [ht, leftBehind]

theorem tokens_kept₁ (h : Kept₁ before after kept) :
    leftBehind (tokens before) ++ tokens after = tokens kept := by
  obtain ⟨hbare, rfl⟩ := h
  rw [tokens_leftBehind hbare, tokens_append]

theorem perm_kept₁ (h : Kept₁ before after kept) : kept.Perm (before ++ after) := by
  obtain ⟨-, rfl⟩ := h
  exact (Gather.perm_leftBehind before).append_right after

/-- An option that begins a list and is not bare has a value. -/
theorem valued_of_not_bare (h : ¬ Bare as) (hoptions : texts as = []) :
    ∃ o flag value tail, as = .option o flag (some value) :: tail := by
  cases as with
  | nil => exact absurd (by simp [Bare]) h
  | cons a as =>
      cases a with
      | positional text => simp [Arg.texts] at hoptions
      | option o flag value =>
          cases value with
          | none => exact absurd (by simp [Bare, Arg.tokens]) h
          | some value => exact ⟨o, flag, value, as, rfl⟩

theorem tokens_kept₂ (h : Kept₂ before between after kept) (hoptions : texts before = []) :
    leftBehind (leftBehind (tokens before) ++ tokens between) ++ tokens after = tokens kept := by
  rcases h with ⟨hbare, hbare', rfl⟩ | ⟨hnot, rfl, rfl⟩
  · rw [tokens_leftBehind hbare, ← tokens_append, tokens_leftBehind hbare', tokens_append]
  · obtain ⟨o, flag, value, tail, rfl⟩ := valued_of_not_bare hnot hoptions
    simp [Arg.tokens, leftBehind]

theorem perm_kept₂ (h : Kept₂ before between after kept) :
    kept.Perm (before ++ between ++ after) := by
  rcases h with ⟨-, -, rfl⟩ | ⟨-, rfl, rfl⟩
  · have hbetween := (Gather.perm_leftBehind before).append_right between
    exact ((Gather.perm_leftBehind _).trans hbetween).append_right after
  · rw [List.append_nil]
    exact (Gather.perm_leftBehind before).append_right after

end

end Jpgsync
