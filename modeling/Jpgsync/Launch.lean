import Jpgsync.JpgsyncOptions

/-!
# Launch — the processes main starts

Without `--local`, `main` of `jpgsync.cpp` starts one process for each
root and passes its own arguments on: the vector `args`, from which the
calls of `Execute` take everything behind the roots. The processes are
listed with the program `Executor::Create` chooses; how the command line
is quoted is not part of the list.
-/

namespace Jpgsync

open ProgramOptions

/-- A process to start: the root it is for and the arguments of `Execute`. -/
structure Child where
  root : Root
  program : Bytes
  args : List Bytes
deriving DecidableEq

/-- What `Executor::Create` runs: a `LocalExecutor` runs `argv[0]`. -/
def programFor (root : Root) (argv0 : Bytes) : Bytes :=
  if root.hostname = [] then argv0 else ascii "~/bin/jpgsync"

/-- `slave_arg`: where the slave finds the master. -/
def slaveArg (masterRoot : Root) (masterPort : Bytes) : Bytes :=
  (if masterRoot.hostname = [] then ascii "localhost" else masterRoot.hostname) ++ ascii ":" ++
    masterPort

/-- The children of `main`, when the word read from the output of the
master is `masterPort`: with `--help` and with `--local` there are none. -/
def children (po : JpgsyncOptions) (masterPort : Bytes) : List Child :=
  let child (root : Root) (args : List Bytes) : Child :=
    ⟨root, programFor root (po.argv.getD 0 []), args⟩
  let args := po.argv ++ [ascii "--local"]
  if po.help || po.count .asLocal then []
  else if !po.count .slave && !po.count .master then
    let masterArgs := (Gather.swapAt args 1 2 ++ [ascii "-m"]).set 2 po.masterRoot.dir
    let restored := Gather.swapAt masterArgs.dropLast 1 2
    let slaveArgs := (restored ++ [ascii "-s"] ++ [slaveArg po.masterRoot masterPort]).set 2
      po.slaveRoot.dir
    [child po.masterRoot (masterArgs.drop 2), child po.slaveRoot (slaveArgs.drop 2)]
  else if po.count .slave then
    [child po.slaveRoot ((args.set 1 po.slaveRoot.dir).drop 1)]
  else
    [child po.masterRoot ((args.set 1 po.masterRoot.dir).drop 1)]

/-! ## The arguments, when the roots come first -/

section

variable {po : JpgsyncOptions} {masterPort prog : Bytes} {rest : List Bytes}

theorem children_slave {text : Bytes} (hhelp : po.help = false)
    (hlocal : po.count .asLocal = false) (hslave : po.count .slave = true)
    (hargv : po.argv = prog :: text :: rest) :
    children po masterPort = [⟨po.slaveRoot, programFor po.slaveRoot prog,
      po.slaveRoot.dir :: (rest ++ [ascii "--local"])⟩] := by
  simp [children, hhelp, hlocal, hslave, hargv]

theorem children_master {text : Bytes} (hhelp : po.help = false)
    (hlocal : po.count .asLocal = false) (hslave : po.count .slave = false)
    (hmaster : po.count .master = true) (hargv : po.argv = prog :: text :: rest) :
    children po masterPort = [⟨po.masterRoot, programFor po.masterRoot prog,
      po.masterRoot.dir :: (rest ++ [ascii "--local"])⟩] := by
  simp [children, hhelp, hlocal, hslave, hmaster, hargv]

theorem children_both {first second : Bytes} (hhelp : po.help = false)
    (hlocal : po.count .asLocal = false) (hslave : po.count .slave = false)
    (hmaster : po.count .master = false) (hargv : po.argv = prog :: first :: second :: rest) :
    children po masterPort =
      [⟨po.masterRoot, programFor po.masterRoot prog,
          po.masterRoot.dir :: (rest ++ [ascii "--local", ascii "-m"])⟩,
        ⟨po.slaveRoot, programFor po.slaveRoot prog,
          po.slaveRoot.dir ::
            (rest ++ [ascii "--local", ascii "-s", slaveArg po.masterRoot masterPort])⟩] := by
  -- after `pop_back` the vector ends with `--local` again
  have hpop : (prog :: second :: po.masterRoot.dir ::
      (rest ++ ascii "--local" :: ([] ++ [ascii "-m"]))).dropLast =
        prog :: second :: po.masterRoot.dir :: (rest ++ [ascii "--local"]) := by
    rw [show prog :: second :: po.masterRoot.dir ::
        (rest ++ ascii "--local" :: ([] ++ [ascii "-m"])) =
          (prog :: second :: po.masterRoot.dir :: (rest ++ [ascii "--local"])) ++ [ascii "-m"] by
      simp]
    exact List.dropLast_concat
  simp only [children, hhelp, hlocal, hslave, hmaster, hargv, Bool.or_self, Bool.not_false,
    Bool.and_self, Bool.false_eq_true, if_false, if_true, Gather.swapAt, List.cons_append,
    List.getElem?_cons_succ, List.getElem?_cons_zero, List.set_cons_succ, List.set_cons_zero,
    List.drop_succ_cons, List.drop_zero, List.getD_cons_zero, List.append_assoc, hpop]
  simp

end

end Jpgsync
