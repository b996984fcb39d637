import Jpgsync.Launch.Capture
import Jpgsync.Launch.Generations

/-!
# Launch — Status

How a run of the program ends. It is rejected, prints its usage, runs one
peer, or waits for its children, first for the slave, and returns the first
exit status that is not zero. The processes below it come to an end when
the peers do (`processes_end`), and what it reports is what one of those at
the bottom reports: it says that it succeeded where all of them do, or the
shell and `ssh` hide from it that one was killed (`reports_bottom`). The
`rsync` of `-d` is not among them: that it fails is only printed.
-/

namespace Jpgsync

open ProgramOptions JpgsyncOptions
open Shell (Environment Inert)

/-! ## Waiting -/

/-- How a process ends. -/
inductive Ending where
  | exited (status : UInt8)
  | killed (signal : UInt8)
deriving DecidableEq

/-- `SIGABRT`: what `std::terminate` raises. -/
def sigabrt : UInt8 := 6

/-- What `pclose` returns of it. -/
def Ending.waitStatus : Ending → Nat
  | .exited status => status.toNat * 256
  | .killed signal => signal.toNat

/-- `WEXITSTATUS`. -/
def wexitstatus (es : Nat) : UInt8 := UInt8.ofNat (es / 256)

/-- `exit_status` of `main` and what it writes to `cerr` at any verbosity. -/
structure Verdict where
  exitStatus : UInt8
  cerr : List Bytes
deriving DecidableEq

/-- What `Wait` says of a child that has failed. -/
def terminated (es : UInt8) : Bytes :=
  ascii "jpgsync: terminated with exit status " ++ printNumber es.toNat

/-- `Wait`: the first status that is not zero stays. -/
def Verdict.wait (v : Verdict) (e : Ending) : Verdict :=
  let es := wexitstatus e.waitStatus
  if es = 0 then v
  else ⟨if v.exitStatus = 0 then es else v.exitStatus, v.cerr ++ [terminated es]⟩

/-- What `main` says in the end. -/
def Verdict.finish (v : Verdict) : Verdict :=
  if v.exitStatus = 0 then v else { v with cerr := v.cerr ++ [ascii "jpgsync: sync failed"] }

/-- `main` behind the calls of `Execute`, as it waits for its children. -/
def verdict (waited : List Ending) : Verdict := (waited.foldl Verdict.wait ⟨0, []⟩).finish

/-- The exit status `Wait` sees of a process. -/
def Ending.code (e : Ending) : UInt8 := wexitstatus e.waitStatus

@[simp] theorem code_exited (status : UInt8) : (Ending.exited status).code = status := by
  simp [Ending.code, Ending.waitStatus, wexitstatus]

/-- A process that is killed is not told from one that succeeds. -/
@[simp] theorem code_killed (signal : UInt8) : (Ending.killed signal).code = 0 := by
  have hlt := signal.toNat_lt
  rw [Ending.code, Ending.waitStatus, wexitstatus, Nat.div_eq_of_lt hlt]
  rfl

theorem exitStatus_wait (v : Verdict) (e : Ending) :
    (v.wait e).exitStatus = if v.exitStatus = 0 then e.code else v.exitStatus := by
  unfold Verdict.wait
  by_cases hcode : wexitstatus e.waitStatus = 0
  · simp only [hcode, if_true, Ending.code]
    split
    · assumption
    · rfl
  · simp only [hcode, if_false, Ending.code]

theorem cerr_wait (v : Verdict) (e : Ending) :
    (v.wait e).cerr = v.cerr ++ if e.code = 0 then [] else [terminated e.code] := by
  unfold Verdict.wait
  by_cases hcode : wexitstatus e.waitStatus = 0 <;> simp [hcode, Ending.code]

/-- **What `main` returns**: the first status that is not zero. -/
theorem exitStatus_verdict (waited : List Ending) :
    (verdict waited).exitStatus = ((waited.map Ending.code).find? (· ≠ 0)).getD 0 := by
  have hfold : ∀ v : Verdict, (waited.foldl Verdict.wait v).exitStatus =
      if v.exitStatus = 0 then ((waited.map Ending.code).find? (· ≠ 0)).getD 0
      else v.exitStatus := by
    induction waited with
    | nil =>
        intro v
        by_cases hv : v.exitStatus = 0 <;> simp [hv]
    | cons e waited ih =>
        intro v
        rw [List.foldl_cons, ih, exitStatus_wait]
        by_cases hv : v.exitStatus = 0 <;> by_cases hcode : e.code = 0 <;> simp [hv, hcode]
  have h := hfold ⟨0, []⟩
  rw [if_pos rfl] at h
  rw [← h, verdict, Verdict.finish]
  split <;> rfl

/-- **What `main` says**: each child that has failed, in the order it waits
for them, and then that the synchronisation failed. -/
theorem cerr_verdict (waited : List Ending) :
    (verdict waited).cerr =
      ((waited.map Ending.code).filter (· ≠ 0)).map terminated ++
        if (verdict waited).exitStatus = 0 then [] else [ascii "jpgsync: sync failed"] := by
  have hfold : ∀ v : Verdict, (waited.foldl Verdict.wait v).cerr =
      v.cerr ++ ((waited.map Ending.code).filter (· ≠ 0)).map terminated := by
    induction waited with
    | nil => simp
    | cons e waited ih =>
        intro v
        rw [List.foldl_cons, ih, cerr_wait]
        by_cases hcode : e.code = 0 <;> simp [hcode]
  have h := hfold ⟨0, []⟩
  rw [List.nil_append] at h
  unfold verdict Verdict.finish
  split <;> simp [h]

theorem exitStatus_one (e : Ending) : (verdict [e]).exitStatus = e.code := by
  rw [exitStatus_verdict]
  by_cases hcode : e.code = 0 <;> simp [hcode]

theorem exitStatus_two (e e' : Ending) :
    (verdict [e, e']).exitStatus = if e.code = 0 then e'.code else e.code := by
  rw [exitStatus_verdict]
  by_cases hcode : e.code = 0 <;> by_cases hcode' : e'.code = 0 <;> simp [hcode, hcode']

/-! ## Processes -/

/-- What is around the program. -/
structure World where
  arrives : Child → List Bytes → Prop    -- the arguments the program of a child is run with
  lost : Child → UInt8 → Prop            -- the shell or `ssh` ends without running it
  via : Ending → Ending                  -- what `pclose` returns of it, behind them
  output : Child → Bytes                 -- what can be read from the pipe of a child
  breaks : List Bytes → Prop             -- a call of this launcher fails, of `popen` or another
  peer : JpgsyncOptions → Ending → Prop  -- how a run with `--local` ends

/-- What is waited for: a run of the program, or the command of a child. -/
inductive Job where
  | run (argv : List Bytes)
  | command (child : Child)

/-- **How a run of the program ends**, and with it those of the processes
below it that wait for no others. -/
inductive Finishes (w : World) : Job → List Ending → Ending → Prop where
  | rejected (argv : List Bytes) (e : Exception) (hparse : JpgsyncOptions.parse argv = .error e) :
      Finishes w (.run argv) [.exited 1] (.exited 1)
  | help (argv : List Bytes) (po : JpgsyncOptions) (hparse : JpgsyncOptions.parse argv = .ok po)
      (hhelp : po.help = true) : Finishes w (.run argv) [.exited 0] (.exited 0)
  | peer (argv : List Bytes) (po : JpgsyncOptions) (e : Ending)
      (hparse : JpgsyncOptions.parse argv = .ok po) (hhelp : po.help = false)
      (hlocal : po.count .asLocal = true) (hpeer : w.peer po e) : Finishes w (.run argv) [e] e
  | oneRoot (argv : List Bytes) (po : JpgsyncOptions) (child : Child) (es : List Ending)
      (e : Ending) (hparse : JpgsyncOptions.parse argv = .ok po) (hworks : ¬ w.breaks argv)
      (hchildren : children po [] = [child]) (hchild : Finishes w (.command child) es e) :
      Finishes w (.run argv) es (.exited (verdict [w.via e]).exitStatus)
  | twoRoots (argv : List Bytes) (po : JpgsyncOptions) (masterPort : Bytes) (master slave : Child)
      (es es' : List Ending) (e e' : Ending) (hparse : JpgsyncOptions.parse argv = .ok po)
      (hworks : ¬ w.breaks argv) (hchildren : children po masterPort = [master, slave])
      (hcapture : capture (w.output master) = some masterPort)
      (hmaster : Finishes w (.command master) es e)
      (hslave : Finishes w (.command slave) es' e') :
      -- the slave is waited for first
      Finishes w (.run argv) (es ++ es') (.exited (verdict [w.via e', w.via e]).exitStatus)
  | unread (argv : List Bytes) (po : JpgsyncOptions) (master slave : Child)
      (hparse : JpgsyncOptions.parse argv = .ok po) (hchildren : children po [] = [master, slave])
      (hcapture : capture (w.output master) = none) :
      -- nobody catches the exception of `fgets`,
      Finishes w (.run argv) [.killed sigabrt] (.killed sigabrt)
  | broken (argv : List Bytes) (po : JpgsyncOptions)
      (hparse : JpgsyncOptions.parse argv = .ok po) (hhelp : po.help = false)
      (hlocal : po.count .asLocal = false) (hbreaks : w.breaks argv) :
      -- nor that of any other call
      Finishes w (.run argv) [.killed sigabrt] (.killed sigabrt)
  | carried (child : Child) (argv : List Bytes) (es : List Ending) (e : Ending)
      (harrives : w.arrives child argv) (hrun : Finishes w (.run argv) es e) :
      Finishes w (.command child) es e
  | lost (child : Child) (status : UInt8) (hlost : w.lost child status) :
      Finishes w (.command child) [.exited status] (.exited status)

variable {w : World} {environments : Set Environment}

/-- A launcher has one child or two; what it captures goes to the slave. -/
theorem children_shape {po : JpgsyncOptions} (hhelp : po.help = false)
    (hlocal : po.count .asLocal = false) :
    (∃ child, children po [] = [child]) ∨
      ∃ master, ∀ masterPort, ∃ slave, children po masterPort = [master, slave] := by
  unfold children
  simp only [hhelp, hlocal, Bool.or_self, Bool.false_eq_true, if_false]
  split
  · exact Or.inr ⟨_, fun masterPort => ⟨_, rfl⟩⟩
  · left
    split <;> exact ⟨_, rfl⟩

/-- **How a run ends** whose line is accepted, and none of whose calls
fails. -/
theorem finishes_cases {argv : List Bytes} {po : JpgsyncOptions} {es : List Ending} {e : Ending}
    (h : JpgsyncOptions.parse argv = .ok po) (hhelp : po.help = false)
    (hworks : ¬ w.breaks argv) (hfin : Finishes w (.run argv) es e) :
    (po.count .asLocal = true ∧ w.peer po e ∧ es = [e]) ∨
      (∃ child, children po [] = [child]) ∨
      (∃ m s, children po [] = [m, s] ∧ capture (w.output m) = none) ∨
      ∃ word m s es₁ es₂ e₁ e₂, children po word = [m, s] ∧ capture (w.output m) = some word ∧
        Finishes w (.command m) es₁ e₁ ∧ Finishes w (.command s) es₂ e₂ ∧
        es = es₁ ++ es₂ ∧ e = .exited (verdict [w.via e₂, w.via e₁]).exitStatus := by
  have same : ∀ {q}, JpgsyncOptions.parse argv = .ok q → q = po := fun hq => by simpa [hq] using h
  cases hfin with
  | rejected _ _ hq =>
      rw [hq] at h
      cases h
  | help _ q hq hh =>
      rw [same hq, hhelp] at hh
      cases hh
  | peer _ q _ hq _ hlocal hpeer => exact Or.inl (same hq ▸ ⟨hlocal, hpeer, rfl⟩)
  | oneRoot _ q child _ _ hq _ hone => exact Or.inr (Or.inl (same hq ▸ ⟨child, hone⟩))
  | unread _ q m s hq htwo hcapture =>
      exact Or.inr (Or.inr (Or.inl (same hq ▸ ⟨m, s, htwo, hcapture⟩)))
  | twoRoots _ q word m s es₁ es₂ e₁ e₂ hq _ htwo hcapture hm hs =>
      exact Or.inr (Or.inr (Or.inr
        (same hq ▸ ⟨word, m, s, es₁, es₂, e₁, e₂, htwo, hcapture, hm, hs, rfl, rfl⟩)))
  | broken _ _ _ _ _ hbreaks => exact (hworks hbreaks).elim

/-- What is launched below a line whose words mean nothing to a shell comes
to an end. -/
theorem Whole.acc {a : List Bytes} (ha : Whole environments a) :
    Acc (fun argv' argv => Starts environments argv argv') a := by
  refine Acc.intro a fun b hab => Acc.intro b fun c hbc => Acc.intro c fun d hcd => ?_
  obtain ⟨child, hchild, -⟩ := hcd
  exact (ha.starts_nothing hab hbc hchild).elim

/-- **Every command line comes to an end**, where the peers do, and its words
mean nothing to a shell: the runs that are launched one by another are
finitely many, and there is a way for the first one to end. -/
theorem processes_end (hne : environments.Nonempty)
    (harrives : ∀ child argv, child.Arrives environments argv → w.arrives child argv)
    (hports : ∀ child word, capture (w.output child) = some word →
      (extractPort 0 word).isSome = true)
    (hpeer : ∀ po, po.count .asLocal = true → ∃ e, w.peer po e) {argv : List Bytes}
    (ha : Whole environments argv) :
    Acc (fun argv' argv => Starts environments argv argv') argv ∧
      ∃ es e, Finishes w (.run argv) es e := by
  refine ⟨ha.acc, ?_⟩
  induction ha.acc with
  | intro argv hacc ih =>
      cases hparse : JpgsyncOptions.parse argv with
      | error e => exact ⟨_, _, .rejected argv e hparse⟩
      | ok po =>
          cases hhelp : po.help with
          | true => exact ⟨_, _, .help argv po hparse hhelp⟩
          | false =>
              cases hlocal : po.count .asLocal with
              | true =>
                  obtain ⟨e, he⟩ := hpeer po hlocal
                  exact ⟨_, _, .peer argv po e hparse hhelp hlocal he⟩
              | false =>
                  by_cases hbreaks : w.breaks argv
                  · exact ⟨_, _, .broken argv po hparse hhelp hlocal hbreaks⟩
                  have ends : ∀ masterPort, (extractPort 0 masterPort).isSome = true →
                      ∀ child ∈ children po masterPort,
                        ∃ es e, Finishes w (.command child) es e := by
                    intro masterPort hport child hchild
                    have hlaunch : Launches argv child := ⟨po, masterPort, hparse, hport, hchild⟩
                    obtain ⟨name, hname⟩ := Child.exists_arrives (ha.child child hlaunch) hne
                    have hstarts : Starts environments argv (name :: child.args) :=
                      ⟨child, hlaunch, hname⟩
                    obtain ⟨es, e, he⟩ := ih _ hstarts (ha.of_starts hstarts)
                    exact ⟨es, e, .carried child _ es e (harrives child _ hname) he⟩
                  rcases children_shape hhelp hlocal with ⟨child, hone⟩ | ⟨m, htwo⟩
                  · obtain ⟨es, e, he⟩ := ends [] rfl child (by simp [hone])
                    exact ⟨_, _, .oneRoot argv po child es e hparse hbreaks hone he⟩
                  · cases hcapture : capture (w.output m) with
                    | none =>
                        obtain ⟨s, hs⟩ := htwo []
                        exact ⟨_, _, .unread argv po m s hparse hs hcapture⟩
                    | some masterPort =>
                        obtain ⟨s, hs⟩ := htwo masterPort
                        have hport := hports m masterPort hcapture
                        obtain ⟨es, e, he⟩ := ends masterPort hport m (by simp [hs])
                        obtain ⟨es', e', he'⟩ := ends masterPort hport s (by simp [hs])
                        exact ⟨_, _, .twoRoots argv po masterPort m s es es' e e' hparse hbreaks
                          hs hcapture he he'⟩

/-- **What is reported is what happened at the bottom**, whatever words the
children are run with, or fail to be: where the shell and `ssh` pass exit
statuses on, the status of the whole is that of one process at the bottom,
and zero only where all of theirs are. -/
theorem reports_bottom (hvia : ∀ status, w.via (.exited status) = .exited status)
    {job : Job} {es : List Ending} {e : Ending} (h : Finishes w job es e) :
    (∃ x ∈ es, (w.via x).code = (w.via e).code) ∧
      ((w.via e).code = 0 ↔ ∀ x ∈ es, (w.via x).code = 0) := by
  induction h with
  | rejected | help | peer | unread | broken | lost => simp
  | carried child argv es e harrives hrun ih => exact ih
  | oneRoot argv po child es e hparse hworks hchildren hchild ih =>
      rw [hvia, code_exited, exitStatus_one]
      exact ih
  | twoRoots argv po masterPort master slave es es' e e' hparse hworks hchildren hcapture hmaster
      hslave ih ih' =>
      obtain ⟨⟨x, hx, hcode⟩, hall⟩ := ih
      obtain ⟨⟨x', hx', hcode'⟩, hall'⟩ := ih'
      rw [hvia, code_exited, exitStatus_two]
      by_cases hzero : (w.via e').code = 0
      · rw [if_pos hzero]
        refine ⟨⟨x, List.mem_append_left _ hx, hcode⟩, ?_⟩
        rw [hall, List.forall_mem_append]
        exact (and_iff_left (hall'.mp hzero)).symm
      · rw [if_neg hzero]
        refine ⟨⟨x', List.mem_append_right _ hx', hcode'⟩, ?_⟩
        rw [List.forall_mem_append, ← hall']
        exact ⟨fun h => absurd h hzero, fun h => absurd h.2 hzero⟩

/-! ## Two directories -/

/-- `jpgsync A B`. -/
def twoLocal : List Bytes := [ascii "jpgsync", ascii "A", ascii "B"]

/-- Its children. -/
def twoLocalMaster : Child :=
  ⟨⟨ascii "A", [], []⟩, ascii "jpgsync", [ascii "A", ascii "--local", ascii "-m"]⟩

def twoLocalSlave (masterPort : Bytes) : Child :=
  ⟨⟨ascii "B", [], []⟩, ascii "jpgsync",
    [ascii "B", ascii "--local", ascii "-s"] ++ [slaveArg ⟨ascii "A", [], []⟩ masterPort]⟩

theorem children_twoLocal : ∃ po, JpgsyncOptions.parse twoLocal = .ok po ∧
    ∀ masterPort, children po masterPort = [twoLocalMaster, twoLocalSlave masterPort] :=
  ⟨_, rfl, fun _ => rfl⟩

theorem whole_twoLocal : Whole {Environment.noFiles (ascii "/")} twoLocal := by
  obtain ⟨po, h, hchildren⟩ := children_twoLocal
  exact whole_noFiles h hchildren rfl rfl rfl (by decide) (by decide)

/-- Shells that find no files, and a peer with `-s` that reports an error,
the other one none. -/
def slaveFails : World where
  arrives := Child.Arrives {Environment.noFiles (ascii "/")}
  lost _ _ := False
  via := id
  output _ := listeningLine 5000
  breaks _ := False
  peer po e := e = .exited (if po.count .slave then 2 else 0)

theorem capture_slaveFails (child : Child) :
    capture (slaveFails.output child) = some (printNumber (5000 : UInt16).toNat) := by
  have h := capture_listeningLine 5000 []
  rwa [List.append_nil] at h

theorem finishes_twoLocal :
    Finishes slaveFails (.run twoLocal) [.exited 0, .exited 2] (.exited 2) := by
  have hport : printNumber (5000 : UInt16).toNat = ascii "5000" := by decide
  have hmaster : Finishes slaveFails (.command twoLocalMaster) [.exited 0] (.exited 0) :=
    .carried _ [ascii "jpgsync", ascii "A", ascii "--local", ascii "-m"] _ _
      ⟨_, rfl, _, rfl, by decide⟩ (.peer _ _ _ rfl rfl rfl rfl)
  have hslave : Finishes slaveFails (.command (twoLocalSlave (ascii "5000"))) [.exited 2]
      (.exited 2) :=
    .carried _ [ascii "jpgsync", ascii "B", ascii "--local", ascii "-s", ascii "localhost:5000"]
      _ _ ⟨_, rfl, _, rfl, by decide⟩ (.peer _ _ _ rfl rfl rfl rfl)
  obtain ⟨po, hpo, hchildren⟩ := children_twoLocal
  exact .twoRoots _ po _ _ _ _ _ _ _ hpo id (hchildren _)
    ((capture_slaveFails _).trans (congrArg some hport)) hmaster hslave

theorem processes_end_twoLocal :
    Acc (fun argv' argv => Starts {Environment.noFiles (ascii "/")} argv argv') twoLocal ∧
      ∃ es e, Finishes slaveFails (.run twoLocal) es e := by
  have hports : ∀ child word, capture (slaveFails.output child) = some word →
      (extractPort 0 word).isSome = true := by
    intro child word hword
    obtain rfl := Option.some.inj ((capture_slaveFails child).symm.trans hword)
    rw [extractPort_printNumber]
    rfl
  exact processes_end (Set.singleton_nonempty _) (fun _ _ h => h) hports (fun _ _ => ⟨_, rfl⟩)
    whole_twoLocal

/-- The error of the slave is reported. -/
theorem reports_bottom_twoLocal : (Ending.exited 2).code ≠ 0 ∧
    ∃ x ∈ [Ending.exited 0, Ending.exited 2], x.code = (Ending.exited 2).code :=
  ⟨by simp, (reports_bottom (fun _ => rfl : ∀ status, slaveFails.via (.exited status) = _)
    finishes_twoLocal).1⟩

end Jpgsync
