import Jpgsync.ExifHasher.HandOver
import Jpgsync.Lib.Termination
import Jpgsync.Pipeline.Work

/-!
# ExifHasher — Command

The loop that `jpghash` and `jpgln` share: `main` starts `Run` with a
threshold of one and then asks `Get` for one entry at a time, uses it, and
stops at the first call that has none. An entry is used by a function
parameter, which may throw. Whatever the interleaving of `main` with the
hashing thread, the entries used are the first ones of the list, and all of
it when `main` returns (`Command.listing`); and `main` gets there
(`Command.ends`).
-/

namespace Jpgsync

open ExifHasher

/-- Control of `main`. -/
inductive CommandPc where
  | listing   -- in the loop around `Get`
  | returned
  | thrown    -- left by an exception, which ends the process
deriving DecidableEq, Repr

/-- A program around an `ExifHasher`, with what it has put out. -/
structure Command (σ : Type) where
  hasher : ExifHasher
  pc : CommandPc
  out : σ

namespace Command

inductive Act where
  | run
  | main
  | wakes   -- a spurious wake-up of `main` inside `Get`
deriving DecidableEq, Repr

variable {σ : Type}

/-- `main`: a call of `Get`, a step inside it, or the use of what it
returned, which is nothing or one entry. -/
def mainStep (args : RunArgs) (use : σ → Entry → Except σ σ) (s : Command σ) : Option (Command σ) :=
  let go := fun a => (s.hasher.step args a).map fun hasher => { s with hasher := hasher }
  match s.hasher.get with
  | .idle => go (.call 1)
  | .returned [] => some { s with pc := .returned }
  | .returned (e :: _) =>
    match use s.out e with
    | .ok out => (go .take).map fun t => { t with out := out }
    | .error out => some { s with pc := .thrown, out := out }
  | _ => go .get

def step (args : RunArgs) (use : σ → Entry → Except σ σ) (s : Command σ) : Act → Option (Command σ)
  | .run =>
    if s.pc = .listing then
      (s.hasher.step args .run).map fun hasher => { s with hasher := hasher }
    else none
  | .main => if s.pc = .listing then s.mainStep args use else none
  | .wakes =>
    if s.pc = .listing then
      (s.hasher.step args .getWakes).map fun hasher => { s with hasher := hasher }
    else none

def start (gen : List Scan) (out : σ) : Command σ := ⟨.start gen, .listing, out⟩

def system (args : RunArgs) (use : σ → Entry → Except σ σ) : StepSystem (Command σ) Act :=
  ⟨step args use⟩

/-- The steps that the threads take by themselves. -/
def Own (a : Act) : Prop := a ≠ .wakes

/-! ## One entry at a time -/

/-- Where a call of `Get` for one entry is. -/
def CallFacts (s : ExifHasher) : Prop :=
  match s.get with
  | .lock count | .test count | .asleep count => count = 1
  | .walk count => count ≤ 1 ∧ (count = 0 → s.done = true ∧ s.newEntryCount = 0)
  | .returned segment =>
      segment.length ≤ 1 ∧ (segment = [] → s.done = true ∧ s.newEntryCount = 0)
  | .idle | .nullNext => True

/-- A hasher that is asked for one entry at a time. -/
structure OneByOne (s : ExifHasher) : Prop where
  done : s.done = true ↔ s.run = .exited
  call : CallFacts s

theorem length_readFrom {entries : List Entry} {node : Option Nat} {count : Nat}
    {segment : List Entry} (h : readFrom entries node count = some segment) :
    segment.length = count := by
  induction count generalizing node segment with
  | zero =>
      cases node <;> cases h <;> rfl
  | succ count ih =>
      cases node with
      | none => cases h
      | some node =>
          rw [readFrom] at h
          obtain ⟨e, -, hrest⟩ := Option.bind_eq_some_iff.mp h
          obtain ⟨rest, hread, rfl⟩ := Option.map_eq_some_iff.mp hrest
          rw [List.length_cons, ih hread]

section

variable {args : RunArgs} {s t : ExifHasher}

/-- Before the hashing thread is done, a call has not found the end. -/
theorem CallFacts.woken (h : CallFacts s) (hdone : s.done = false)
    (hget : t.get = s.get ∨ t.get = notifyGet s.get) : CallFacts t := by
  unfold CallFacts at h ⊢
  cases hpc : s.get <;> rw [hpc] at h hget <;>
    rcases hget with hget | hget <;> rw [hget] <;> simp_all [notifyGet]

theorem OneByOne.runStep (h : OneByOne s) (hst : s.runStep args = some t) : OneByOne t := by
  have hlive : s.run ≠ .exited := by
    intro hrun
    simp [ExifHasher.runStep, hrun] at hst
  have hdone : s.done = false := Bool.not_eq_true _ ▸ fun hdone => hlive (h.done.mp hdone)
  refine ⟨?_, h.call.woken hdone (runStep_frame hst).2.2.2⟩
  cases runMove_of_step hst with
  | ended _ _ ht | publishLock _ _ ht | publish _ ht | finishLock _ _ ht =>
      subst ht
      simp [hdone]
  | failed _ _ hrun _ _ ht | duplicate _ _ _ hrun _ _ _ _ ht =>
      subst ht
      simp [hdone, hrun]
  | append scan gen g _ _ _ _ ht =>
      subst ht
      dsimp only
      split <;> simp [hdone]
  | finish _ ht =>
      subst ht
      simp

/-- `Get` finds one entry, or none where there will be none. -/
theorem OneByOne.getStep (h : OneByOne s) (hst : s.getStep = some t) : OneByOne t := by
  have hcall := h.call
  cases getMove_of_step hst with
  | lock count hget _ ht =>
      subst ht
      rw [CallFacts, hget] at hcall
      exact ⟨h.done, hcall⟩
  | take count hget hpred ht =>
      subst ht
      rw [CallFacts, hget] at hcall
      subst hcall
      refine ⟨h.done, Nat.min_le_left _ _, fun hzero => ?_⟩
      have hnone : s.newEntryCount = 0 := by omega
      exact ⟨hpred.resolve_left (by omega), by simp [hnone]⟩
  | wait count hget _ ht =>
      subst ht
      rw [CallFacts, hget] at hcall
      exact ⟨h.done, hcall⟩
  | walk count segment node hget hread _ ht =>
      subst ht
      rw [CallFacts, hget] at hcall
      have hlen := length_readFrom hread
      refine ⟨h.done, by rw [hlen]; exact hcall.1, fun hnil => hcall.2 ?_⟩
      rw [← hlen, hnil, List.length_nil]
  | pastEnd count hget _ ht =>
      subst ht
      exact ⟨h.done, trivial⟩

theorem OneByOne.step (h : OneByOne s) {a : ExifHasher.Act}
    (hone : ∀ count, a = .call count → count = 1)
    (hst : s.step args a = some t) : OneByOne t := by
  have hcall := h.call
  cases a with
  | run => exact h.runStep hst
  | get => exact h.getStep hst
  | call count =>
      simp only [ExifHasher.step] at hst
      split at hst <;> cases hst
      exact ⟨h.done, hone count rfl⟩
  | getWakes =>
      simp only [ExifHasher.step] at hst
      split at hst <;> cases hst
      rename_i count hget
      rw [CallFacts, hget] at hcall
      exact ⟨h.done, hcall⟩
  | take =>
      simp only [ExifHasher.step] at hst
      split at hst <;> cases hst
      exact ⟨h.done, trivial⟩

/-- What `Get` has returned and its caller not used. -/
def pending : GetPc → List Entry
  | .returned segment => segment
  | _ => []

@[simp] theorem pending_notifyGet (pc : GetPc) : pending (notifyGet pc) = pending pc := by
  cases pc <;> rfl

/-- What is handed out is returned. -/
theorem flatten_step {a : ExifHasher.Act} (hne : a ≠ .take) (hst : s.step args a = some t)
    {used : List Entry} (h : s.segments.flatten = used ++ pending s.get) :
    t.segments.flatten = used ++ pending t.get := by
  cases a with
  | run =>
      obtain ⟨_, _, hsegments, hget⟩ := runStep_frame hst
      rw [hsegments, h]
      rcases hget with hget | hget <;> simp [hget]
  | get =>
      cases getMove_of_step hst with
      | lock _ hget _ ht | take _ hget _ ht | wait _ hget _ ht | pastEnd _ hget _ ht =>
          subst ht
          simpa [hget, pending] using h
      | walk count segment node hget _ _ ht =>
          subst ht
          simp [h, hget, pending]
  | call count | getWakes =>
      simp only [ExifHasher.step] at hst
      split at hst <;> cases hst
      rename_i hget
      simpa [hget, pending] using h
  | take => exact absurd rfl hne

end

/-! ## What the hasher promises -/

/-- The entries `all` are handed out, in order. -/
structure HandsOut (all : List Entry) (s : ExifHasher) : Prop where
  within : s.announced ≤ s.entries.length
  inside : s.get ≠ .nullNext
  handed : s.segments.flatten <+: all
  whole : s.done = true → s.newEntryCount = 0 → inWalk s.get = 0 → s.segments.flatten = all
  awake : s.done = true → ∀ count, s.get ≠ .asleep count

/-- What `Run` with the paths `gen` promises to every client of `Get`. -/
def Promises (args : RunArgs) (gen : List Scan) (all : List Entry) : Prop :=
  ∀ s, (ExifHasher.system args).Reaches (fun _ a => Asks a) (.start gen) s → HandsOut all s

theorem promises_unique {args : RunArgs} (hu : args.unique = true) (gen : List Scan) :
    Promises args gen (firstOfEach [] gen) := by
  intro s hs
  have h := handOver_of_reaches hu hs
  have hpre : s.entries <+: firstOfEach [] gen := h.rest ▸ List.prefix_append _ _
  refine ⟨announced_le h.counts, ?_, ?_, fun hdone hcount hwalk => ?_, fun hdone count hget => ?_⟩
  · intro hnull
    simpa [GetFacts, hnull] using h.facts
  · rw [h.handed]
    exact (List.take_prefix _ _).trans hpre
  · have hrun := h.done.mp hdone
    have hcounts := h.counts
    have hgen := h.ended (Or.inr (Or.inr hrun))
    have hrest := h.rest
    rw [hgen, firstOfEach, List.append_nil] at hrest
    simp only [Announced, hrun, announced, hcount, hwalk] at hcounts
    rw [h.handed, ← hrest]
    exact List.take_of_length_le (by omega)
  · have hfacts := h.facts
    simp only [GetFacts, hget, hdone] at hfacts
    cases hfacts.2

/-! ## What the program can do -/

variable {args : RunArgs} {use : σ → Entry → Except σ σ} {gen : List Scan} {all : List Entry}
  {out : σ} {s t : Command σ}

/-- The steps of a program in its loop: one of its hasher, the use of an
entry, and the two ends. -/
inductive Move (args : RunArgs) (use : σ → Entry → Except σ σ) (s t : Command σ) (a : Act) : Prop
  | hasher (act : ExifHasher.Act) (hasher : ExifHasher)
      (hask : ∀ count, act = .call count → count = 1) (hne : act ≠ .take)
      (hown : Own a → act ≠ .getWakes) (hact : s.hasher.step args act = some hasher)
      (ht : t = { s with hasher := hasher })
  | used (e : Entry) (rest : List Entry) (out : σ) (hget : s.hasher.get = .returned (e :: rest))
      (huse : use s.out e = .ok out)
      (ht : t = { s with hasher := { s.hasher with get := .idle }, out := out })
  | returned (hget : s.hasher.get = .returned []) (ht : t = { s with pc := .returned })
  | thrown (e : Entry) (rest : List Entry) (out : σ) (hget : s.hasher.get = .returned (e :: rest))
      (huse : use s.out e = .error out) (ht : t = { s with pc := .thrown, out := out })

theorem move_of_step {a : Act} (hst : s.step args use a = some t) :
    s.pc = .listing ∧ Move args use s t a := by
  have hgo : ∀ (act : ExifHasher.Act), (∀ count, act = .call count → count = 1) → act ≠ .take →
      (Own a → act ≠ .getWakes) →
      ((s.hasher.step args act).map fun hasher => { s with hasher := hasher }) = some t →
      Move args use s t a := by
    intro act hask hne hown hst
    obtain ⟨hasher, hh, rfl⟩ := Option.map_eq_some_iff.mp hst
    exact .hasher act hasher hask hne hown hh rfl
  have hpc : s.pc = .listing := by
    by_contra hpc
    cases a <;> simp [step, hpc] at hst
  refine ⟨hpc, ?_⟩
  cases a with
  | run =>
      rw [step, if_pos hpc] at hst
      exact hgo .run (by simp) (by simp) (by simp) hst
  | wakes =>
      rw [step, if_pos hpc] at hst
      exact hgo .getWakes (by simp) (by simp) (fun hown => absurd rfl hown) hst
  | main =>
      rw [step, if_pos hpc] at hst
      simp only [mainStep] at hst
      split at hst
      next => exact hgo (.call 1) (by simp) (by simp) (by simp) hst
      next hget =>
        cases hst
        exact .returned hget rfl
      next e rest hget =>
        split at hst
        next out huse =>
          simp only [ExifHasher.step, hget, Option.map_some] at hst
          cases hst
          exact .used e rest out hget huse rfl
        next out huse =>
          cases hst
          exact .thrown e rest out hget huse rfl
      next => exact hgo .get (by simp) (by simp) (by simp) hst

/-! ## What holds in every state -/

/-- **What a program keeps**, when `K` is kept by the use of the next entry
of the list. -/
structure Kept (args : RunArgs) (gen : List Scan) (use : σ → Entry → Except σ σ)
    (K : List Entry → σ → Prop) (s : Command σ) : Prop where
  reaches : (ExifHasher.system args).Reaches (fun _ a => Asks a) (.start gen) s.hasher
  one : OneByOne s.hasher
  used : s.pc ≠ .thrown →
    ∃ used, K used s.out ∧ s.hasher.segments.flatten = used ++ pending s.hasher.get
  returned : s.pc = .returned → s.hasher.get = .returned []
  thrown : s.pc = .thrown →
    ∃ used out e, K used out ∧ s.hasher.segments.flatten = used ++ [e] ∧ use out e = .error s.out

variable {K : List Entry → σ → Prop}

theorem kept_start (hK : K [] out) : Kept args gen use K (start gen out) where
  reaches := StepSystem.Reaches.refl _
  one := ⟨by simp [start, ExifHasher.start], trivial⟩
  used := fun _ => ⟨[], hK, rfl⟩
  returned := by simp [start]
  thrown := by simp [start]

/-- An entry that is returned is alone, and the next one of the list. -/
theorem Kept.next (h : Kept args gen use K s) (hp : Promises args gen all) (hpc : s.pc = .listing)
    {e : Entry} {rest : List Entry} (hget : s.hasher.get = .returned (e :: rest)) :
    ∃ used, K used s.out ∧ used ++ [e] <+: all ∧ s.hasher.segments.flatten = used ++ [e] := by
  obtain ⟨used, hK, hflatten⟩ := h.used (by simp [hpc])
  have hcall := h.one.call
  simp only [CallFacts, hget, List.length_cons] at hcall
  have hrest : rest = [] := List.eq_nil_of_length_eq_zero (by omega)
  have heq : s.hasher.segments.flatten = used ++ [e] := by
    rw [hflatten, hget, pending, hrest]
  exact ⟨used, hK, heq ▸ (hp _ h.reaches).handed, heq⟩

theorem Kept.step (hp : Promises args gen all)
    (huse : ∀ used e out out', used ++ [e] <+: all → K used out → use out e = .ok out' →
      K (used ++ [e]) out')
    (h : Kept args gen use K s) {a : Act} (hst : s.step args use a = some t) :
    Kept args gen use K t := by
  obtain ⟨hpc, hmove⟩ := move_of_step hst
  cases hmove with
  | hasher act hasher hask hne _ hact ht =>
      subst ht
      have hasks : Asks act := by
        cases act with
        | call count =>
            rw [hask count rfl]
            exact Nat.one_pos
        | _ => trivial
      obtain ⟨used, hK, hflatten⟩ := h.used (by simp [hpc])
      exact ⟨h.reaches.tail hasks hact, h.one.step hask hact,
        fun _ => ⟨used, hK, flatten_step hne hact hflatten⟩, by simp [hpc], by simp [hpc]⟩
  | used e rest out hget he ht =>
      subst ht
      obtain ⟨used, hK, hpre, hflatten⟩ := h.next hp hpc hget
      have htake : s.hasher.step args .take = some { s.hasher with get := .idle } := by
        simp [ExifHasher.step, hget]
      exact ⟨h.reaches.tail (a := .take) trivial htake, h.one.step (by simp) htake,
        fun _ => ⟨used ++ [e], huse used e _ _ hpre hK he, by simpa [pending] using hflatten⟩,
        by simp [hpc], by simp [hpc]⟩
  | returned hget ht =>
      subst ht
      have hused := h.used (by simp [hpc])
      exact { h with used := fun _ => hused, returned := fun _ => hget, thrown := by simp }
  | thrown e rest out hget he ht =>
      subst ht
      obtain ⟨used, hK, -, hflatten⟩ := h.next hp hpc hget
      exact { h with
        used := fun hne => absurd rfl hne
        returned := by simp
        thrown := fun _ => ⟨used, s.out, e, hK, hflatten, he⟩ }

/-- **The loop goes through the list**: in every state a front of it has
been used, the whole of it where `main` has returned; and only the use of
the next entry throws. -/
theorem listing (hp : Promises args gen all) (hK : K [] out)
    (huse : ∀ used e out out', used ++ [e] <+: all → K used out → use out e = .ok out' →
      K (used ++ [e]) out')
    (hs : (system args use).Reachable (start gen out) s) :
    match s.pc with
    | .listing => ∃ used, K used s.out ∧ used <+: all
    | .returned => K all s.out
    | .thrown => ∃ used out e, K used out ∧ used ++ [e] <+: all ∧ use out e = .error s.out := by
  have h : Kept args gen use K s :=
    hs.invariant (fun _ _ _ h hst => h.step hp huse hst) (kept_start hK)
  have hpromise := hp _ h.reaches
  split
  next hpc =>
    obtain ⟨used, hK, hflatten⟩ := h.used (by simp [hpc])
    exact ⟨used, hK, (List.prefix_append _ _).trans (hflatten ▸ hpromise.handed)⟩
  next hpc =>
    have hget := h.returned hpc
    obtain ⟨used, hK, hflatten⟩ := h.used (by simp [hpc])
    have hcall := h.one.call
    simp only [CallFacts, hget, forall_const] at hcall
    have hwhole := hpromise.whole hcall.2.1 hcall.2.2 (by rw [hget]; rfl)
    rw [hflatten, hget, pending, List.append_nil] at hwhole
    exact hwhole ▸ hK
  next hpc =>
    obtain ⟨used, out, e, hK, hflatten, he⟩ := h.thrown hpc
    exact ⟨used, out, e, hK, hflatten ▸ hpromise.handed, he⟩

/-! ## `main` gets to its end -/

/-- What the two threads have left to do. -/
def work (s : Command σ) : Nat :=
  3 * s.hasher.runWork + s.hasher.handWork + if s.pc = .listing then 1 else 0

/-- **Every step but a spurious wake-up** uses something up. -/
theorem work_step (h : s.hasher.announced ≤ s.hasher.entries.length) {a : Act} (ha : Own a)
    (hst : s.step args use a = some t) : t.work < s.work := by
  obtain ⟨hpc, hmove⟩ := move_of_step hst
  cases hmove with
  | hasher act hasher hask hne hown hact ht =>
      subst ht
      simp only [work]
      cases act with
      | run =>
          have hrun := runWork_step hact
          have hhand := handWork_runStep hact
          omega
      | get =>
          obtain ⟨_, _, hgen, hrun, _⟩ := getStep_frame hact
          have hhand := handWork_getStep h hact
          simp only [runWork, hrun, hgen]
          omega
      | call count =>
          simp only [ExifHasher.step] at hact
          split at hact <;> cases hact
          rename_i hget
          simp [handWork, capacity, runWork, hget, GetPc.weight]
      | getWakes => exact absurd rfl (hown ha)
      | take => exact absurd rfl hne
  | used e rest out hget huse ht =>
      subst ht
      simp [work, handWork, capacity, runWork, hget, GetPc.weight]
  | returned hget ht =>
      subst ht
      simp [work, hpc]
  | thrown e rest out hget huse ht =>
      subst ht
      simp [work, hpc]

/-- **Somebody can move** until `main` has ended: it waits for the mutex or
a notification of a hashing thread that is on its way. -/
theorem exists_own_step (hL : Locks s.hasher) (hone : OneByOne s.hasher)
    (h : HandsOut all s.hasher) (hpc : s.pc = .listing) :
    ∃ a, Own a ∧ (s.step args use a).isSome := by
  have hrun : s.hasher.run ≠ .exited → s.hasher.mutex ≠ some .get →
      ∃ a, Own a ∧ (s.step args use a).isSome := by
    intro hlive hfree
    have hsome : (s.hasher.runStep args).isSome := hL.runStep_isSome hlive hfree
    exact ⟨.run, by simp [Own], by simpa [step, hpc, ExifHasher.step] using hsome⟩
  have hmain : (s.mainStep args use).isSome → ∃ a, Own a ∧ (s.step args use a).isSome :=
    fun hsome => ⟨.main, by simp [Own], by simpa [step, hpc] using hsome⟩
  cases hget : s.hasher.get with
  | idle =>
      refine hmain ?_
      simp [mainStep, hget, ExifHasher.step]
  | lock count =>
      cases hm : s.hasher.mutex with
      | none =>
          refine hmain ?_
          simp [mainStep, hget, ExifHasher.step, ExifHasher.getStep, hm]
      | some thread =>
          cases thread with
          | run =>
              refine hrun (fun hexited => ?_) (by simp [hm])
              simpa [hexited] using hL.run.mp hm
          | get =>
              obtain ⟨count', htest⟩ := hL.get.mp hm
              simp [hget] at htest
  | test count =>
      refine hmain ?_
      simp only [mainStep, hget, ExifHasher.step, ExifHasher.getStep]
      split <;> rfl
  | asleep count =>
      refine hrun (fun hexited => h.awake (hone.done.mpr hexited) count hget) fun hm => ?_
      obtain ⟨count', htest⟩ := hL.get.mp hm
      simp [hget] at htest
  | walk count =>
      refine hmain ?_
      simp only [mainStep, hget, ExifHasher.step, ExifHasher.getStep]
      split <;> rfl
  | returned segment =>
      refine hmain ?_
      cases segment with
      | nil => simp [mainStep, hget]
      | cons e rest =>
          cases huse : use s.out e <;> simp [mainStep, hget, huse, ExifHasher.step]
  | nullNext => exact absurd hget h.inside

/-- **Every run comes to an end**: the threads can move until `main` has
ended, and cannot go on for ever without spurious wake-ups. -/
theorem Promises.ends (hp : Promises args gen all) (use : σ → Entry → Except σ σ) (out : σ) :
    (WellFounded fun t s : Command σ => (system args use).Reachable (start gen out) s ∧
      ∃ a, Own a ∧ (system args use).step s a = some t) ∧
    ∀ s, (system args use).Reachable (start gen out) s → s.pc = .listing →
      ∃ a, Own a ∧ ((system args use).step s a).isSome := by
  have hkept : ∀ {s}, (system args use).Reachable (start gen out) s →
      Kept args gen use (fun _ _ => True) s := fun hs =>
    hs.invariant (fun _ _ _ h hst => h.step hp (fun _ _ _ _ _ _ _ => trivial) hst)
      (kept_start trivial)
  have hwork : ∀ s a t, (system args use).Reachable (start gen out) s → Own a →
      (system args use).step s a = some t → work t < work s := fun _ _ _ hs hown hst =>
    work_step (hp _ (hkept hs).reaches).within hown hst
  refine ⟨StepSystem.wellFounded_of_rank hwork, fun s hs hpc => ?_⟩
  have h := hkept hs
  have hL : Locks s.hasher := h.reaches.invariant (fun _ _ _ hI _ hst => hI.step hst)
    (locks_start gen)
  exact exists_own_step hL h.one (hp _ h.reaches) hpc

end Command
end Jpgsync
