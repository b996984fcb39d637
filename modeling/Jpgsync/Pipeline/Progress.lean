import Jpgsync.Pipeline.Leaving

/-!
# Pipeline — Progress

The local pipeline cannot get stuck. Progress notifications are sent
without the mutex and may be lost; what saves the uploader is the last
one, sent under the mutex together with the cleared flag, and what saves
`Get` is that `done_` is set under `mutex_` together with a notification.
With the owner of each mutex known, every thread that cannot move waits
for a thread that can. Spurious wake-ups are not needed for any of it.
-/

namespace Jpgsync

/-! ## Who holds `mutex_` -/

namespace ExifHasher

/-- The owner of `mutex_` is the thread inside its critical section. -/
structure Locks (s : ExifHasher) : Prop where
  run : s.mutex = some .run ↔ s.run = .publish ∨ s.run = .finish
  get : s.mutex = some .get ↔ ∃ count, s.get = .test count

theorem locks_start (gen : List Scan) : Locks (start gen) where
  run := by simp [start]
  get := by simp [start]

theorem notifyGet_test {pc : GetPc} {count : Nat} :
    notifyGet pc = .test count ↔ pc = .test count := by
  cases pc <;> simp [notifyGet]

namespace Locks

variable {args : RunArgs} {s t : ExifHasher}

theorem runStep (h : Locks s) (hst : s.runStep args = some t) : Locks t := by
  have hrun := h.run
  have hget := h.get
  cases runMove_of_step hst with
  -- outside its critical sections the hashing thread does not touch `mutex_`
  | ended hpc _ ht | failed _ _ hpc _ _ ht | duplicate _ _ _ hpc _ _ _ _ ht =>
      simp only [hpc, reduceCtorEq, or_self, iff_false] at hrun
      subst ht
      exact ⟨by simpa [hpc] using hrun, hget⟩
  | append _ _ _ hpc _ _ _ ht =>
      simp only [hpc, reduceCtorEq, or_self, iff_false] at hrun
      subst ht
      refine ⟨?_, hget⟩
      dsimp only
      split <;> simpa using hrun
  | publishLock hpc hfree ht | finishLock hpc hfree ht =>
      simp only [hfree, reduceCtorEq, false_iff] at hget
      subst ht
      exact ⟨by simp, by simpa using hget⟩
  | publish hpc ht =>
      simp only [hrun.mpr (Or.inl hpc), Option.some.injEq, reduceCtorEq, false_iff] at hget
      subst ht
      exact ⟨by simp, by simpa [notifyGet_test] using hget⟩
  | finish hpc ht =>
      simp only [hrun.mpr (Or.inr hpc), Option.some.injEq, reduceCtorEq, false_iff] at hget
      subst ht
      exact ⟨by simp, by simpa [notifyGet_test] using hget⟩

theorem getStep (h : Locks s) (hst : s.getStep = some t) : Locks t := by
  have hrun := h.run
  have hget := h.get
  cases getMove_of_step hst with
  | lock count _ hfree ht =>
      subst ht
      simp only [hfree, reduceCtorEq, false_iff] at hrun
      exact ⟨by simpa using hrun, by simp⟩
  | take count hpc _ ht | wait count hpc _ ht =>
      subst ht
      simp only [hget.mpr ⟨count, hpc⟩, Option.some.injEq, reduceCtorEq, false_iff] at hrun
      exact ⟨by simpa using hrun, by simp⟩
  | walk count _ _ hpc _ _ ht | pastEnd count hpc _ ht =>
      subst ht
      simp only [hpc, reduceCtorEq, exists_false, iff_false] at hget
      exact ⟨hrun, by simpa using hget⟩

theorem step (h : Locks s) {a : Act} (hst : s.step args a = some t) : Locks t := by
  have hget := h.get
  cases a with
  | run => exact h.runStep hst
  | get => exact h.getStep hst
  | call count =>
      simp only [ExifHasher.step] at hst
      split at hst <;> cases hst
      rename_i hpc
      simp only [hpc, reduceCtorEq, exists_false, iff_false] at hget
      exact ⟨h.run, by simpa using hget⟩
  | getWakes =>
      simp only [ExifHasher.step] at hst
      split at hst <;> cases hst
      rename_i hpc
      simp only [hpc, reduceCtorEq, exists_false, iff_false] at hget
      exact ⟨h.run, by simpa using hget⟩
  | take =>
      simp only [ExifHasher.step] at hst
      split at hst <;> cases hst
      rename_i hpc
      simp only [hpc, reduceCtorEq, exists_false, iff_false] at hget
      exact ⟨h.run, by simpa using hget⟩

/-- The hashing thread only waits for the caller of `Get`. -/
theorem runStep_isSome (h : Locks s) (hrun : s.run ≠ .exited) (hfree : s.mutex ≠ some .get) :
    (s.runStep args).isSome := by
  have hlock : s.run = .publishLock ∨ s.run = .finishLock → s.mutex = none := by
    intro hpc
    cases hm : s.mutex with
    | none => rfl
    | some thread =>
        cases thread with
        | run =>
            have := h.run.mp hm
            rcases hpc with hpc | hpc <;> simp [hpc] at this
        | get => exact absurd hm hfree
  rw [ExifHasher.runStep]
  cases hpc : s.run with
  | next =>
      dsimp only
      repeat' split
      all_goals rfl
  | publishLock => simp [hlock (Or.inl hpc)]
  | publish => rfl
  | finishLock => simp [hlock (Or.inr hpc)]
  | finish => rfl
  | exited => exact absurd hpc hrun

/-- A call of `Get` that is not asleep only waits for the hashing thread. -/
theorem getStep_isSome {threshold : Nat} {scans : List Scan} (h : Locks s)
    (hH : s.HandOver threshold scans) (hfree : s.mutex ≠ some .run)
    (hawake : ∀ count, s.get ≠ .asleep count) (hidle : s.get ≠ .idle)
    (hout : ∀ segment, s.get ≠ .returned segment) : s.getStep.isSome := by
  rw [ExifHasher.getStep]
  cases hget : s.get with
  | idle => exact absurd hget hidle
  | lock count =>
      have hnone : s.mutex = none := by
        cases hm : s.mutex with
        | none => rfl
        | some thread =>
            cases thread with
            | run => exact absurd hm hfree
            | get =>
                obtain ⟨count', htest⟩ := h.get.mp hm
                simp [hget] at htest
      simp [hnone]
  | test count =>
      dsimp only
      split <;> rfl
  | asleep count => exact absurd hget (hawake count)
  | walk count =>
      dsimp only
      split <;> rfl
  | returned segment => exact absurd hget (hout segment)
  | nullNext => simpa [ExifHasher.GetFacts, hget] using hH.facts

end Locks
end ExifHasher

/-! ## Somebody can move -/

namespace Pipeline

/-- A step some thread takes by itself; spurious wake-ups are not. -/
def Own : Act → Prop
  | .getWakes | .uploaderWakes => False
  | _ => True

/-- A step of some thread is enabled. -/
def CanMove (args : RunArgs) (received : List ExifHash) (s : Pipeline) : Prop :=
  ∃ a, Own a ∧ (s.step args received a).isSome

variable {args : RunArgs} {received : List ExifHash} {scans : List Scan} {s t : Pipeline}

theorem locks_step {a : Act} (h : s.hasher.Locks) (hst : s.step args received a = some t) :
    t.hasher.Locks := by
  rcases hasher_step hst with heq | ⟨b, _, hst'⟩
  · rw [heq]
    exact h
  · exact h.step hst'

theorem locks_of_reachable (hs : (system args received).Reachable (start scans) s) :
    s.hasher.Locks :=
  hs.invariant (I := fun s => s.hasher.Locks) (fun _ _ _ h hst => locks_step h hst)
    (ExifHasher.locks_start scans)

/-- What the caller of `Get` can do, the downloader can. -/
theorem downloaderStep_isSome_of_get (hd : s.downloader = .get)
    (hsome : s.hasher.getStep.isSome) : s.downloaderStep.isSome := by
  rw [downloaderStep, hd]
  dsimp only
  split
  · rfl
  · rw [Option.isSome_map]
    exact hsome

/-- The caller of `Get` can move unless it sleeps or waits for the hashing
thread to leave its critical section. -/
theorem get_canMove (hH : s.hasher.HandOver args.progressThreshold scans)
    (hL : s.hasher.Locks) (hd : s.downloader = .get) (hfree : s.hasher.mutex ≠ some .run)
    (hawake : ∀ count, s.hasher.get ≠ .asleep count) : CanMove args received s := by
  by_cases hidle : s.hasher.get = .idle
  · exact ⟨.call 1, trivial, by simp [step, hd, hidle]⟩
  · by_cases hret : ∃ segment, s.hasher.get = .returned segment
    · obtain ⟨segment, hret⟩ := hret
      exact ⟨.downloader, trivial, by simp [step, downloaderStep, hd, hret]⟩
    · have hsome := hL.getStep_isSome hH hfree hawake hidle fun segment hs => hret ⟨segment, hs⟩
      exact ⟨.downloader, trivial, downloaderStep_isSome_of_get hd hsome⟩

/-- The hashing thread is not done: it moves, or `Get` does in its critical
section. -/
theorem run_canMove (h : s.Inv) (hL : s.hasher.Locks) (hrun : s.hasher.run ≠ .exited) :
    CanMove args received s := by
  by_cases hget : s.hasher.mutex = some .get
  · obtain ⟨count, htest⟩ := hL.get.mp hget
    have hd : s.downloader = .get := by
      by_contra hne
      simp [h.inGet hne] at htest
    refine ⟨.downloader, trivial, ?_⟩
    simp only [step, downloaderStep, hd, htest, ExifHasher.getStep, Option.isSome_map]
    split <;> rfl
  · refine ⟨.run, trivial, ?_⟩
    rw [step, Option.isSome_map]
    exact hL.runStep_isSome hrun hget

/-- The uploader moves once the downloader has left its update loop. -/
theorem uploaderStep_isSome (h : s.Inv) (hd : s.downloader = .finished)
    (hup : s.uploader ≠ .finished) : (s.uploaderStep received).isSome := by
  have hfacts := h.facts
  have hfree : (∀ total, s.uploader ≠ .test total) → s.uploader ≠ .resume →
      s.progressMutex = none := by
    intro htest hresume
    cases hm : s.progressMutex with
    | none => rfl
    | some thread =>
        cases thread with
        | downloader => simp [h.lockedDown.mp hm] at hd
        | uploader =>
            rcases h.lockedUp.mp hm with ⟨total, hpc⟩ | hpc
            · exact absurd hpc (htest total)
            · exact absurd hpc hresume
  rw [uploaderStep]
  cases hpc : s.uploader with
  | lock total => simp [hfree (by simp [hpc]) (by simp [hpc])]
  | relock => simp [hfree (by simp [hpc]) (by simp [hpc])]
  | asleep => simp [UploaderFacts, hpc, h.hashing.mpr hd] at hfacts
  | process total =>
      dsimp only
      split <;> rfl
  | overrun => simp [UploaderFacts, hpc] at hfacts
  | finished => exact absurd hpc hup
  | _ => rfl

theorem uploader_canMove (h : s.Inv) (hd : s.downloader = .finished)
    (hup : s.uploader ≠ .finished) : CanMove args received s :=
  ⟨.uploader, trivial, uploaderStep_isSome h hd hup⟩

/-- **No deadlock.** For every path sequence, threshold, sequence of counts
asked for and interleaving, lost and spurious wake-ups included: as long as
one of the three threads has not finished, some thread can take a step of
its own; once the flag is cleared the uploader is not asleep, and once
`done_` is set no call of `Get` is. -/
theorem no_deadlock (hu : args.unique = true)
    (hs : (system args received).Reachable (start scans) s) :
    (¬ (s.hasher.run = .exited ∧ s.downloader = .finished ∧ s.uploader = .finished) →
        CanMove args received s) ∧
      (s.downloader = .finished → s.uploader ≠ .asleep) ∧
      (s.hasher.done = true → ∀ count, s.hasher.get ≠ .asleep count) := by
  have hsound := sound_of_reachable hu hs
  have h := hsound.inv
  have hL := locks_of_reachable hs
  have hawake : s.hasher.done = true → ∀ count, s.hasher.get ≠ .asleep count := by
    intro hdone count hget
    have hfacts := hsound.handOver.facts
    simp [ExifHasher.GetFacts, hget, hdone] at hfacts
  refine ⟨fun hnot => ?_, ?_, hawake⟩
  · by_cases hrun : s.hasher.run = .exited
    · have hdone := hsound.handOver.done.mpr hrun
      by_cases hd : s.downloader = .finished
      · exact uploader_canMove h hd fun hup => hnot ⟨hrun, hd, hup⟩
      · cases hpc : s.downloader with
        | get =>
            refine get_canMove hsound.handOver hL hpc ?_ (hawake hdone)
            intro hm
            have := hL.run.mp hm
            simp [hrun] at this
        -- the only wait of the downloader outside `Get`: the uploader has the mutex and moves
        | doneLock =>
            cases hm : s.progressMutex with
            | none => exact ⟨.downloader, trivial, by simp [step, downloaderStep, hpc, hm]⟩
            | some thread =>
                cases thread with
                | downloader => simp [h.lockedDown.mp hm] at hpc
                | uploader =>
                    refine ⟨.uploader, trivial, ?_⟩
                    rcases h.lockedUp.mp hm with ⟨total, hup⟩ | hup <;>
                      simp [step, uploaderStep, hup]
        | finished => exact absurd hpc hd
        | _ => exact ⟨.downloader, trivial, by simp [step, downloaderStep, hpc]⟩
    · exact run_canMove h hL hrun
  · intro hd hasleep
    have hfacts := h.facts
    simp [UploaderFacts, hasleep, h.hashing.mpr hd] at hfacts

/-- The uploader is asleep and every thread but the hashing thread waits;
the hashing thread moves. -/
theorem no_deadlock_asleep :
    ∃ s, (system syncRunArgs []).exec (start onePath)
        ([.uploader, .uploader, .uploader, .call 1, .downloader, .downloader] : List Act) =
          some s ∧ s.uploader = .asleep ∧ CanMove syncRunArgs [] s :=
  have hrun : ∃ s, (system syncRunArgs []).exec (start onePath)
      ([.uploader, .uploader, .uploader, .call 1, .downloader, .downloader] : List Act) =
        some s ∧ s.uploader = .asleep := ⟨_, rfl, by decide⟩
  hrun.elim fun s hs => ⟨s, hs.1, hs.2,
    (no_deadlock (show syncRunArgs.unique = true from rfl) ⟨_, hs.1⟩).1 (by simp [hs.2])⟩

end Pipeline
end Jpgsync
