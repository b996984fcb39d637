import Jpgsync.Pipeline.Invariant

/-!
# Pipeline — Leaving

When does the uploader leave its main loop with entries left? It loads
`hasher_entry_count` before it locks `hasher_progress_mutex` and tests
`hashing` after. Between the two the downloader may count its last batch
and clear the flag: the uploader then compares with a stale total and
leaves. `StaleTotal` is that window; `left_complete_iff` says the
downloader clearing the flag inside it is the only way to lose entries.
-/

namespace Jpgsync
namespace Pipeline

/-- The uploader is on its way to the test with a total that later batches
have overtaken. -/
def StaleTotal (s : Pipeline) : Prop :=
  ∃ total, s.uploader = .lock total ∧ total ≠ s.hasherEntryCount

/-- The downloader does not clear `hashing` while the uploader's total is
stale. -/
def ClearsFresh (s : Pipeline) (a : Act) : Prop :=
  ¬ (a = .downloader ∧ s.downloader = .done ∧ s.StaleTotal)

instance (s : Pipeline) : Decidable s.StaleTotal :=
  match h : s.uploader with
  | .lock total => decidable_of_iff (total ≠ s.hasherEntryCount) (by simp [StaleTotal, h])
  | .load | .test _ | .asleep | .relock | .resume | .process _ | .offer _ | .finished
  | .overrun => isFalse (by simp [StaleTotal, h])

instance (s : Pipeline) (a : Act) : Decidable (ClearsFresh s a) :=
  inferInstanceAs (Decidable (¬ (_ ∧ _ ∧ _)))

/-- Everything the hasher produced was processed: each entry was skipped
because it is in `received_hashes`, or put into an offer. -/
def Complete (received : List ExifHash) (s : Pipeline) : Prop :=
  s.processedEntryCount = s.hasher.entries.length ∧
    ∀ e ∈ s.hasher.entries, e.hash ∈ received ∨ e ∈ s.offered.flatten

variable {args : RunArgs} {received : List ExifHash} {scans : List Scan}
  {s t : Pipeline} {a : Act}

/-- The uploader is on its way out with the given total. -/
def LeavingWith (s : Pipeline) (total : Nat) : Prop :=
  s.uploader = .lock total ∨ s.uploader = .test total ∨
    (s.uploader = .finished ∧ total = s.processedEntryCount)

/-- After the flag is cleared every total on its way to the test is fresh. -/
def FreshAfter (s : Pipeline) : Prop :=
  s.hashing = false → ∀ total, s.LeavingWith total → total = s.hasherEntryCount

/-- After the flag is cleared the uploader leaves with entries left. -/
def StaleAfter (s : Pipeline) : Prop :=
  s.hashing = false ∧ ∃ total, s.LeavingWith total ∧ total = s.processedEntryCount ∧
    total ≠ s.hasherEntryCount

/-! ## After the flag is cleared -/

/-- Once the flag is clear only the uploader's own steps matter. -/
theorem step_after_cleared (h : s.Inv) (hclear : s.hashing = false)
    (hst : s.step args received a = some t) :
    t.hashing = false ∧ t.hasherEntryCount = s.hasherEntryCount ∧
      (a = .uploader ∨
        (t.uploader = s.uploader ∧ t.processedEntryCount = s.processedEntryCount)) := by
  have hdown : s.downloader = .finished := h.hashing.mp hclear
  cases a with
  | run =>
      obtain ⟨hasher, _, rfl⟩ := Option.map_eq_some_iff.mp hst
      exact ⟨hclear, rfl, Or.inr ⟨rfl, rfl⟩⟩
  | call count => simp [step, hdown] at hst
  | getWakes =>
      obtain ⟨hasher, _, rfl⟩ := Option.map_eq_some_iff.mp hst
      exact ⟨hclear, rfl, Or.inr ⟨rfl, rfl⟩⟩
  | downloader => simp [step, downloaderStep, hdown] at hst
  | uploader =>
      refine ⟨?_, ?_, Or.inl rfl⟩ <;> simp only [step, uploaderStep] at hst <;>
        (repeat' split at hst) <;> cases hst <;> first | exact hclear | rfl
  | uploaderWakes =>
      simp only [step] at hst
      split at hst
      · rename_i hup
        have hfacts := h.facts
        simp [UploaderFacts, hup, hclear] at hfacts
      · cases hst

/-- With the flag clear, an uploader on its way out was so before, or has
just loaded the current count. -/
theorem leaving_of_uploaderStep (h : s.Inv) {total : Nat}
    (hst : s.uploaderStep received = some t) (hl : t.LeavingWith total) :
    s.LeavingWith total ∨ total = s.hasherEntryCount := by
  have hfacts := h.facts
  unfold uploaderStep at hst
  split at hst
  -- only the load brings in a total, and it is the current one
  next hup =>
    cases hst
    dsimp only [LeavingWith] at hl
    split at hl
    · simp at hl
      exact Or.inr hl.symm
    · simp at hl
  next total' hup =>
    split at hst <;> cases hst
    simp only [LeavingWith, reduceCtorEq, UploaderPc.test.injEq, false_and, or_false,
      false_or] at hl
    exact Or.inl (Or.inl (by rw [hup, hl]))
  next total' hup =>
    cases hst
    simp only [UploaderFacts, hup] at hfacts
    dsimp only [LeavingWith] at hl
    split at hl
    · simp at hl
      exact Or.inl (Or.inr (Or.inl (by rw [hup, hl, hfacts])))
    · simp at hl
  next => cases hst
  next => split at hst <;> cases hst; simp [LeavingWith] at hl
  next => cases hst; simp [LeavingWith] at hl
  next =>
    split at hst <;> cases hst
    · simp [LeavingWith] at hl
    · dsimp only [LeavingWith] at hl
      split at hl <;> simp at hl
  next => cases hst; simp [LeavingWith] at hl
  next => cases hst
  next => cases hst

/-- With the flag clear, an uploader on its way out stays on its way out
with the same total. -/
theorem leaving_uploaderStep (h : s.Inv) (hclear : s.hashing = false) {total : Nat}
    (hl : s.LeavingWith total) (hst : s.uploaderStep received = some t) :
    t.LeavingWith total ∧ t.processedEntryCount = s.processedEntryCount := by
  have hfacts := h.facts
  rcases hl with hup | hup | ⟨hup, _⟩
  · simp only [uploaderStep, hup] at hst
    split at hst <;> cases hst
    exact ⟨Or.inr (Or.inl rfl), rfl⟩
  · simp only [uploaderStep, hup] at hst
    cases hst
    simp only [UploaderFacts, hup] at hfacts
    exact ⟨Or.inr (Or.inr ⟨by simp [hclear], hfacts⟩), rfl⟩
  · simp [uploaderStep, hup] at hst

/-- Clearing the flag: the lock is free, so the uploader is not at its
test, and whatever total it has was loaded before. -/
theorem clearing (h : s.Inv) (hopen : s.hashing = true)
    (hst : s.step args received a = some t) (hclear : t.hashing = false) :
    (a = .downloader ∧ s.downloader = .done) ∧ t.hasherEntryCount = s.hasherEntryCount ∧
      t.processedEntryCount = s.processedEntryCount ∧
      ∀ total, t.LeavingWith total ↔ s.uploader = .lock total := by
  have hnot : ¬ s.hashing = false := by simp [hopen]
  cases a with
  | run =>
      obtain ⟨hasher, _, rfl⟩ := Option.map_eq_some_iff.mp hst
      exact absurd hclear hnot
  | call count =>
      simp only [step] at hst
      split at hst <;> cases hst
      exact absurd hclear hnot
  | getWakes =>
      obtain ⟨hasher, _, rfl⟩ := Option.map_eq_some_iff.mp hst
      exact absurd hclear hnot
  | uploader =>
      simp only [step, uploaderStep] at hst
      repeat' split at hst
      all_goals cases hst
      all_goals exact absurd hclear hnot
  | uploaderWakes =>
      simp only [step] at hst
      split at hst <;> cases hst
      exact absurd hclear hnot
  | downloader =>
      cases hd : s.downloader with
      | done =>
          simp only [step, downloaderStep, hd] at hst
          cases hst
          -- the downloader holds the mutex, so the uploader is not between its lock and its sleep
          have hup := h.lockedUp
          simp only [h.lockedDown.mpr hd, Option.some.injEq, reduceCtorEq, false_iff,
            not_or, not_exists] at hup
          have hfacts := h.facts
          refine ⟨⟨rfl, rfl⟩, rfl, rfl, fun total => ?_⟩
          cases hpc : s.uploader <;>
            simp_all [LeavingWith, notifyUploader, UploaderFacts]
      | _ =>
          simp only [step, downloaderStep, hd] at hst
          repeat' split at hst
          all_goals first
            | (cases hst; exact absurd hclear hnot)
            | (obtain ⟨hasher, _, rfl⟩ := Option.map_eq_some_iff.mp hst
               exact absurd hclear hnot)
            | cases hst

/-- **Clearing fresh keeps totals fresh.** -/
theorem freshAfter_step (h : s.Inv) (hfresh : s.FreshAfter) (hok : ClearsFresh s a)
    (hst : s.step args received a = some t) : t.FreshAfter := by
  intro hclear total hl
  cases hopen : s.hashing with
  | false =>
      obtain ⟨_, hcount, hmove⟩ := step_after_cleared h hopen hst
      rw [hcount]
      rcases hmove with rfl | ⟨hup, hproc⟩
      · rcases leaving_of_uploaderStep h hst hl with hl | heq
        · exact hfresh hopen total hl
        · exact heq
      · refine hfresh hopen total ?_
        simpa only [LeavingWith, hup, hproc] using hl
  | true =>
      obtain ⟨hclearing, hcount, _, hleave⟩ := clearing h hopen hst hclear
      have hlock := (hleave total).mp hl
      rw [hcount]
      by_contra hne
      exact hok ⟨hclearing.1, hclearing.2, total, hlock, hne⟩

/-- **A stale total stays stale.** -/
theorem staleAfter_step (h : s.Inv) (hstale : s.StaleAfter)
    (hst : s.step args received a = some t) : t.StaleAfter := by
  obtain ⟨hclear, total, hl, hproc, hne⟩ := hstale
  obtain ⟨hclear', hcount, hmove⟩ := step_after_cleared h hclear hst
  refine ⟨hclear', total, ?_⟩
  rw [hcount]
  rcases hmove with rfl | ⟨hup, hp⟩
  · obtain ⟨hl', hp⟩ := leaving_uploaderStep h hclear hl hst
    exact ⟨hl', by rw [hp]; exact hproc, hne⟩
  · refine ⟨?_, by rw [hp]; exact hproc, hne⟩
    simpa only [LeavingWith, hup, hp] using hl

/-- Clearing the flag on a stale total. -/
theorem staleAfter_of_bad (h : s.Inv) (hbad : ¬ ClearsFresh s a)
    (hst : s.step args received a = some t) : t.StaleAfter := by
  obtain ⟨rfl, hd, total, hup, hne⟩ := not_not.mp hbad
  have hopen : s.hashing = true := by
    cases hh : s.hashing with
    | true => rfl
    | false => simp [h.hashing.mp hh] at hd
  have hclear : t.hashing = false := by
    simp only [step, downloaderStep, hd] at hst
    cases hst
    rfl
  obtain ⟨_, hcount, hproc, hleave⟩ := clearing h hopen hst hclear
  have htotal : total = s.processedEntryCount := by
    simpa [UploaderFacts, hup] using h.facts
  exact ⟨hclear, total, (hleave total).mpr hup, by rw [hproc, htotal], by rw [hcount]; exact hne⟩

/-! ## The property itself -/

/-- A finished uploader with a fresh total has processed everything. -/
theorem complete_of_fresh (h : Sound args.progressThreshold received scans s)
    (hfresh : s.FreshAfter) (hfin : s.uploader = .finished) : s.Complete received := by
  have hclear : s.hashing = false := by simpa [UploaderFacts, hfin] using h.inv.facts
  have htotal := hfresh hclear s.processedEntryCount (Or.inr (Or.inr ⟨hfin, rfl⟩))
  have hdown := h.inv.hashing.mp hclear
  obtain ⟨_, _, hall⟩ := h.inv.drained_counts h.handOver (Or.inr (Or.inr hdown))
  have hproc : s.processedEntryCount = s.hasher.entries.length := htotal.trans hall
  refine ⟨hproc, fun e he => ?_⟩
  by_cases hmem : e.hash ∈ received
  · exact Or.inl hmem
  · right
    rw [h.offers.offered, hproc, List.take_length]
    simp [he, hmem]

/-- **Exactly when nothing is left behind.** In a run after which the
uploader has left its main loop, every entry was skipped or offered if and
only if the downloader never cleared `hashing` while the uploader was
between loading `hasher_entry_count` and locking with a total that was
overtaken in the meantime. -/
theorem left_complete_iff (hu : args.unique = true) {as : List Act}
    (hs : (system args received).exec (start scans) as = some s)
    (hfin : s.uploader = .finished) :
    s.Complete received ↔ (system args received).AllSteps ClearsFresh (start scans) as := by
  constructor
  · intro hcomplete
    by_contra hbad
    -- the first step that breaks the condition leaves a stale total, which stays to the end
    obtain ⟨u, a, v, ⟨bs, hbs, _⟩, ha, hv, hreach⟩ := StepSystem.exists_of_not_allSteps hs hbad
    have hsu := sound_of_reachable hu ⟨bs, hbs⟩
    have hstale : Sound args.progressThreshold received scans s ∧ s.StaleAfter := by
      refine hreach.invariant
        (I := fun w => Sound args.progressThreshold received scans w ∧ w.StaleAfter) ?_
        ⟨hsu.step hu hv, staleAfter_of_bad hsu.inv ha hv⟩
      exact fun w b x hw hx => ⟨hw.1.step hu hx, staleAfter_step hw.1.inv hw.2 hx⟩
    obtain ⟨hsound, hclear, total, hl, hproc, hne⟩ := hstale
    obtain ⟨_, _, hall⟩ := hsound.inv.drained_counts hsound.handOver
      (Or.inr (Or.inr (hsound.inv.hashing.mp hclear)))
    exact hne (by rw [hproc, hall]; exact hcomplete.1)
  · intro hok
    have hfresh : Sound args.progressThreshold received scans s ∧ s.FreshAfter := by
      refine StepSystem.exec_invariant
        (I := fun w => Sound args.progressThreshold received scans w ∧ w.FreshAfter) ?_
        ⟨sound_start _ _ _, by simp [FreshAfter, start]⟩ hok hs
      exact fun w a x hw ha hx => ⟨hw.1.step hu hx, freshAfter_step hw.1.inv hw.2 ha hx⟩
    exact complete_of_fresh hfresh.1 hfresh.2 hfin

/-! ## The losing schedule -/

/-- The arguments `Peer::Sync` gives to `Run`. -/
def syncRunArgs : RunArgs := ⟨updateHashesPerPacket, true⟩

/-- One path with EXIF data. -/
def onePath : List Scan := [⟨[112], some ⟨1, 0, 0, 0, 0⟩, List.cons_ne_nil _ _⟩]

/-- The downloader's steps from asking for entries to counting them. -/
def countBatch : List Act :=
  .call updateHashesPerPacket :: List.replicate 7 .downloader

/-- The downloader's steps from the last, empty `Get` to the cleared
flag. -/
def clearFlag : List Act :=
  .call updateHashesPerPacket :: List.replicate 6 .downloader

/-- The uploader loads a count of zero; the only image is then hashed,
handed out, counted, and the flag cleared, before the uploader locks. -/
def losingSchedule : List Act :=
  [.uploader] ++ List.replicate 4 .run ++ countBatch ++ clearFlag ++ [.uploader, .uploader]

/-- The same steps with the uploader's first load after the count. -/
def keepingSchedule : List Act :=
  List.replicate 4 .run ++ countBatch ++ List.replicate 4 .uploader ++ clearFlag ++
    [.uploader, .uploader]

theorem losingSchedule_loses :
    ∃ s, (system syncRunArgs []).exec (start onePath) losingSchedule = some s ∧
      s.uploader = .finished ∧ s.processedEntryCount = 0 ∧ s.hasher.entries.length = 1 :=
  ⟨_, rfl, by decide, by decide, by decide⟩

/-- The uploader can leave with an entry neither skipped nor offered. -/
theorem not_always_complete :
    ¬ ∀ (args : RunArgs) (received : List ExifHash) (scans : List Scan) (as : List Act)
        (s : Pipeline), args.unique = true →
        (system args received).exec (start scans) as = some s →
        s.uploader = .finished → s.Complete received := by
  intro h
  obtain ⟨s, hs, hfin, hproc, hlen⟩ := losingSchedule_loses
  have := (h syncRunArgs [] onePath losingSchedule s rfl hs hfin).1
  omega

theorem left_complete_iff_keepingSchedule :
    ∃ s, (system syncRunArgs []).exec (start onePath) keepingSchedule = some s ∧
      s.Complete [] :=
  have hrun : ∃ s, (system syncRunArgs []).exec (start onePath) keepingSchedule = some s ∧
      s.uploader = .finished := ⟨_, rfl, by decide⟩
  hrun.elim fun s hs => ⟨s, hs.1,
    (left_complete_iff (show syncRunArgs.unique = true from rfl) hs.1 hs.2).mpr (by decide)⟩

end Pipeline
end Jpgsync
