import Jpgsync.Pipeline
import Mathlib.Data.List.Infix

/-!
# Pipeline — Invariant

What holds whenever the three threads are between two steps. `Inv` speaks
about the counters, the flag, the two mutexes and the sleeping threads;
`Offers` about what the uploader has put into offers and what it has
skipped. Both are stated next to the hasher's own invariant `HandOver`,
from which they take that an announced entry is on the list.
-/

namespace Jpgsync

/-! ## One round of the offer loop -/

/-- **One offer.** From a state with entries left to process and room in
the offer, the loop runs over the next `k` entries, never leaves the list
or `buf`, splits them by membership in `received_hashes`, and stops at the
observed total or when the offer is full. -/
theorem offerLoop_spec (received : List ExifHash) (total : Nat) :
    ∀ (rest : List Entry) (s : OfferLoop), s.processed < total →
      total ≤ s.processed + rest.length → s.missing.length < syncHashesPerPacket →
      ∃ k r, offerLoop received total rest s = some r ∧ 0 < k ∧ k ≤ rest.length ∧
        r.processed = s.processed + k ∧ r.processed ≤ total ∧
        r.missing = s.missing ++ (rest.take k).filter (fun e => decide (e.hash ∉ received)) ∧
        r.skipped = s.skipped ++ (rest.take k).filter (fun e => decide (e.hash ∈ received)) ∧
        r.missing.length ≤ syncHashesPerPacket ∧
        (r.processed = total ∨ r.missing.length = syncHashesPerPacket) := by
  intro rest
  induction rest with
  | nil =>
      intro s hlt hle _
      simp only [List.length_nil] at hle
      omega
  | cons e rest ih =>
      intro s hlt hle hroom
      rw [List.length_cons] at hle
      -- with room in the offer the bound check on `buf` never fires
      have hbuf : ¬ (e.hash ∉ received ∧
          syncHashesPerPacket * sizeofExifHash < (s.missing.length + 1) * sizeofExifHash) := by
        rintro ⟨_, hover⟩
        exact absurd (Nat.mul_le_mul_right sizeofExifHash hroom) (Nat.not_le.mpr hover)
      rw [offerLoop, if_neg hbuf]
      -- the state after this entry, whichever branch was taken
      by_cases hmem : e.hash ∈ received
      · simp only [hmem, if_true]
        split
        · rename_i hgo
          obtain ⟨k, r, hr, hk, hkr, hp, hpt, hm, hs, hml, hstop⟩ :=
            ih ⟨s.processed + 1, s.missing, s.skipped ++ [e]⟩
              (by have := hgo.1; dsimp only at this ⊢; omega) (by dsimp only; omega) hgo.2
          refine ⟨k + 1, r, hr, by omega, by simpa using hkr, ?_, hpt, ?_, ?_, hml, hstop⟩
          · rw [hp]; dsimp only; omega
          · simpa [hmem] using hm
          · simpa [hmem, List.append_assoc] using hs
        · rename_i hgo
          refine ⟨1, _, rfl, by omega, by simp, rfl, by dsimp only; omega, by simp [hmem],
            by simp [hmem], Nat.le_of_lt hroom, ?_⟩
          by_cases hp : s.processed + 1 = total
          · exact Or.inl hp
          · exact absurd ⟨hp, hroom⟩ hgo
      · simp only [hmem, if_false]
        have hlen : (s.missing ++ [e]).length = s.missing.length + 1 := by simp
        split
        · rename_i hgo
          obtain ⟨k, r, hr, hk, hkr, hp, hpt, hm, hs, hml, hstop⟩ :=
            ih ⟨s.processed + 1, s.missing ++ [e], s.skipped⟩
              (by have := hgo.1; dsimp only at this ⊢; omega) (by dsimp only; omega) hgo.2
          refine ⟨k + 1, r, hr, by omega, by simpa using hkr, ?_, hpt, ?_, ?_, hml, hstop⟩
          · rw [hp]; dsimp only; omega
          · simpa [hmem, List.append_assoc] using hm
          · simpa [hmem] using hs
        · rename_i hgo
          refine ⟨1, _, rfl, by omega, by simp, rfl, by dsimp only; omega, by simp [hmem],
            by simp [hmem], by dsimp only; omega, ?_⟩
          by_cases hp : s.processed + 1 = total
          · exact Or.inl hp
          · right
            dsimp only at hgo ⊢
            have : ¬ (s.missing ++ [e]).length < syncHashesPerPacket := fun hl => hgo ⟨hp, hl⟩
            omega

namespace Pipeline

/-! ## The invariants -/

/-- Entries the downloader is about to add to `hasher_entry_count`. -/
def addingCount : DownloaderPc → Nat
  | .fetchAdd segment => segment.length
  | _ => 0

/-- What the uploader knows at each point of its main loop. -/
def UploaderFacts (s : Pipeline) : Prop :=
  match s.uploader with
  | .lock total | .test total => total = s.processedEntryCount
  | .asleep => s.hashing = true
  | .process total => s.processedEntryCount < total ∧ total ≤ s.hasherEntryCount
  | .offer missing => missing ≠ [] ∧ missing.length ≤ syncHashesPerPacket
  | .finished => s.hashing = false
  | .overrun => False
  | .load | .relock | .resume => True

/-- **Counters, flag and locks.** -/
structure Inv (s : Pipeline) : Prop where
  counted : s.hasherEntryCount + addingCount s.downloader +
    ExifHasher.returnedCount s.hasher.get = s.hasher.newEntry
  inGet : s.downloader ≠ .get → s.hasher.get = .idle
  drained : s.downloader = .doneLock ∨ s.downloader = .done ∨ s.downloader = .finished →
    [] ∈ s.hasher.segments
  hashing : s.hashing = false ↔ s.downloader = .finished
  lockedDown : s.progressMutex = some .downloader ↔ s.downloader = .done
  lockedUp : s.progressMutex = some .uploader ↔
    (∃ total, s.uploader = .test total) ∨ s.uploader = .resume
  latest : s.latestEntry = s.processedEntryCount
  processed : s.processedEntryCount ≤ s.hasherEntryCount
  facts : UploaderFacts s

/-- **Offered and skipped** together are the processed entries, in order. -/
structure Offers (received : List ExifHash) (s : Pipeline) : Prop where
  offered : s.offered.flatten =
    (s.hasher.entries.take s.processedEntryCount).filter fun e => decide (e.hash ∉ received)
  skipped : s.skipped =
    (s.hasher.entries.take s.processedEntryCount).filter fun e => decide (e.hash ∈ received)
  sizes : ∀ o ∈ s.offered, 0 < o.length ∧ o.length ≤ syncHashesPerPacket

theorem inv_start (gen : List Scan) : Inv (start gen) where
  counted := rfl
  inGet := by simp [start]
  drained := by simp [start]
  hashing := by simp [start]
  lockedDown := by simp [start]
  lockedUp := by simp [start]
  latest := rfl
  processed := Nat.le_refl 0
  facts := trivial

theorem offers_start (received : List ExifHash) (gen : List Scan) :
    Offers received (start gen) where
  offered := rfl
  skipped := rfl
  sizes := by simp [start]

@[simp] theorem notifyUploader_test {pc : UploaderPc} {total : Nat} :
    notifyUploader pc = .test total ↔ pc = .test total := by
  cases pc <;> simp [notifyUploader]

@[simp] theorem notifyUploader_resume {pc : UploaderPc} :
    notifyUploader pc = .resume ↔ pc = .resume := by
  cases pc <;> simp [notifyUploader]

namespace Inv

variable {args : RunArgs} {received : List ExifHash} {scans : List Scan} {s t : Pipeline}

/-- An entry the uploader may process is on the list. -/
theorem count_le (h : Inv s) (hH : s.hasher.HandOver args.progressThreshold scans) :
    s.hasherEntryCount ≤ s.hasher.entries.length := by
  have hcounted := h.counted
  have hle := hH.newEntry_le
  omega

/-- Once the update loop is left, everything was hashed and counted. -/
theorem drained_counts (h : Inv s) (hH : s.hasher.HandOver args.progressThreshold scans)
    (hd : s.downloader = .doneLock ∨ s.downloader = .done ∨ s.downloader = .finished) :
    s.hasher.done = true ∧ s.hasher.newEntry = s.hasher.entries.length ∧
      s.hasherEntryCount = s.hasher.entries.length := by
  obtain ⟨hdone, hall⟩ := hH.zero (h.drained hd)
  have hidle : s.hasher.get = .idle := h.inGet (by rcases hd with hd | hd | hd <;> simp [hd])
  have hcounted := h.counted
  refine ⟨hdone, hall, ?_⟩
  rcases hd with hd | hd | hd <;>
    simp only [hd, hidle, addingCount, ExifHasher.returnedCount] at hcounted <;> omega

/-! ## Every step keeps `Inv` -/

/-- The hashing thread moved. -/
theorem run (h : Inv s) {hasher : ExifHasher} (hst : s.hasher.runStep args = some hasher) :
    Inv { s with hasher := hasher } := by
  obtain ⟨_, hnew, hseg, hget⟩ := ExifHasher.runStep_frame hst
  refine { h with counted := ?_, inGet := ?_, drained := ?_ }
  · rcases hget with hget | hget <;> simpa [hget, hnew] using h.counted
  · intro hd
    have hidle := h.inGet hd
    rcases hget with hget | hget <;> simp [hget, hidle, ExifHasher.notifyGet]
  · simpa [hseg] using h.drained

/-- Only the control point inside `Get` changed. -/
theorem setGet (h : Inv s) (hd : s.downloader = .get) {pc : GetPc}
    (hpc : ExifHasher.returnedCount pc = ExifHasher.returnedCount s.hasher.get) :
    Inv { s with hasher := { s.hasher with get := pc } } := by
  refine { h with counted := ?_, inGet := fun hne => absurd hd hne }
  dsimp only
  rw [hpc]
  exact h.counted

/-- `Get` moved. -/
theorem getStep (h : Inv s) (hH : s.hasher.HandOver args.progressThreshold scans)
    (hd : s.downloader = .get) {hasher : ExifHasher} (hst : s.hasher.getStep = some hasher) :
    Inv { s with hasher := hasher } := by
  obtain ⟨hret, _, hnew⟩ := hH.getStep_count hst
  refine { h with counted := ?_, inGet := fun hne => absurd hd hne, drained := ?_ }
  · have hcounted := h.counted
    dsimp only
    omega
  · simp [hd]

theorem downloaderStep (h : Inv s) (hH : s.hasher.HandOver args.progressThreshold scans)
    (hst : s.downloaderStep = some t) : Inv t := by
  unfold Pipeline.downloaderStep at hst
  split at hst
  next hd =>
    split at hst
    next segment hget =>
      cases hst
      have hcounted := h.counted
      -- an empty segment ends the update loop, and then it is on record that `Get` drained
      have hmem : segment ∈ s.hasher.segments := by
        simpa [ExifHasher.GetFacts, hget] using hH.facts
      simp only [hd, hget, addingCount, ExifHasher.returnedCount] at hcounted
      by_cases hz : segment.length = 0
      · have hnil : segment = [] := List.length_eq_zero_iff.mp hz
        refine { h with counted := ?_, inGet := fun _ => rfl, drained := fun _ => ?_,
                        hashing := ?_, lockedDown := ?_ }
        · simp only [if_pos hz, addingCount, ExifHasher.returnedCount]
          omega
        · exact hnil ▸ hmem
        · simpa [hz, hd] using h.hashing
        · simpa [hz, hd] using h.lockedDown
      · refine { h with counted := ?_, inGet := fun _ => rfl, drained := ?_,
                        hashing := ?_, lockedDown := ?_ }
        · simp only [if_neg hz, addingCount, ExifHasher.returnedCount]
          omega
        · simp [hz]
        · simpa [hz, hd] using h.hashing
        · simpa [hz, hd] using h.lockedDown
    next =>
      obtain ⟨hasher, hh, rfl⟩ := Option.map_eq_some_iff.mp hst
      exact h.getStep hH hd hh
  next segment hd =>
    cases hst
    have hidle := h.inGet (by simp [hd])
    have hcounted := h.counted
    have hfacts := h.facts
    simp only [hd, addingCount] at hcounted
    refine { h with counted := ?_, inGet := fun _ => hidle, drained := by simp,
                    hashing := by simp [h.hashing, hd], lockedDown := by simp [h.lockedDown, hd],
                    processed := ?_, facts := ?_ }
    · simp only [addingCount]
      omega
    · exact Nat.le_add_right_of_le h.processed
    -- the count only grows, so what the uploader loaded stays below it
    · cases hup : s.uploader <;> simp only [UploaderFacts, hup] at hfacts ⊢ <;>
        first | exact hfacts | omega
  next segment hd =>
    cases hst
    have hcounted := h.counted
    have hfacts := h.facts
    simp only [hd, addingCount] at hcounted
    refine { h with counted := hcounted, inGet := fun _ => h.inGet (by simp [hd]),
                    drained := by simp, hashing := by simp [h.hashing, hd],
                    lockedDown := by simp [h.lockedDown, hd],
                    lockedUp := by simp [h.lockedUp], facts := ?_ }
    cases hup : s.uploader <;> simp_all [UploaderFacts, notifyUploader]
  next segment hd =>
    cases hst
    have hcounted := h.counted
    simp only [hd, addingCount] at hcounted
    exact { h with counted := hcounted, inGet := by simp,
                   drained := by simp, hashing := by simp [h.hashing, hd],
                   lockedDown := by simp [h.lockedDown, hd] }
  next hd =>
    split at hst
    next hfree =>
      cases hst
      have hcounted := h.counted
      have hup := h.lockedUp
      simp only [hfree, reduceCtorEq, false_iff] at hup
      simp only [hd, addingCount] at hcounted
      exact { h with counted := hcounted, inGet := fun _ => h.inGet (by simp [hd]),
                     drained := fun _ => h.drained (Or.inl hd),
                     hashing := by simp [h.hashing, hd], lockedDown := by simp,
                     lockedUp := by simpa using hup }
    next => cases hst
  next hd =>
    cases hst
    have hcounted := h.counted
    have hfacts := h.facts
    have hup := h.lockedUp
    simp only [h.lockedDown.mpr hd, Option.some.injEq, reduceCtorEq, false_iff] at hup
    simp only [hd, addingCount] at hcounted
    refine { h with counted := hcounted, inGet := fun _ => h.inGet (by simp [hd]),
                    drained := fun _ => h.drained (Or.inr (Or.inl hd)), hashing := by simp,
                    lockedDown := by simp, lockedUp := by simpa using hup, facts := ?_ }
    cases hpc : s.uploader <;> simp_all [UploaderFacts, notifyUploader]
  next => cases hst

/-- The offer loop ran: counters move together and the offer is sound. -/
theorem processed_step (received : List ExifHash) (h : Inv s)
    (hH : s.hasher.HandOver args.progressThreshold scans) {total : Nat}
    (hup : s.uploader = .process total) :
    ∃ k r, offerLoop received total (s.hasher.entries.drop s.latestEntry)
        ⟨s.processedEntryCount, [], s.skipped⟩ = some r ∧ 0 < k ∧
      r.processed = s.processedEntryCount + k ∧ r.processed ≤ total ∧
      total ≤ s.hasherEntryCount ∧
      r.missing = ((s.hasher.entries.drop s.processedEntryCount).take k).filter
        (fun e => decide (e.hash ∉ received)) ∧
      r.skipped = s.skipped ++ ((s.hasher.entries.drop s.processedEntryCount).take k).filter
        (fun e => decide (e.hash ∈ received)) ∧
      r.missing.length ≤ syncHashesPerPacket ∧
      (r.processed = total ∨ r.missing.length = syncHashesPerPacket) := by
  have hfacts := h.facts
  simp only [UploaderFacts, hup] at hfacts
  have hcount := h.count_le hH
  rw [h.latest]
  obtain ⟨k, r, hr, hk, _, hp, hpt, hm, hs, hml, hstop⟩ :=
    offerLoop_spec received total (s.hasher.entries.drop s.processedEntryCount)
      ⟨s.processedEntryCount, [], s.skipped⟩ hfacts.1
      (by simp only [List.length_drop]; omega) (show 0 < syncHashesPerPacket by decide)
  exact ⟨k, r, hr, hk, hp, hpt, hfacts.2, by simpa using hm, hs, hml, hstop⟩

theorem uploaderStep (h : Inv s) (hH : s.hasher.HandOver args.progressThreshold scans)
    (hst : s.uploaderStep received = some t) : Inv t := by
  unfold Pipeline.uploaderStep at hst
  have hle := h.processed
  split at hst
  next hup =>
    cases hst
    by_cases heq : s.processedEntryCount = s.hasherEntryCount
    · refine { h with lockedUp := ?_, facts := ?_ }
      · simp [heq, h.lockedUp, hup]
      · simp [heq, UploaderFacts]
    · refine { h with lockedUp := ?_, facts := ?_ }
      · simp [heq, h.lockedUp, hup]
      · simp only [heq, if_false, UploaderFacts]
        omega
  next total hup =>
    split at hst
    next hfree =>
      cases hst
      have hdown := h.lockedDown
      simp only [hfree, reduceCtorEq, false_iff] at hdown
      refine { h with lockedDown := by simpa using hdown, lockedUp := by simp, facts := ?_ }
      simpa [UploaderFacts, hup] using h.facts
    next => cases hst
  next total hup =>
    cases hst
    have hdown := h.lockedDown
    simp only [h.lockedUp.mpr (Or.inl ⟨total, hup⟩), Option.some.injEq, reduceCtorEq,
      false_iff] at hdown
    refine { h with lockedDown := by simpa using hdown, lockedUp := ?_, facts := ?_ }
    · dsimp only
      split <;> simp
    · cases hh : s.hashing <;> simp [UploaderFacts]
  next => cases hst
  next hup =>
    split at hst
    next hfree =>
      cases hst
      have hdown := h.lockedDown
      simp only [hfree, reduceCtorEq, false_iff] at hdown
      exact { h with lockedDown := by simpa using hdown, lockedUp := by simp, facts := trivial }
    next => cases hst
  next hup =>
    cases hst
    have hdown := h.lockedDown
    simp only [h.lockedUp.mpr (Or.inr hup), Option.some.injEq, reduceCtorEq,
      false_iff] at hdown
    exact { h with lockedDown := by simpa using hdown, lockedUp := by simp, facts := trivial }
  next total hup =>
    obtain ⟨k, r, hr, _, hp, hpt, htot, _, _, hml, _⟩ := h.processed_step received hH hup
    rw [hr] at hst
    cases hst
    have hlatest := h.latest
    refine { h with lockedUp := ?_, latest := ?_, processed := ?_, facts := ?_ }
    · dsimp only
      split <;> simp [h.lockedUp, hup]
    · dsimp only
      omega
    · dsimp only
      omega
    · by_cases hm : r.missing = []
      · simp [UploaderFacts, hm]
      · simp [UploaderFacts, hm, hml]
  next missing hup =>
    cases hst
    exact { h with lockedUp := by simp [h.lockedUp, hup], facts := trivial }
  next => cases hst
  next => cases hst

/-- **Every step keeps the invariant.** -/
theorem step (h : Inv s) (hH : s.hasher.HandOver args.progressThreshold scans) {a : Act}
    (hst : s.step args received a = some t) : Inv t := by
  cases a with
  | run =>
      obtain ⟨hasher, hh, rfl⟩ := Option.map_eq_some_iff.mp hst
      exact h.run hh
  | call count =>
      simp only [Pipeline.step] at hst
      split at hst
      · rename_i hc
        cases hst
        exact h.setGet hc.1 (by simp [hc.2.1, ExifHasher.returnedCount])
      · cases hst
  | getWakes =>
      obtain ⟨hasher, hh, rfl⟩ := Option.map_eq_some_iff.mp hst
      simp only [ExifHasher.step] at hh
      split at hh
      · rename_i count hget
        cases hh
        have hd : s.downloader = .get := by
          by_contra hne
          simp [h.inGet hne] at hget
        exact h.setGet hd (by simp [hget, ExifHasher.returnedCount])
      · cases hh
  | downloader => exact h.downloaderStep hH hst
  | uploader => exact h.uploaderStep hH hst
  | uploaderWakes =>
      simp only [Pipeline.step] at hst
      split at hst
      · rename_i hup
        cases hst
        exact { h with lockedUp := by simp [h.lockedUp, hup], facts := trivial }
      · cases hst

end Inv

namespace Offers

variable {args : RunArgs} {received : List ExifHash} {scans : List Scan} {s t : Pipeline}

/-- The list only grew and the uploader's own variables are the same. -/
theorem frame (h : Offers received s) (hle : s.processedEntryCount ≤ s.hasher.entries.length)
    (hent : s.hasher.entries <+: t.hasher.entries)
    (hp : t.processedEntryCount = s.processedEntryCount) (ho : t.offered = s.offered)
    (hs : t.skipped = s.skipped) : Offers received t := by
  obtain ⟨ext, hext⟩ := hent
  have htake : t.hasher.entries.take s.processedEntryCount =
      s.hasher.entries.take s.processedEntryCount := by
    rw [← hext, List.take_append_of_le_length hle]
  refine ⟨?_, ?_, ?_⟩
  · rw [ho, hp, htake, h.offered]
  · rw [hs, hp, htake, h.skipped]
  · rw [ho]
    exact h.sizes

/-- The offer loop ran. -/
theorem process (h : Offers received s) (hI : s.Inv)
    (hH : s.hasher.HandOver args.progressThreshold scans) {total : Nat}
    (hup : s.uploader = .process total) (hst : s.uploaderStep received = some t) :
    Offers received t := by
  obtain ⟨k, r, hr, _, hp, _, _, hm, hs, hml, _⟩ :=
    hI.processed_step received hH hup
  simp only [uploaderStep, hup, hr] at hst
  cases hst
  have htake : s.hasher.entries.take r.processed =
      s.hasher.entries.take s.processedEntryCount ++
        (s.hasher.entries.drop s.processedEntryCount).take k := by
    rw [hp, List.take_add]
  refine ⟨?_, ?_, ?_⟩
  · dsimp only
    rw [htake, List.filter_append, ← h.offered, ← hm]
    split
    · rename_i hempty
      rw [List.isEmpty_iff.mp hempty, List.append_nil]
    · rw [List.flatten_append, List.flatten_singleton]
  · dsimp only
    rw [htake, List.filter_append, ← h.skipped, hs]
  · dsimp only
    split
    · exact h.sizes
    · rename_i hne
      intro o ho
      rcases List.mem_append.mp ho with ho | ho
      · exact h.sizes o ho
      · rw [List.mem_singleton.mp ho]
        refine ⟨List.length_pos_iff.mpr ?_, hml⟩
        simpa using hne

/-- **Every step keeps the offers in step with the entries.** -/
theorem step (h : Offers received s) (hI : s.Inv)
    (hH : s.hasher.HandOver args.progressThreshold scans) {a : Act}
    (hst : s.step args received a = some t) : Offers received t := by
  have hle : s.processedEntryCount ≤ s.hasher.entries.length :=
    Nat.le_trans hI.processed (hI.count_le hH)
  cases a with
  | run =>
      obtain ⟨hasher, hh, rfl⟩ := Option.map_eq_some_iff.mp hst
      exact h.frame hle (ExifHasher.runStep_frame hh).1 rfl rfl rfl
  | call count =>
      simp only [Pipeline.step] at hst
      split at hst <;> cases hst
      exact h.frame hle (List.prefix_refl _) rfl rfl rfl
  | getWakes =>
      obtain ⟨hasher, hh, rfl⟩ := Option.map_eq_some_iff.mp hst
      simp only [ExifHasher.step] at hh
      split at hh <;> cases hh
      exact h.frame hle (List.prefix_refl _) rfl rfl rfl
  | downloader =>
      simp only [Pipeline.step, downloaderStep] at hst
      split at hst
      · split at hst
        · cases hst
          exact h.frame hle (List.prefix_refl _) rfl rfl rfl
        · obtain ⟨hasher, hh, rfl⟩ := Option.map_eq_some_iff.mp hst
          refine h.frame hle ?_ rfl rfl rfl
          rw [(ExifHasher.getStep_frame hh).1]
      all_goals try (split at hst)
      all_goals cases hst
      all_goals exact h.frame hle (List.prefix_refl _) rfl rfl rfl
  | uploader =>
      cases hup : s.uploader with
      | process total => exact h.process hI hH hup hst
      | _ =>
          simp only [Pipeline.step, uploaderStep, hup] at hst
          try (split at hst)
          all_goals cases hst
          all_goals exact h.frame hle (List.prefix_refl _) rfl rfl rfl
  | uploaderWakes =>
      simp only [Pipeline.step] at hst
      split at hst <;> cases hst
      exact h.frame hle (List.prefix_refl _) rfl rfl rfl

end Offers

/-! ## Reachable states -/

variable {args : RunArgs} {received : List ExifHash} {scans : List Scan} {s : Pipeline}

/-- The invariants of the three threads together. -/
structure Sound (threshold : Nat) (received : List ExifHash) (scans : List Scan)
    (s : Pipeline) : Prop where
  handOver : s.hasher.HandOver threshold scans
  inv : s.Inv
  offers : s.Offers received

theorem sound_start (threshold : Nat) (received : List ExifHash) (scans : List Scan) :
    Sound threshold received scans (start scans) :=
  ⟨ExifHasher.handOver_start _ _, inv_start scans, offers_start received scans⟩

theorem handOver_step (hu : args.unique = true) {t : Pipeline} {a : Act}
    (hH : s.hasher.HandOver args.progressThreshold scans)
    (hst : s.step args received a = some t) :
    t.hasher.HandOver args.progressThreshold scans := by
  rcases hasher_step hst with heq | ⟨b, hb, hst'⟩
  · rw [heq]
    exact hH
  · exact hH.step hu hb hst'

theorem Sound.step (hu : args.unique = true) {t : Pipeline} {a : Act}
    (h : Sound args.progressThreshold received scans s)
    (hst : s.step args received a = some t) :
    Sound args.progressThreshold received scans t :=
  ⟨handOver_step hu h.handOver hst, h.inv.step h.handOver hst,
    h.offers.step h.inv h.handOver hst⟩

/-- The invariants hold in every reachable state. -/
theorem sound_of_reachable (hu : args.unique = true)
    (hs : (system args received).Reachable (start scans) s) :
    Sound args.progressThreshold received scans s :=
  hs.invariant (fun _ _ _ h hst => h.step hu hst) (sound_start _ _ _)

end Pipeline
end Jpgsync
