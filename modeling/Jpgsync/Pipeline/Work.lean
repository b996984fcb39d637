import Jpgsync.ExifHasher.HashExif
import Jpgsync.Pipeline.Batches

/-!
# Pipeline — Work

How many steps the three threads have left. The hashing thread has its
paths, the downloader the entries it has not been handed, the uploader
those it has not processed; a thread pays for the one it wakes. Every step
but a spurious wake-up lowers the sum (`work_step`), and a step that ends
in an offer lowers it by as much as the round of that offer will take.
-/

namespace Jpgsync

open ExifHasher

/-- The entries there can be, at most. -/
def ExifHasher.capacity (s : ExifHasher) : Nat := s.entries.length + s.gen.length

/-- The steps of a call of `Get`, and of the loop around it until the next
call, at most. -/
def GetPc.weight : GetPc → Nat
  | .idle => 8
  | .lock _ => 7
  | .test _ => 6
  | .asleep _ => 5
  | .walk _ => 4
  | .returned [] => 3
  | .returned (_ :: _) => 12
  | .nullNext => 0

namespace ExifHasher

variable {args : RunArgs} {s t : ExifHasher}

/-- A cycle around `Get` hands out an entry. -/
def handWork (s : ExifHasher) : Nat := 9 * (s.capacity - s.newEntry) + s.get.weight

theorem weight_notifyGet (pc : GetPc) : (notifyGet pc).weight ≤ pc.weight + 2 := by
  cases pc <;> simp [notifyGet, GetPc.weight]

/-- The hashing thread makes no room for entries. -/
theorem capacity_runStep (hst : s.runStep args = some t) : t.capacity ≤ s.capacity := by
  cases runMove_of_step hst with
  | ended _ hgen ht | failed _ _ _ hgen _ ht | duplicate _ _ _ _ hgen _ _ _ ht =>
      subst ht
      simp [capacity, hgen]
  | append scan gen h hrun hgen _ _ ht =>
      subst ht
      simp only [capacity, hgen, List.length_append, List.length_cons, List.length_nil]
      omega
  | publishLock _ _ ht | publish _ ht | finishLock _ _ ht | finish _ ht => subst ht; exact le_rfl

/-- It gives a caller of `Get` that it wakes two steps back. -/
theorem handWork_runStep (hst : s.runStep args = some t) : t.handWork ≤ s.handWork + 2 := by
  obtain ⟨_, hnew, _, hget⟩ := runStep_frame hst
  have hcap := capacity_runStep hst
  have hwake := weight_notifyGet s.get
  rcases hget with hget | hget <;> rw [handWork, handWork, hnew, hget] <;> omega

/-- **`Get`** brings its caller forward, by entries where it walks. -/
theorem handWork_getStep (hle : s.announced ≤ s.entries.length) (hst : s.getStep = some t) :
    t.handWork < s.handWork := by
  have hwalk : ∀ count, s.get = .walk count → t.handWork < s.handWork := by
    intro count hget
    have hin := inside_of_walk hle hget
    rw [(getMove_of_step hst).walked hget hin]
    have hlen : ((s.entries.drop s.newEntry).take count).length = count := by
      rw [List.length_take, List.length_drop]
      omega
    -- an empty segment is lighter than the walk, a segment is paid for by its entries
    cases hseg : (s.entries.drop s.newEntry).take count with
    | nil =>
        simp only [handWork, capacity, hget, GetPc.weight]
        omega
    | cons e es =>
        rw [hseg, List.length_cons] at hlen
        simp only [handWork, capacity, hget, GetPc.weight]
        omega
  cases getMove_of_step hst with
  | lock count hget hfree ht => subst ht; simp [handWork, capacity, hget, GetPc.weight]
  | take count hget hpred ht => subst ht; simp [handWork, capacity, hget, GetPc.weight]
  | wait count hget hpred ht => subst ht; simp [handWork, capacity, hget, GetPc.weight]
  | walk count segment node hget => exact hwalk count hget
  | pastEnd count hget => exact hwalk count hget

end ExifHasher

def DownloaderPc.weight (get : GetPc) : DownloaderPc → Nat
  | .get => get.weight
  | .fetchAdd _ => 11
  | .notify _ => 10
  | .send _ => 9
  | .doneLock => 2
  | .done => 1
  | .finished => 0

def UploaderPc.weight : UploaderPc → Nat
  | .relock => 5
  | .resume | .offer _ => 4
  | .load => 3
  | .lock _ | .process _ => 2
  | .test _ => 1
  | .asleep | .finished | .overrun => 0

namespace Pipeline

/-- A cycle of the downloader hands out an entry. -/
def downloaderWork (s : Pipeline) : Nat :=
  9 * (s.hasher.capacity - s.hasher.newEntry) + s.downloader.weight s.hasher.get

/-- A cycle of the uploader processes an entry, with its part in an offer. -/
def uploaderWork (s : Pipeline) : Nat :=
  12 * (s.hasher.capacity - s.processedEntryCount) + s.uploader.weight

/-- **The steps left**, at most, each with what it pays for. -/
def work (s : Pipeline) : Nat :=
  13 * s.hasher.runWork + 6 * s.downloaderWork + s.uploaderWork

variable {args : RunArgs} {received : List ExifHash} {scans : List Scan} {s t : Pipeline}

theorem weight_notifyUploader (pc : UploaderPc) : (notifyUploader pc).weight ≤ pc.weight + 5 := by
  cases pc <;> simp [notifyUploader, UploaderPc.weight]

/-- **The hashing thread** pays for the call of `Get` it wakes. -/
theorem work_run (hst : s.step args received .run = some t) : t.work < s.work := by
  obtain ⟨hasher, hh, rfl⟩ := Option.map_eq_some_iff.mp hst
  obtain ⟨_, hnew, _, hget⟩ := runStep_frame hh
  have hrun := runWork_step hh
  have hcap := capacity_runStep hh
  have hdown : s.downloader.weight hasher.get ≤ s.downloader.weight s.hasher.get + 2 := by
    have hwake := weight_notifyGet s.hasher.get
    cases s.downloader with
    | get => rcases hget with hget | hget <;> simp only [DownloaderPc.weight, hget] <;> omega
    | _ => exact Nat.le_add_right _ _
  simp only [work, downloaderWork, uploaderWork, hnew]
  omega

/-- **The downloader** pays for the uploader it wakes. -/
theorem work_downloader (h : s.Inv) (hH : s.hasher.HandOver args.progressThreshold scans)
    (hst : s.downloaderStep = some t) : t.work < s.work := by
  have hwake := weight_notifyUploader s.uploader
  unfold downloaderStep at hst
  split at hst
  next hd =>
    split at hst
    next segment hget =>
      cases hst
      cases segment <;>
        simp [work, downloaderWork, uploaderWork, capacity, runWork, hd, hget,
          DownloaderPc.weight, GetPc.weight]
    next =>
      obtain ⟨hasher, hh, rfl⟩ := Option.map_eq_some_iff.mp hst
      obtain ⟨hentries, _, hgen, hrun, _⟩ := getStep_frame hh
      have hlt := handWork_getStep (announced_le hH.counts) hh
      simp only [work, downloaderWork, uploaderWork, hd, DownloaderPc.weight, runWork, hrun, hgen]
      simp only [handWork, capacity, hentries, hgen] at hlt ⊢
      omega
  next segment hd =>
    cases hst
    simp only [work, downloaderWork, uploaderWork, hd, DownloaderPc.weight]
    omega
  next segment hd =>
    cases hst
    simp only [work, downloaderWork, uploaderWork, hd, DownloaderPc.weight]
    omega
  next segment hd =>
    cases hst
    simp only [work, downloaderWork, uploaderWork, hd, h.inGet (by simp [hd]),
      DownloaderPc.weight, GetPc.weight]
    omega
  next hd =>
    split at hst <;> cases hst
    simp only [work, downloaderWork, uploaderWork, hd, DownloaderPc.weight]
    omega
  next hd =>
    cases hst
    simp only [work, downloaderWork, uploaderWork, hd, DownloaderPc.weight]
    omega
  next => cases hst

theorem work_call {count : Nat} (hst : s.step args received (.call count) = some t) :
    t.work < s.work := by
  simp only [step] at hst
  split at hst <;> cases hst
  rename_i hc
  simp only [work, downloaderWork, uploaderWork, capacity, runWork, hc.1, hc.2.1,
    DownloaderPc.weight, GetPc.weight]
  omega

/-- **The uploader**: an offer pays for the round it begins. -/
theorem work_uploader (h : s.Inv) (hH : s.hasher.HandOver args.progressThreshold scans)
    (hst : s.uploaderStep received = some t) :
    t.work < s.work ∧
      ∀ missing, t.uploader = .offer missing → t.work + 6 * missing.length + 3 < s.work := by
  -- only the step out of `process` builds an offer
  have hother : ∀ {pc}, t = { s with progressMutex := t.progressMutex, uploader := pc } →
      pc.weight < s.uploader.weight → (∀ missing, pc ≠ .offer missing) →
      t.work < s.work ∧
        ∀ missing, t.uploader = .offer missing → t.work + 6 * missing.length + 3 < s.work := by
    intro pc ht hlt hnone
    rw [ht]
    refine ⟨?_, fun missing hm => absurd hm (hnone missing)⟩
    simp only [work, downloaderWork, uploaderWork]
    omega
  have hcapacity : s.hasherEntryCount ≤ s.hasher.capacity :=
    Nat.le_trans (h.count_le hH) (Nat.le_add_right _ _)
  unfold uploaderStep at hst
  split at hst
  next hup =>
    cases hst
    refine hother rfl ?_ ?_
    · split <;> simp [hup, UploaderPc.weight]
    · intro missing
      split <;> simp
  next total hup =>
    split at hst <;> cases hst
    exact hother rfl (by simp [hup, UploaderPc.weight]) (by simp)
  next total hup =>
    cases hst
    refine hother rfl ?_ ?_
    · split <;> simp [hup, UploaderPc.weight]
    · intro missing
      split <;> simp
  next => cases hst
  next hup =>
    split at hst <;> cases hst
    exact hother rfl (by simp [hup, UploaderPc.weight]) (by simp)
  next hup =>
    cases hst
    exact hother rfl (by simp [hup, UploaderPc.weight]) (by simp)
  next total hup =>
    obtain ⟨k, r, hr, hk, hp, hpt, htotal, hm, -, -, -⟩ := h.processed_step received hH hup
    rw [hr] at hst
    cases hst
    have hlen : r.missing.length ≤ k := by
      rw [hm]
      refine Nat.le_trans (List.length_filter_le _ _) ?_
      rw [List.length_take]
      exact Nat.min_le_left _ _
    by_cases hempty : r.missing.isEmpty
    · simp only [hempty, if_true]
      refine ⟨?_, by simp⟩
      simp only [work, downloaderWork, uploaderWork, hup, UploaderPc.weight]
      omega
    · simp only [hempty, if_false, Bool.false_eq_true]
      have hround : 12 * (s.hasher.capacity - r.processed) + 4 + 6 * r.missing.length + 3 <
          12 * (s.hasher.capacity - s.processedEntryCount) + 2 := by omega
      refine ⟨?_, fun missing heq => ?_⟩
      · simp only [work, downloaderWork, uploaderWork, hup, UploaderPc.weight]
        omega
      · cases heq
        simp only [work, downloaderWork, uploaderWork, hup, UploaderPc.weight]
        omega
  next missing hup =>
    cases hst
    exact hother rfl (by simp [hup, UploaderPc.weight]) (by simp)
  next => cases hst
  next => cases hst

end Pipeline
end Jpgsync
