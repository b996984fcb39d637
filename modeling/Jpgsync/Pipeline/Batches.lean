import Jpgsync.Pipeline.Invariant

/-!
# Pipeline — Batches

What a downloader that always asks `Get` for `n` entries works on, and
which of the pipeline's variables a step of another thread leaves alone.
-/

namespace Jpgsync
namespace Pipeline

/-- A call of `Get` for `n` entries gets at most `n`. -/
def AskedFor (n : Nat) : GetPc → Prop
  | .lock count | .test count | .asleep count => count = n
  | .walk count => count ≤ n
  | .returned segment => segment.length ≤ n
  | .idle | .nullNext => True

/-- The batch the downloader is working on. -/
def batchOf : DownloaderPc → Option (List Entry)
  | .fetchAdd segment | .notify segment | .send segment => some segment
  | _ => none

/-- **Batches** are nonempty, of at most `n` entries, and handed out by
`Get`. -/
structure Batched (n : Nat) (s : Pipeline) : Prop where
  get : AskedFor n s.hasher.get
  batch : ∀ segment, batchOf s.downloader = some segment →
    segment ≠ [] ∧ segment.length ≤ n ∧ segment ∈ s.hasher.segments

variable {n : Nat} {args : RunArgs} {received : List ExifHash} {scans : List Scan}
  {s t : Pipeline} {a : Act}

theorem askedFor_notifyGet {pc : GetPc} (h : AskedFor n pc) :
    AskedFor n (ExifHasher.notifyGet pc) := by
  cases pc <;> exact h

theorem length_readFrom {entries segment : List Entry} {node : Option Nat} {count : Nat}
    (h : ExifHasher.readFrom entries node count = some segment) : segment.length = count := by
  induction count generalizing node segment with
  | zero =>
      cases node <;> (cases h; rfl)
  | succ count ih =>
      cases node with
      -- a `NULL` next pointer with entries still to read gives no result
      | none => cases h
      | some node =>
          obtain ⟨e, _, h⟩ := Option.bind_eq_some_iff.mp h
          obtain ⟨rest, hrest, rfl⟩ := Option.map_eq_some_iff.mp h
          rw [List.length_cons, ih hrest]

theorem askedFor_getStep {h t : ExifHasher} (ha : AskedFor n h.get) (hst : h.getStep = some t) :
    AskedFor n t.get := by
  cases ExifHasher.getMove_of_step hst with
  | lock count hget _ ht | wait count hget _ ht =>
      rw [hget] at ha
      subst ht
      exact ha
  | take count hget _ ht =>
      rw [hget] at ha
      subst ht
      exact Nat.le_trans (Nat.min_le_left _ _) (Nat.le_of_eq ha)
  | walk count segment node hget hread _ ht =>
      rw [hget] at ha
      subst ht
      exact Nat.le_trans (Nat.le_of_eq (length_readFrom hread)) ha
  | pastEnd _ _ _ ht =>
      subst ht
      trivial

/-- **Every step keeps batches in bounds**, if every call asks for `n`. -/
theorem Batched.step (h : Batched n s) (hH : s.hasher.HandOver args.progressThreshold scans)
    (ha : ∀ count, a = .call count → count = n) (hst : s.step args received a = some t) :
    Batched n t := by
  cases a with
  | run =>
      obtain ⟨hasher, hh, rfl⟩ := Option.map_eq_some_iff.mp hst
      obtain ⟨_, _, hseg, hget⟩ := ExifHasher.runStep_frame hh
      refine ⟨?_, by simpa [hseg] using h.batch⟩
      rcases hget with hget | hget
      · simpa [hget] using h.get
      · simpa [hget] using askedFor_notifyGet h.get
  | call count =>
      simp only [Pipeline.step] at hst
      split at hst <;> cases hst
      exact ⟨ha count rfl, h.batch⟩
  | getWakes =>
      obtain ⟨hasher, hh, rfl⟩ := Option.map_eq_some_iff.mp hst
      simp only [ExifHasher.step] at hh
      split at hh
      · rename_i count hget
        cases hh
        have hget' := h.get
        rw [hget] at hget'
        exact ⟨hget', h.batch⟩
      · cases hh
  | downloader =>
      simp only [Pipeline.step, downloaderStep] at hst
      split at hst
      next hd =>
        split at hst
        next segment hget =>
          cases hst
          have hasked := h.get
          have hfacts := hH.facts
          rw [hget] at hasked
          simp only [ExifHasher.GetFacts, hget] at hfacts
          refine ⟨trivial, fun seg hseg => ?_⟩
          -- `Get` returned nothing: no batch, the update loop is left
          by_cases hz : segment.length = 0
          · simp [hz, batchOf] at hseg
          · simp only [if_neg hz, batchOf, Option.some.injEq] at hseg
            subst hseg
            exact ⟨fun hnil => hz (by simp [hnil]), hasked, hfacts⟩
        next =>
          obtain ⟨hasher, hh, rfl⟩ := Option.map_eq_some_iff.mp hst
          exact ⟨askedFor_getStep h.get hh, by simp [hd, batchOf]⟩
      next segment hd => cases hst; exact ⟨h.get, by simpa [hd, batchOf] using h.batch⟩
      next segment hd => cases hst; exact ⟨h.get, by simpa [hd, batchOf] using h.batch⟩
      next segment hd => cases hst; exact ⟨h.get, by simp [batchOf]⟩
      next hd =>
        split at hst <;> cases hst
        exact ⟨h.get, by simp [batchOf]⟩
      next hd => cases hst; exact ⟨h.get, by simp [batchOf]⟩
      next => cases hst
  | uploader =>
      simp only [Pipeline.step, uploaderStep] at hst
      (repeat' split at hst) <;> cases hst <;> exact ⟨h.get, h.batch⟩
  | uploaderWakes =>
      simp only [Pipeline.step] at hst
      split at hst <;> cases hst
      exact ⟨h.get, h.batch⟩

/-- What a step of another thread does to the uploader: at most wake it. -/
theorem uploader_frame (ha : a ≠ .uploader) (hst : s.step args received a = some t) :
    (t.uploader = s.uploader ∨ s.uploader = .asleep ∧ t.uploader = .relock) ∧
      t.processedEntryCount = s.processedEntryCount ∧ t.offered = s.offered ∧
      t.skipped = s.skipped := by
  have hnotify : ∀ pc : UploaderPc, notifyUploader pc = pc ∨
      pc = .asleep ∧ notifyUploader pc = .relock := by
    intro pc
    cases pc <;> simp [notifyUploader]
  cases a with
  | run =>
      obtain ⟨hasher, _, rfl⟩ := Option.map_eq_some_iff.mp hst
      exact ⟨Or.inl rfl, rfl, rfl, rfl⟩
  | call count =>
      simp only [Pipeline.step] at hst
      split at hst <;> cases hst
      exact ⟨Or.inl rfl, rfl, rfl, rfl⟩
  | getWakes =>
      obtain ⟨hasher, _, rfl⟩ := Option.map_eq_some_iff.mp hst
      exact ⟨Or.inl rfl, rfl, rfl, rfl⟩
  | downloader =>
      simp only [Pipeline.step, downloaderStep] at hst
      split at hst
      next =>
        split at hst
        next => cases hst; exact ⟨Or.inl rfl, rfl, rfl, rfl⟩
        next =>
          obtain ⟨hasher, _, rfl⟩ := Option.map_eq_some_iff.mp hst
          exact ⟨Or.inl rfl, rfl, rfl, rfl⟩
      next => cases hst; exact ⟨Or.inl rfl, rfl, rfl, rfl⟩
      next => cases hst; exact ⟨hnotify _, rfl, rfl, rfl⟩
      next => cases hst; exact ⟨Or.inl rfl, rfl, rfl, rfl⟩
      next => split at hst <;> cases hst; exact ⟨Or.inl rfl, rfl, rfl, rfl⟩
      next => cases hst; exact ⟨hnotify _, rfl, rfl, rfl⟩
      next => cases hst
  | uploader => exact absurd rfl ha
  | uploaderWakes =>
      simp only [Pipeline.step] at hst
      split at hst
      · rename_i hup
        cases hst
        exact ⟨Or.inr ⟨hup, rfl⟩, rfl, rfl, rfl⟩
      · cases hst

/-- What is offered only changes when an offer is built. -/
theorem uploader_offered (hst : s.step args received .uploader = some t) :
    (t.offered = s.offered ∧ ∀ missing, t.uploader ≠ .offer missing) ∨
      ∃ missing, t.uploader = .offer missing ∧ t.offered = s.offered ++ [missing] := by
  simp only [Pipeline.step, uploaderStep] at hst
  split at hst
  next =>
    cases hst
    refine Or.inl ⟨rfl, fun missing => ?_⟩
    dsimp only
    split <;> simp
  next => split at hst <;> cases hst; exact Or.inl ⟨rfl, by simp⟩
  next =>
    cases hst
    refine Or.inl ⟨rfl, fun missing => ?_⟩
    dsimp only
    split <;> simp
  next => cases hst
  next => split at hst <;> cases hst; exact Or.inl ⟨rfl, by simp⟩
  next => cases hst; exact Or.inl ⟨rfl, by simp⟩
  next =>
    split at hst <;> cases hst
    next => exact Or.inl ⟨rfl, by simp⟩
    next r hr =>
      cases hempty : r.missing.isEmpty with
      | true => exact Or.inl ⟨by simp, by simp⟩
      | false => exact Or.inr ⟨r.missing, by simp, by simp⟩
  next => cases hst; exact Or.inl ⟨rfl, by simp⟩
  next => cases hst
  next => cases hst

/-- The list of entries only grows. -/
theorem entries_frame (hst : s.step args received a = some t) :
    s.hasher.entries <+: t.hasher.entries := by
  rcases hasher_step hst with heq | ⟨b, _, hb⟩
  · rw [heq]
  · cases b with
    | run => exact (ExifHasher.runStep_frame hb).1
    | get =>
        rw [(ExifHasher.getStep_frame hb).1]
    | call count | getWakes | take =>
        simp only [ExifHasher.step] at hb
        split at hb
        · rw [← Option.some.inj hb]
        · cases hb

/-- Only the downloader moves the downloader. -/
theorem downloader_frame (ha : a ≠ .downloader) (hst : s.step args received a = some t) :
    t.downloader = s.downloader := by
  cases a with
  | downloader => exact absurd rfl ha
  | run => obtain ⟨hasher, _, rfl⟩ := Option.map_eq_some_iff.mp hst; rfl
  | getWakes => obtain ⟨hasher, _, rfl⟩ := Option.map_eq_some_iff.mp hst; rfl
  | call count =>
      simp only [Pipeline.step] at hst
      split at hst <;> cases hst
      rfl
  | uploader =>
      simp only [Pipeline.step, uploaderStep] at hst
      (repeat' split at hst) <;> cases hst <;> rfl
  | uploaderWakes =>
      simp only [Pipeline.step] at hst
      split at hst <;> cases hst
      rfl

end Pipeline

end Jpgsync
