import Jpgsync.ExifHasher.HandOver

/-!
# Pipeline — hashing, update loop and upload loop of one peer

The three threads of `Peer::Sync` that meet at the hasher and at
`hasher_progress`: the hashing thread, the downloader up to its
`hashing = false` block, and the uploader's main loop. Every access to
`hasher_entry_count`, `hashing`, `hasher_progress_mutex` and the condition
variable is a step; building an offer (the `do … while`) reads only
entries that are already announced and is one step, and what the uploader
then does on its socket is the single step out of `offer`.

How many entries a call of `Get` asks for is left to the schedule;
`Peer::Sync` always asks for `UpdateProtocol::hashes_per_packet`.
-/

namespace Jpgsync

/-- `kIPMss`. -/
def kIPMss : Nat := 576 - 20

/-- `SyncProtocol::hashes_per_packet`. -/
def syncHashesPerPacket : Nat := (kIPMss - 20) / sizeofExifHash

/-- `UpdateProtocol::hashes_per_packet` (`SOCK_DCCP`). -/
def updateHashesPerPacket : Nat := (kIPMss - 16) / sizeofExifHash

/-- The threads that lock `hasher_progress_mutex`. -/
inductive ProgressThread where
  | downloader
  | uploader
deriving DecidableEq, Repr

/-- Control of the downloader in its update loop. -/
inductive DownloaderPc where
  | get                             -- in `ExifHasher::Get`
  | fetchAdd (segment : List Entry)
  | notify (segment : List Entry)
  | send (segment : List Entry)     -- about to send the update packet
  | doneLock                        -- about to lock `hasher_progress_mutex`
  | done                            -- holds it
  | finished                        -- past the `hashing = false` block
deriving DecidableEq, Repr

/-- Control of the uploader in its main loop. -/
inductive UploaderPc where
  | load
  | lock (total : Nat)              -- nothing new, about to lock
  | test (total : Nat)              -- holds `hasher_progress_mutex`
  | asleep                          -- in `hasher_progress.wait`
  | relock                          -- woken, about to lock again
  | resume                          -- holds it again
  | process (total : Nat)
  | offer (missing : List Entry)    -- the offer is built
  | finished
  | overrun                         -- followed `NULL` or wrote past `buf`
deriving DecidableEq, Repr

structure Pipeline where
  hasher : ExifHasher
  hasherEntryCount : Nat
  hashing : Bool
  progressMutex : Option ProgressThread
  downloader : DownloaderPc
  uploader : UploaderPc
  processedEntryCount : Nat
  latestEntry : Nat
  offered : List (List Entry)       -- the offers built so far
  skipped : List Entry              -- the entries left out so far

/-- What the offer loop leaves: `processed_entry_count`, `missing_entries`
and the entries it skipped. -/
structure OfferLoop where
  processed : Nat
  missing : List Entry
  skipped : List Entry
deriving DecidableEq, Repr

/-- The `do … while` that builds an offer. `rest` is the list behind
`latest_entry`; `none` is a `NULL` next pointer or a digest written past
the end of `buf`. The `continue` of a skipped entry still runs the loop
condition, increment included. -/
def offerLoop (received : List ExifHash) (total : Nat) :
    List Entry → OfferLoop → Option OfferLoop
  | [], _ => none
  | e :: rest, s =>
    if e.hash ∉ received ∧
        syncHashesPerPacket * sizeofExifHash < (s.missing.length + 1) * sizeofExifHash then
      none
    else
      let s' : OfferLoop :=
        if e.hash ∈ received then ⟨s.processed + 1, s.missing, s.skipped ++ [e]⟩
        else ⟨s.processed + 1, s.missing ++ [e], s.skipped⟩
      if s'.processed ≠ total ∧ s'.missing.length < syncHashesPerPacket then
        offerLoop received total rest s'
      else
        some s'

namespace Pipeline

/-- The shared state when the threads start. -/
def start (gen : List Scan) : Pipeline where
  hasher := .start gen
  hasherEntryCount := 0
  hashing := true
  progressMutex := none
  downloader := .get
  uploader := .load
  processedEntryCount := 0
  latestEntry := 0
  offered := []
  skipped := []

/-- `hasher_progress.notify_one()`: only the uploader ever waits. -/
def notifyUploader : UploaderPc → UploaderPc
  | .asleep => .relock
  | pc => pc

/-- The downloader's next step outside a call of `Get` that it could make. -/
def downloaderStep (s : Pipeline) : Option Pipeline :=
  match s.downloader with
  | .get =>
    match s.hasher.get with
    | .returned segment =>
      some { s with
        hasher := { s.hasher with get := .idle }
        downloader := if segment.length = 0 then .doneLock else .fetchAdd segment }
    | _ => s.hasher.getStep.map fun hasher => { s with hasher := hasher }
  | .fetchAdd segment =>
    some { s with
      hasherEntryCount := s.hasherEntryCount + segment.length
      downloader := .notify segment }
  | .notify segment =>
    -- not under the mutex, so the uploader may be between its test and its sleep
    some { s with uploader := notifyUploader s.uploader, downloader := .send segment }
  | .send _ => some { s with downloader := .get }
  | .doneLock =>
    if s.progressMutex = none then
      some { s with progressMutex := some .downloader, downloader := .done }
    else none
  | .done =>
    some { s with
      hashing := false
      uploader := notifyUploader s.uploader
      progressMutex := none
      downloader := .finished }
  | .finished => none

/-- The uploader's next step. -/
def uploaderStep (received : List ExifHash) (s : Pipeline) : Option Pipeline :=
  match s.uploader with
  | .load =>
    let total := s.hasherEntryCount
    some { s with
      uploader := if s.processedEntryCount = total then .lock total else .process total }
  | .lock total =>
    if s.progressMutex = none then
      some { s with progressMutex := some .uploader, uploader := .test total }
    else none
  -- the mutex is given up by leaving the loop or by `wait`; the total is not loaded again
  | .test _ =>
    some { s with
      progressMutex := none
      uploader := if s.hashing = false then .finished else .asleep }
  | .asleep => none
  | .relock =>
    if s.progressMutex = none then
      some { s with progressMutex := some .uploader, uploader := .resume }
    else none
  | .resume => some { s with progressMutex := none, uploader := .load }
  | .process total =>
    match offerLoop received total (s.hasher.entries.drop s.latestEntry)
        ⟨s.processedEntryCount, [], s.skipped⟩ with
    | none => some { s with uploader := .overrun }
    | some r =>
      some { s with
        processedEntryCount := r.processed
        latestEntry := s.latestEntry + (r.processed - s.processedEntryCount)
        skipped := r.skipped
        offered := if r.missing.isEmpty then s.offered else s.offered ++ [r.missing]
        uploader := if r.missing.isEmpty then .load else .offer r.missing }
  | .offer _ => some { s with uploader := .load }
  | .finished => none
  | .overrun => none

inductive Act where
  | run
  | call (count : Nat)   -- the downloader calls `Get(&count)`
  | getWakes             -- spurious wake-up of the downloader in `Get`
  | downloader
  | uploader
  | uploaderWakes        -- spurious wake-up of the uploader
deriving DecidableEq, Repr

def step (args : RunArgs) (received : List ExifHash) (s : Pipeline) : Act → Option Pipeline
  | .run => (s.hasher.runStep args).map fun hasher => { s with hasher := hasher }
  | .call count =>
    if s.downloader = .get ∧ s.hasher.get = .idle ∧ 0 < count then
      some { s with hasher := { s.hasher with get := .lock count } }
    else none
  | .getWakes => (s.hasher.step args .getWakes).map fun hasher => { s with hasher := hasher }
  | .downloader => s.downloaderStep
  | .uploader => s.uploaderStep received
  | .uploaderWakes =>
    if s.uploader = .asleep then some { s with uploader := .relock } else none

/-- The three threads, with `received_hashes` fixed. -/
def system (args : RunArgs) (received : List ExifHash) : StepSystem Pipeline Act :=
  ⟨step args received⟩

/-! ## The hasher inside the pipeline -/

/-- **Each step is a step of the hasher or leaves the hasher alone.** -/
theorem hasher_step {args : RunArgs} {received : List ExifHash} {s t : Pipeline} {a : Act}
    (h : s.step args received a = some t) :
    t.hasher = s.hasher ∨
      ∃ b, ExifHasher.Asks b ∧ s.hasher.step args b = some t.hasher := by
  cases a with
  | run =>
      obtain ⟨hasher, hh, rfl⟩ := Option.map_eq_some_iff.mp h
      exact Or.inr ⟨.run, trivial, hh⟩
  | call count =>
      simp only [step] at h
      split at h
      · rename_i hc
        cases h
        exact Or.inr ⟨.call count, hc.2.2, by simp [ExifHasher.step, hc.2.1]⟩
      · cases h
  | getWakes =>
      obtain ⟨hasher, hh, rfl⟩ := Option.map_eq_some_iff.mp h
      exact Or.inr ⟨.getWakes, trivial, hh⟩
  | downloader =>
      simp only [step, downloaderStep] at h
      split at h
      · split at h
        · rename_i segment hget
          cases h
          exact Or.inr ⟨.take, trivial, by simp [ExifHasher.step, hget]⟩
        · obtain ⟨hasher, hh, rfl⟩ := Option.map_eq_some_iff.mp h
          exact Or.inr ⟨.get, trivial, hh⟩
      · cases h; exact Or.inl rfl
      · cases h; exact Or.inl rfl
      · cases h; exact Or.inl rfl
      · split at h
        · cases h; exact Or.inl rfl
        · cases h
      · cases h; exact Or.inl rfl
      · cases h
  | uploader =>
      simp only [step, uploaderStep] at h
      split at h
      · cases h; exact Or.inl rfl
      · split at h
        · cases h; exact Or.inl rfl
        · cases h
      · cases h; exact Or.inl rfl
      · cases h
      · split at h
        · cases h; exact Or.inl rfl
        · cases h
      · cases h; exact Or.inl rfl
      · split at h <;> (cases h; exact Or.inl rfl)
      · cases h; exact Or.inl rfl
      · cases h
      · cases h
  | uploaderWakes =>
      simp only [step] at h
      split at h
      · cases h; exact Or.inl rfl
      · cases h

end Pipeline
end Jpgsync
