import Jpgsync.Pipeline.Batches

/-!
# Offer — Batching

The uploader's main loop without its socket, one iteration of the inner
`do … while` at a time, over a list that grows under it and for any
non-decreasing sequence of loaded totals. `latest_entry` is a node of the
list, `bytes` the length written into `buf`.

`Batched` says where every processed entry went; from it, what was offered
does not depend on the totals that were observed
(`offers_partition`). The pipeline, whose offers are built in one step,
goes through states of this loop only (`batching_of_pipeline`).
-/

namespace Jpgsync

/-- Control of the main loop. -/
inductive BatchPc where
  | head                   -- about to load `hasher_entry_count`
  | entry (total : Nat)    -- at the head of the `do … while`
  | send                   -- about to send the offer
  | nullNext               -- `latest_entry->next` was `NULL`
  | overrun                -- a digest was written past the end of `buf`
deriving DecidableEq, Repr

structure Batching where
  entries : List Entry     -- the hasher's list
  loaded : Nat             -- the last value of `hasher_entry_count`
  pc : BatchPc
  processedEntryCount : Nat
  latestEntry : Nat
  missingEntries : List Entry
  bytes : Nat
  offered : List (List Entry)

namespace Batching

/-- Before the first round. -/
def start (entries : List Entry) : Batching := ⟨entries, 0, .head, 0, 0, [], 0, []⟩

/-- `sizeof(buf)`. -/
def sizeofBuf : Nat := syncHashesPerPacket * sizeofExifHash

/-- `while (++processed_entry_count != total_entry_count &&
missing_entries.size() < SyncProtocol::hashes_per_packet)`, and behind the
loop the shortcut of an empty offer. -/
def whileCond (total : Nat) (s : Batching) : Batching :=
  { s with
    processedEntryCount := s.processedEntryCount + 1
    pc :=
      if s.processedEntryCount + 1 ≠ total ∧ s.missingEntries.length < syncHashesPerPacket then
        .entry total
      else if s.missingEntries.isEmpty then .head else .send }

/-- The body of the `do … while`; the `continue` of a skipped entry still
evaluates the condition. -/
def entryStep (received : List ExifHash) (total : Nat) (s : Batching) : Batching :=
  match (ExifHasher.next? s.entries s.latestEntry).bind fun node =>
      (s.entries[node - 1]?).map fun e => (node, e) with
  | none => { s with pc := .nullNext }
  | some (node, e) =>
    let s := { s with latestEntry := node }
    if e.hash ∈ received then s.whileCond total
    else if sizeofBuf < s.bytes + sizeofExifHash then { s with pc := .overrun }
    else
      { s with
        bytes := s.bytes + sizeofExifHash
        missingEntries := s.missingEntries ++ [e] }.whileCond total

inductive Act where
  | append (e : Entry)     -- the hasher appends
  | load (total : Nat)     -- `hasher_entry_count.load()` returns `total`
  | entry
  | send
deriving DecidableEq, Repr

def step (received : List ExifHash) (s : Batching) : Act → Option Batching
  | .append e => some { s with entries := s.entries ++ [e] }
  | .load total =>
    if s.pc = .head ∧ s.loaded ≤ total ∧ total ≤ s.entries.length then
      if s.processedEntryCount = total then some { s with loaded := total }
      else
        some { s with loaded := total, pc := .entry total, missingEntries := [], bytes := 0 }
    else none
  | .entry =>
    match s.pc with
    | .entry total => some (s.entryStep received total)
    | _ => none
  | .send =>
    if s.pc = .send then some { s with pc := .head, offered := s.offered ++ [s.missingEntries] }
    else none

def system (received : List ExifHash) : StepSystem Batching Act := ⟨step received⟩

/-- The entries prepared for the next offer. -/
def prepared (s : Batching) : List Entry :=
  match s.pc with
  | .entry _ | .send => s.missingEntries
  | .head | .nullNext | .overrun => []

/-- What the loop knows at each point. -/
def Facts (s : Batching) : Prop :=
  match s.pc with
  | .head => True
  | .entry total => total = s.loaded ∧ s.processedEntryCount < total ∧
      s.missingEntries.length < syncHashesPerPacket
  | .send => s.missingEntries ≠ [] ∧ s.missingEntries.length ≤ syncHashesPerPacket
  | .nullNext | .overrun => False

/-- **Where every processed entry is.** -/
structure Batched (received : List ExifHash) (s : Batching) : Prop where
  latest : s.latestEntry = s.processedEntryCount
  processed : s.processedEntryCount ≤ s.loaded
  loaded : s.loaded ≤ s.entries.length
  facts : s.Facts
  bytes : s.pc ≠ .head → s.bytes = s.missingEntries.length * sizeofExifHash
  sizes : ∀ o ∈ s.offered, 1 ≤ o.length ∧ o.length ≤ syncHashesPerPacket
  split : s.offered.flatten ++ s.prepared =
    (s.entries.take s.processedEntryCount).filter fun e => decide (e.hash ∉ received)

variable {received : List ExifHash} {entries : List Entry} {s t : Batching}

theorem batched_start (received : List ExifHash) (entries : List Entry) :
    Batched received (start entries) where
  latest := rfl
  processed := Nat.le_refl 0
  loaded := Nat.zero_le _
  facts := trivial
  bytes := by simp [start]
  sizes := by simp [start]
  split := rfl

/-! ## Every step keeps `Batched` -/

/-- What the loop condition keeps, once the entry is accounted for. -/
theorem Batched.whileCond {total : Nat} (hlatest : s.latestEntry = s.processedEntryCount + 1)
    (htotal : total = s.loaded) (hlt : s.processedEntryCount < total)
    (hloaded : s.loaded ≤ s.entries.length)
    (hroom : s.missingEntries.length ≤ syncHashesPerPacket)
    (hbytes : s.bytes = s.missingEntries.length * sizeofExifHash)
    (hsizes : ∀ o ∈ s.offered, 1 ≤ o.length ∧ o.length ≤ syncHashesPerPacket)
    (hsplit : s.offered.flatten ++ s.missingEntries =
      (s.entries.take (s.processedEntryCount + 1)).filter fun e => decide (e.hash ∉ received)) :
    Batched received (s.whileCond total) := by
  have hnext : s.processedEntryCount + 1 ≤ s.loaded := by omega
  by_cases hgo : s.processedEntryCount + 1 ≠ total ∧
      s.missingEntries.length < syncHashesPerPacket
  · have heq : s.whileCond total = { s with
        processedEntryCount := s.processedEntryCount + 1, pc := .entry total } := by
      rw [Batching.whileCond, if_pos hgo]
    rw [heq]
    exact ⟨hlatest, hnext, hloaded, ⟨htotal, by dsimp only; omega, hgo.2⟩, fun _ => hbytes,
      hsizes, hsplit⟩
  · by_cases hempty : s.missingEntries = []
    · have heq : s.whileCond total = { s with
          processedEntryCount := s.processedEntryCount + 1, pc := .head } := by
        rw [Batching.whileCond, if_neg hgo, if_pos (List.isEmpty_iff.mpr hempty)]
      rw [heq]
      refine ⟨hlatest, hnext, hloaded, trivial, fun _ => hbytes, hsizes, ?_⟩
      rw [← hsplit, hempty]
      rfl
    · have heq : s.whileCond total = { s with
          processedEntryCount := s.processedEntryCount + 1, pc := .send } := by
        rw [Batching.whileCond, if_neg hgo, if_neg (by simpa using hempty)]
      rw [heq]
      exact ⟨hlatest, hnext, hloaded, ⟨hempty, hroom⟩, fun _ => hbytes, hsizes, hsplit⟩

/-- The next entry of the loop is on the list. -/
theorem Batched.latest_lt {total : Nat} (h : Batched received s) (hpc : s.pc = .entry total) :
    s.latestEntry < s.entries.length := by
  have hfacts := h.facts
  simp only [Facts, hpc] at hfacts
  have hloaded := h.loaded
  rw [h.latest]
  omega

/-- **One iteration** skips the next entry or prepares it. -/
theorem Batched.entryStep_eq {total : Nat} (h : Batched received s) (hpc : s.pc = .entry total)
    (hin : s.latestEntry < s.entries.length) :
    s.entryStep received total =
      if s.entries[s.latestEntry].hash ∈ received then
        { s with latestEntry := s.latestEntry + 1 }.whileCond total
      else
        { s with
          latestEntry := s.latestEntry + 1
          bytes := s.bytes + sizeofExifHash
          missingEntries := s.missingEntries ++ [s.entries[s.latestEntry]] }.whileCond total := by
  have hfacts := h.facts
  simp only [Facts, hpc] at hfacts
  have hnode : ((ExifHasher.next? s.entries s.latestEntry).bind fun node =>
      (s.entries[node - 1]?).map fun e => (node, e)) =
      some (s.latestEntry + 1, s.entries[s.latestEntry]) := by
    simp [ExifHasher.next?, hin]
  -- with fewer than a full offer there is room for one more digest
  have hfits : ¬ sizeofBuf < s.bytes + sizeofExifHash := by
    rw [h.bytes (by simp [hpc]), ← Nat.succ_mul]
    exact Nat.not_lt.mpr (Nat.mul_le_mul_right _ hfacts.2.2)
  rw [Batching.entryStep, hnode]
  dsimp only
  rw [if_neg hfits]

theorem Batched.entryStep {total : Nat} (h : Batched received s) (hpc : s.pc = .entry total) :
    Batched received (s.entryStep received total) := by
  have hin := h.latest_lt hpc
  have hfacts := h.facts
  simp only [Facts, hpc] at hfacts
  obtain ⟨htotal, hlt, hroom⟩ := hfacts
  have hbytes := h.bytes (by simp [hpc])
  have hsplit := h.split
  simp only [prepared, hpc] at hsplit
  have htake : s.entries.take (s.processedEntryCount + 1) =
      s.entries.take s.processedEntryCount ++ [s.entries[s.latestEntry]] := by
    rw [← h.latest, List.take_append_getElem hin]
  rw [h.entryStep_eq hpc hin]
  by_cases hmem : s.entries[s.latestEntry].hash ∈ received
  · rw [if_pos hmem]
    refine .whileCond (by rw [← h.latest]) htotal hlt h.loaded (Nat.le_of_lt hroom) hbytes
      h.sizes ?_
    rw [htake, List.filter_append, ← hsplit]
    simp [hmem]
  · rw [if_neg hmem]
    refine .whileCond (by rw [← h.latest]) htotal hlt h.loaded ?_ ?_ h.sizes ?_
    · rw [List.length_append]
      exact hroom
    · rw [List.length_append, Nat.add_mul, hbytes]
      rfl
    · rw [htake, List.filter_append, ← hsplit, List.append_assoc]
      simp [hmem]

theorem Batched.step (h : Batched received s) {a : Act} (hst : s.step received a = some t) :
    Batched received t := by
  cases a with
  | append e =>
      cases hst
      have hle : s.processedEntryCount ≤ s.entries.length := Nat.le_trans h.processed h.loaded
      refine { h with loaded := ?_, split := ?_ }
      · rw [List.length_append]
        exact Nat.le_add_right_of_le h.loaded
      · dsimp only
        rw [List.take_append_of_le_length hle]
        exact h.split
  | load total =>
      simp only [Batching.step] at hst
      split at hst
      · rename_i hok
        obtain ⟨hpc, hmono, hbound⟩ := hok
        have hp := h.processed
        split at hst
        · cases hst
          exact { h with processed := Nat.le_trans hp hmono, loaded := hbound,
                         facts := by simp [Facts, hpc] }
        · rename_i hne
          cases hst
          have hsplit := h.split
          simp only [prepared, hpc] at hsplit
          exact { h with
            processed := Nat.le_trans hp hmono, loaded := hbound
            facts := ⟨rfl, by dsimp only; omega, show 0 < syncHashesPerPacket by decide⟩
            bytes := fun _ => rfl
            split := hsplit }
      · cases hst
  | entry =>
      simp only [Batching.step] at hst
      split at hst
      · rename_i total hpc
        cases hst
        exact h.entryStep hpc
      · cases hst
  | send =>
      simp only [Batching.step] at hst
      split at hst
      · rename_i hpc
        cases hst
        have hfacts := h.facts
        have hsplit := h.split
        simp only [Facts, hpc] at hfacts
        simp only [prepared, hpc] at hsplit
        refine { h with facts := trivial, bytes := by simp, sizes := ?_, split := ?_ }
        · intro o ho
          rcases List.mem_append.mp ho with ho | ho
          · exact h.sizes o ho
          · rw [List.mem_singleton.mp ho]
            exact ⟨List.length_pos_iff.mpr hfacts.1, hfacts.2⟩
        · simpa [prepared] using hsplit
      · cases hst

theorem batched_of_reachable (hs : (system received).Reachable (start entries) s) :
    Batched received s :=
  hs.invariant (fun _ _ _ h hst => h.step hst) (batched_start received entries)

/-! ## The property itself -/

/-- **Offers are batches of the entries not received.** Whatever the list,
the received hashes and the totals that are loaded: no `NULL` next pointer
is followed and nothing is written past `buf`; every offer has between one
and `hashes_per_packet` hashes; and the offers sent, followed by the one in
preparation, are the processed entries not received, in the order of the
list. Once the whole list is processed this is the whole list, however its
growth was observed. -/
theorem offers_partition (hs : (system received).Reachable (start entries) s) :
    (s.pc ≠ .nullNext ∧ s.pc ≠ .overrun) ∧
      (∀ o ∈ s.offered, 1 ≤ o.length ∧ o.length ≤ syncHashesPerPacket) ∧
      (s.pc = .send → 1 ≤ s.missingEntries.length ∧
        s.missingEntries.length ≤ syncHashesPerPacket ∧ s.bytes ≤ sizeofBuf) ∧
      s.offered.flatten ++ s.prepared =
        (s.entries.take s.processedEntryCount).filter (fun e => decide (e.hash ∉ received)) ∧
      (s.processedEntryCount = s.entries.length → s.offered.flatten ++ s.prepared =
        s.entries.filter fun e => decide (e.hash ∉ received)) := by
  have h := batched_of_reachable hs
  have hfacts := h.facts
  refine ⟨⟨fun hpc => ?_, fun hpc => ?_⟩, h.sizes, fun hpc => ?_, h.split, fun hall => ?_⟩
  · simp [Facts, hpc] at hfacts
  · simp [Facts, hpc] at hfacts
  · simp only [Facts, hpc] at hfacts
    refine ⟨List.length_pos_iff.mpr hfacts.1, hfacts.2, ?_⟩
    rw [h.bytes (by simp [hpc])]
    exact Nat.mul_le_mul_right _ hfacts.2
  · rw [h.split, hall, List.take_length]

/-- Three entries, the second of which is received. -/
def threeEntries : List Entry :=
  [⟨⟨1, 0, 0, 0, 0⟩, [97]⟩, ⟨⟨2, 0, 0, 0, 0⟩, [98]⟩, ⟨⟨3, 0, 0, 0, 0⟩, [99]⟩]

/-- Totals of two, again two, and three. -/
def threeEntriesSchedule : List Act :=
  [.load 2, .entry, .entry, .send, .load 2, .load 3, .entry, .send]

theorem offers_partition_threeEntries :
    ∃ s, (system [⟨2, 0, 0, 0, 0⟩]).exec (start threeEntries) threeEntriesSchedule = some s ∧
      s.offered.flatten ++ s.prepared =
        threeEntries.filter fun e => decide (e.hash ∉ [(⟨2, 0, 0, 0, 0⟩ : ExifHash)]) := by
  refine ⟨_, rfl, ?_⟩
  have hreach : (system [⟨2, 0, 0, 0, 0⟩]).Reachable (start threeEntries) _ :=
    ⟨threeEntriesSchedule, rfl⟩
  exact (offers_partition hreach).2.2.2.2 rfl

/-! ## The pipeline goes through this loop -/

/-- The hasher appends several entries. -/
theorem exec_append (s : Batching) (es : List Entry) :
    (system received).exec s (es.map .append) = some { s with entries := s.entries ++ es } := by
  induction es generalizing s with
  | nil => simp
  | cons e es ih =>
      rw [List.map_cons, StepSystem.exec, show (system received).step s (.append e) =
        some { s with entries := s.entries ++ [e] } from rfl, Option.bind_some, ih,
        List.append_assoc]
      rfl

/-- What a whole `do … while` leaves of the round it ends. -/
structure RoundOf (s t : Batching) (r : OfferLoop) : Prop where
  entries : t.entries = s.entries
  loaded : t.loaded = s.loaded
  offered : t.offered = s.offered
  processed : t.processedEntryCount = r.processed
  missing : t.missingEntries = r.missing
  pc : t.pc = if r.missing.isEmpty then .head else .send

/-- **The whole loop** is its iterations, one after the other. -/
theorem exec_offerLoop {total : Nat} :
    ∀ (rest skipped : List Entry) (s : Batching) (r : OfferLoop), Batched received s →
      s.pc = .entry total → s.entries.drop s.latestEntry = rest →
      offerLoop received total rest ⟨s.processedEntryCount, s.missingEntries, skipped⟩ = some r →
      ∃ n t, (system received).exec s (List.replicate n .entry) = some t ∧ RoundOf s t r := by
  intro rest
  induction rest with
  | nil => intro _ _ _ _ _ _ hr; cases hr
  | cons e rest ih =>
      intro skipped s r h hpc hrest hr
      have hin := h.latest_lt hpc
      obtain ⟨he, hrest'⟩ : s.entries[s.latestEntry] = e ∧
          s.entries.drop (s.latestEntry + 1) = rest := by
        rw [List.drop_eq_getElem_cons hin] at hrest
        exact List.cons.inj hrest
      have hstep : (system received).step s .entry = some (s.entryStep received total) := by
        simp [system, Batching.step, hpc]
      have hnext := h.entryStep hpc
      rw [h.entryStep_eq hpc hin, he] at hstep hnext
      rw [offerLoop] at hr
      split at hr
      · cases hr
      · -- the state after this entry, as `offerLoop` has it
        let u : OfferLoop := if e.hash ∈ received then
            ⟨s.processedEntryCount + 1, s.missingEntries, skipped ++ [e]⟩
          else ⟨s.processedEntryCount + 1, s.missingEntries ++ [e], skipped⟩
        obtain ⟨v, hv, hwhile, hent, hload, hoff, hlat⟩ : ∃ v : Batching,
            (system received).step s .entry = some (v.whileCond total) ∧
            (v.missingEntries = u.missing ∧ v.processedEntryCount + 1 = u.processed) ∧
            v.entries = s.entries ∧ v.loaded = s.loaded ∧ v.offered = s.offered ∧
            v.latestEntry = s.latestEntry + 1 := by
          by_cases hmem : e.hash ∈ received
          · rw [if_pos hmem] at hstep
            exact ⟨_, hstep, by simp [u, hmem], rfl, rfl, rfl, rfl⟩
          · rw [if_neg hmem] at hstep
            exact ⟨_, hstep, by simp [u, hmem], rfl, rfl, rfl, rfl⟩
        have hb : Batched received (v.whileCond total) := h.step (a := .entry) hv
        change (if u.processed ≠ total ∧ u.missing.length < syncHashesPerPacket then
          offerLoop received total rest u else some u) = some r at hr
        by_cases hgo : u.processed ≠ total ∧ u.missing.length < syncHashesPerPacket
        · rw [if_pos hgo] at hr
          have hpc' : (v.whileCond total).pc = .entry total := by
            simp only [Batching.whileCond, hwhile.1, hwhile.2]
            rw [if_pos hgo]
          obtain ⟨n, t, ht, hround⟩ := ih u.skipped (v.whileCond total) r hb hpc'
            (by simp only [Batching.whileCond, hent, hlat, hrest'])
            (by simp only [Batching.whileCond, hwhile.1, hwhile.2]; exact hr)
          refine ⟨n + 1, t, StepSystem.exec_cons.mpr ⟨_, hv, ht⟩, ?_⟩
          exact { hround with
            entries := hround.entries.trans hent
            loaded := hround.loaded.trans hload
            offered := hround.offered.trans hoff }
        · rw [if_neg hgo] at hr
          obtain rfl : u = r := Option.some.inj hr
          refine ⟨1, v.whileCond total, StepSystem.exec_cons.mpr ⟨_, hv, rfl⟩, hent, hload, hoff,
            hwhile.2, hwhile.1, ?_⟩
          simp only [Batching.whileCond, hwhile.1, hwhile.2]
          rw [if_neg hgo]

/-- Where the loop is while the pipeline's uploader is at `pc`. -/
def pcOf : UploaderPc → BatchPc
  | .process total => .entry total
  | .offer _ => .send
  | .overrun => .overrun
  | .load | .lock _ | .test _ | .asleep | .relock | .resume | .finished => .head

/-- The offer the pipeline has built and not sent. -/
def unsentOffer : UploaderPc → List (List Entry)
  | .offer missing => [missing]
  | _ => []

/-- **The loop inside the pipeline.** -/
structure Inside (p : Pipeline) (s : Batching) : Prop where
  entries : s.entries = p.hasher.entries
  processed : s.processedEntryCount = p.processedEntryCount
  loaded : s.loaded ≤ p.hasherEntryCount
  pc : s.pc = pcOf p.uploader
  offered : s.offered ++ unsentOffer p.uploader = p.offered
  fresh : ∀ total, p.uploader = .process total → s.missingEntries = []
  missing : ∀ missing, p.uploader = .offer missing → s.missingEntries = missing

variable {args : RunArgs} {scans : List Scan} {p q : Pipeline} {a : Pipeline.Act}

/-- Nobody but the downloader changes `hasher_entry_count`, and it only
adds. -/
theorem hasherEntryCount_mono (hst : p.step args received a = some q) :
    p.hasherEntryCount ≤ q.hasherEntryCount := by
  cases a with
  | run | getWakes =>
      obtain ⟨hasher, _, rfl⟩ := Option.map_eq_some_iff.mp hst
      exact Nat.le_refl _
  | call count | uploaderWakes =>
      simp only [Pipeline.step] at hst
      split at hst <;> cases hst
      exact Nat.le_refl _
  | downloader =>
      simp only [Pipeline.step, Pipeline.downloaderStep] at hst
      split at hst
      next =>
        split at hst
        next => cases hst; exact Nat.le_refl _
        next =>
          obtain ⟨hasher, _, rfl⟩ := Option.map_eq_some_iff.mp hst
          exact Nat.le_refl _
      next => cases hst; exact Nat.le_add_right _ _
      next => cases hst; exact Nat.le_refl _
      next => cases hst; exact Nat.le_refl _
      next => split at hst <;> cases hst; exact Nat.le_refl _
      next => cases hst; exact Nat.le_refl _
      next => cases hst
  | uploader =>
      simp only [Pipeline.step, Pipeline.uploaderStep] at hst
      (repeat' split at hst) <;> cases hst <;> exact Nat.le_refl _

/-- A step of another thread: the list may have grown. -/
theorem Inside.other (h : Inside p s) (ha : a ≠ .uploader)
    (hst : p.step args received a = some q) :
    ∃ t, (system received).Reachable s t ∧ Inside q t := by
  obtain ⟨ext, hext⟩ := Pipeline.entries_frame hst
  obtain ⟨hup, hproc, hoff, _⟩ := Pipeline.uploader_frame ha hst
  have hcount := Nat.le_trans h.loaded (hasherEntryCount_mono hst)
  refine ⟨_, ⟨_, exec_append s ext⟩, by rw [← hext, ← h.entries], by rw [hproc]; exact h.processed,
    hcount, ?_, ?_, ?_, ?_⟩
  · rcases hup with hup | ⟨hsleep, hwake⟩
    · rw [hup]
      exact h.pc
    · rw [hwake]
      exact h.pc.trans (by rw [hsleep]; rfl)
  · rcases hup with hup | ⟨hsleep, hwake⟩
    · rw [hup, hoff]
      exact h.offered
    · rw [hwake, hoff, ← h.offered, hsleep]
      rfl
  · intro total htotal
    rcases hup with hup | ⟨_, hwake⟩
    · exact h.fresh total (hup ▸ htotal)
    · rw [hwake] at htotal
      cases htotal
  · intro missing hmissing
    rcases hup with hup | ⟨_, hwake⟩
    · exact h.missing missing (hup ▸ hmissing)
    · rw [hwake] at hmissing
      cases hmissing

/-- A step of the uploader that leaves the batches alone. -/
theorem Inside.stay (h : Inside p s) {pc : UploaderPc} {mutex : Option ProgressThread}
    (hhead : pcOf p.uploader = .head ∧ pcOf pc = .head)
    (hnew : unsentOffer p.uploader = [] ∧ unsentOffer pc = []) :
    Inside { p with uploader := pc, progressMutex := mutex } s := by
  refine ⟨h.entries, h.processed, h.loaded, by rw [h.pc, hhead.1, hhead.2], ?_, ?_, ?_⟩
  · rw [hnew.2, ← hnew.1]
    exact h.offered
  · intro total htotal
    have hpc : pcOf pc = .head := hhead.2
    rw [show pc = .process total from htotal] at hpc
    cases hpc
  · intro missing hmissing
    have hpc : pcOf pc = .head := hhead.2
    rw [show pc = .offer missing from hmissing] at hpc
    cases hpc

/-- A step of the uploader. -/
theorem Inside.uploader (h : Inside p s)
    (hsound : Pipeline.Sound args.progressThreshold received scans p) (hb : Batched received s)
    (hst : p.uploaderStep received = some q) :
    ∃ t, (system received).Reachable s t ∧ Inside q t := by
  have hrefl : (system received).Reachable s s := ⟨[], rfl⟩
  unfold Pipeline.uploaderStep at hst
  split at hst
  next hup =>
    cases hst
    have hpc : s.pc = .head := by rw [h.pc, hup]; rfl
    have hguard : s.pc = .head ∧ s.loaded ≤ p.hasherEntryCount ∧
        p.hasherEntryCount ≤ s.entries.length :=
      ⟨hpc, h.loaded, by rw [h.entries]; exact hsound.inv.count_le hsound.handOver⟩
    have hoff : s.offered = p.offered := by
      simpa [hup, unsentOffer] using h.offered
    by_cases heq : p.processedEntryCount = p.hasherEntryCount
    · refine ⟨{ s with loaded := p.hasherEntryCount }, ⟨[.load p.hasherEntryCount], ?_⟩, ?_⟩
      · simp [StepSystem.exec, system, Batching.step, hguard, h.processed, heq]
      · exact ⟨h.entries, h.processed, Nat.le_refl _, by simp [heq, hpc, pcOf],
          by simp [heq, hoff, unsentOffer], by simp [heq], by simp [heq]⟩
    · refine ⟨{ s with
          loaded := p.hasherEntryCount, pc := .entry p.hasherEntryCount, missingEntries := [],
          bytes := 0 }, ⟨[.load p.hasherEntryCount], ?_⟩, ?_⟩
      · simp [StepSystem.exec, system, Batching.step, hguard, h.processed, heq]
      · exact ⟨h.entries, h.processed, Nat.le_refl _, by simp [heq, pcOf],
          by simp [heq, hoff, unsentOffer], fun _ _ => rfl, by simp [heq]⟩
  next total hup =>
    split at hst <;> cases hst
    exact ⟨s, hrefl, h.stay (by simp [hup, pcOf]) (by simp [hup, unsentOffer])⟩
  next total hup =>
    cases hst
    refine ⟨s, hrefl, h.stay ?_ ?_⟩ <;> rw [hup]
    · split <;> exact ⟨rfl, rfl⟩
    · split <;> exact ⟨rfl, rfl⟩
  next => cases hst
  next hup =>
    split at hst <;> cases hst
    exact ⟨s, hrefl, h.stay (by simp [hup, pcOf]) (by simp [hup, unsentOffer])⟩
  next hup =>
    cases hst
    exact ⟨s, hrefl, h.stay (by simp [hup, pcOf]) (by simp [hup, unsentOffer])⟩
  next total hup =>
    obtain ⟨_, r', hr', _⟩ := hsound.inv.processed_step received hsound.handOver hup
    split at hst
    next hnone => rw [hr'] at hnone; cases hnone
    next r hr =>
      cases hst
      have hpc : s.pc = .entry total := by rw [h.pc, hup]; rfl
      have hoff : s.offered = p.offered := by
        simpa [hup, unsentOffer] using h.offered
      have hrest : s.entries.drop s.latestEntry = p.hasher.entries.drop p.latestEntry := by
        rw [h.entries, hb.latest, h.processed, hsound.inv.latest]
      obtain ⟨n, t, ht, hround⟩ := exec_offerLoop _ p.skipped s r hb hpc hrest
        (by rw [h.processed, h.fresh total hup]; exact hr)
      refine ⟨t, ⟨_, ht⟩, hround.entries.trans h.entries, hround.processed,
        by rw [hround.loaded]; exact h.loaded, ?_, ?_, ?_, ?_⟩
      · rw [hround.pc]
        dsimp only
        split <;> rfl
      · rw [hround.offered, hoff]
        dsimp only
        split <;> simp [unsentOffer]
      · intro total' htotal
        dsimp only at htotal
        split at htotal <;> cases htotal
      · intro missing hmissing
        dsimp only at hmissing
        split at hmissing <;> cases hmissing
        exact hround.missing
  next missing hup =>
    cases hst
    have hpc : s.pc = .send := by rw [h.pc, hup]; rfl
    refine ⟨{ s with pc := .head, offered := s.offered ++ [s.missingEntries] }, ⟨[.send], ?_⟩,
      h.entries, h.processed, h.loaded, rfl, ?_, by simp, by simp⟩
    · simp [StepSystem.exec, system, Batching.step, hpc]
    · rw [← h.offered, hup, h.missing missing hup]
      simp [unsentOffer]
  next => cases hst
  next => cases hst

/-- **The pipeline refines this loop**: in every state it reaches, the
uploader's variables are those of a state the loop reaches. -/
theorem batching_of_pipeline (hu : args.unique = true)
    (hp : (Pipeline.system args received).Reachable (Pipeline.start scans) p) :
    ∃ s, (system received).Reachable (start []) s ∧ Inside p s := by
  refine (hp.invariant (I := fun p => Pipeline.Sound args.progressThreshold received scans p ∧
    ∃ s, (system received).Reachable (start []) s ∧ Inside p s) ?_
    ⟨Pipeline.sound_start _ _ _, start [], ⟨[], rfl⟩, rfl, rfl, Nat.le_refl _, rfl, rfl,
      by simp [Pipeline.start], by simp [Pipeline.start]⟩).2
  rintro p a q ⟨hsound, s, hs, hin⟩ hst
  refine ⟨hsound.step hu hst, ?_⟩
  obtain ⟨t, ht, hin'⟩ : ∃ t, (system received).Reachable s t ∧ Inside q t := by
    by_cases ha : a = .uploader
    · subst ha
      exact hin.uploader hsound (batched_of_reachable hs) hst
    · exact hin.other ha hst
  exact ⟨t, hs.trans ht, hin'⟩

/-- Both batches of two are counted, then the uploader offers what is new to
the other side. -/
def fourPathsBatches : List Pipeline.Act :=
  List.replicate 9 .run ++ .call 2 :: List.replicate 7 .downloader ++
    .call 2 :: List.replicate 6 .downloader ++ List.replicate 6 .uploader

theorem batching_of_pipeline_fourPaths :
    ∃ s, (system [⟨1, 0, 0, 0, 0⟩]).Reachable (start []) s ∧
      s.offered = [[⟨⟨2, 0, 0, 0, 0⟩, [100]⟩]] := by
  have hrun : ((Pipeline.system ⟨2, true⟩ [⟨1, 0, 0, 0, 0⟩]).exec
      (Pipeline.start ExifHasher.fourPaths) fourPathsBatches).map
        (fun p => (p.uploader, p.offered)) =
      some (.finished, [[⟨⟨2, 0, 0, 0, 0⟩, [100]⟩]]) := by
    decide +kernel
  obtain ⟨p, hp, heq⟩ := Option.map_eq_some_iff.mp hrun
  rw [Prod.mk.injEq] at heq
  obtain ⟨s, hs, hin⟩ := batching_of_pipeline rfl ⟨_, hp⟩
  refine ⟨s, hs, ?_⟩
  rw [← heq.2, ← hin.offered, heq.1]
  simp [unsentOffer]

end Batching
end Jpgsync
