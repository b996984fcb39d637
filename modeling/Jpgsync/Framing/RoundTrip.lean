import Jpgsync.Framing
import Jpgsync.Download.Progress
import Jpgsync.Lib.StepSystem

/-!
# Framing — RoundTrip

The files of one round, from the uploader's calls to the downloader's.
What the uploader writes is the files one after the other (`written_eq`),
each with the size `tellg` gave; of a size, four bytes are sent. So the
downloader recovers the round, however the calls on the stream cut it,
exactly when every size fits them (`round_trips_iff`).
-/

namespace Jpgsync

/-! ## What a round writes -/

namespace UploadPc

/-- In the file loop. -/
def InFiles : UploadPc → Prop
  | .entry _ _ | .name _ _ | .openFile _ | .size _ _ _ | .read _ _ | .payload _ _ | .overrun =>
    True
  | .wait | .lockUpdated | .setUpdated | .main | .offer _ _ | .mask _ _ | .closed => False

end UploadPc

namespace Emission

open UploadPc

def system : StepSystem Emission Nat := ⟨fun s k => s.step k⟩

variable {total k : Nat} {s t : Emission}

theorem Writing.inFiles {pc next : UploadPc} {rest : Bytes} {more : Bytes → UploadPc}
    (hw : Writing pc rest more next) (h : InFiles pc) :
    (∀ bytes, InFiles (more bytes)) ∧ InFiles next := by
  cases hw with
  | offer rest missing => exact h.elim
  | name | size | payload => exact ⟨fun _ => trivial, trivial⟩

theorem inFiles_step (hbounds : InBounds total s.pc) (h : InFiles s.pc)
    (hst : s.step k = some t) : InFiles t.pc := by
  cases branch_of_step hbounds hst with
  | write hw hst =>
      rcases pc_of_write hst with ht | ⟨bytes, ht⟩ <;> rw [ht]
      · exact (hw.inFiles h).2
      · exact (hw.inFiles h).1 bytes
  | short buf missing hpc hread ht | notOpened l hpc hopen ht => rw [ht]; exact h
  | readMask buf buf' missing hpc =>
      rw [hpc] at h
      exact h.elim
  | decode buf missing hpc hlen ht | begin cursor e rest hpc hwants ht
  | skip cursor e rest hpc hwants ht | openFile l contents hpc hopen ht
  | read fileSize l hpc contents hcontents ht => rw [ht]; trivial

/-- **How much of the files is written**, since `s₀`. -/
structure Sending (total : Nat) (s₀ s : Emission) : Prop where
  inFiles : InFiles s.pc
  bounds : InBounds total s.pc
  written : ∃ files, s.uploads = s₀.uploads ++ files ∧
    s.output.sent ++ unsent s.pc = s₀.output.sent ++ filesBytes files ++ started s.pc

variable {s₀ : Emission}

theorem Sending.step (h : Sending total s₀ s) (hst : s.step k = some t) :
    Sending total s₀ t := by
  obtain ⟨files, huploads, hsent⟩ := h.written
  refine ⟨inFiles_step h.bounds h.inFiles hst, inBounds_step h.bounds hst, ?_⟩
  cases move_of_step h.bounds hst with
  | write hw => exact ⟨files, by rw [hw.uploads, huploads], by rw [hw.sent, hsent, hw.started]⟩
  | readMask buf buf' missing hpc ht hconserved hclosed =>
      have hin := h.inFiles
      rw [hpc] at hin
      exact hin.elim
  | decode buf missing hpc hlen ht =>
      have hin := h.inFiles
      rw [hpc] at hin
      exact hin.elim
  | begin cursor e rest hpc hwants ht =>
      refine ⟨files, by rw [ht]; exact huploads, ?_⟩
      rw [hpc] at hsent
      simp only [unsent, started, List.append_nil] at hsent
      rw [ht]
      simp [unsent, started, hsent]
  | skip cursor e rest hpc hwants ht =>
      refine ⟨files, by rw [ht]; exact huploads, ?_⟩
      rw [hpc] at hsent
      rw [ht]
      exact hsent
  | openFile l contents hpc hopen ht =>
      refine ⟨files, by rw [ht]; exact huploads, ?_⟩
      rw [hpc] at hsent
      simp only [unsent, started, List.append_nil] at hsent
      rw [ht]
      simp [unsent, started, hsent]
  | read fileSize l hpc contents hcontents ht =>
      refine ⟨files ++ [(l.entry, readBuffer contents fileSize k)], ?_, ?_⟩
      · rw [ht, huploads, List.append_assoc]
      · rw [hpc] at hsent
        simp only [unsent, started, List.append_nil] at hsent
        rw [ht]
        simp [unsent, started, hsent, fileBytes, length_readBuffer]
  | fail report hbroken ht =>
      rw [ht]
      exact ⟨files, huploads, hsent⟩

end Emission

/-- **The uploader sends the files of a round**: from the answer it has
read to the last entry, it sends `files`, and `written` is what it writes. -/
structure SendsRound (files : List SentFile) (written : Bytes) (s t : Emission) : Prop where
  start : ∃ mask es, s.pc = .entry (.start mask) es ∧ mask.length = foundBitmaskSize es.length
  run : Emission.system.Reachable s t
  finish : ∃ cursor, t.pc = .entry cursor []
  uploads : t.uploads = s.uploads ++ files
  output : t.output.sent = s.output.sent ++ written

theorem written_eq {files : List SentFile} {written : Bytes} {s t : Emission}
    (h : SendsRound files written s t) : written = filesBytes files := by
  obtain ⟨mask, es, hpc, hmask⟩ := h.start
  have hstart : Emission.Sending es.length s s := by
    refine ⟨by rw [hpc]; trivial, ?_, [], by simp, ?_⟩
    · rw [hpc]
      exact MaskCursor.atEntry_start hmask
    · simp [hpc, UploadPc.unsent, UploadPc.started]
  obtain ⟨files', huploads, hsent⟩ :=
    (h.run.invariant (fun _ _ _ hI hst => hI.step hst) hstart).written
  obtain ⟨cursor, hend⟩ := h.finish
  have hfiles : files = files' := List.append_cancel_left (h.uploads.symm.trans huploads)
  rw [hend, h.output] at hsent
  simp only [UploadPc.unsent, UploadPc.started, List.append_nil] at hsent
  rw [hfiles]
  exact List.append_cancel_left hsent

/-! ## What the downloader reads -/

namespace DownloadPc

/-- In the file loop. -/
def InFile : DownloadPc → Prop
  | .file _ | .name _ _ _ _ | .size _ _ _ _ | .create _ _ _ _ | .payload _ _ _ _ _ _
  | .store _ _ _ _ _ | .overrun => True
  | .update | .notify | .count | .offer _ _ | .answer _ _ | .mask _ _ | .closed => False

end DownloadPc

namespace Reception

open DownloadPc

/-- The file loop of one round; it is left at its head, with no hash
missing. -/
def fileLoop (contains : ExifHash → Bool) (downloadDir : Bytes) : StepSystem Reception Nat :=
  ⟨fun s k => if s.pc = .file [] then none else s.step contains downloadDir k⟩

/-- The names and contents received so far. -/
def received (s : Reception) : List (Bytes × Bytes) :=
  s.downloads.map fun d => (d.filename, d.file)

variable {contains : ExifHash → Bool} {downloadDir : Bytes} {k : Nat} {s₀ s t : Reception}
  {files : List SentFile} {next : Bytes}

theorem Filling.inFile {pc next : DownloadPc} {count : Nat} {buf : Bytes}
    {more : Bytes → DownloadPc} (hf : Filling pc count buf more next) (h : InFile pc) :
    (∀ buf', InFile (more buf')) ∧ InFile next := by
  cases hf with
  | offer hashCount buf => exact h.elim
  | name | size | payload => exact ⟨fun _ => trivial, trivial⟩

theorem inFile_step (hbounds : InBounds s.pc) (h : InFile s.pc) (hne : s.pc ≠ .file [])
    (hst : s.step contains downloadDir k = some t) : InFile t.pc := by
  cases branch_of_step hbounds hst with
  | short hf hread report ht | noName hash missing hpc hread ht => rw [ht]; exact h
  | more buf' hf hread ht => rw [ht]; exact (hf.inFile h).1 buf'
  | complete hf hread ht => rw [ht]; exact (hf.inFile h).2
  | close hpc | invalidCount _ hpc | count _ hpc | answer _ _ _ hpc | reply _ _ _ hpc
  | replied _ hpc =>
      rw [hpc] at h
      exact h.elim
  | done hpc => exact absurd hpc hne
  | name hash missing filenameLen hpc hread ht | create hash filename fileSize missing hpc ht
  | store hash filename target file missing hpc ht => rw [ht]; trivial

/-- **How much of the files is received**, since `s₀`: the first of them,
and of what follows the bytes in hand. -/
structure Parses (s₀ : Reception) (files : List SentFile) (next : Bytes) (s : Reception) :
    Prop where
  inFile : InFile s.pc
  bounds : InBounds s.pc
  running : s.host.logger.terminated = false
  parsed : ∃ done todo, files = done ++ todo ∧
    s.received = s₀.received ++ done.map (fun f => (sentName f.1.path, f.2)) ∧
    (awaited s.pc).length = todo.length ∧
    consumed s.pc ++ s.input.pending = filesBytes todo ++ next

/-- A read that needs bytes is in front of the rest of a file. -/
theorem short_absurd (hsizes : ∀ f ∈ files, f.2.length < 2 ^ 32) (h : Parses s₀ files next s)
    (hne : s.pc ≠ .file []) (hshort : Short s.pc) (hpending : s.input.pending = []) : False := by
  obtain ⟨done, todo, hsplit, _, hawait, hbytes⟩ := h.parsed
  have hsome : awaited s.pc ≠ [] := by
    have hin := h.inFile
    cases hpc : s.pc with
    | file missing => exact fun hnil => hne (hpc.trans (by rw [show missing = [] from hnil]))
    | name | size | create | payload | store => simp [awaited]
    | overrun => exact absurd (hpc ▸ h.bounds) (by simp [InBounds])
    | update | notify | count | offer | answer | mask | closed =>
        rw [hpc] at hin
        exact hin.elim
  cases todo with
  | nil => exact hsome (List.length_eq_zero_iff.mp hawait)
  | cons f todo =>
      rw [hpending, List.append_nil] at hbytes
      exact short_ne_files h.bounds hshort hsome (hsizes f (by rw [hsplit]; simp)) hbytes

/-- **A step of the file loop** receives the next file or brings it
forward, if every size fits its bytes. -/
theorem Parses.step (hsizes : ∀ f ∈ files, f.2.length < 2 ^ 32) (h : Parses s₀ files next s)
    (hne : s.pc ≠ .file []) (hst : s.step contains downloadDir k = some t) :
    Parses s₀ files next t := by
  obtain ⟨done, todo, hsplit, hreceived, hawait, hbytes⟩ := h.parsed
  have hin := inFile_step h.bounds h.inFile hne hst
  have hbounds := inBounds_step h.bounds hst
  cases move_of_step h.bounds hst with
  | read hr =>
      refine ⟨hin, hbounds, by rw [hr.host]; exact h.running, done, todo, hsplit, ?_, ?_, ?_⟩
      · rw [received, hr.downloads]
        exact hreceived
      · rw [hr.awaited, hawait]
      · rw [hr.conserved, hbytes]
  | reply rest rest' missing hpc hrest ht hpending hclosed =>
      have := h.inFile
      rw [hpc] at this
      exact this.elim
  | answer hashCount buf a hpc ha ht =>
      have := h.inFile
      rw [hpc] at this
      exact this.elim
  | create hash filename fileSize missing hpc ht =>
      rw [hpc] at hawait hbytes
      subst ht
      refine ⟨hin, hbounds, ?_, done, todo, hsplit, hreceived, hawait, ?_⟩
      · simp only [Reception.create]
        split <;> exact h.running
      · simpa [Reception.create, consumed] using hbytes
  | store hash filename target file missing hpc ht =>
      rw [hpc] at hawait hbytes
      cases todo with
      | nil => cases hawait
      | cons f todo =>
          have hf : f.2.length < 2 ^ 32 := hsizes f (by rw [hsplit]; simp)
          have hstored : InBounds (.store hash filename target file missing) := by
            rw [← hpc]
            exact h.bounds
          rw [filesBytes_cons, List.append_assoc] at hbytes
          obtain ⟨hname, hcontents, hrest⟩ := store_eq_file hstored hf hbytes
          subst ht
          refine ⟨hin, hbounds, h.running, done ++ [f], todo, by simp [hsplit], ?_,
            by simpa [awaited] using hawait, hrest⟩
          rw [received] at hreceived ⊢
          simp [hreceived, hname, hcontents]
  | close hpc hclosed hpending ht =>
      have := h.inFile
      rw [hpc] at this
      exact this.elim
  | fail report hbroken ht hsent =>
      exfalso
      cases hbroken with
      | count hashCount rest hpc hpending hlarge =>
          have := h.inFile
          rw [hpc] at this
          exact this
      -- the stream cannot end here: the rest of a file is still to come
      | ended hclosed hpending hshort =>
          exact short_absurd hsizes h hne hshort hpending

/-- **Bytes that are needed are there**: as long as files are missing, the
rest of the next one is pending. -/
theorem Parses.enabled (hsizes : ∀ f ∈ files, f.2.length < 2 ^ 32) (h : Parses s₀ files next s)
    (hne : s.pc ≠ .file []) : (s.step contains downloadDir 1).isSome := by
  have hloop : InLoop s.pc ∧ s.pc ≠ .closed ∧ s.pc ≠ .count := by
    have hin := h.inFile
    cases hpc : s.pc <;> rw [hpc] at hin <;> first | exact hin.elim | simp [InLoop]
  exact step_enabled h.bounds hloop.1 hloop.2.1
    (Or.inr ⟨hloop.2.2, fun hshort hpending => short_absurd hsizes h hne hshort hpending⟩)

/-- Only `store` ends a download. -/
theorem downloads_step (hbounds : InBounds s.pc) (hst : s.step contains downloadDir k = some t) :
    t.downloads = s.downloads ∨ ∃ hash filename target file missing,
      s.pc = .store hash filename target file missing ∧
        t.downloads = s.downloads ++ [⟨hash, filename, target, file⟩] := by
  cases branch_of_step hbounds hst with
  | store hash filename target file missing hpc ht =>
      subst ht
      exact Or.inr ⟨hash, filename, target, file, missing, hpc, rfl⟩
  | short _ _ _ ht | more _ _ _ ht | complete _ _ ht | close _ _ ht | invalidCount _ _ _ _ ht
  | count _ _ _ _ ht | answer _ _ _ _ _ _ ht | reply _ _ _ _ _ ht | replied _ _ ht
  | noName _ _ _ _ ht | name _ _ _ _ _ ht | done _ ht | create _ _ _ _ _ ht =>
      subst ht
      exact Or.inl rfl

/-- What is received is no larger than a size can say. -/
structure Small (s : Reception) : Prop where
  bounds : InBounds s.pc
  downloads : ∀ d ∈ s.downloads, d.file.length < 2 ^ 32

theorem Small.step (h : Small s) (hst : s.step contains downloadDir k = some t) : Small t := by
  refine ⟨inBounds_step h.bounds hst, ?_⟩
  rcases downloads_step h.bounds hst with heq | ⟨hash, filename, target, file, missing, hpc, heq⟩
  · rw [heq]
    exact h.downloads
  · rw [heq]
    intro d hd
    rcases List.mem_append.mp hd with hd | hd
    · exact h.downloads d hd
    · have hbounds := h.bounds
      rw [hpc] at hbounds
      rw [List.mem_singleton.mp hd]
      exact hbounds.2

end Reception

/-! ## The property itself -/

/-- **The round is recovered**: a downloader that is missing as many files,
with the round and then `next` before it, in whatever pieces it reads them,
calls no `Fatal`, can always go on to the end of the round, and there has
received the names and contents in their order and has `next` before it. -/
def RoundTrips (files : List SentFile) (written : Bytes) : Prop :=
  ∀ (contains : ExifHash → Bool) (downloadDir : Bytes) (s : Reception) (missing : List ExifHash)
    (next : Bytes), s.pc = .file missing → missing.length = files.length →
    s.host.logger.terminated = false → s.input.pending = written ++ next →
    ∀ u, (Reception.fileLoop contains downloadDir).Reachable s u →
      u.host.logger.terminated = false ∧
        (∃ t, (Reception.fileLoop contains downloadDir).Reachable u t ∧ t.pc = .file []) ∧
        (u.pc = .file [] →
          u.received = s.received ++ files.map (fun f => (toFilename f.1.path, f.2)) ∧
            u.input.pending = next)

/-- **When a round is recovered**: for every round whose names fit their
length byte, exactly when every size fits its four bytes. -/
theorem round_trips_iff {files : List SentFile} {written : Bytes} {s t : Emission}
    (h : SendsRound files written s t)
    (hnames : ∀ f ∈ files, (toFilename f.1.path).length < sizeofFilename) :
    RoundTrips files written ↔ ∀ f ∈ files, f.2.length < 2 ^ 32 := by
  obtain rfl := written_eq h
  constructor
  · intro hall
    let s₀ : Reception :=
      ⟨.file (List.replicate files.length ⟨0, 0, 0, 0, 0⟩), ⟨⟨[], [], []⟩, .start⟩, [], [],
        .closedOf (filesBytes files), .empty⟩
    have hend := hall (fun _ => false) [] s₀ _ [] rfl (List.length_replicate ..) rfl
      (List.append_nil _).symm
    obtain ⟨_, ⟨u, hu, hpc⟩, _⟩ := hend s₀ ⟨[], rfl⟩
    obtain ⟨_, _, hreceived⟩ := hend u hu
    obtain ⟨hreceived, _⟩ := hreceived hpc
    have hsmall₀ : Reception.Small s₀ := ⟨trivial, by simp [s₀]⟩
    have hsmall : Reception.Small u := hu.invariant
      (fun v k w hv hst => by
        simp only [Reception.fileLoop] at hst
        split at hst
        · cases hst
        · exact hv.step hst) hsmall₀
    -- every file stands among the downloads with its contents
    intro f hf
    have hmem : (toFilename f.1.path, f.2) ∈ u.received := by
      rw [hreceived]
      exact List.mem_append_right _ (List.mem_map_of_mem hf)
    obtain ⟨d, hd, heq⟩ := List.mem_map.mp hmem
    rw [← congrArg Prod.snd heq]
    exact hsmall.downloads d hd
  · intro hsizes contains downloadDir s₀ missing next hpc hlen hrunning hpending u hu
    have hstart : Reception.Parses s₀ files next s₀ :=
      ⟨by rw [hpc]; trivial, by rw [hpc]; trivial, hrunning, [], files, rfl, by simp,
        by rw [hpc]; exact hlen, by rw [hpc, hpending]; rfl⟩
    have hstep : ∀ v k w, Reception.Parses s₀ files next v →
        (Reception.fileLoop contains downloadDir).step v k = some w →
        Reception.Parses s₀ files next w ∧
          w.pc.work w.input.pending.length < v.pc.work v.input.pending.length := by
      intro v k w hv hst
      simp only [Reception.fileLoop] at hst
      split at hst
      · cases hst
      · rename_i hne
        have hw := hv.step hsizes hne hst
        refine ⟨hw, (Reception.work_step hv.bounds hst 0).resolve_left ?_⟩
        rw [hw.running]
        simp
    have hparses : Reception.Parses s₀ files next u :=
      hu.invariant (fun v k w hv hst => (hstep v k w hv hst).1) hstart
    refine ⟨hparses.running, ?_, fun hfinish => ?_⟩
    · obtain ⟨v, hv, hpv, hstuck⟩ := StepSystem.exists_stuck hstep hparses
      refine ⟨v, hv, ?_⟩
      by_contra hne
      have hen : (v.step contains downloadDir 1).isSome := hpv.enabled hsizes hne
      have hnone := hstuck 1
      simp only [Reception.fileLoop, if_neg hne] at hnone
      rw [hnone] at hen
      cases hen
    · obtain ⟨done, todo, hsplit, hreceived, hawait, hbytes⟩ := hparses.parsed
      rw [hfinish] at hawait hbytes
      obtain rfl : todo = [] := List.length_eq_zero_iff.mp hawait.symm
      rw [List.append_nil] at hsplit
      subst hsplit
      refine ⟨?_, by simpa [DownloadPc.consumed] using hbytes⟩
      rw [hreceived]
      congr 1
      exact List.map_congr_left fun f hf => by rw [sentName_eq (hnames f hf)]

/-! ## Small rounds -/

namespace Emission

/-- A write is finished in two calls. -/
theorem write_reaches {s : Emission} {rest : Bytes} {next : UploadPc} (more : Bytes → UploadPc)
    (hpc : s.pc = more rest) (hne : rest ≠ [])
    (hstep : ∀ (u : Emission) r k, u.pc = more r → u.step k = u.write r k next more) :
    system.Reachable s { s with pc := next, output := s.output.push rest } := by
  have hlen : 0 < rest.length := List.length_pos_iff.mpr hne
  refine ⟨[rest.length, 0], StepSystem.exec_cons.mpr
    ⟨{ s with pc := more [], output := s.output.push rest }, ?_,
      StepSystem.exec_cons.mpr ⟨_, ?_, rfl⟩⟩⟩
  · show s.step rest.length = _
    simp [hstep s rest _ hpc, write, writeExactly, hne, hlen]
  · show Emission.step 0 { s with pc := more [], output := s.output.push rest } = _
    rw [hstep _ [] 0 rfl]
    rfl

/-- The answer to an offer of one entry has been read: nothing is found. -/
def oneEntry (e : Entry) (contents : Bytes) : Emission :=
  ⟨.entry (.start [0]) [e], ⟨⟨[(e.path, contents)], [], []⟩, .start⟩, [], .empty, .empty⟩

/-- **One file** is sent as its bytes. -/
theorem sendsRound_oneEntry (e : Entry) (contents : Bytes) (hne : contents ≠ []) :
    ∃ t, SendsRound [(e, contents)] (fileBytes (e, contents)) (oneEntry e contents) t := by
  let l : FileLoop := ⟨.start [0], e, []⟩
  let s₀ := oneEntry e contents
  let s₁ : Emission := { s₀ with pc := .name (nameBytes e.path) l }
  let s₂ : Emission := { s₁ with pc := .openFile l, output := s₁.output.push (nameBytes e.path) }
  let s₃ : Emission :=
    { s₂ with pc := .size (writeFileSize contents.length) contents.length l }
  let s₄ : Emission :=
    { s₃ with
      pc := .read contents.length l
      output := s₃.output.push (writeFileSize contents.length) }
  let s₅ : Emission := { s₄ with uploads := [(e, contents)], pc := .payload contents l }
  let s₆ : Emission :=
    { s₅ with pc := .entry l.cursor.next [], output := s₅.output.push contents }
  have hone : ∀ {u v : Emission} (k : Nat), u.step k = some v → system.Reachable u v :=
    fun k hst => ⟨[k], StepSystem.exec_cons.mpr ⟨_, hst, rfl⟩⟩
  have hopen : s₂.host.disk.reopenEndIn e.path = some contents := by
    simp [s₂, s₁, s₀, oneEntry, Disk.reopenEndIn, Disk.openIn, Disk.contents, Option.filter, hne]
  have h₁ : system.Reachable s₀ s₁ := hone 0 rfl
  have h₂ : system.Reachable s₁ s₂ :=
    write_reaches (fun rest => .name rest l) rfl (List.cons_ne_nil _ _)
      fun u r k hpc => by rw [step, hpc]
  have h₃ : system.Reachable s₂ s₃ := hone 0 (by simp [step, s₃, s₂, l, hopen])
  have h₄ : system.Reachable s₃ s₄ :=
    write_reaches (fun rest => .size rest contents.length l) rfl (List.cons_ne_nil _ _)
      fun u r k hpc => by rw [step, hpc]
  have h₅ : system.Reachable s₄ s₅ := by
    refine hone contents.length ?_
    simp [step, s₅, s₄, s₃, s₂, s₁, s₀, l, oneEntry, Disk.contents, readBuffer]
  have h₆ : system.Reachable s₅ s₆ :=
    write_reaches (fun rest => .payload rest l) rfl hne
      fun u r k hpc => by rw [step, hpc]
  refine ⟨s₆, ⟨[0], [e], rfl, by simp [foundBitmaskSize, charBit]⟩,
    h₁.trans (h₂.trans (h₃.trans (h₄.trans (h₅.trans h₆)))), ⟨_, rfl⟩, rfl, ?_⟩
  simp [s₆, s₅, s₄, s₃, s₂, s₁, s₀, oneEntry, fileBytes]

end Emission

/-- A photo. -/
def onePhoto : Entry := ⟨⟨1, 0, 0, 0, 0⟩, [47, 97]⟩

/-- **A round is not always recovered**: of a file of `2 ^ 32` bytes the
four bytes say that it is empty, and its contents are read as what
follows. -/
theorem not_always_round_trips :
    ¬ ∀ (files : List SentFile) (written : Bytes) (s t : Emission),
        SendsRound files written s t →
        (∀ f ∈ files, (toFilename f.1.path).length < sizeofFilename) →
        RoundTrips files written := by
  intro hall
  obtain ⟨contents, hlen⟩ : ∃ contents : Bytes, contents.length = 2 ^ 32 :=
    ⟨List.replicate (2 ^ 32) 0, List.length_replicate⟩
  have hne : contents ≠ [] := by
    rintro rfl
    cases hlen
  obtain ⟨t, ht⟩ := Emission.sendsRound_oneEntry onePhoto contents hne
  have hname : ∀ f ∈ [((onePhoto, contents) : SentFile)],
      (toFilename f.1.path).length < sizeofFilename := by
    intro f hf
    rw [List.mem_singleton.mp hf]
    show (toFilename onePhoto.path).length < sizeofFilename
    decide
  have hsize := (round_trips_iff ht hname).mp (hall _ _ _ _ ht hname) _ (List.mem_singleton_self _)
  exact Nat.lt_irrefl _ (hlen ▸ hsize)

/-- Two photos, of three bytes and of one. -/
def twoPhotos : List SentFile := [(onePhoto, [7, 8, 9]), (⟨⟨2, 0, 0, 0, 0⟩, [47, 98]⟩, [10])]

/-- The answer to an offer of both has been read: nothing is found. -/
def sendTwoPhotos : Emission :=
  ⟨.entry (.start [0]) (twoPhotos.map Prod.fst),
    ⟨⟨twoPhotos.map fun f => (f.1.path, f.2), [], []⟩, .start⟩, [], .empty, .empty⟩

theorem sendsRound_twoPhotos :
    ∃ t, SendsRound twoPhotos (filesBytes twoPhotos) sendTwoPhotos t := by
  have hrun : ∃ t, Emission.system.exec sendTwoPhotos
      [0, 2, 0, 0, 4, 0, 3, 3, 0, 0, 2, 0, 0, 4, 0, 1, 1, 0] = some t ∧
      (∃ cursor, t.pc = .entry cursor []) ∧ t.uploads = twoPhotos ∧
      t.output.sent = filesBytes twoPhotos :=
    ⟨_, rfl, ⟨_, rfl⟩, rfl, rfl⟩
  obtain ⟨t, ht, hpc, huploads, hsent⟩ := hrun
  exact ⟨t, ⟨[0], _, rfl, rfl⟩, ⟨_, ht⟩, hpc, huploads, hsent⟩

theorem round_trips_twoPhotos : RoundTrips twoPhotos (filesBytes twoPhotos) := by
  obtain ⟨t, ht⟩ := sendsRound_twoPhotos
  exact (round_trips_iff ht (by decide)).mpr (by decide)

end Jpgsync
