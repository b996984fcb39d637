import Jpgsync.Peer.Sides
import Jpgsync.Framing

/-!
# Peer — Files

What one peer does to its files, whatever it is connected to. A file that
was received stands where the downloader put it (`Stored`), a file that was
read for sending is still what was sent (`Faithful`): storing only ever
writes into a file that is empty. Both need the two streams to do what the
code does not check: `ifs->read` to deliver the whole file (`ReadsAll`) and
`ofs->write` with its closing flush to store all of it (`StoresAll`).
-/

namespace Jpgsync

/-- Where a file with this hash and name may end up. -/
def Candidate (dir : Bytes) (hash : ExifHash) (filename path : Bytes) : Prop :=
  path = toPath dir (cString filename) ∨
    path = Disk.conflictPath (toPath dir (cString filename)) hash

/-- If a file is about to be read, `ifs->read` delivers as many bytes as
`tellg` had announced. -/
def UploadPc.ReadsAll (disk : Disk) (k : Nat) : UploadPc → Prop
  | .read fileSize l =>
    ∃ contents ∈ disk.contents l.entry.path, contents.length = fileSize ∧ fileSize ≤ k
  | .wait | .lockUpdated | .setUpdated | .main | .offer _ _ | .mask _ _ | .entry _ _ | .name _ _
  | .openFile _ | .size _ _ _ | .payload _ _ | .closed | .overrun => True

instance (disk : Disk) (k : Nat) : DecidablePred (UploadPc.ReadsAll disk k)
  | .read fileSize l => inferInstanceAs (Decidable
      (∃ contents ∈ disk.contents l.entry.path, contents.length = fileSize ∧ fileSize ≤ k))
  | .wait | .lockUpdated | .setUpdated | .main | .offer _ _ | .mask _ _ | .entry _ _ | .name _ _
  | .openFile _ | .size _ _ _ | .payload _ _ | .closed | .overrun => isTrue trivial

/-- If a file is about to be written, and not `/dev/null`, all of it is
stored. -/
def DownloadPc.StoresAll (k : Nat) : DownloadPc → Prop
  | .store _ _ target bytes _ => target.isSome → bytes.length ≤ k
  | .update | .notify | .count | .offer _ _ | .answer _ _ | .mask _ _ | .file _ | .name _ _ _ _
  | .size _ _ _ _ | .create _ _ _ _ | .payload _ _ _ _ _ _ | .closed | .overrun => True

instance (k : Nat) : DecidablePred (DownloadPc.StoresAll k)
  | .store _ _ target bytes _ =>
    inferInstanceAs (Decidable (target.isSome → bytes.length ≤ k))
  | .update | .notify | .count | .offer _ _ | .answer _ _ | .mask _ _ | .file _ | .name _ _ _ _
  | .size _ _ _ _ | .create _ _ _ _ | .payload _ _ _ _ _ _ | .closed | .overrun => isTrue trivial

namespace Peer

/-- A place for a download: a candidate with the given contents, or a
conflict that was reported. -/
def Placed (dir : Bytes) (host : Host) (hash : ExifHash) (filename : Bytes)
    (target : Option Bytes) (contents : Bytes → Prop) : Prop :=
  match target with
  | none => host.logger.exitStatus ≠ 0
  | some path => Candidate dir hash filename path ∧
      ∃ bytes, host.disk.contents path = some bytes ∧ contents bytes

/-- **What was received is stored.** -/
structure Stored (dir : Bytes) (p : Peer) : Prop where
  stored : ∀ d ∈ p.downloads, d.file ≠ [] →
    Placed dir p.host d.hash d.filename d.target (· = d.file)
  opened : ∀ hash filename target, p.download.opened = some (hash, filename, target) →
    Placed dir p.host hash filename target (· = [])

/-- **What was sent is what the file holds.** -/
def Faithful (p : Peer) : Prop :=
  ∀ f ∈ p.uploads, f.2 ≠ [] → p.host.disk.contents f.1.path = some f.2

/-- What happened to a peer's host: files that are not empty stayed, and a
reported error stays reported. -/
structure HostKeeps (h h' : Host) : Prop where
  disk : Disk.Keeps h.disk h'.disk
  exit : h.logger.exitStatus ≠ 0 → h'.logger.exitStatus ≠ 0

theorem HostKeeps.refl (h : Host) : HostKeeps h h := ⟨Disk.Keeps.refl _, id⟩

variable {cfg : Config} {scans : List Scan} {p q : Peer} {up down up' down' : Link} {a : Act}
  {dir : Bytes} {hash : ExifHash} {filename : Bytes} {target : Option Bytes}

/-- A stored file stays in its place. -/
theorem Placed.keep {h h' : Host} {file : Bytes} (hne : file ≠ []) (hk : HostKeeps h h')
    (hp : Placed dir h hash filename target (· = file)) :
    Placed dir h' hash filename target (· = file) := by
  cases target with
  | none => exact hk.exit hp
  | some path =>
      obtain ⟨hcand, bytes, hbytes, rfl⟩ := hp
      exact ⟨hcand, bytes, hk.disk.kept _ _ hne hbytes, rfl⟩

theorem stored_start (dir : Bytes) (scans : List Scan) (disk : Disk) :
    Stored dir (start scans disk) where
  stored := fun _ hd => absurd hd List.not_mem_nil
  opened := fun _ _ _ h => by cases h

/-- **What a step does to the files**: nothing, or it opens the file for a
download, or stores what was received in it. -/
inductive FileMove (dir : Bytes) (p : Peer) (a : Act) (q : Peer) : Prop
  | same (hhost : q.host = p.host) (hdownloads : q.downloads = p.downloads)
      (hopened : q.download.opened = p.download.opened)
  | create (hash : ExifHash) (filename : Bytes) (fileSize : Nat) (missing : List ExifHash)
      (hpc : p.download = .create hash filename fileSize missing)
      (hhost : q.host =
        ⟨(p.host.disk.createFile (toPath dir (cString filename)) hash).2,
          if (p.host.disk.createFile (toPath dir (cString filename)) hash).1.isNone then
            p.host.logger.error (.conflict hash (cString filename))
          else p.host.logger⟩)
      (hdownloads : q.downloads = p.downloads)
      (hopened : q.download.opened = some (hash, filename,
        (p.host.disk.createFile (toPath dir (cString filename)) hash).1))
  | store (k : Nat) (hash : ExifHash) (filename : Bytes) (target : Option Bytes) (file : Bytes)
      (missing : List ExifHash) (ha : a = .download k)
      (hpc : p.download = .store hash filename target file missing)
      (hhost : q.host = { p.host with disk := p.host.disk.store target (file.take k) })
      (hdownloads : q.downloads = p.downloads ++ [⟨hash, filename, target, file⟩])
      (hopened : q.download.opened = none)

theorem DownMove.fileMove (h : DownMove cfg p down a q down') (hlive : q.terminated = false) :
    FileMove cfg.downloadDir p a q := by
  cases h with
  | other hdownload haccepted hdownloads hhost hoffers hreplies =>
      exact .same (hhost hlive) hdownloads (by rw [hdownload])
  | endUpdate hpc hdownload haccepted hdownloads hhost hoffers hreplies =>
      exact .same hhost hdownloads (by rw [hdownload, hpc]; rfl)
  | notify byte hpc hdownload haccepted hdownloads hhost hoffers hreplies =>
      exact .same hhost hdownloads (by rw [hdownload, hpc]; rfl)
  | reception k r ha hpc hr hdownload haccepted hdownloads hhost hoffers hreplies =>
      cases hr with
      | fail report hbroken ht =>
          rw [terminated, hhost, ht] at hlive
          cases hlive
      | read hr =>
          exact .same (hhost.trans hr.host) (hdownloads.trans hr.downloads)
            (by rw [hdownload]; exact hr.opened)
      | reply rest rest' missing hpc hrest ht =>
          rw [ht] at hdownload hdownloads hhost
          exact .same hhost hdownloads
            (by rw [hdownload, show p.download = .mask rest missing from hpc]; rfl)
      | answer hashCount buf a hpc ha ht =>
          rw [ht] at hdownload hdownloads hhost
          exact .same hhost hdownloads
            (by rw [hdownload, show p.download = .answer hashCount buf from hpc]; rfl)
      | close hpc hclosed hpending ht =>
          rw [ht] at hdownload hdownloads hhost
          exact .same hhost hdownloads
            (by rw [hdownload, show p.download = .count from hpc]; rfl)
      | create hash filename fileSize missing hpc ht =>
          rw [ht] at hdownload hdownloads hhost
          exact .create hash filename fileSize missing hpc hhost hdownloads
            (by rw [hdownload]; rfl)
      | store hash filename target file missing hpc ht =>
          rw [ht] at hdownload hdownloads hhost
          exact .store k hash filename target file missing ha hpc hhost hdownloads
            (by rw [hdownload]; rfl)

/-- **A step keeps what was stored** and every file that is not empty. -/
theorem Stored.step (h : Stored dir p) (hok : ∀ k, a = .download k → p.download.StoresAll k)
    (hmove : FileMove dir p a q) : Stored dir q ∧ HostKeeps p.host q.host := by
  cases hmove with
  | same hhost hdownloads hopened =>
      rw [hhost]
      refine ⟨⟨fun d hd hne => ?_, fun hash filename target hq => ?_⟩, HostKeeps.refl _⟩
      · rw [hhost]
        exact h.stored d (hdownloads ▸ hd) hne
      · rw [hhost]
        exact h.opened hash filename target (hopened ▸ hq)
  | create hash filename fileSize missing hpc hhost hdownloads hopened =>
      obtain ⟨hkeep, hopen⟩ := Disk.createFile_spec
        (show p.host.disk.createFile (toPath dir (cString filename)) hash = (_, _) from rfl)
      have hk : HostKeeps p.host q.host := by
        rw [hhost]
        refine ⟨hkeep, fun he => ?_⟩
        dsimp only
        split
        · exact Logger.exitStatus_error _ _
        · exact he
      refine ⟨⟨fun d hd hne => ?_, fun hash' filename' target' hq => ?_⟩, hk⟩
      · exact (h.stored d (hdownloads ▸ hd) hne).keep hne hk
      · rw [hopened] at hq
        cases hq
        rw [hhost]
        cases hnone : (p.host.disk.createFile (toPath dir (cString filename)) hash).1 with
        | none => exact Logger.exitStatus_error _ _
        | some path =>
            obtain ⟨hcand, hempty⟩ := hopen path hnone
            exact ⟨hcand, [], hempty, rfl⟩
  | store k hash filename target file missing ha hpc hhost hdownloads hopened =>
      have hplace := h.opened hash filename target (by rw [hpc]; rfl)
      have hk : HostKeeps p.host q.host := by
        rw [hhost]
        refine ⟨Disk.keeps_store fun path hpath => ?_, id⟩
        rw [hpath] at hplace
        obtain ⟨_, bytes, hbytes, rfl⟩ := hplace
        exact hbytes
      refine ⟨⟨fun d hd hne => ?_, fun hash' filename' target' hq => ?_⟩, hk⟩
      · rw [hdownloads] at hd
        -- what was stored before is kept; the new file is whole because `k` covers it
        rcases List.mem_append.mp hd with hd | hd
        · exact (h.stored d hd hne).keep hne hk
        · obtain rfl := List.mem_singleton.mp hd
          rw [hhost]
          cases target with
          | none => exact hplace
          | some path =>
              obtain ⟨hcand, bytes, hbytes, rfl⟩ := hplace
              have hstores := hok k ha
              rw [hpc] at hstores
              have hall : file.length ≤ k := hstores rfl
              refine ⟨hcand, file, ?_, rfl⟩
              rw [List.take_of_length_le hall]
              exact Disk.contents_store hbytes
      · rw [hopened] at hq
        cases hq

/-- A read that delivers the whole file fills the buffer with it. -/
theorem readBuffer_eq {contents : Bytes} {k : Nat} (h : contents.length ≤ k) :
    readBuffer contents contents.length k = contents := by
  rw [readBuffer, Nat.min_eq_right h, List.take_length, Nat.sub_self, List.replicate_zero,
    List.append_nil]

/-- **A step keeps what was sent** in the files it was read from. -/
theorem Faithful.step (h : Faithful p)
    (hok : ∀ k, a = .upload k → p.upload.ReadsAll p.host.disk k) (hmove : UpMove p up a q up')
    (hkeep : HostKeeps p.host q.host) (hlive : q.terminated = false) : Faithful q := by
  have hsame : q.uploads = p.uploads → Faithful q := fun heq f hf hne =>
    hkeep.disk.kept _ _ hne (h f (heq ▸ hf) hne)
  cases hmove with
  | noUpdate hpc hclosed hpending hdead _ _ _ _ =>
      rw [hlive] at hdead
      cases hdead
  | emission k r ha hround hr hupload huploads hhost hoffered hoffers hreplies =>
      cases hr with
      | write hw => exact hsame (huploads.trans hw.uploads)
      -- the only step that adds an upload: its bytes are the file's, all of them
      | read fileSize l hpc contents hcontents ht =>
          intro f hf hne
          rw [huploads, ht] at hf
          rcases List.mem_append.mp hf with hf | hf
          · exact hkeep.disk.kept _ _ hne (h f hf hne)
          · have hread := hok k ha
            rw [show p.upload = .read fileSize l from hpc] at hread
            obtain ⟨c, hc, hlen, hall⟩ := hread
            have hcontents' : contents = c := by
              rw [hcontents, show (p.emission up).host.disk.contents l.entry.path = some c from hc]
              rfl
            obtain rfl := List.mem_singleton.mp hf
            rw [hcontents', ← hlen] at hne ⊢
            rw [readBuffer_eq (by omega)] at hne ⊢
            exact hkeep.disk.kept _ _ hne hc
      | readMask buf buf' missing hpc ht => exact hsame (by rw [huploads, ht]; rfl)
      | decode buf missing hpc hlen ht => exact hsame (by rw [huploads, ht]; rfl)
      | begin cursor e rest hpc hwants ht => exact hsame (by rw [huploads, ht]; rfl)
      | skip cursor e rest hpc hwants ht => exact hsame (by rw [huploads, ht]; rfl)
      | openFile l contents hpc hopen ht => exact hsame (by rw [huploads, ht]; rfl)
      | fail report hbroken ht => exact hsame (by rw [huploads, ht]; rfl)
  | other hupload huploads => exact hsame huploads
  | waited byte hpc hupload huploads => exact hsame huploads
  | idle hpc hupload hopen huploads => exact hsame huploads
  | leave hpc hupload huploads => exact hsame huploads
  | beginRound missing hpc hupload huploads => exact hsame huploads

end Peer
end Jpgsync
