import Jpgsync.Peer.Files
import Jpgsync.Session.Account
import Mathlib.Data.List.Nodup

/-!
# Session — Directory

What `Dir` promises about the paths it returns, and a session in which no
file operation fails for a reason outside the program: every side has the
files of its directory, all readable and neither empty nor too large, and
no name occurs on both sides. Where a download gets the name its sender
uses, the files of a peer are those it started with followed by those it
received (`Collected`).
-/

namespace Jpgsync

open ExifHasher DownloadPc

/-- **A directory** as `Dir` walks it. -/
structure Site.Directory (S : Site) : Prop where
  /-- `d_name`: no slash, no NUL, at most 255 characters. -/
  named : ∀ f ∈ S.disk.files, ∃ name, f.1 = toPath S.cfg.downloadDir name ∧ slash ∉ name ∧
    (0 : UInt8) ∉ name ∧ name.length < sizeofFilename
  listed : ∀ scan ∈ S.scans, scan.path ∈ S.disk.files.map Prod.fst
  once : (S.scans.map Scan.path).Nodup
  sizes : ∀ f ∈ S.disk.files, f.2 ≠ [] ∧ f.2.length < 2 ^ 32
  opens : S.disk.unreadable = [] ∧ S.disk.unwritable = []

/-- No name of one side occurs on the other. -/
def NamesApart (A B : Site) : Prop :=
  ∀ f ∈ A.disk.files, ∀ g ∈ B.disk.files, toFilename f.1 ≠ toFilename g.1

/-- The list the hasher of a side ends with. -/
def Site.index (S : Site) : List Entry := firstOfEach [] S.scans

namespace Site.Directory

variable {S : Site} {e e' : Entry}

theorem path_mem (h : S.Directory) (he : e ∈ S.index) : e.path ∈ S.disk.files.map Prod.fst := by
  have hmem := (paths_firstOfEach [] S.scans).subset (List.mem_map_of_mem he)
  obtain ⟨scan, hscan, heq⟩ := List.mem_map.mp hmem
  rw [← heq]
  exact h.listed scan hscan

/-- **A listed file can be read.** -/
theorem contents (h : S.Directory) (he : e ∈ S.index) :
    ∃ bytes, S.disk.contents e.path = some bytes ∧ bytes ≠ [] ∧ bytes.length < 2 ^ 32 := by
  obtain ⟨f, hf, hpath⟩ := List.mem_map.mp (h.path_mem he)
  have hsome : (S.disk.contents e.path).isSome :=
    List.lookup_isSome_iff.mpr ⟨f, hf, by simp [hpath]⟩
  obtain ⟨bytes, hbytes⟩ := Option.isSome_iff_exists.mp hsome
  obtain ⟨l₁, l₂, heq, _⟩ := List.lookup_eq_some_iff.mp hbytes
  have hmem : (e.path, bytes) ∈ S.disk.files := by
    rw [heq]
    simp
  exact ⟨bytes, hbytes, h.sizes _ hmem⟩

/-- **The name that is sent** is the name in the directory. -/
theorem name_sent (h : S.Directory) (he : e ∈ S.index) :
    e.path = toPath S.cfg.downloadDir (sentName e.path) ∧ sentName e.path = toFilename e.path ∧
      slash ∉ sentName e.path ∧ (0 : UInt8) ∉ sentName e.path := by
  obtain ⟨f, hf, heq⟩ := List.mem_map.mp (h.path_mem he)
  obtain ⟨name, hname, hslash, hnul, hlen⟩ := h.named f hf
  have hfile : toFilename e.path = name := by
    rw [← heq, hname, toFilename_toPath _ hslash hnul]
  have hsent : sentName e.path = name := by
    rw [sentName_eq (by rw [hfile]; exact hlen), hfile]
  rw [hsent, hfile]
  exact ⟨heq.symm.trans hname, rfl, hslash, hnul⟩

/-- Different entries have different names. -/
theorem sentName_inj (h : S.Directory) (he : e ∈ S.index) (he' : e' ∈ S.index)
    (heq : sentName e.path = sentName e'.path) : e = e' := by
  have hpath : e.path = e'.path := by rw [(h.name_sent he).1, (h.name_sent he').1, heq]
  have hnodup : (S.index.map Entry.path).Nodup := h.once.sublist (paths_firstOfEach [] S.scans)
  exact List.inj_on_of_nodup_map hnodup he he' hpath

end Site.Directory

/-- The entries of a peer are on the index of its side. -/
theorem Peer.Sound.entries_index {S : Site} {p : Peer} (h : p.Sound S.cfg S.scans) {e : Entry}
    (he : e ∈ p.pipe.hasher.entries) : e ∈ S.index := by
  rw [Site.index, ← h.handOver.rest]
  exact List.mem_append_left _ he

namespace Peer

/-- The files received so far, under their senders' names. -/
def collected (dir : Bytes) (p : Peer) : List (Bytes × Bytes) :=
  p.downloads.map fun d => (toPath dir d.filename, d.file)

/-- **A peer's files** are those it started with, those it received, and
the one it is receiving. -/
structure Collected (S : Site) (p : Peer) : Prop where
  files : p.host.disk.files = S.disk.files ++ p.collected S.cfg.downloadDir ++
    (p.download.opened.map fun o => (toPath S.cfg.downloadDir o.2.1, ([] : Bytes))).toList
  opened : ∀ hash filename target, p.download.opened = some (hash, filename, target) →
    target = some (toPath S.cfg.downloadDir filename) ∧
      toPath S.cfg.downloadDir filename ∉
        (S.disk.files ++ p.collected S.cfg.downloadDir).map Prod.fst
  unwritable : p.host.disk.unwritable = []
  logger : p.host.logger = .start

theorem collected_start {S : Site} (h : S.Directory) :
    Collected S (start S.scans S.disk) where
  files := by simp [start, collected, DownloadPc.opened]
  opened := fun _ _ _ h => by cases h
  unwritable := h.opens.2
  logger := rfl

/-- **A step keeps a peer's files in order**, if the name of a new file is
not taken. -/
theorem Collected.step {S : Site} {p q : Peer} {a : Act} (h : Collected S p)
    (hok : ∀ k, a = .download k → p.download.StoresAll k)
    (hmove : FileMove S.cfg.downloadDir p a q)
    (hnew : ∀ hash filename fileSize missing, p.download = .create hash filename fileSize missing →
      cString filename = filename ∧ toPath S.cfg.downloadDir filename ∉
        (S.disk.files ++ p.collected S.cfg.downloadDir).map Prod.fst) :
    Collected S q := by
  cases hmove with
  | same hhost hdownloads hopened =>
      have hcoll : q.collected S.cfg.downloadDir = p.collected S.cfg.downloadDir := by
        rw [collected, hdownloads, collected]
      exact ⟨by rw [hhost, hcoll, hopened]; exact h.files,
        by rw [hopened, hcoll]; exact h.opened, by rw [hhost]; exact h.unwritable,
        by rw [hhost]; exact h.logger⟩
  | create hash filename fileSize missing hpc hhost hdownloads hopened =>
      obtain ⟨hname, hfresh⟩ := hnew hash filename fileSize missing hpc
      have hcoll : q.collected S.cfg.downloadDir = p.collected S.cfg.downloadDir := by
        rw [collected, hdownloads, collected]
      have hfiles : p.host.disk.files =
          S.disk.files ++ p.collected S.cfg.downloadDir := by
        have := h.files
        rwa [hpc, show DownloadPc.opened (.create hash filename fileSize missing) = none from rfl,
          Option.map_none, Option.toList_none, List.append_nil] at this
      have hcreate := @Disk.createFile_fresh p.host.disk (toPath S.cfg.downloadDir filename) hash
        (by rw [hfiles]; exact hfresh) (by rw [h.unwritable]; exact List.not_mem_nil)
      rw [hname, hcreate] at hhost hopened
      refine ⟨?_, fun hash' filename' target' hq => ?_, by rw [hhost]; exact h.unwritable,
        by rw [hhost]; exact h.logger⟩
      · rw [hhost, hcoll, hopened]
        simp [hfiles]
      · rw [hopened] at hq
        cases hq
        rw [hcoll]
        exact ⟨rfl, hfresh⟩
  | store k hash filename target file missing ha hpc hhost hdownloads hopened =>
      have hopen : p.download.opened = some (hash, filename, target) := by rw [hpc]; rfl
      obtain ⟨htarget, hfresh⟩ := h.opened _ _ _ hopen
      have hall : file.length ≤ k := by
        have hstores := hok k ha
        rw [hpc] at hstores
        exact hstores (by rw [htarget]; rfl)
      have hcoll : q.collected S.cfg.downloadDir = p.collected S.cfg.downloadDir ++
          [(toPath S.cfg.downloadDir filename, file)] := by
        rw [collected, hdownloads, List.map_append, collected]
        rfl
      have hfiles : p.host.disk.files = (S.disk.files ++ p.collected S.cfg.downloadDir) ++
          [(toPath S.cfg.downloadDir filename, [])] := by
        rw [h.files, hopen]
        rfl
      refine ⟨?_, fun hash' filename' target' hq => ?_, by rw [hhost, htarget]; exact h.unwritable,
        by rw [hhost]; exact h.logger⟩
      · rw [hhost, htarget, hopened, hcoll, List.take_of_length_le hall]
        dsimp only
        rw [Disk.store_fresh hfresh hfiles]
        simp
      · rw [hopened] at hq
        cases hq

end Peer

end Jpgsync
