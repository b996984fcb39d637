import Jpgsync.Session.Damage
import Jpgsync.Session.Directory
import Jpgsync.Session.Skipping
import Jpgsync.Pipeline.Leaving

/-!
# Session — Delivering

What one direction of a session delivers, in a run that hits neither the
stale total nor an offer that is answered inexactly (`Regular`). An uploader
that leaves its loop has processed its whole list, what it skipped the
other side holds, what it offered and the other side lacks is in the
account and is stored. The directories may have images in common, under the
same names, as after an earlier session: what has to be free is only the
name of an image that the other side lacks (`NamesFree`), which is enough
for a download to get the name its sender uses (`name_free`).
-/

namespace Jpgsync

open ExifHasher DownloadPc

/-- The images of `SX` that `SY` lacks, as files of the directory of `SY`. -/
def imagesFor (SX SY : Site) : List (Bytes × Bytes) :=
  (SX.index.filter fun e => decide (e.hash ∉ SY.index.map Entry.hash)).map fun e =>
    (toPath SY.cfg.downloadDir (toFilename e.path), (SX.disk.contents e.path).getD [])

namespace Peer

/-- Reading and writing files works. -/
def FilesWork (p : Peer) : Act → Prop
  | .download k => p.download.StoresAll k
  | .upload k => p.upload.ReadsAll p.host.disk k
  | .run | .getWakes | .uploaderWakes | .receive _ | .endOfUpdate | .return => True

/-- The step neither answers an offer inexactly nor clears `hashing` behind
a stale total. -/
def Regular (p : Peer) : Act → Prop
  | .download _ => p.download.AnswersExactly p.contains ∧
      (p.download = .update → p.pipe.ClearsFresh .downloader)
  | .run | .getWakes | .uploaderWakes | .receive _ | .endOfUpdate | .upload _ | .return => True

instance (p : Peer) : DecidablePred (FilesWork p)
  | .download k => inferInstanceAs (Decidable (p.download.StoresAll k))
  | .upload k => inferInstanceAs (Decidable (p.upload.ReadsAll p.host.disk k))
  | .run | .getWakes | .uploaderWakes | .receive _ | .endOfUpdate | .return => isTrue trivial

instance (p : Peer) : DecidablePred (Regular p)
  | .download _ => inferInstanceAs (Decidable (_ ∧ (_ → _)))
  | .run | .getWakes | .uploaderWakes | .receive _ | .endOfUpdate | .upload _ | .return =>
    isTrue trivial

variable {cfg : Config} {scans : List Scan} {p q : Peer} {up down up' down' : Link} {a : Act}

/-- Clearing fresh keeps an uploader's totals fresh. -/
theorem Sound.freshAfter_step (h : Sound cfg scans p) (hfresh : p.pipe.FreshAfter)
    (hok : Regular p a) (hst : p.step cfg up down a = some (q, up', down')) :
    q.pipe.FreshAfter := by
  obtain ⟨_, _, _, _, hmove, _⟩ := h.move_of_step hst
  have hother : ∀ {b pipe}, b ≠ .downloader →
      p.pipe.step (runArgs cfg) p.receiving.receivedHashes b = some pipe → pipe.FreshAfter :=
    fun hb hpipe => Pipeline.freshAfter_step h.inv hfresh (fun hd => hb hd.1) hpipe
  have hdown : ∀ {k pipe}, p.download = .update → Regular p (.download k) →
      p.pipe.step (runArgs cfg) p.receiving.receivedHashes .downloader = some pipe →
      pipe.FreshAfter :=
    fun hupdate hreg hpipe => Pipeline.freshAfter_step h.inv hfresh (hreg.2 hupdate) hpipe
  cases hmove with
  | pipe _ b pipe hb ha hpipe =>
      by_cases hd : b = .downloader
      · obtain ⟨hupdate, k, rfl⟩ := ha hd
        subst hd
        exact hdown hupdate hok hpipe
      · exact hother hd hpipe
  | sendUpdate k segment pipe hsend hpipe =>
      have hupdate : p.download = .update := by
        by_contra hne
        rw [h.downloading hne] at hsend
        cases hsend
      exact hdown hupdate hok hpipe
  | loop k pipe hpc hpipe hnone => exact hother (by simp) hpipe
  | beginRound k pipe missing hpc hpipe hoffer => exact hother (by simp) hpipe
  | _ => exact hfresh

end Peer

/-- The hashes of a side. -/
def Site.hashes (S : Site) : List ExifHash := S.index.map Entry.hash

/-- The entries of a side that the other one lacks. -/
def Site.missing (SX SY : Site) : List Entry :=
  SX.index.filter fun e => decide (e.hash ∉ SY.hashes)

/-- The name of an image that the other side lacks is free there. -/
def NamesFree (SX SY : Site) : Prop :=
  ∀ scan ∈ SX.scans, ∀ hash, scan.exif = some hash → hash ∉ SY.hashes →
    ∀ g ∈ SY.disk.files, toFilename scan.path ≠ toFilename g.1

theorem NamesApart.free {SX SY : Site} (h : NamesApart SX SY) (hX : SX.Directory) :
    NamesFree SX SY := by
  intro scan hscan hash _ _ g hg
  obtain ⟨f, hf, hpath⟩ := List.mem_map.mp (hX.listed scan hscan)
  rw [← hpath]
  exact h f hf g hg

/-- Every entry of a side was scanned. -/
theorem Site.scan_of_index {S : Site} {e : Entry} (he : e ∈ S.index) :
    ∃ scan ∈ S.scans, scan.path = e.path ∧ scan.exif = some e.hash := by
  obtain ⟨scan, hfind, hpath⟩ := Option.map_eq_some_iff.mp (find?_of_mem_firstOfEach he).2
  have hexif := List.find?_some hfind
  exact ⟨scan, List.mem_of_find?_eq_some hfind, hpath, of_decide_eq_true hexif⟩

namespace Aligned

variable {SX SY : Site} {X Y : Peer} {L : Link}

/-- What a direction has received comes from different entries of its
sender, and none of these is the one that is awaited next. -/
theorem received_fresh (h : Aligned SX X SY Y L) {hash : ExifHash} {filename : Bytes}
    {fileSize : Nat} {missing : List ExifHash}
    (hpc : Y.download = .create hash filename fileSize missing) :
    ∃ e ∈ SX.index, filename = sentName e.path ∧ Y.contains e.hash = false ∧
      ∀ d ∈ Y.downloads, ∃ e' ∈ SX.index, e' ≠ e ∧ d.filename = sentName e'.path := by
  obtain ⟨received, inflight, todo, opening, answered, hA⟩ := h.account
  have hbounds := h.sound.2.downloadBounds
  have hawait := hA.awaited
  have hflow := hA.flow
  rw [hpc] at hbounds hawait hflow
  obtain ⟨e, es, hes, _, hname⟩ := hflow.receiving rfl hbounds.1 hawait
  have hall : received.map Prod.fst ++ e :: es = missingOf Y.contains answered := by
    have hsent := hA.sent
    rwa [hA.uploads, List.map_append, List.append_assoc, hes] at hsent
  have hsub : (received.map Prod.fst ++ e :: es).Sublist X.pipe.hasher.entries := by
    refine List.Sublist.trans ?_ h.sound.1.offered_sublist
    rw [hall, hA.offered]
    exact List.filter_sublist.trans (List.sublist_append_left _ _)
  have hindex : ∀ e' ∈ received.map Prod.fst ++ e :: es, e' ∈ SX.index := fun e' he' =>
    h.sound.1.entries_index (hsub.subset he')
  have he : e ∈ missingOf Y.contains answered := by
    rw [← hall]
    exact List.mem_append_right _ List.mem_cons_self
  refine ⟨e, hindex e (List.mem_append_right _ List.mem_cons_self), hname,
    by simpa using (List.mem_filter.mp he).2, fun d hd => ?_⟩
  have hsum : (d.hash, d.filename, d.file) ∈
      received.map fun f => (f.1.hash, sentName f.1.path, f.2) := by
    rw [← hA.downloads]
    exact List.mem_map_of_mem hd
  obtain ⟨f, hf, hfeq⟩ := List.mem_map.mp hsum
  have hmem : f.1 ∈ received.map Prod.fst := List.mem_map_of_mem hf
  refine ⟨f.1, hindex _ (List.mem_append_left _ hmem), fun heq => ?_,
    (congrArg (fun t => t.2.1) hfeq).symm⟩
  -- the entries of a peer are different
  have hhashed : X.pipe.hasher.entries.Sublist SX.index := by
    rw [Site.index, ← h.sound.1.handOver.rest]
    exact List.sublist_append_left _ _
  have hentries := (List.Nodup.of_map _ (nodup_firstOfEach [] SX.scans)).sublist hhashed
  have hnodup := hentries.sublist hsub
  exact (List.nodup_append.mp hnodup).2.2 _ hmem _ List.mem_cons_self heq

/-- What is opened for sending is an entry of its side. -/
theorem opening_index (h : Aligned SX X SY Y L) {l : FileLoop} (hpc : X.upload = .openFile l) :
    l.entry ∈ SX.index := by
  obtain ⟨received, inflight, todo, opening, answered, hA⟩ := h.account
  have hflow := hA.flow
  rw [hpc] at hflow
  obtain ⟨hf, rfl⟩ := hflow.flowing_of_files (by simp) rfl
  obtain ⟨rest, _, rfl⟩ := Option.map_eq_some_iff.mp hf.todo
  have hmissing : l.entry ∈ missingOf Y.contains answered := by
    rw [← hA.sent]
    exact List.mem_append_right _ List.mem_cons_self
  refine h.sound.1.entries_index (h.sound.1.offered_sublist.subset ?_)
  rw [hA.offered]
  exact List.mem_append_left _ (List.mem_filter.mp hmissing).1

/-- **The name of a new file is not taken**, if it is that of an image the
receiver lacks. -/
theorem name_free (h : Aligned SX X SY Y L) (hdir : SX.Directory) (hfree : NamesFree SX SY)
    {hash : ExifHash} {filename : Bytes} {fileSize : Nat} {missing : List ExifHash}
    (hpc : Y.download = .create hash filename fileSize missing) :
    cString filename = filename ∧ toPath SY.cfg.downloadDir filename ∉
      (SY.disk.files ++ Y.collected SY.cfg.downloadDir).map Prod.fst := by
  obtain ⟨e, he, rfl, hlacks, hreceived⟩ := h.received_fresh hpc
  obtain ⟨_, hname, hslash, hnul⟩ := hdir.name_sent he
  refine ⟨cString_of_notMem hnul, fun hmem => ?_⟩
  rw [List.map_append] at hmem
  rcases List.mem_append.mp hmem with hmem | hmem
  · -- the receiver has hashed all of its files by now
    obtain ⟨g, hg, hgpath⟩ := List.mem_map.mp hmem
    obtain ⟨scan, hscan, hpath, hexif⟩ := SX.scan_of_index he
    have hdrained := h.sound.2.drained (h.sound.2.downloading (by simp [hpc]))
    refine hfree scan hscan e.hash hexif (fun hheld => ?_) g hg ?_
    · rw [Peer.contains, decide_eq_false_iff_not] at hlacks
      exact hlacks ((hdrained.hashes e.hash).mpr hheld)
    · rw [hgpath, hpath, toFilename_toPath _ hslash hnul, hname]
  · -- an earlier download would be of the same entry
    rw [Peer.collected, List.map_map] at hmem
    obtain ⟨d, hd, hdpath⟩ := List.mem_map.mp hmem
    obtain ⟨e', he', hne, hdname⟩ := hreceived d hd
    refine hne (hdir.sentName_inj he' he ?_)
    rw [← hdname]
    exact toPath_injective hdpath

end Aligned

namespace Session

/-- What holds of a direction in a run that hits no defect, between
directories that may have images in common. -/
structure Delivering (SX : Site) (X : Peer) (SY : Site) (Y : Peer) (L : Link) : Prop where
  directory : SX.Directory
  free : NamesFree SX SY
  intact : Intact SX X SY Y L
  ends : Ends X Y L
  heard : HearsHeld SX X SY Y L
  fresh : X.pipe.FreshAfter
  kept : Disk.Keeps SX.disk X.host.disk
  collected : Y.Collected SY

namespace Delivering

variable {SX SY : Site} {X Y X' Y' : Peer} {L M L' M' : Link} {a : Peer.Act}

theorem start (hX : SX.Directory) (hY : SY.Directory) (hp : Packets SX SY)
    (hfree : NamesFree SX SY) :
    Delivering SX (.start SX.scans SX.disk) SY (.start SY.scans SY.disk) .start where
  directory := hX
  free := hfree
  intact := intact_start SX SY
  ends := .start SX SY
  heard := hearsHeld_start hp
  fresh := by simp [Pipeline.FreshAfter, Peer.start, Pipeline.start]
  kept := Disk.Keeps.refl _
  collected := Peer.collected_start hY

/-- **A file that is opened for sending can be read.** -/
theorem readable (h : Delivering SX X SY Y L) {l : FileLoop} (hpc : X.upload = .openFile l) :
    ∃ bytes, X.host.disk.reopenEndIn l.entry.path = some bytes ∧ bytes.length < 2 ^ 32 := by
  obtain ⟨bytes, hbytes, hne, hlt⟩ := h.directory.contents (h.intact.aligned.opening_index hpc)
  refine ⟨bytes, h.kept.reopenEndIn ?_, hlt⟩
  rw [Disk.reopenEndIn, Disk.openIn, h.directory.opens.1, if_neg List.not_mem_nil, hbytes,
    Option.filter_eq_some_iff]
  exact ⟨rfl, by simpa using hne⟩

/-- The size of a file that is opened fits its four bytes. -/
theorem sizeFits (h : Delivering SX X SY Y L) : X.upload.SizeFits X.host.disk := by
  cases hpc : X.upload with
  | openFile l =>
      intro contents hcontents
      obtain ⟨bytes, hbytes, hlt⟩ := h.readable hpc
      rw [hbytes, Option.mem_some_iff] at hcontents
      rw [← hcontents]
      exact hlt
  | _ => trivial

/-- A peer both of whose directions are fine does not call `Fatal`. -/
theorem live (hXY : Delivering SX X SY Y L) (hYX : Delivering SY Y SX X M)
    (hst : X.step SX.cfg L M a = some (X', L', M')) : X'.terminated = false := by
  have hclosed : L.replies.closed = true → X.upload = .closed := fun hc =>
    hXY.ends.order (hXY.ends.closed.mp hc)
  by_contra hdead
  rw [Bool.not_eq_false] at hdead
  rcases (hXY.intact.aligned.sound.1.broken_of_step hst hdead).2 with
    ⟨hpc, hc⟩ | hbroken | hbroken
  · rw [hclosed hc] at hpc
    cases hpc
  · rcases hbroken with ⟨buf, missing, hpc, hc, _, _⟩ | ⟨l, hpc, hopen⟩
    · rw [show X.upload = .mask buf missing from hpc] at hclosed
      cases hclosed hc
    · obtain ⟨bytes, hbytes, _⟩ := hXY.readable hpc
      rw [show X.host.disk.reopenEndIn l.entry.path = none from hopen] at hbytes
      cases hbytes
  · exact hYX.intact.aligned.not_broken hbroken

/-- **A step of one peer keeps both directions.** -/
theorem step (hXY : Delivering SX X SY Y L) (hYX : Delivering SY Y SX X M)
    (hok : X.FilesWork a ∧ X.Regular a) (hst : X.step SX.cfg L M a = some (X', L', M')) :
    Delivering SX X' SY Y L' ∧ Delivering SY Y SX X' M' := by
  have hsound := hXY.intact.aligned.sound.1
  have hlive := hXY.live hYX hst
  have hfaultless : X.Faultless a := by
    cases a with
    | download k => exact ⟨hok.2.1, hok.1⟩
    | upload k => exact ⟨hXY.sizeFits, hok.1⟩
    | _ => trivial
  have hstores : ∀ k, a = .download k → X.download.StoresAll k := fun k ha => by
    subst ha
    exact hok.1
  have hfile := (hsound.ends_of_step hst hlive).2.fileMove hlive
  obtain ⟨_, hkeep⟩ := hXY.intact.stored.1.step hstores hfile
  exact ⟨⟨hXY.directory, hXY.free, hXY.intact.up hfaultless hst hlive,
      hXY.ends.up hsound hst hlive, hXY.heard.up hst, hsound.freshAfter_step hXY.fresh hok.2 hst,
      hXY.kept.trans hkeep.disk, hXY.collected⟩,
    ⟨hYX.directory, hYX.free, hYX.intact.down hfaultless hst hlive,
      hYX.ends.down hYX.intact.aligned hst hlive, hYX.heard.down hst, hYX.fresh, hYX.kept,
      hYX.collected.step hstores hfile fun _ _ _ _ hpc =>
        hYX.intact.aligned.name_free hYX.directory hYX.free hpc⟩⟩

/-! ## What is delivered -/

/-- Every download is a file of the sender that the receiver lacked, under
its name and with its contents. -/
theorem downloads_from (h : Delivering SX X SY Y L) {d : Download} (hd : d ∈ Y.downloads) :
    ∃ e ∈ SX.index, e.hash ∉ SY.hashes ∧ d.filename = toFilename e.path ∧
      SX.disk.contents e.path = some d.file := by
  obtain ⟨received, inflight, todo, opening, answered, hA⟩ := h.intact.aligned.account
  have hsum : (d.hash, d.filename, d.file) ∈
      received.map fun f => (f.1.hash, sentName f.1.path, f.2) := by
    rw [← hA.downloads]
    exact List.mem_map_of_mem hd
  obtain ⟨f, hf, hfeq⟩ := List.mem_map.mp hsum
  simp only [Prod.mk.injEq] at hfeq
  have hupload : f ∈ X.uploads := by
    rw [hA.uploads]
    exact List.mem_append_left _ hf
  have hmissing : f.1 ∈ missingOf Y.contains answered := by
    rw [← hA.sent]
    exact List.mem_append_left _ (List.mem_map_of_mem hupload)
  obtain ⟨hanswered, hlacks⟩ := List.mem_filter.mp hmissing
  have hindex : f.1 ∈ SX.index := by
    refine h.intact.aligned.sound.1.entries_index
      (h.intact.aligned.sound.1.offered_sublist.subset ?_)
    rw [hA.offered]
    exact List.mem_append_left _ hanswered
  obtain ⟨bytes, hbytes, hne, _⟩ := h.directory.contents hindex
  -- what was sent is what the sender's file still holds
  have hread := h.intact.faithful f hupload (h.intact.aligned.sizes f hupload).1
  rw [h.kept.kept _ _ hne hbytes] at hread
  refine ⟨f.1, hindex, fun hheld => ?_, ?_, by rw [hbytes, hread, hfeq.2.2]⟩
  · -- a downloader that has begun its loop has hashed its whole side
    have hloop : Y.download ≠ .update := fun hupdate => by
      obtain ⟨_, _, _, hnone⟩ := h.intact.aligned.account_update (by rw [hupdate]; exact id)
        Y.contains
      have hempty := hnone.downloads
      rw [List.map_nil, List.map_eq_nil_iff] at hempty
      rw [hempty] at hd
      exact absurd hd List.not_mem_nil
    have hdrained := h.intact.aligned.sound.2.drained
      (h.intact.aligned.sound.2.downloading hloop)
    rw [Bool.not_eq_true', Peer.contains, decide_eq_false_iff_not] at hlacks
    exact hlacks ((hdrained.hashes f.1.hash).mpr hheld)
  · rw [← hfeq.2.1, (h.directory.name_sent hindex).2.1]

/-- The uploader that has left its loop has offered all that was not
announced to it. -/
theorem offered_all (h : Delivering SX X SY Y L) (hx : X.upload = .closed)
    (hxd : X.download = .closed) :
    X.pipe.offered.flatten =
      SX.index.filter fun e => decide (e.hash ∉ X.receiving.receivedHashes) := by
  have hsound := h.intact.aligned.sound.1
  have hupd : X.receiving.updated = true := hsound.updated.mpr (by rw [hx]; exact id)
  have hpipe : Pipeline.Sound (Peer.runArgs SX.cfg).progressThreshold
      X.receiving.receivedHashes SX.scans X.pipe :=
    ⟨hsound.handOver, hsound.inv, hsound.offers hupd⟩
  have hcomplete := Pipeline.complete_of_fresh hpipe h.fresh (hsound.closed hx)
  have hdrained := hsound.drained (hsound.downloading (by rw [hxd]; simp))
  rw [(hsound.offers hupd).offered, hcomplete.1, List.take_length, hdrained.entries]
  rfl

/-- **What has been sent** when a direction is closed: the images that the
receiver lacks, once each, as the sender's files hold them. -/
theorem uploads_of_closed (h : Delivering SX X SY Y L) (hx : X.upload = .closed)
    (hxd : X.download = .closed) (hy : Y.download = .closed) :
    X.uploads = (SX.missing SY).map fun e => (e, (SX.disk.contents e.path).getD []) := by
  have hsent := (closed_account h.intact.aligned hx hy).1
  have hdrained := h.intact.aligned.sound.2.drained
    (h.intact.aligned.sound.2.downloading (by rw [hy]; simp))
  -- what was skipped is held, so the missing entries are those of the whole index
  have hmissing : X.uploads.map Prod.fst = SX.missing SY := by
    rw [hsent, h.offered_all hx hxd, missingOf, List.filter_filter, Site.missing]
    refine List.filter_congr fun e _ => ?_
    have hcontains : Y.contains e.hash = decide (e.hash ∈ SY.hashes) :=
      decide_eq_decide.mpr (hdrained.hashes e.hash)
    rw [hcontains]
    by_cases hheard : e.hash ∈ X.receiving.receivedHashes
    · have hheld : e.hash ∈ SY.hashes :=
        (hdrained.hashes e.hash).mp (h.heard.hears.received _ hheard)
      simp [hheld]
    · simp only [decide_not, hheard, decide_false, Bool.not_false, Bool.and_true]
  have hfile : ∀ f ∈ X.uploads, (f.1, (SX.disk.contents f.1.path).getD []) = f := by
    intro f hf
    have hmem : f.1 ∈ X.uploads.map Prod.fst := List.mem_map_of_mem hf
    rw [hmissing] at hmem
    obtain ⟨bytes, hbytes, hne, _⟩ := h.directory.contents (List.mem_filter.mp hmem).1
    -- what was sent is what the sender's file still holds
    have hread := h.intact.faithful f hf (h.intact.aligned.sizes f hf).1
    rw [h.kept.kept _ _ hne hbytes] at hread
    rw [hbytes, Option.getD_some, Option.some.inj hread]
  calc X.uploads = X.uploads.map fun f => (f.1, (SX.disk.contents f.1.path).getD []) :=
        (List.map_id X.uploads).symm.trans (List.map_congr_left fun f hf => (hfile f hf).symm)
    _ = (X.uploads.map Prod.fst).map fun e => (e, (SX.disk.contents e.path).getD []) :=
        by rw [List.map_map]; rfl
    _ = (SX.missing SY).map fun e => (e, (SX.disk.contents e.path).getD []) := by rw [hmissing]

/-- **A closed direction has delivered** the images its receiver lacked. -/
theorem delivered (h : Delivering SX X SY Y L) (hx : X.upload = .closed)
    (hxd : X.download = .closed) (hy : Y.download = .closed) :
    Y.host.disk.files = SY.disk.files ++ imagesFor SX SY := by
  have hdownloads := (closed_account h.intact.aligned hx hy).2.2
  have hfiles := h.collected.files
  rw [hy, show DownloadPc.opened .closed = none from rfl, Option.map_none, Option.toList_none,
    List.append_nil] at hfiles
  have hcollected : Y.collected SY.cfg.downloadDir =
      (Y.downloads.map fun d => (d.hash, d.filename, d.file)).map
        fun d => (toPath SY.cfg.downloadDir d.2.1, d.2.2) := by
    rw [Peer.collected, List.map_map]
    rfl
  have himages : imagesFor SX SY = (SX.missing SY).map fun e =>
      (toPath SY.cfg.downloadDir (toFilename e.path), (SX.disk.contents e.path).getD []) := rfl
  rw [hfiles, hcollected, hdownloads, h.uploads_of_closed hx hxd hy, himages, List.map_map,
    List.map_map]
  refine congrArg (SY.disk.files ++ ·) (List.map_congr_left fun e he => ?_)
  simp only [Function.comp_apply, (h.directory.name_sent (List.mem_filter.mp he).1).2.1]

end Delivering
end Session
end Jpgsync
