import Jpgsync.Session.Settled
import Mathlib.Data.Set.Basic

/-!
# Session — Union

What sessions are for. A directory stands for the set of the images in it,
an image being what its hash says it is, and a hash is a function of the
contents of a file. Synchronising two directories makes both of them the
union of the two. That holds for a session that is over, and whatever
sessions came before it and were cut short at any point: what they leave
has the same union, and is fit for another session (`Ready.resume`,
`resumed_union`). One more session changes nothing (`synced_again`).
-/

namespace Jpgsync

open ExifHasher

/-- **The images among files**, by what is hashed of their contents. -/
def imagesOf (exif : Bytes → Option ExifHash) (files : List (Bytes × Bytes)) : Set ExifHash :=
  {hash | ∃ f ∈ files, exif f.2 = some hash}

variable {exif : Bytes → Option ExifHash}

theorem mem_imagesOf {files : List (Bytes × Bytes)} {hash : ExifHash} :
    hash ∈ imagesOf exif files ↔ ∃ f ∈ files, exif f.2 = some hash :=
  Iff.rfl

theorem imagesOf_append (files files' : List (Bytes × Bytes)) :
    imagesOf exif (files ++ files') = imagesOf exif files ∪ imagesOf exif files' := by
  ext hash
  simp only [mem_imagesOf, List.mem_append, Set.mem_union, or_and_right, exists_or]

theorem lookup_of_mem {files : List (Bytes × Bytes)} (h : (files.map Prod.fst).Nodup)
    {path contents : Bytes} (hfile : (path, contents) ∈ files) :
    files.lookup path = some contents := by
  have hsome : (files.lookup path).isSome := List.lookup_isSome_iff.mpr ⟨_, hfile, by simp⟩
  obtain ⟨contents', hcontents'⟩ := Option.isSome_iff_exists.mp hsome
  obtain ⟨l₁, l₂, heq, _⟩ := List.lookup_eq_some_iff.mp hcontents'
  have hmem : (path, contents') ∈ files := by
    rw [heq]
    simp
  have hsame := List.inj_on_of_nodup_map h hmem hfile rfl
  rw [hcontents', (Prod.mk.inj hsame).2]

/-- **A side scans its directory**: each file once, for what is hashed of
its contents. The order in which `Dir` returns the files is free. -/
structure Site.Scanned (exif : Bytes → Option ExifHash) (S : Site) : Prop where
  distinct : (S.disk.files.map Prod.fst).Nodup
  scanned : ∀ path hash, (∃ scan ∈ S.scans, scan.path = path ∧ scan.exif = some hash) ↔
    ∃ contents, (path, contents) ∈ S.disk.files ∧ exif contents = some hash

namespace Site.Scanned

variable {S : Site}

/-- The hashes of a side are the images of its directory. -/
theorem mem_hashes (h : S.Scanned exif) {hash : ExifHash} :
    hash ∈ S.hashes ↔ hash ∈ imagesOf exif S.disk.files := by
  rw [Site.hashes, Site.index, mem_hashes_firstOfEach, mem_imagesOf]
  constructor
  · rintro ⟨-, scan, hscan, hexif⟩
    obtain ⟨contents, hfile, hcontents⟩ := (h.scanned _ _).mp ⟨scan, hscan, rfl, hexif⟩
    exact ⟨_, hfile, hcontents⟩
  · rintro ⟨f, hf, hexif⟩
    obtain ⟨scan, hscan, -, hscanned⟩ := (h.scanned f.1 hash).mpr ⟨f.2, hf, hexif⟩
    exact ⟨List.not_mem_nil, scan, hscan, hscanned⟩

/-- A path has the contents of its file. -/
theorem contents_of_mem (h : S.Scanned exif) {path contents : Bytes}
    (hfile : (path, contents) ∈ S.disk.files) : S.disk.contents path = some contents :=
  lookup_of_mem h.distinct hfile

/-- The file of an entry is an image with the entry's hash. -/
theorem contents_index (h : S.Scanned exif) {e : Entry} (he : e ∈ S.index) :
    ∃ contents, S.disk.contents e.path = some contents ∧ exif contents = some e.hash := by
  obtain ⟨scan, hscan, hpath, hexif⟩ := S.scan_of_index he
  obtain ⟨contents, hfile, hcontents⟩ := (h.scanned _ _).mp ⟨scan, hscan, hpath, hexif⟩
  exact ⟨contents, h.contents_of_mem hfile, hcontents⟩

end Site.Scanned

variable {SX SY : Site}

/-- **What is sent** are the images of one side that the other lacks. -/
theorem imagesOf_imagesFor (hX : SX.Scanned exif) (hY : SY.Scanned exif) :
    imagesOf exif (imagesFor SX SY) =
      imagesOf exif SX.disk.files \ imagesOf exif SY.disk.files := by
  ext hash
  rw [mem_imagesOf, Set.mem_sdiff, ← hX.mem_hashes, ← hY.mem_hashes, imagesFor]
  constructor
  · rintro ⟨f, hf, hexif⟩
    obtain ⟨e, he, rfl⟩ := List.mem_map.mp hf
    obtain ⟨hindex, hlacks⟩ := List.mem_filter.mp he
    obtain ⟨contents, hcontents, hhash⟩ := hX.contents_index hindex
    rw [hcontents, Option.getD_some, hhash, Option.some.injEq] at hexif
    subst hexif
    exact ⟨List.mem_map_of_mem hindex, of_decide_eq_true hlacks⟩
  · rintro ⟨hmem, hlacks⟩
    obtain ⟨e, hindex, rfl⟩ := List.mem_map.mp hmem
    obtain ⟨contents, hcontents, hhash⟩ := hX.contents_index hindex
    refine ⟨_, List.mem_map_of_mem (List.mem_filter.mpr ⟨hindex, decide_eq_true hlacks⟩), ?_⟩
    rw [hcontents]
    exact hhash

/-- A directory that received what it lacked is the union of the two. -/
theorem imagesOf_synced (hX : SX.Scanned exif) (hY : SY.Scanned exif)
    {files : List (Bytes × Bytes)} (hfiles : files = SY.disk.files ++ imagesFor SX SY) :
    imagesOf exif files = imagesOf exif SX.disk.files ∪ imagesOf exif SY.disk.files := by
  rw [hfiles, imagesOf_append, imagesOf_imagesFor hX hY, Set.union_sdiff_self, Set.union_comm]

/-! ## Sides that are fit for a session -/

namespace Session

/-- **Two sides are fit for a session**: directories whose files are
hashed, and in which the names of what is to be sent are free. -/
structure Ready (exif : Bytes → Option ExifHash) (A B : Site) : Prop where
  directory : A.Directory ∧ B.Directory
  scanned : A.Scanned exif ∧ B.Scanned exif
  packets : Packets A B
  free : NamesFree A B ∧ NamesFree B A

/-- **Where the files of a receiver come from**: they were there, or one is
just open, or they are images that it lacked. -/
theorem Delivering.mem_files {X Y : Peer} {L : Link} (h : Delivering SX X SY Y L)
    {f : Bytes × Bytes} (hf : f ∈ Y.host.disk.files) :
    f ∈ SY.disk.files ∨ f.2 = [] ∨
      ∃ e ∈ SX.index, f.1 = toPath SY.cfg.downloadDir (toFilename e.path) ∧
        SX.disk.contents e.path = some f.2 := by
  rw [h.collected.files] at hf
  rcases List.mem_append.mp hf with hf | hf
  · rcases List.mem_append.mp hf with hf | hf
    · exact Or.inl hf
    · obtain ⟨d, hd, rfl⟩ := List.mem_map.mp hf
      obtain ⟨e, he, _, hname, hcontents⟩ := h.downloads_from hd
      exact Or.inr (Or.inr ⟨e, he, by rw [hname], hcontents⟩)
  · rw [Option.mem_toList, Option.map_eq_some_iff] at hf
    obtain ⟨_, _, rfl⟩ := hf
    exact Or.inr (Or.inl rfl)

theorem Delivering.subset_files {X Y : Peer} {L : Link} (h : Delivering SX X SY Y L) :
    SY.disk.files ⊆ Y.host.disk.files := by
  intro f hf
  rw [h.collected.files]
  exact List.mem_append_left _ (List.mem_append_left _ hf)

/-- **A side after a session**, which may have been cut short: the directory
with the files that the peer left. It has no empty files, so the session
was not cut short while one was open. -/
structure Leaves (exif : Bytes → Option ExifHash) (p : Peer) (S S' : Site) : Prop where
  cfg : S'.cfg = S.cfg
  files : S'.disk.files = p.host.disk.files
  directory : S'.Directory
  scanned : S'.Scanned exif

namespace Leaves

variable {X Y : Peer} {L M : Link} {SX' SY' : Site}

/-- An image of the side afterwards: one it had, or one the other side
has. -/
theorem image (hXY : Delivering SX X SY Y L) (hX : SX.Scanned exif)
    (hleaves : Leaves exif Y SY SY') {f : Bytes × Bytes} (hf : f ∈ SY'.disk.files)
    {hash : ExifHash} (hexif : exif f.2 = some hash) :
    f ∈ SY.disk.files ∨ hash ∈ imagesOf exif SX.disk.files ∧
      ∃ e ∈ SX.index, f.1 = toPath SY.cfg.downloadDir (toFilename e.path) ∧
        SX.disk.contents e.path = some f.2 := by
  have hfile := hf
  rw [hleaves.files] at hfile
  rcases hXY.mem_files hfile with hold | hempty | ⟨e, he, hpath, hcontents⟩
  · exact Or.inl hold
  · -- a directory has no empty files
    exact absurd hempty (hleaves.directory.sizes f hf).1
  · obtain ⟨contents, hsame, hhash⟩ := hX.contents_index he
    rw [hcontents, Option.some.injEq] at hsame
    rw [← hsame, hexif, Option.some.injEq] at hhash
    refine Or.inr ⟨?_, e, he, hpath, hcontents⟩
    rw [← hX.mem_hashes, hhash]
    exact List.mem_map_of_mem he

/-- Nothing is lost. -/
theorem subset (hXY : Delivering SX X SY Y L) (hleaves : Leaves exif Y SY SY') :
    imagesOf exif SY.disk.files ⊆ imagesOf exif SY'.disk.files := by
  rintro hash ⟨f, hf, hexif⟩
  refine ⟨f, ?_, hexif⟩
  rw [hleaves.files]
  exact hXY.subset_files hf

/-- Nothing is made up. -/
theorem subset_union (hXY : Delivering SX X SY Y L) (hX : SX.Scanned exif)
    (hleaves : Leaves exif Y SY SY') : imagesOf exif SY'.disk.files ⊆
      imagesOf exif SX.disk.files ∪ imagesOf exif SY.disk.files := by
  rintro hash ⟨f, hf, hexif⟩
  rcases hleaves.image hXY hX hf hexif with hold | ⟨hother, _⟩
  · exact Or.inr ⟨f, hold, hexif⟩
  · exact Or.inl hother

/-- The names of what is still to be sent stay free. -/
theorem free (hXY : Delivering SX X SY Y L) (hYX : Delivering SY Y SX X M)
    (hX : SX.Scanned exif) (hY : SY.Scanned exif) (hleavesX : Leaves exif X SX SX')
    (hleavesY : Leaves exif Y SY SY') : NamesFree SX' SY' := by
  intro scan hscan hash hexif hlacks g hg hsame
  rw [hleavesY.scanned.mem_hashes] at hlacks
  obtain ⟨contents, hfile, hcontents⟩ :=
    (hleavesX.scanned.scanned scan.path hash).mp ⟨scan, hscan, rfl, hexif⟩
  -- an image that was received is one the other side holds
  have hold : (scan.path, contents) ∈ SX.disk.files := by
    rcases hleavesX.image hYX hY hfile hcontents with hold | ⟨hother, _⟩
    · exact hold
    · exact absurd (hleavesY.subset hXY hother) hlacks
  obtain ⟨scan', hscan', hpath, hexif'⟩ := (hX.scanned scan.path hash).mpr ⟨_, hold, hcontents⟩
  have hlacks' : hash ∉ SY.hashes := fun hheld =>
    hlacks (hleavesY.subset hXY (hY.mem_hashes.mp hheld))
  have hgfile := hg
  rw [hleavesY.files] at hgfile
  rcases hXY.mem_files hgfile with hgold | hempty | ⟨e, he, hgpath, hgcontents⟩
  · exact hXY.free scan' hscan' hash hexif' hlacks' g hgold (by rw [hpath]; exact hsame)
  · exact (hleavesY.directory.sizes g hg).1 hempty
  · -- `g` is the copy of a file with the name of the image, so of the image
    obtain ⟨hepath, hename, hslash, hnul⟩ := hXY.directory.name_sent he
    obtain ⟨name, hname, hnslash, hnnul, _⟩ := hXY.directory.named _ hold
    replace hname : scan.path = toPath SX.cfg.downloadDir name := hname
    rw [hgpath, ← hename, toFilename_toPath _ hslash hnul, hname,
      toFilename_toPath _ hnslash hnnul] at hsame
    have hcopy : scan.path = e.path := by rw [hname, hsame, ← hepath]
    rw [← hcopy, hX.contents_of_mem hold, Option.some.injEq] at hgcontents
    exact hlacks ⟨g, hg, by rw [← hgcontents]; exact hcontents⟩

end Leaves

variable {A B A' B' : Site} {s t : Session}

theorem Hearing.of_ready (h : Ready exif A B)
    (hs : (system A B).Reaches (each (Peer.Smooth (A.common B))) (Session.start A B) s) :
    Hearing A B s :=
  .of_smooth h.directory.1 h.directory.2 h.packets h.free hs

/-- **What an interrupted session leaves** is fit for another one, and the
two directories have the same images between them. -/
theorem Ready.resume (h : Ready exif A B)
    (hs : (system A B).Reaches (each (Peer.Smooth (A.common B))) (start A B) s)
    (hA : Leaves exif s.a A A') (hB : Leaves exif s.b B B') :
    Ready exif A' B' ∧ imagesOf exif A'.disk.files ∪ imagesOf exif B'.disk.files =
      imagesOf exif A.disk.files ∪ imagesOf exif B.disk.files := by
  obtain ⟨⟨hab, hba⟩, -⟩ := Hearing.of_ready h hs
  obtain ⟨hsA, hsB⟩ := h.scanned
  refine ⟨⟨⟨hA.directory, hB.directory⟩, ⟨hA.scanned, hB.scanned⟩,
    by rw [Packets, hA.cfg, hB.cfg]; exact h.packets,
    hA.free hab hba hsA hsB hB, hB.free hba hab hsB hsA hA⟩, ?_⟩
  refine Set.Subset.antisymm (Set.union_subset ?_ (hB.subset_union hab hsA))
    (Set.union_subset_union (hA.subset hba) (hB.subset hab))
  rw [Set.union_comm]
  exact hA.subset_union hba hsB

/-- A session that is over makes each directory the union. -/
theorem imagesOf_of_smooth (h : Ready exif A B)
    (hs : (system A B).Reaches (each (Peer.Smooth (A.common B))) (start A B) s)
    (hret : s.a.returned = true ∧ s.b.returned = true) :
    imagesOf exif s.a.host.disk.files =
        imagesOf exif A.disk.files ∪ imagesOf exif B.disk.files ∧
      imagesOf exif s.b.host.disk.files =
        imagesOf exif A.disk.files ∪ imagesOf exif B.disk.files := by
  obtain ⟨hb, ha⟩ := (Hearing.of_ready h hs).delivered hs.reachable hret
  exact ⟨by rw [imagesOf_synced h.scanned.2 h.scanned.1 ha, Set.union_comm],
    imagesOf_synced h.scanned.1 h.scanned.2 hb⟩

/-- **A history of interrupted sessions**, each on what the one before it
left, each cut short in any state. -/
inductive History (exif : Bytes → Option ExifHash) (A B : Site) : Site → Site → Prop
  | none : History exif A B A B
  | interrupted {A' B' A'' B'' : Site} {s : Session} (h : History exif A B A' B')
      (hs : (system A' B').Reaches (each (Peer.Smooth (A'.common B'))) (start A' B') s)
      (hA : Leaves exif s.a A' A'') (hB : Leaves exif s.b B' B'') : History exif A B A'' B''

theorem History.ready (h : Ready exif A B) (hhist : History exif A B A' B') :
    Ready exif A' B' ∧ imagesOf exif A'.disk.files ∪ imagesOf exif B'.disk.files =
      imagesOf exif A.disk.files ∪ imagesOf exif B.disk.files := by
  induction hhist with
  | none => exact ⟨h, rfl⟩
  | interrupted hhist hs hA hB ih =>
      obtain ⟨hready, hunion⟩ := ih.1.resume hs hA hB
      exact ⟨hready, hunion.trans ih.2⟩

/-- **Sessions make a union**, whatever interruptions there were: after any
number of sessions that were cut short, a session that is over leaves in
each directory exactly the images that one or the other held at first. In
none of them a file failed, an update was incomplete for what both sides
held, or `hashing` was cleared behind a stale total. -/
theorem resumed_union (h : Ready exif A B) (hhist : History exif A B A' B')
    (ht : (system A' B').Reaches (each (Peer.Smooth (A'.common B'))) (start A' B') t)
    (hret : t.a.returned = true ∧ t.b.returned = true) :
    imagesOf exif t.a.host.disk.files =
        imagesOf exif A.disk.files ∪ imagesOf exif B.disk.files ∧
      imagesOf exif t.b.host.disk.files =
        imagesOf exif A.disk.files ∪ imagesOf exif B.disk.files := by
  obtain ⟨hready, hunion⟩ := hhist.ready h
  rw [← hunion]
  exact imagesOf_of_smooth hready ht hret

/-- **Synchronising is idempotent.** A second session on the directories the
first one left, in which each side hears of the other's images before its
main loop begins, sends nothing and changes nothing. -/
theorem synced_again (h : Ready exif A B)
    (hs : (system A B).Reaches (each (Peer.Smooth (A.common B))) (start A B) s)
    (hret : s.a.returned = true ∧ s.b.returned = true) (hA : Leaves exif s.a A A')
    (hB : Leaves exif s.b B B')
    (ht : (system A' B').Reaches (each (Peer.HearsFirst A'.hashes)) (start A' B') t) :
    (t.a.host = ⟨A'.disk, .start⟩ ∧ t.b.host = ⟨B'.disk, .start⟩) ∧
      t.ab.offers.sent = [] ∧ t.ba.offers.sent = [] := by
  have hsame : ∀ hash, hash ∈ A'.hashes ↔ hash ∈ B'.hashes := by
    obtain ⟨ha, hb⟩ := imagesOf_of_smooth h hs hret
    intro hash
    rw [hA.scanned.mem_hashes, hB.scanned.mem_hashes, hA.files, hB.files, ha, hb]
  obtain ⟨hab, hba⟩ := quiet_of_heard hsame ht
  exact ⟨⟨hba.host, hab.host⟩, hab.silent, hba.silent⟩

/-! ## The small session -/

/-- What is hashed of the contents of the image. -/
def exifOfImage (contents : Bytes) : Option ExifHash :=
  if contents = [1, 2, 3] then some ⟨1, 0, 0, 0, 0⟩ else none

/-- A side with one file, the image. -/
theorem scanned_singleton {cfg : Config} {path : Bytes} (hpath : path ≠ []) :
    Site.Scanned exifOfImage
      ⟨cfg, [⟨path, some ⟨1, 0, 0, 0, 0⟩, hpath⟩], ⟨[(path, [1, 2, 3])], [], []⟩⟩ where
  distinct := List.nodup_singleton _
  scanned := by
    intro path' hash
    simp only [List.mem_singleton, exists_eq_left, Option.some.injEq, Prod.mk.injEq]
    constructor
    · rintro ⟨rfl, rfl⟩
      exact ⟨_, ⟨rfl, rfl⟩, rfl⟩
    · rintro ⟨_, ⟨rfl, rfl⟩, hexif⟩
      exact ⟨rfl, Option.some.inj hexif⟩

theorem emptySite_ready : Ready exifOfImage emptySite imageSite where
  directory := ⟨emptySite_directory, imageSite_directory⟩
  scanned := ⟨⟨List.nodup_nil, fun _ _ => ⟨fun ⟨_, hscan, _⟩ => absurd hscan List.not_mem_nil,
    fun ⟨_, hfile, _⟩ => absurd hfile List.not_mem_nil⟩⟩, scanned_singleton _⟩
  packets := ⟨rfl, rfl⟩
  free := emptySite_free

theorem twinSite_directory : twinSite.Directory where
  named := fun f hf => by
    rw [List.mem_singleton.mp hf]
    exact ⟨[120], rfl, by decide, by decide, by decide⟩
  listed := fun scan hscan => by
    rw [List.mem_singleton.mp hscan]
    exact List.mem_singleton.mpr rfl
  once := List.nodup_singleton _
  sizes := fun f hf => by
    rw [List.mem_singleton.mp hf]
    exact ⟨by decide, by decide⟩
  opens := ⟨rfl, rfl⟩

/-- The image is sent: `a` ends as `twinSite`. -/
theorem transferRun_leaves : ∃ s,
    (system emptySite imageSite).exec (start emptySite imageSite) (transferRun 3) = some s ∧
      (s.a.returned = true ∧ s.b.returned = true) ∧
      Leaves exifOfImage s.a emptySite twinSite ∧ Leaves exifOfImage s.b imageSite imageSite := by
  have hrun : ((system emptySite imageSite).exec (start emptySite imageSite)
      (transferRun 3)).map outcome =
      some ⟨(true, true), (0, 0), [⟨1, 0, 0, 0, 0⟩],
        (twinSite.disk.files, imageSite.disk.files)⟩ := by
    decide +kernel
  obtain ⟨s, hs, hout⟩ := Option.map_eq_some_iff.mp hrun
  simp only [outcome, Outcome.mk.injEq, Prod.mk.injEq] at hout
  obtain ⟨hret, _, _, hfilesA, hfilesB⟩ := hout
  exact ⟨s, hs, hret, ⟨rfl, hfilesA.symm, twinSite_directory, scanned_singleton _⟩,
    rfl, hfilesB.symm, imageSite_directory, scanned_singleton _⟩

/-- The session after the one that sent the image makes the union too. -/
theorem resumed_union_settledRun : ∃ t,
    (system twinSite imageSite).exec (start twinSite imageSite) settledRun = some t ∧
      imagesOf exifOfImage t.a.host.disk.files =
        imagesOf exifOfImage emptySite.disk.files ∪ imagesOf exifOfImage imageSite.disk.files := by
  obtain ⟨s, hs, -, hA, hB⟩ := transferRun_leaves
  have hrun : ((system twinSite imageSite).exec (start twinSite imageSite) settledRun).map
      (fun s => (s.a.returned, s.b.returned)) = some (true, true) := by
    decide +kernel
  obtain ⟨t, ht, hret⟩ := Option.map_eq_some_iff.mp hrun
  rw [Prod.mk.injEq] at hret
  exact ⟨t, ht, (resumed_union emptySite_ready
    (.interrupted .none ⟨transferRun 3, hs, by decide +kernel⟩ hA hB)
    ⟨settledRun, ht, by decide +kernel⟩ hret).1⟩

/-- The image is sent, and in the next session nothing is. -/
theorem synced_again_settledRun : ∃ t,
    (system twinSite imageSite).exec (start twinSite imageSite) settledRun = some t ∧
      t.a.host = ⟨twinSite.disk, .start⟩ := by
  obtain ⟨s, hs, hret, hA, hB⟩ := transferRun_leaves
  have hrun : ((system twinSite imageSite).exec (start twinSite imageSite) settledRun).isSome := by
    decide +kernel
  obtain ⟨t, ht⟩ := Option.isSome_iff_exists.mp hrun
  exact ⟨t, ht, (synced_again emptySite_ready ⟨transferRun 3, hs, by decide +kernel⟩ hret hA hB
    ⟨settledRun, ht, by decide +kernel⟩).1.1⟩

end Session
end Jpgsync
