import Jpgsync.Dir
import Jpgsync.Session.Union
import Mathlib.Data.List.TakeWhile

/-!
# Session — Listing

From `readdir` to the union. `main` makes a `Dir` of its root, passes its
`Next` to `Sync` as the path generator, and passes the root itself as the
directory for downloads. So the paths that are hashed are those of the
files in the root, each once, and they are the paths downloads of the same
names would get (`directory_site`, `scanned_site`). What the sessions take
for granted of a side is therefore true of a directory as it is listed
(`listings_union`).
-/

namespace Jpgsync

open ExifHasher

/-- A directory: its path, what `readdir` returns of it, and the contents
of its files by their names. -/
structure Listing where
  root : Bytes
  entries : List Dirent
  contents : Bytes → Bytes

namespace Listing

variable (l : Listing)

/-- The names of the files. -/
def names : List Bytes := (l.entries.filter fun e => !e.isDir).map Dirent.name

def files : List (Bytes × Bytes) := l.names.map fun name => (toPath l.root name, l.contents name)

/-- `"."` and `".."`. -/
def isDots (name : Bytes) : Bool := name == [46] || name == [46, 46]

/-- The directories in the directory, which cannot be opened as files. -/
def subdirs : List Bytes :=
  (l.entries.filter fun e => e.isDir && !isDots e.name).map fun e => toPath l.root e.name

/-- What `Run` reads of the directory: a path from `Next`, and what is
hashed of the contents of the file. -/
def scans (exif : Bytes → Option ExifHash) : List Scan :=
  match (Dir.opened l.root (l.entries.map .entry)).generate with
  | .ok paths => scansOf (fun path => (l.files.lookup path).bind exif) paths
  | .error _ => []

/-- The side that `main` makes of the directory. -/
def site (exif : Bytes → Option ExifHash) : Site :=
  ⟨⟨.dccp, l.root⟩, l.scans exif, ⟨l.files, [], l.subdirs⟩⟩

/-- What directories are like: the names of entries differ and are names.
Only the entries for itself and its parent are directories, and its files
are neither empty nor too large. -/
structure Sane : Prop where
  distinct : (l.entries.map Dirent.name).Nodup
  named : ∀ e ∈ l.entries, slash ∉ e.name ∧ (0 : UInt8) ∉ e.name ∧ e.name.length < sizeofFilename
  flat : ∀ e ∈ l.entries, e.isDir = true → isDots e.name = true
  sizes : ∀ e ∈ l.entries, e.isDir = false →
    l.contents e.name ≠ [] ∧ (l.contents e.name).length < 2 ^ 32

variable {l} {exif : Bytes → Option ExifHash}

theorem filesOf_entries (dir : Bytes) (entries : List Dirent) :
    Dir.filesOf dir (entries.map .entry) =
      .ok ((entries.filter fun e => !e.isDir).map fun e => toPath dir e.name) := by
  induction entries with
  | nil => rfl
  | cons e entries ih =>
      rw [List.map_cons, Dir.filesOf, ih]
      cases hdir : e.isDir <;> simp [hdir, Except.map]

/-- The paths are those of the files. -/
theorem generate_eq :
    (Dir.opened l.root (l.entries.map .entry)).generate = .ok (l.files.map Prod.fst) := by
  rw [Dir.generate_opened, filesOf_entries, files, names, List.map_map, List.map_map]
  rfl

theorem scans_eq :
    l.scans exif =
      scansOf (fun path => (l.files.lookup path).bind exif) (l.files.map Prod.fst) := by
  rw [scans, generate_eq]

theorem path_ne {path : Bytes} (h : path ∈ l.files.map Prod.fst) : path ≠ [] := by
  simp only [files, List.map_map, List.mem_map, Function.comp] at h
  obtain ⟨name, -, rfl⟩ := h
  simp [toPath]

/-- All paths are hashed: none of them is empty. -/
theorem takeWhile_paths :
    (l.files.map Prod.fst).takeWhile (· ≠ []) = l.files.map Prod.fst :=
  List.takeWhile_eq_self_iff.mpr fun path hpath => by simpa using path_ne hpath

theorem paths_scansOf (hashExif : Bytes → Option ExifHash) (paths : List Bytes) :
    (scansOf hashExif paths).map Scan.path = paths.takeWhile (· ≠ []) := by
  induction paths with
  | nil => rfl
  | cons path paths ih =>
      rw [scansOf]
      by_cases hnil : path = []
      · simp [hnil]
      · rw [dif_neg hnil, List.takeWhile_cons_of_pos (by simpa using hnil), List.map_cons, ih]

theorem paths_scans : (l.scans exif).map Scan.path = l.files.map Prod.fst := by
  rw [scans_eq, paths_scansOf, takeWhile_paths]

namespace Sane

/-- No two files have a path. -/
theorem nodup_files (h : l.Sane) : (l.files.map Prod.fst).Nodup := by
  rw [files, List.map_map]
  have hnames : l.names.Nodup :=
    h.distinct.sublist (List.Sublist.map _ List.filter_sublist)
  exact hnames.map fun _ _ heq => toPath_injective heq

theorem mem_files {f : Bytes × Bytes} (hf : f ∈ l.files) :
    ∃ e ∈ l.entries, e.isDir = false ∧ f = (toPath l.root e.name, l.contents e.name) := by
  simp only [files, names, List.map_map, List.mem_map, List.mem_filter, Bool.not_eq_true',
    Function.comp] at hf
  obtain ⟨e, ⟨he, hdir⟩, rfl⟩ := hf
  exact ⟨e, he, hdir, rfl⟩

/-- **What is listed is what the session assumes** of a directory. -/
theorem directory_site (h : l.Sane) : (l.site exif).Directory where
  named := by
    intro f hf
    obtain ⟨e, he, -, rfl⟩ := mem_files hf
    exact ⟨e.name, rfl, h.named e he⟩
  listed := by
    intro scan hscan
    have hmem := List.mem_map_of_mem (f := Scan.path) hscan
    rwa [site, paths_scans] at hmem
  once := by
    rw [site, paths_scans]
    exact h.nodup_files
  sizes := by
    intro f hf
    obtain ⟨e, he, hdir, rfl⟩ := mem_files hf
    exact h.sizes e he hdir
  opens := by
    refine ⟨rfl, List.map_eq_nil_iff.mpr (List.filter_eq_nil_iff.mpr fun e he => ?_)⟩
    cases hdir : e.isDir with
    | false => simp
    | true => simp [h.flat e he hdir]

/-- **Every file is scanned**, for what is hashed of its contents. -/
theorem scanned_site (h : l.Sane) : (l.site exif).Scanned exif where
  distinct := h.nodup_files
  scanned := by
    intro path hash
    rw [site, scans_eq]
    constructor
    · rintro ⟨scan, hscan, rfl, hexif⟩
      obtain ⟨hpath, heq⟩ := mem_scansOf.mp hscan
      rw [takeWhile_paths] at hpath
      obtain ⟨f, hf, hf'⟩ := List.mem_map.mp hpath
      have hfile : (scan.path, f.2) ∈ l.files := by
        rw [← hf']
        exact hf
      rw [heq, lookup_of_mem h.nodup_files hfile, Option.bind_some] at hexif
      exact ⟨f.2, hfile, hexif⟩
    · rintro ⟨contents, hfile, hexif⟩
      have hpath : path ∈ l.files.map Prod.fst := List.mem_map_of_mem (f := Prod.fst) hfile
      refine ⟨⟨path, some hash, path_ne hpath⟩, mem_scansOf.mpr ⟨?_, ?_⟩, rfl, rfl⟩
      · rw [takeWhile_paths]
        exact hpath
      · rw [lookup_of_mem h.nodup_files hfile, Option.bind_some, hexif]

end Sane

/-- The names of images that the other directory lacks are free there. -/
def FreeIn (exif : Bytes → Option ExifHash) (l m : Listing) : Prop :=
  ∀ name ∈ l.names, ∀ hash, exif (l.contents name) = some hash →
    hash ∉ imagesOf exif m.files → name ∉ m.names

/-- A name that is free in a directory is free in its side. -/
theorem FreeIn.namesFree {l m : Listing} (h : FreeIn exif l m) (hl : l.Sane) (hm : m.Sane) :
    NamesFree (l.site exif) (m.site exif) := by
  intro scan hscan hash hexif hlacks g hg heq
  obtain ⟨contents, hfile, hcontents⟩ :=
    hl.scanned_site.scanned scan.path hash |>.mp ⟨scan, hscan, rfl, hexif⟩
  rw [hm.scanned_site.mem_hashes] at hlacks
  obtain ⟨e, he, hdir, hpath⟩ := Sane.mem_files hfile
  obtain ⟨e', he', hdir', hg'⟩ := Sane.mem_files hg
  obtain ⟨hslash, hnul, -⟩ := hl.named e he
  obtain ⟨hslash', hnul', -⟩ := hm.named e' he'
  rw [Prod.mk.injEq] at hpath
  have hmem : ∀ {k : Listing} {d : Dirent}, d ∈ k.entries → d.isDir = false →
      d.name ∈ k.names := fun hd hdir =>
    List.mem_map_of_mem (f := Dirent.name) (List.mem_filter.mpr ⟨hd, by simp [hdir]⟩)
  have hsame : e.name = e'.name := by
    rw [hpath.1, hg', toFilename_toPath _ hslash hnul, toFilename_toPath _ hslash' hnul'] at heq
    exact heq
  refine h e.name (hmem he hdir) hash ?_ hlacks (hsame ▸ hmem he' hdir')
  rw [← hpath.2]
  exact hcontents

/-- Two listed directories are fit for a session. -/
theorem ready {l m : Listing} (hl : l.Sane) (hm : m.Sane) (hlm : FreeIn exif l m)
    (hml : FreeIn exif m l) : Session.Ready exif (l.site exif) (m.site exif) where
  directory := ⟨hl.directory_site, hm.directory_site⟩
  scanned := ⟨hl.scanned_site, hm.scanned_site⟩
  packets := ⟨rfl, rfl⟩
  free := ⟨hlm.namesFree hl hm, hml.namesFree hm hl⟩

end Listing

namespace Session

variable {exif : Bytes → Option ExifHash} {l m : Listing} {s : Session}

/-- **From `readdir` to the union.** Two directories as they are listed, in
any order: their paths come from `Next`, are hashed by `Run`, offered,
answered and sent, and when both peers have returned each directory has the
images of both and nothing else. -/
theorem listings_union (hl : l.Sane) (hm : m.Sane) (hlm : l.FreeIn exif m)
    (hml : m.FreeIn exif l)
    (hs : (system (l.site exif) (m.site exif)).Reaches
      (each (Peer.Smooth ((l.site exif).common (m.site exif))))
      (start (l.site exif) (m.site exif)) s)
    (hret : s.a.returned = true ∧ s.b.returned = true) :
    imagesOf exif s.a.host.disk.files = imagesOf exif l.files ∪ imagesOf exif m.files ∧
      imagesOf exif s.b.host.disk.files = imagesOf exif l.files ∪ imagesOf exif m.files :=
  imagesOf_of_smooth (Listing.ready hl hm hlm hml) hs hret

/-- An empty directory, as `readdir` shows it. -/
def emptyListing : Listing := ⟨[65], [⟨[46], true⟩, ⟨[46, 46], true⟩], fun _ => []⟩

/-- A directory with one image. -/
def imageListing : Listing :=
  ⟨[66], [⟨[46], true⟩, ⟨[120], false⟩, ⟨[46, 46], true⟩], fun _ => [1, 2, 3]⟩

theorem sane_listings : emptyListing.Sane ∧ imageListing.Sane :=
  ⟨⟨by decide, by decide, by decide, by decide⟩, ⟨by decide, by decide, by decide, by decide⟩⟩

theorem site_listings : emptyListing.site exifOfImage = emptySite ∧
    imageListing.site exifOfImage = imageSite := by
  constructor
  · rw [Listing.site, Listing.scans_eq]
    rfl
  · rw [Listing.site, Listing.scans_eq]
    rfl

theorem free_listings : emptyListing.FreeIn exifOfImage imageListing ∧
    imageListing.FreeIn exifOfImage emptyListing :=
  ⟨fun _ hname => absurd hname List.not_mem_nil, fun _ _ _ _ _ => List.not_mem_nil⟩

/-- The transfer, as a smooth run between the listed directories. -/
theorem reaches_listings : ∃ s,
    (system (emptyListing.site exifOfImage) (imageListing.site exifOfImage)).exec
        (start (emptyListing.site exifOfImage) (imageListing.site exifOfImage)) (transferRun 3) =
      some s ∧
    (system (emptyListing.site exifOfImage) (imageListing.site exifOfImage)).Reaches
      (each (Peer.Smooth ((emptyListing.site exifOfImage).common
        (imageListing.site exifOfImage))))
      (start (emptyListing.site exifOfImage) (imageListing.site exifOfImage)) s ∧
    (s.a.returned = true ∧ s.b.returned = true) := by
  have hrun : ((system (emptyListing.site exifOfImage) (imageListing.site exifOfImage)).exec
      (start (emptyListing.site exifOfImage) (imageListing.site exifOfImage))
        (transferRun 3)).map (fun s => (s.a.returned, s.b.returned)) = some (true, true) := by
    rw [site_listings.1, site_listings.2]
    decide +kernel
  obtain ⟨s, hs, hret⟩ := Option.map_eq_some_iff.mp hrun
  rw [Prod.mk.injEq] at hret
  refine ⟨s, hs, ⟨transferRun 3, hs, ?_⟩, hret⟩
  rw [site_listings.1, site_listings.2]
  decide +kernel

theorem listings_union_transferRun : ∃ s,
    (system (emptyListing.site exifOfImage) (imageListing.site exifOfImage)).exec
        (start (emptyListing.site exifOfImage) (imageListing.site exifOfImage)) (transferRun 3) =
      some s ∧
    imagesOf exifOfImage s.a.host.disk.files =
      imagesOf exifOfImage emptyListing.files ∪ imagesOf exifOfImage imageListing.files := by
  obtain ⟨s, hs, hsmooth, hret⟩ := reaches_listings
  exact ⟨s, hs, (listings_union sane_listings.1 sane_listings.2 free_listings.1 free_listings.2
    hsmooth hret).1⟩

end Session
end Jpgsync
