import Jpgsync.Peer.Images
import Jpgsync.ExifHash.Text
import Jpgsync.Lib.Paths
import Mathlib.Data.List.TakeWhile

/-!
# Peer — Inside

Where the paths lie that the downloader opens for writing. The name comes
from the other peer and is appended to the directory as it is; it may have
slashes in it, and then its own directories are walked from there. The
tree of directories is arbitrary; a path denotes the entry its last
component names, whatever file stands there.
-/

namespace Jpgsync

open Paths (FileSystem components parent name Reserved)

/-! ## Opened paths -/

namespace Disk

/-- The paths that are opened for a download; after these it is
`/dev/null`. -/
def openings (d : Disk) (path : Bytes) (hash : ExifHash) : List Bytes :=
  match d.reopenEndOut path with
  | (true, _) => [path]
  | (false, _) => [path, conflictPath path hash]

variable {d : Disk} {path p q : Bytes} {hash : ExifHash}

theorem openings_eq (d : Disk) (path : Bytes) (hash : ExifHash) : d.openings path hash =
    if d.Usable path then [path] else [path, conflictPath path hash] := by
  rw [openings, reopenEndOut_eq]
  split_ifs <;> rfl

/-- The file of a download is one of them. -/
theorem mem_openings_of_createFile (h : (d.createFile path hash).1 = some p) :
    p ∈ d.openings path hash := by
  rw [createFile_eq] at h
  rw [openings_eq]
  split_ifs at h ⊢ <;> simp_all

/-- **Creating a file changes only what is opened.** -/
theorem contents_createFile_of_notMem (h : q ∉ d.openings path hash) :
    (d.createFile path hash).2.contents q = d.contents q := by
  rcases d.contents_createFile path hash q with hq | ⟨-, -, hq⟩
  · exact hq
  · rw [openings_eq] at h
    rcases hq with ⟨husable, rfl⟩ | ⟨husable, -, rfl⟩ <;> simp [husable] at h

end Disk

/-! ## Inside the directory -/

section

variable {Dir : Type*}

/-- If the path denotes a file, that is a file directly in the directory. -/
def Inside (fs : FileSystem Dir) (dir path : Bytes) : Prop :=
  ∀ d entry, fs.place path = some (d, entry) → fs.directory dir = some d

/-- The directories in the name lead back to where they start, or to none. -/
def LeadsBack (fs : FileSystem Dir) (dir file : Bytes) : Prop :=
  ∀ d d', fs.directory dir = some d → fs.walk d (components (parent file)) = some d' → d' = d

variable {fs : FileSystem Dir} {dir file : Bytes} {hash : ExifHash}

theorem toPath_eq : toPath dir file = dir ++ Paths.separator :: file := by
  simp [toPath]

/-- **A path in the directory** denotes a file in it if the name leads
back, and one elsewhere if it does not. -/
theorem inside_toPath_iff (hdir : dir ≠ []) :
    Inside fs dir (toPath dir file) ↔ Reserved (name file) ∨ LeadsBack fs dir file := by
  simp only [Inside, toPath_eq, fs.place_below hdir]
  constructor
  · intro h
    refine or_iff_not_imp_left.mpr fun hname d d' hd hd' => ?_
    have hsame := h d' (name file) ⟨hname, rfl, d, hd, hd'⟩
    exact Option.some_inj.mp (hsame.symm.trans hd)
  · rintro h d' entry ⟨hname, -, d, hd, hd'⟩
    rw [(h.resolve_left hname) d d' hd hd']
    exact hd

/-! ## The name for a conflict -/

theorem separator_notMem_suffix : Paths.separator ∉ 45 :: hash.toString := by
  intro hmem
  rcases List.mem_cons.mp hmem with hmem | hmem
  · cases hmem
  · exact absurd (ExifHash.isLowerHex_of_mem_toString hmem) (by decide)

theorem conflictPath_toPath : Disk.conflictPath (toPath dir file) hash =
    toPath dir (file ++ 45 :: hash.toString) := by
  simp [Disk.conflictPath, toPath]

/-- The hash makes every name one that a file can have. -/
theorem not_reserved_conflict : ¬ Reserved (name (file ++ 45 :: hash.toString)) := by
  rw [Paths.name_append separator_notMem_suffix]
  rintro (h | h | h)
  · simp at h
  · have hmem : (45 : UInt8) ∈ [46] := by simp [← h]
    simp at hmem
  · have hmem : (45 : UInt8) ∈ [46, 46] := by simp [← h]
    simp at hmem

theorem inside_conflictPath_iff (hdir : dir ≠ []) :
    Inside fs dir (Disk.conflictPath (toPath dir file) hash) ↔ LeadsBack fs dir file := by
  rw [conflictPath_toPath, inside_toPath_iff hdir, LeadsBack,
    Paths.parent_append separator_notMem_suffix, ← LeadsBack]
  exact or_iff_right not_reserved_conflict

/-! ## Names that lead back -/

theorem leadsBack_of_dots (h : ∀ e ∈ components (parent file), e = [46]) :
    LeadsBack fs dir file := by
  intro d d' _ hwalk
  rw [fs.walk_dots h] at hwalk
  exact (Option.some_inj.mp hwalk).symm

/-- **A name without directories** leads back, -/
theorem leadsBack_of_notMem (h : slash ∉ file) : LeadsBack fs dir file := by
  refine leadsBack_of_dots ?_
  rw [Paths.parent_of_notMem h]
  simp [components]

/-- and the names that `ToFilename` makes on the other side are such. -/
theorem leadsBack_toFilename (path : Bytes) : LeadsBack fs dir (toFilename path) := by
  refine leadsBack_of_notMem fun hmem => ?_
  have hname := (List.takeWhile_sublist _).subset hmem
  have hslash := List.mem_takeWhile_imp (List.mem_reverse.mp hname)
  simp at hslash

theorem inside_of_mem_openings {disk : Disk} {path : Bytes} (hdir : dir ≠ [])
    (h : LeadsBack fs dir file) (hpath : path ∈ disk.openings (toPath dir file) hash) :
    Inside fs dir path := by
  rw [Disk.openings_eq] at hpath
  have hcase : path = toPath dir file ∨ path = Disk.conflictPath (toPath dir file) hash := by
    split_ifs at hpath
    · exact .inl (by simpa using hpath)
    · simpa using hpath
  rcases hcase with rfl | rfl
  · exact (inside_toPath_iff hdir).mpr (.inr h)
  · exact (inside_conflictPath_iff hdir).mpr h

end

/-! ## Runs -/

/-- If a file is about to be created, its name leads back. -/
def DownloadPc.NamedInside {Dir : Type*} (fs : FileSystem Dir) (dir : Bytes) : DownloadPc → Prop
  | .create _ filename _ _ => LeadsBack fs dir (cString filename)
  | .update | .notify | .count | .offer _ _ | .answer _ _ | .mask _ _ | .file _ | .name _ _ _ _
  | .size _ _ _ _ | .payload _ _ _ _ _ _ | .store _ _ _ _ _ | .closed | .overrun => True

namespace Reception

open DownloadPc

variable {Dir : Type*} {fs : FileSystem Dir} {contains : ExifHash → Bool} {downloadDir : Bytes}
  {before : Disk} {k : Nat} {s t : Reception}

/-- What lies outside is as before. -/
def Untouched (fs : FileSystem Dir) (downloadDir : Bytes) (before after : Disk) : Prop :=
  ∀ q, ¬ Inside fs downloadDir q → after.contents q = before.contents q

/-- The file that is open lies inside. -/
structure Contained (fs : FileSystem Dir) (downloadDir : Bytes) (s : Reception) : Prop where
  bounds : InBounds s.pc
  opened : ∀ hash filename path, s.pc.opened = some (hash, filename, some path) →
    Inside fs downloadDir path

/-- A step touches nothing outside. -/
theorem Contained.step (hdir : downloadDir ≠ []) (h : Contained fs downloadDir s)
    (hname : s.pc.NamedInside fs downloadDir) (hst : s.step contains downloadDir k = some t) :
    Untouched fs downloadDir s.host.disk t.host.disk ∧
      (t.host.logger.terminated = false → Contained fs downloadDir t) := by
  have hbounds := inBounds_step h.bounds hst
  have hsame : t.host = s.host → t.pc.opened = s.pc.opened →
      Untouched fs downloadDir s.host.disk t.host.disk ∧
        (t.host.logger.terminated = false → Contained fs downloadDir t) := by
    intro hhost hopened
    rw [hhost]
    exact ⟨fun _ _ => rfl, fun _ => ⟨hbounds, by rw [hopened]; exact h.opened⟩⟩
  cases move_of_step h.bounds hst with
  | read hr => exact hsame hr.host hr.opened
  | reply rest rest' missing hpc hrest ht =>
      exact hsame (by rw [ht]) (by rw [ht, hpc]; rfl)
  | answer hashCount buf a hpc ha ht => exact hsame (by rw [ht]) (by rw [ht, hpc]; rfl)
  | close hpc hclosed hpending ht => exact hsame (by rw [ht]) (by rw [ht, hpc]; rfl)
  | create hash filename fileSize missing hpc ht =>
      rw [hpc] at hname
      have hinside : ∀ q ∈ s.host.disk.openings (toPath downloadDir (cString filename)) hash,
          Inside fs downloadDir q := fun q hq => inside_of_mem_openings hdir hname hq
      subst ht
      refine ⟨fun q hq => ?_, fun _ => ⟨hbounds, fun hash' filename' path hpath => ?_⟩⟩
      · exact Disk.contents_createFile_of_notMem fun hmem => hq (hinside q hmem)
      · simp only [Reception.create, DownloadPc.opened, Option.some.injEq, Prod.mk.injEq] at hpath
        exact hinside path (Disk.mem_openings_of_createFile hpath.2.2)
  | store hash filename target file missing hpc ht =>
      subst ht
      refine ⟨fun q hq => ?_, fun _ => ⟨hbounds, by simp [DownloadPc.opened]⟩⟩
      cases target with
      | none => rfl
      | some path =>
          have hne : q ≠ path := by
            rintro rfl
            exact hq (h.opened hash filename q (by rw [hpc]; rfl))
          rw [Disk.store, Disk.contents_append, if_neg hne]
  | fail report hbroken ht hsent =>
      rw [ht]
      exact ⟨fun _ _ => rfl, fun hlive => by cases hlive⟩

/-- **Nothing outside the directory is written**, by whole runs in which
every name leads back. -/
theorem untouched_of_reaches (hdir : downloadDir ≠ []) (h : Contained fs downloadDir s)
    (hrun : (live contains downloadDir).Reaches
      (fun s _ => s.pc.NamedInside fs downloadDir) s t) :
    Untouched fs downloadDir s.host.disk t.host.disk := by
  suffices hboth : Untouched fs downloadDir s.host.disk t.host.disk ∧
      (t.host.logger.terminated = false → Contained fs downloadDir t) from hboth.1
  refine hrun.invariant (I := fun t => Untouched fs downloadDir s.host.disk t.host.disk ∧
    (t.host.logger.terminated = false → Contained fs downloadDir t)) ?_ ⟨fun _ _ => rfl, fun _ => h⟩
  rintro u k v ⟨hsame, hcontained⟩ hname hst
  simp only [live] at hst
  split at hst
  · cases hst
  · rename_i hlive
    obtain ⟨hsame', hcontained'⟩ := (hcontained (by simpa using hlive)).step hdir hname hst
    exact ⟨fun q hq => (hsame' q hq).trans (hsame q hq), hcontained'⟩

end Reception

/-! ## The property itself -/

/-- **Every path that is opened for a download lies in the directory**, on
whatever disk, if and only if the directories in the name lead back to
it. -/
theorem openings_inside_iff {Dir : Type*} (fs : FileSystem Dir) (dir filename : Bytes)
    (hash : ExifHash) (hdir : dir ≠ []) :
    (∀ disk : Disk, ∀ path ∈ disk.openings (toPath dir (cString filename)) hash,
        Inside fs dir path) ↔
      LeadsBack fs dir (cString filename) := by
  constructor
  · intro h
    -- where the first path cannot be opened the second one is tried
    have hboth := h ⟨[], [], [toPath dir (cString filename)]⟩
      (Disk.conflictPath (toPath dir (cString filename)) hash)
    rw [Disk.openings_eq, if_neg (by simp [Disk.Usable])] at hboth
    exact (inside_conflictPath_iff hdir).mp (hboth (by simp))
  · intro h disk path hpath
    exact inside_of_mem_openings hdir h hpath

/-- The root directory and `/p` in it. -/
def twoDirectories : FileSystem Bool where
  root := false
  cwd := false
  enter d entry :=
    if entry = [46] then some d
    else if entry = [46, 46] then some false
    else if d = false ∧ entry = [112] then some true
    else none
  enter_dot _ := if_pos rfl

/-- `./x`, with something behind its end. -/
theorem openings_inside_iff_dotName :
    Inside twoDirectories [47, 112] [47, 112, 47, 46, 47, 120] ∧
      twoDirectories.place [47, 112, 47, 46, 47, 120] = some (true, [120]) :=
  have hall := (openings_inside_iff twoDirectories [47, 112] [46, 47, 120, 0, 47] ⟨1, 0, 0, 0, 0⟩
    (by decide)).mpr (leadsBack_of_dots (by decide))
  ⟨hall ⟨[], [], []⟩ _ (by decide), by decide⟩

/-- **`../x` lies outside**: nothing looks at the name. -/
theorem not_always_inside :
    ¬ ∀ (Dir : Type) (fs : FileSystem Dir) (dir filename : Bytes) (hash : ExifHash) (disk : Disk),
        dir ≠ [] → filename.length ≤ 255 →
          ∀ path ∈ disk.openings (toPath dir (cString filename)) hash, Inside fs dir path := by
  intro h
  have hinside := h Bool twoDirectories [47, 112] [46, 46, 47, 120] ⟨1, 0, 0, 0, 0⟩ ⟨[], [], []⟩
    (by decide) (by decide) [47, 112, 47, 46, 46, 47, 120] (by decide) false [120] (by decide)
  exact absurd hinside (by decide)

end Jpgsync
