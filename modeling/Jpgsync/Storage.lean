import Jpgsync.ExifHash
import Mathlib.Data.List.Basic

/-!
# Storage — the logger and the files of a peer

What `Peer::Sync` uses of `util/logger` and of the file system: the exit
status, the path functions, and the two forms of `ReopenEnd`
(`util/fstream_utils.hpp`). A disk maps paths to contents; some paths
cannot be opened. Files are never removed.

The lemmas say which files an operation can change: a file that is not
empty keeps its contents whatever is opened or stored.
-/

namespace Jpgsync

/-! ## The logger -/

/-- The calls of `Logger::Fatal` and `Logger::Error` in `Peer::Sync`, with
the data their texts name. -/
inductive Report where
  | noUpdateResponse                       -- update failed: no response from update sender
  | invalidHashCount (hashCount : Nat)     -- sync received invalid offer hash count
  | invalidOfferLength (readCount : Nat)   -- sync received invalid offer packet length
  | noFilename (hash : ExifHash)           -- failed to receive filename for
  | noSize (hash : ExifHash) (filename : Bytes)     -- failed to receive size of
  | conflict (hash : ExifHash) (filename : Bytes)   -- filename conflict resolution failed for
  | notDownloaded (hash : ExifHash) (filename : Bytes)  -- failed to download
  | noConfirmation                         -- failed to receive offer confirmation
  | notOpened (hash : ExifHash) (path : Bytes)      -- failed to open
deriving DecidableEq, Repr

structure Logger where
  exitStatus : Nat
  terminated : Bool                        -- `std::terminate` was called
  reports : List Report
deriving DecidableEq, Repr

namespace Logger

def start : Logger := ⟨0, false, []⟩

/-- `Logger::Error`. -/
def error (l : Logger) (report : Report) : Logger :=
  { l with exitStatus := l.exitStatus ||| 2, reports := l.reports ++ [report] }

/-- `Logger::Fatal`. -/
def fatal (l : Logger) (report : Report) : Logger :=
  ⟨l.exitStatus ||| 1, true, l.reports ++ [report]⟩

/-- A reported error stays in the exit status. -/
theorem exitStatus_error (l : Logger) (r : Report) : (l.error r).exitStatus ≠ 0 := by
  intro h
  -- `Error` sets bit 1 and no call clears a bit
  have hbit : (l.exitStatus ||| 2).testBit 1 = true := by
    rw [Nat.testBit_or, show Nat.testBit 2 1 = true from rfl, Bool.or_true]
  rw [show l.exitStatus ||| 2 = 0 from h] at hbit
  simp at hbit

theorem exitStatus_fatal (l : Logger) (r : Report) : (l.fatal r).exitStatus ≠ 0 := by
  intro h
  have hbit : (l.exitStatus ||| 1).testBit 0 = true := by
    rw [Nat.testBit_or, show Nat.testBit 1 0 = true from rfl, Bool.or_true]
  rw [show l.exitStatus ||| 1 = 0 from h] at hbit
  simp at hbit

end Logger

/-! ## Paths -/

/-- `'/'`. -/
abbrev slash : UInt8 := 47

/-- The characters of a C string: up to the first NUL. -/
def cString (bytes : Bytes) : Bytes := bytes.takeWhile (· ≠ 0)

/-- `ToFilename`: what follows the last `'/'`. -/
def toFilename (path : Bytes) : Bytes :=
  cString (path.reverse.takeWhile (· ≠ slash)).reverse

/-- `ToPath`. -/
def toPath (dir filename : Bytes) : Bytes := dir ++ [slash] ++ filename

theorem cString_of_notMem {bytes : Bytes} (h : (0 : UInt8) ∉ bytes) : cString bytes = bytes := by
  have hall : ∀ b ∈ bytes, (decide (b ≠ 0)) = true := by
    intro b hb
    rw [decide_eq_true_eq]
    rintro rfl
    exact h hb
  have htake := @List.takeWhile_append_of_pos _ _ bytes [] hall
  rwa [List.append_nil, List.takeWhile_nil, List.append_nil] at htake

/-- **A path made of a directory and a name** names that name. -/
theorem toFilename_toPath (dir : Bytes) {name : Bytes} (hslash : slash ∉ name)
    (hnul : (0 : UInt8) ∉ name) : toFilename (toPath dir name) = name := by
  have hname : ∀ b ∈ name.reverse, (decide (b ≠ slash)) = true := by
    intro b hb
    have hb' : b ∈ name := List.mem_reverse.mp hb
    simp only [decide_eq_true_eq]
    rintro rfl
    exact hslash hb'
  have hrev : (toPath dir name).reverse.takeWhile (· ≠ slash) = name.reverse := by
    rw [toPath, List.reverse_append, List.takeWhile_append_of_pos hname, List.reverse_append,
      List.reverse_singleton, List.singleton_append, List.takeWhile_cons_of_neg (by simp),
      List.append_nil]
  rw [toFilename, hrev, List.reverse_reverse, cString_of_notMem hnul]

theorem toPath_injective {dir name name' : Bytes} (h : toPath dir name = toPath dir name') :
    name = name' :=
  List.append_cancel_left h

/-! ## The disk -/

/-- The files a peer sees. -/
structure Disk where
  files : List (Bytes × Bytes)   -- path and contents
  unreadable : List Bytes        -- opening these for input fails
  unwritable : List Bytes        -- opening these for output fails
deriving DecidableEq, Repr

namespace Disk

def contents (d : Disk) (path : Bytes) : Option Bytes := d.files.lookup path

/-- Opening for input. -/
def openIn (d : Disk) (path : Bytes) : Option Bytes :=
  if path ∈ d.unreadable then none else d.contents path

/-- Opening with `std::ios::app`: creates a missing file; `tellp` then
gives the length of the file. -/
def openAppend (d : Disk) (path : Bytes) : Option (Nat × Disk) :=
  if path ∈ d.unwritable then none
  else
    match d.contents path with
    | some bytes => some (bytes.length, d)
    | none => some (0, { d with files := d.files ++ [(path, [])] })

/-- What is written at the end of a file. -/
def append (d : Disk) (path bytes : Bytes) : Disk :=
  { d with files := d.files.map fun f => if f.1 = path then (f.1, f.2 ++ bytes) else f }

/-- `ReopenEnd(path, ifstream*)`: the contents, unless the file cannot be
opened or `tellg` is zero. -/
def reopenEndIn (d : Disk) (path : Bytes) : Option Bytes :=
  (d.openIn path).filter fun bytes => bytes.length ≠ 0

/-- `ReopenEnd(path, ofstream*)`: whether the file is open and empty. -/
def reopenEndOut (d : Disk) (path : Bytes) : Bool × Disk :=
  match d.openAppend path with
  | none => (false, d)
  | some (tellp, d') => (tellp == 0, d')

/-- The path for a conflicting name: `path += "-" + ToString(hash)`. -/
def conflictPath (path : Bytes) (hash : ExifHash) : Bytes := path ++ (45 :: hash.toString)

/-- Create file `<filename>` or `<filename>-<sha1>`; `none` stands for
`/dev/null`. -/
def createFile (d : Disk) (path : Bytes) (hash : ExifHash) : Option Bytes × Disk :=
  match d.reopenEndOut path with
  | (true, d₁) => (some path, d₁)
  | (false, d₁) =>
    -- the name is taken by a file that is not empty, or cannot be opened
    match d₁.reopenEndOut (conflictPath path hash) with
    | (true, d₂) => (some (conflictPath path hash), d₂)
    | (false, d₂) => (none, d₂)

/-- Write into the created file; what goes to `/dev/null` is gone. -/
def store (d : Disk) (target : Option Bytes) (bytes : Bytes) : Disk :=
  match target with
  | none => d
  | some path => d.append path bytes

/-! ## What the operations change -/

variable {d d' : Disk} {path q bytes : Bytes} {hash : ExifHash}

theorem lookup_append_file (files : List (Bytes × Bytes)) :
    (files ++ [(path, bytes)]).lookup q =
      (files.lookup q).or (if q = path then some bytes else none) := by
  rw [List.lookup_append]
  congr 1
  by_cases h : q = path
  · simp [h]
  · simp [List.lookup_cons, h, beq_eq_false_iff_ne.mpr h]

/-- Appending changes the file it is about and no other. -/
theorem contents_append : (d.append path bytes).contents q =
    if q = path then (d.contents path).map (· ++ bytes) else d.contents q := by
  unfold contents append
  induction d.files with
  | nil => simp
  | cons f files ih =>
      obtain ⟨p, c⟩ := f
      rw [List.map_cons]
      by_cases hp : p = path
      · subst hp
        by_cases hq : q = p
        · simp [hq]
        · simpa [List.lookup_cons, hq, beq_eq_false_iff_ne.mpr hq] using ih
      · by_cases hq : q = path
        · subst hq
          have hne : (q == p) = false := beq_eq_false_iff_ne.mpr (Ne.symm hp)
          simpa [hp, List.lookup_cons, hne] using ih
        · by_cases hqp : q = p
          · simp [hp, hqp]
          · simpa [hp, hq, List.lookup_cons, beq_eq_false_iff_ne.mpr hqp] using ih

/-- Opening for output creates the file if it is missing and changes no
contents. -/
theorem contents_openAppend {len : Nat} (h : d.openAppend path = some (len, d')) :
    d'.contents path = some ((d.contents path).getD []) ∧
      len = ((d.contents path).getD []).length ∧
      (∀ q, q ≠ path → d'.contents q = d.contents q) ∧
      d'.unreadable = d.unreadable ∧ d'.unwritable = d.unwritable := by
  unfold openAppend at h
  split at h
  · cases h
  · split at h
    · rename_i c hc
      cases h
      exact ⟨by simp [hc], by simp [hc], fun _ _ => rfl, rfl, rfl⟩
    · rename_i hc
      cases h
      refine ⟨?_, by simp [hc], fun q hq => ?_, rfl, rfl⟩
      · rw [contents, lookup_append_file]
        simp [show d.files.lookup path = none from hc, hc]
      · rw [contents, contents, lookup_append_file]
        simp [hq]

/-- What an operation on the disk may do to existing files: nothing, except
to those that are empty. -/
structure Keeps (d d' : Disk) : Prop where
  kept : ∀ q c, c ≠ [] → d.contents q = some c → d'.contents q = some c
  unreadable : d'.unreadable = d.unreadable
  unwritable : d'.unwritable = d.unwritable

theorem Keeps.refl (d : Disk) : Keeps d d := ⟨fun _ _ _ h => h, rfl, rfl⟩

theorem Keeps.trans {d₁ d₂ d₃ : Disk} (h : Keeps d₁ d₂) (h' : Keeps d₂ d₃) : Keeps d₁ d₃ :=
  ⟨fun q c hc hq => h'.kept q c hc (h.kept q c hc hq), h'.unreadable.trans h.unreadable,
    h'.unwritable.trans h.unwritable⟩

theorem Keeps.reopenEndIn (h : Keeps d d') (hd : d.reopenEndIn path = some bytes) :
    d'.reopenEndIn path = some bytes := by
  simp only [Disk.reopenEndIn, Option.filter_eq_some_iff, openIn] at hd ⊢
  obtain ⟨hopen, hlen⟩ := hd
  have hne : bytes ≠ [] := fun hnil => by simp [hnil] at hlen
  rw [h.unreadable]
  split at hopen
  · cases hopen
  · rename_i hr
    exact ⟨by rw [if_neg hr]; exact h.kept _ _ hne hopen, hlen⟩

theorem keeps_openAppend {len : Nat} (h : d.openAppend path = some (len, d')) : Keeps d d' := by
  obtain ⟨hpath, _, hother, hr, hw⟩ := contents_openAppend h
  refine ⟨fun q c _ hq => ?_, hr, hw⟩
  by_cases hqp : q = path
  · subst hqp
    rw [hpath, hq, Option.getD_some]
  · rw [hother q hqp, hq]

/-- Opening the output file leaves it empty and open, or is not usable. -/
theorem reopenEndOut_spec {b : Bool} (h : d.reopenEndOut path = (b, d')) :
    Keeps d d' ∧ (b = true → d'.contents path = some []) := by
  unfold reopenEndOut at h
  split at h
  · cases h
    exact ⟨Keeps.refl d, by simp⟩
  · rename_i len d'' hopen
    cases h
    refine ⟨keeps_openAppend hopen, fun hb => ?_⟩
    obtain ⟨hpath, hlen, _⟩ := contents_openAppend hopen
    have hzero : len = 0 := by simpa using hb
    rw [hpath, List.length_eq_zero_iff.mp (hlen.symm.trans hzero)]

/-- **The file for a download**: one of the two candidates, empty and open,
or `/dev/null`; no other contents change. -/
theorem createFile_spec {target : Option Bytes} (h : d.createFile path hash = (target, d')) :
    Keeps d d' ∧ ∀ p, target = some p →
      (p = path ∨ p = conflictPath path hash) ∧ d'.contents p = some [] := by
  unfold createFile at h
  split at h
  · rename_i d₁ h₁
    obtain ⟨hkeep, hempty⟩ := reopenEndOut_spec h₁
    cases h
    refine ⟨hkeep, fun p hp => ?_⟩
    cases hp
    exact ⟨Or.inl rfl, hempty rfl⟩
  · rename_i d₁ h₁
    obtain ⟨hkeep₁, _⟩ := reopenEndOut_spec h₁
    split at h
    · rename_i d₂ h₂
      obtain ⟨hkeep₂, hempty⟩ := reopenEndOut_spec h₂
      cases h
      refine ⟨hkeep₁.trans hkeep₂, fun p hp => ?_⟩
      cases hp
      exact ⟨Or.inr rfl, hempty rfl⟩
    · rename_i d₂ h₂
      obtain ⟨hkeep₂, _⟩ := reopenEndOut_spec h₂
      cases h
      exact ⟨hkeep₁.trans hkeep₂, fun p hp => by cases hp⟩

/-- Storing into an empty file changes no other contents. -/
theorem keeps_store {target : Option Bytes}
    (h : ∀ p, target = some p → d.contents p = some []) : Keeps d (d.store target bytes) := by
  cases target with
  | none => exact Keeps.refl d
  | some p =>
      refine ⟨fun q c hc hq => ?_, rfl, rfl⟩
      rw [store, contents_append]
      split
      -- the file that changes was empty, so there is nothing to keep
      · rename_i hqp
        subst hqp
        rw [h q rfl] at hq
        cases hq
        exact absurd rfl hc
      · exact hq

theorem contents_store {p : Bytes} (h : d.contents p = some []) :
    (d.store (some p) bytes).contents p = some bytes := by
  rw [store, contents_append, if_pos rfl, h]
  simp

/-! ## Which file a download gets -/

/-- A name a download can have: nothing but an empty file is there. -/
def Usable (d : Disk) (path : Bytes) : Prop :=
  path ∉ d.unwritable ∧ (d.contents path).getD [] = []

instance (d : Disk) (path : Bytes) : Decidable (d.Usable path) :=
  inferInstanceAs (Decidable (_ ∧ _))

/-- The disk with the file there, if only as an empty one. -/
def opened (d : Disk) (path : Bytes) : Disk :=
  match d.contents path with
  | some _ => d
  | none => { d with files := d.files ++ [(path, [])] }

theorem contents_opened (d : Disk) (path q : Bytes) : (d.opened path).contents q =
    if q = path then some ((d.contents path).getD []) else d.contents q := by
  unfold opened
  by_cases hq : q = path
  · subst hq
    cases hc : d.contents q with
    | some bytes => simp [hc]
    | none =>
        rw [contents, lookup_append_file, show d.files.lookup q = none from hc]
        simp
  · cases hc : d.contents path with
    | some bytes => simp [hq]
    | none =>
        rw [contents, lookup_append_file]
        simp [hq, contents]

theorem reopenEndOut_eq (d : Disk) (path : Bytes) : d.reopenEndOut path =
    if d.Usable path then (true, d.opened path) else (false, d) := by
  by_cases hw : path ∈ d.unwritable
  · rw [if_neg fun h => h.1 hw]
    simp [reopenEndOut, openAppend, hw]
  · rcases Option.eq_none_or_eq_some (d.contents path) with hc | ⟨bytes, hc⟩
    · have husable : d.Usable path := ⟨hw, by rw [hc]; rfl⟩
      simp [reopenEndOut, openAppend, opened, hw, hc, husable]
    · have husable : d.Usable path ↔ bytes = [] := by simp [Usable, hw, hc]
      by_cases hempty : bytes = []
      · simp [reopenEndOut, openAppend, opened, hw, hc, husable, hempty]
      · simp [reopenEndOut, openAppend, hw, hc, husable, hempty]

/-- **The file a download gets**: the first candidate that is usable, and
only that is opened. -/
theorem createFile_eq (d : Disk) (path : Bytes) (hash : ExifHash) : d.createFile path hash =
    if d.Usable path then (some path, d.opened path)
    else if d.Usable (conflictPath path hash) then
      (some (conflictPath path hash), d.opened (conflictPath path hash))
    else (none, d) := by
  unfold createFile
  rw [reopenEndOut_eq]
  by_cases husable : d.Usable path
  · simp [husable]
  · simp only [husable, if_false, reopenEndOut_eq]
    by_cases husable' : d.Usable (conflictPath path hash) <;> simp [husable']

/-- Opening it changes no file, and the only one that can be new is empty. -/
theorem contents_createFile (d : Disk) (path : Bytes) (hash : ExifHash) (q : Bytes) :
    (d.createFile path hash).2.contents q = d.contents q ∨
      d.contents q = none ∧ (d.createFile path hash).2.contents q = some [] ∧
        (d.Usable path ∧ q = path ∨
          ¬ d.Usable path ∧ d.Usable (conflictPath path hash) ∧ q = conflictPath path hash) := by
  -- where a file is opened, its contents are what they were, or now none
  have hopened : ∀ p, (d.opened p).contents q = d.contents q ∨
      d.contents q = none ∧ (d.opened p).contents q = some [] ∧ q = p := by
    intro p
    rw [contents_opened]
    by_cases hq : q = p
    · subst hq
      cases hc : d.contents q <;> simp
    · simp [hq]
  rw [createFile_eq]
  by_cases husable : d.Usable path
  · rw [if_pos husable]
    exact (hopened path).imp_right fun h => ⟨h.1, h.2.1, Or.inl ⟨husable, h.2.2⟩⟩
  · rw [if_neg husable]
    by_cases husable' : d.Usable (conflictPath path hash)
    · rw [if_pos husable']
      exact (hopened _).imp_right fun h => ⟨h.1, h.2.1, Or.inr ⟨husable, husable', h.2.2⟩⟩
    · rw [if_neg husable']
      exact Or.inl rfl

/-! ## A fresh name -/

/-- **A name that is not taken** becomes a new file at the end. -/
theorem createFile_fresh (hnew : path ∉ d.files.map Prod.fst) (hw : path ∉ d.unwritable) :
    d.createFile path hash = (some path, { d with files := d.files ++ [(path, [])] }) := by
  have hnone : d.contents path = none := by
    rw [contents, List.lookup_eq_none_iff]
    intro f hf
    rw [bne_iff_ne]
    rintro rfl
    exact hnew (List.mem_map_of_mem hf)
  simp [createFile, reopenEndOut, openAppend, hw, hnone]

/-- … and what is stored there stands at the end. -/
theorem store_fresh {files : List (Bytes × Bytes)} (hnew : path ∉ files.map Prod.fst)
    (hfiles : d.files = files ++ [(path, [])]) :
    (d.store (some path) bytes).files = files ++ [(path, bytes)] := by
  have hold : files.map (fun f => if f.1 = path then (f.1, f.2 ++ bytes) else f) = files := by
    refine (List.map_congr_left fun f hf => ?_).trans (List.map_id files)
    have hne : f.1 ≠ path := by
      rintro rfl
      exact hnew (List.mem_map_of_mem hf)
    rw [if_neg hne]
    rfl
  simp [store, append, hfiles, hold]

end Disk
end Jpgsync
