import Jpgsync.ExifHasher.ExifData
import Jpgsync.Pipeline.Progress

/-!
# ExifHasher — HashExif

What `HashExif` makes of the answers of the system and of Exiv2, and the
hashing thread with it. A call of `sys_call` compares what was returned
with the error value its caller names; an exception that leaves
`HashExif`, and one that leaves a destructor on the way, ends the process.
`MAP_FAILED` is not the value that `mmap` is compared with.

`skips_bad_files_iff` says which files the thread survives.
-/

namespace Jpgsync

/-- `NULL`, as a `void*`. -/
def null : Int := 0

/-- `MAP_FAILED`, that is `(void*) -1`. -/
def mapFailed : Int := -1

/-- What `ImageFactory::open` does with the block, and `readMetadata` with
the image. -/
inductive Factory where
  | throws
  | null
  | image (readMetadata : Option (List ExifItem))   -- `none`: it throws
deriving DecidableEq, Repr

/-- What the calls that `HashExif` makes for one path would answer. -/
structure Answers where
  openRv : Int
  fstatRv : Int
  mmapRv : Int
  factory : Factory
  munmapRv : Int
  closeRv : Int
deriving DecidableEq, Repr

/-- `sys_call2(error_rv, …)` on what the function returned. -/
def sysCall (errorRv rv : Int) : Except Unit Unit := if rv = errorRv then .error () else .ok ()

/-- `HashExif`: the blocks it hands to `ImageFactory::open`, and an
exception, or `false`, or `true` with the digest. -/
def hashExif (sha1 : Bytes → ExifHash) (a : Answers) : List Int × Except Unit (Option ExifHash) :=
  match (do
      -- on the way out `~FD` closes the descriptor, which changes nothing for the thread
      sysCall (-1) a.openRv
      sysCall (-1) a.fstatRv
      sysCall null a.mmapRv : Except Unit Unit) with
  | .error _ => ([], .error ())
  | .ok _ =>
    ([a.mmapRv],
      match a.factory with
      -- the handler returns false; the descriptor is left to `~FD`
      | .throws => do
        sysCall (-1) a.closeRv
        pure none
      -- not inside the `try`
      | .image none => .error ()
      | .null => do
        sysCall (-1) a.munmapRv
        sysCall (-1) a.closeRv
        pure none
      | .image (some exifData) => do
        sysCall (-1) a.munmapRv
        sysCall (-1) a.closeRv
        pure (if exifData.isEmpty then none else some (sha1 (exifStr exifData))))

/-- A path that `path_gen` returns. -/
structure File where
  path : Bytes
  answers : Answers
  path_ne : path ≠ []

/-- The path with what `HashExif` returns for it. -/
def File.scan (sha1 : Bytes → ExifHash) (f : File) : Scan where
  path := f.path
  exif :=
    match (hashExif sha1 f.answers).2 with
    | .ok digest => digest
    | .error _ => none
  path_ne := f.path_ne

/-- The hashing thread and the caller of `Get`. -/
structure Hashing where
  hasher : ExifHasher
  files : List File       -- what `path_gen` will still return
  handed : List Int       -- the blocks handed to `ImageFactory::open`
  terminated : Bool       -- an exception has left the thread

namespace Hashing

def start (sha1 : Bytes → ExifHash) (files : List File) : Hashing :=
  ⟨.start (files.map (File.scan sha1)), files, [], false⟩

def step (sha1 : Bytes → ExifHash) (args : RunArgs) (s : Hashing) (a : ExifHasher.Act) :
    Option Hashing :=
  if s.terminated then none
  else if a = .run ∧ s.hasher.run = .next then
    match s.files with
    | [] => (s.hasher.step args .run).map fun hasher => { s with hasher := hasher }
    | f :: files =>
      let (handed, result) := hashExif sha1 f.answers
      match result with
      | .error _ => some { s with handed := s.handed ++ handed, terminated := true }
      | .ok _ =>
        (s.hasher.step args .run).map fun hasher =>
          { s with hasher := hasher, files := files, handed := s.handed ++ handed }
  else (s.hasher.step args a).map fun hasher => { s with hasher := hasher }

def system (sha1 : Bytes → ExifHash) (args : RunArgs) : StepSystem Hashing ExifHasher.Act :=
  ⟨step sha1 args⟩

end Hashing

/-! ## What should become of a file -/

/-- The digest of a file: it can be opened and mapped, Exiv2 reads it, and
it has EXIF items. -/
def Answers.digest (sha1 : Bytes → ExifHash) (a : Answers) : Option ExifHash :=
  match a.factory with
  | .image (some exifData) =>
    if a.openRv ≠ -1 ∧ a.fstatRv ≠ -1 ∧ a.mmapRv ≠ null ∧ a.mmapRv ≠ mapFailed ∧
        exifData ≠ [] then
      some (sha1 (exifStr exifData))
    else none
  | .throws | .null | .image none => none

/-- The path with its digest. -/
def File.given (sha1 : Bytes → ExifHash) (f : File) : Scan :=
  ⟨f.path, f.answers.digest sha1, f.path_ne⟩

/-- No call fails but, with a failure that `HashExif` expects,
`ImageFactory::open`. -/
structure Answers.Harmless (a : Answers) : Prop where
  opened : a.openRv ≠ -1
  stat : a.fstatRv ≠ -1
  mapped : a.mmapRv ≠ null ∧ a.mmapRv ≠ mapFailed
  read : a.factory ≠ .image none
  released : (a.factory = .throws ∨ a.munmapRv ≠ -1) ∧ a.closeRv ≠ -1

/-- **One bad file does not stop hashing**: in every state the threads
reach, no exception has left the hashing thread, no failed mapping was
handed to Exiv2, `done_` can still be reached, and once it is set there is
one entry for each distinct digest. -/
def SkipsBadFiles (sha1 : Bytes → ExifHash) (args : RunArgs) (files : List File) : Prop :=
  ∀ s, (Hashing.system sha1 args).Reaches (fun _ a => ExifHasher.Asks a)
      (.start sha1 files) s →
    s.terminated = false ∧ mapFailed ∉ s.handed ∧
      (∃ t, (Hashing.system sha1 args).Reaches (fun _ a => ExifHasher.Asks a) s t ∧
        t.hasher.done = true) ∧
      (s.hasher.done = true →
        s.hasher.entries = ExifHasher.firstOfEach [] (files.map (File.given sha1)))

/-! ## One file -/

variable {sha1 : Bytes → ExifHash} {a : Answers} {f : File}

theorem sysCall_eq (errorRv rv : Int) :
    sysCall errorRv rv = if rv = errorRv then .error () else .ok () := rfl

/-- **A harmless file** gives its digest, and its block is a mapping. -/
theorem Answers.Harmless.hashExif (sha1 : Bytes → ExifHash) (h : a.Harmless) :
    hashExif sha1 a = ([a.mmapRv], .ok (a.digest sha1)) := by
  obtain ⟨hopen, hstat, ⟨hnull, hfailed⟩, hread, hunmap, hclose⟩ := h
  simp only [Jpgsync.hashExif, sysCall_eq, hopen, hstat, hnull, hclose, if_false]
  cases hfactory : a.factory with
  | throws => simp [bind, Except.bind, pure, Except.pure, Answers.digest, hfactory]
  | null =>
      have hmunmap : a.munmapRv ≠ -1 := by simpa [hfactory] using hunmap
      simp [bind, Except.bind, pure, Except.pure, Answers.digest, hfactory, hmunmap]
  | image readMetadata =>
      have hmunmap : a.munmapRv ≠ -1 := by simpa [hfactory] using hunmap
      cases readMetadata with
      | none => exact absurd hfactory hread
      | some exifData =>
          cases exifData <;>
            simp [bind, Except.bind, pure, Except.pure, Answers.digest, hfactory, hmunmap, hopen,
              hstat, hnull, hfailed]

/-- A file for which `HashExif` returns, without having handed over a
failed mapping, is harmless. -/
theorem Answers.harmless_of_hashExif {handed : List Int} {digest : Option ExifHash}
    (h : Jpgsync.hashExif sha1 a = (handed, .ok digest)) (hfailed : mapFailed ∉ handed) :
    a.Harmless := by
  simp only [Jpgsync.hashExif, sysCall_eq, bind, Except.bind, pure, Except.pure] at h
  by_cases hopen : a.openRv = -1
  · simp [hopen] at h
  · by_cases hstat : a.fstatRv = -1
    · simp [hopen, hstat] at h
    · by_cases hnull : a.mmapRv = null
      · simp [hopen, hstat, hnull] at h
      · simp only [hopen, hstat, hnull, if_false, Prod.mk.injEq] at h
        obtain ⟨rfl, h⟩ := h
        -- one block was handed over, so it is no failed mapping
        have hmapped : a.mmapRv ≠ mapFailed := fun heq => hfailed (by simp [heq])
        have hclose : a.closeRv ≠ -1 := by
          intro hclose
          cases hfactory : a.factory with
          | throws => simp [hfactory, hclose] at h
          | null =>
              simp only [hfactory, hclose, if_true] at h
              split at h <;> cases h
          | image readMetadata =>
              cases readMetadata with
              | none => simp [hfactory] at h
              | some exifData =>
                  simp only [hfactory, hclose, if_true] at h
                  split at h <;> cases h
        have hmunmap : a.factory = .throws ∨ a.munmapRv ≠ -1 := by
          cases hfactory : a.factory with
          | throws => exact Or.inl rfl
          | null => exact Or.inr fun hmunmap => by simp [hfactory, hmunmap] at h
          | image readMetadata =>
              refine Or.inr fun hmunmap => ?_
              cases readMetadata <;> simp [hfactory, hmunmap] at h
        refine ⟨hopen, hstat, ⟨hnull, hmapped⟩, fun hread => ?_, hmunmap, hclose⟩
        simp [hread] at h

/-! ## The hashing thread -/

namespace ExifHasher

variable {args : RunArgs} {s t : ExifHasher}

/-- The steps to the end of the round, and of the thread. -/
def weight : RunPc → Nat
  | .next => 3
  | .publishLock => 5
  | .publish => 4
  | .finishLock => 2
  | .finish => 1
  | .exited => 0

/-- The steps left to the hashing thread, at most. -/
def runWork (s : ExifHasher) : Nat := 3 * s.gen.length + weight s.run

theorem runWork_step (hst : s.runStep args = some t) : runWork t < runWork s := by
  cases runMove_of_step hst with
  | ended hrun hgen ht =>
      subst ht
      simp [runWork, weight, hrun, hgen]
  | failed scan gen hrun hgen _ ht | duplicate scan gen _ hrun hgen _ _ _ ht =>
      subst ht
      simp [runWork, weight, hrun, hgen]
  | append scan gen h hrun hgen _ _ ht =>
      subst ht
      simp only [runWork, hrun, hgen, List.length_cons]
      split
      · simp only [weight]
        omega
      · simp only [weight]
        omega
  | publishLock hrun _ ht | publish hrun ht | finishLock hrun _ ht | finish hrun ht =>
      subst ht
      simp [runWork, weight, hrun]

/-- Until it has exited, the hashing thread moves, at the latest when the
caller of `Get` has given up `mutex_`. -/
theorem run_progress (args : RunArgs) (h : Locks s) (hrun : s.run ≠ .exited) :
    ∃ t, (system args).Reaches (fun _ a => Asks a) s t ∧ runWork t < runWork s := by
  have hone : ∀ {u v : ExifHasher}, u.runStep args = some v →
      (system args).Reaches (fun _ a => Asks a) u v := fun hst =>
    (StepSystem.Reaches.refl _).tail (a := .run) trivial hst
  by_cases hmutex : s.mutex = some .get
  · obtain ⟨count, hget⟩ := h.get.mp hmutex
    obtain ⟨u, hu, hrun', hgen⟩ : ∃ u, s.getStep = some u ∧ u.run = s.run ∧ u.gen = s.gen := by
      simp only [getStep, hget]
      split
      · exact ⟨_, rfl, rfl, rfl⟩
      · exact ⟨_, rfl, rfl, rfl⟩
    have hfree : u.mutex ≠ some .get := by
      simp only [getStep, hget] at hu
      split at hu <;> cases hu <;> simp
    have henabled : (u.runStep args).isSome :=
      (h.getStep hu).runStep_isSome (by rwa [hrun']) hfree
    obtain ⟨v, hv⟩ := Option.isSome_iff_exists.mp henabled
    refine ⟨v, ((StepSystem.Reaches.refl s).tail (a := .get) trivial hu).tail (a := .run)
      trivial hv, ?_⟩
    have heq : runWork u = runWork s := by rw [runWork, runWork, hrun', hgen]
    rw [← heq]
    exact runWork_step hv
  · obtain ⟨t, ht⟩ := Option.isSome_iff_exists.mp (h.runStep_isSome hrun hmutex)
    exact ⟨t, hone ht, runWork_step ht⟩

/-- **Hashing ends**: whatever `Get` does meanwhile, the hashing thread can
run to its end. -/
theorem exited_reachable (args : RunArgs) (h : Locks s) :
    ∃ t, (system args).Reaches (fun _ a => Asks a) s t ∧ t.run = .exited := by
  induction hn : runWork s using Nat.strongRecOn generalizing s with
  | ind n ih =>
      by_cases hrun : s.run = .exited
      · exact ⟨s, .refl s, hrun⟩
      · obtain ⟨u, hsu, hlt⟩ := run_progress args h hrun
        have hu : Locks u := hsu.invariant (fun _ _ _ hI _ hst => hI.step hst) h
        obtain ⟨t, hut, ht⟩ := ih (runWork u) (hn ▸ hlt) hu rfl
        exact ⟨t, hsu.trans hut, ht⟩

/-- A path is used up when the thread asks for the next one. -/
theorem gen_step {a : Act} (hst : s.step args a = some t) :
    t.gen = if a = .run ∧ s.run = .next then s.gen.tail else s.gen := by
  cases a with
  | run =>
      cases runMove_of_step hst with
      | ended hrun hgen ht | failed _ _ hrun hgen _ ht | duplicate _ _ _ hrun hgen _ _ _ ht
      | append _ _ _ hrun hgen _ _ ht =>
          subst ht
          simp [hrun, hgen]
      | publishLock hrun _ ht | publish hrun ht | finishLock hrun _ ht | finish hrun ht =>
          subst ht
          simp [hrun]
  | get => simpa using (getStep_frame hst).2.2.1
  | call count | getWakes | take =>
      simp only [step] at hst
      split at hst <;> cases hst
      simp

end ExifHasher

namespace Hashing

variable {args : RunArgs} {files₀ : List File} {s t : Hashing} {act : ExifHasher.Act}

/-- **What a step can do**: hash the next file, or move the hasher with no
file involved. -/
theorem step_cases (hst : s.step sha1 args act = some t) :
    s.terminated = false ∧
      ((∃ f files, (act = .run ∧ s.hasher.run = .next) ∧ s.files = f :: files ∧
          (((hashExif sha1 f.answers).2 = .error () ∧
              t = { s with
                handed := s.handed ++ (hashExif sha1 f.answers).1, terminated := true }) ∨
            ∃ digest hasher, (hashExif sha1 f.answers).2 = .ok digest ∧
              s.hasher.step args .run = some hasher ∧
              t = { s with
                hasher := hasher, files := files
                handed := s.handed ++ (hashExif sha1 f.answers).1 })) ∨
        ((act = .run ∧ s.hasher.run = .next → s.files = []) ∧
          ∃ hasher, s.hasher.step args act = some hasher ∧ t = { s with hasher := hasher })) := by
  unfold step at hst
  split at hst
  · cases hst
  · rename_i hterm
    refine ⟨by simpa using hterm, ?_⟩
    split at hst
    · rename_i hnext
      split at hst
      next hnil =>
        obtain ⟨hasher, hh, rfl⟩ := Option.map_eq_some_iff.mp hst
        exact Or.inr ⟨fun _ => hnil, hasher, by rw [hnext.1]; exact hh, rfl⟩
      next f files hcons =>
        refine Or.inl ⟨f, files, hnext, hcons, ?_⟩
        dsimp only at hst
        split at hst
        next herr => cases hst; exact Or.inl ⟨herr, rfl⟩
        next digest hok =>
          obtain ⟨hasher, hh, rfl⟩ := Option.map_eq_some_iff.mp hst
          exact Or.inr ⟨digest, hasher, hok, hh, rfl⟩
    · rename_i hnext
      obtain ⟨hasher, hh, rfl⟩ := Option.map_eq_some_iff.mp hst
      exact Or.inr ⟨fun h => absurd h hnext, hasher, hh, rfl⟩

/-- **The hasher follows the files**: it is in a state of its own system,
the paths it has still to get are those of the remaining files, and the
other files have been hashed without an exception. -/
structure Follows (sha1 : Bytes → ExifHash) (args : RunArgs) (files₀ : List File) (s : Hashing) :
    Prop where
  hasher : (ExifHasher.system args).Reaches (fun _ a => ExifHasher.Asks a)
    (.start (files₀.map (File.scan sha1))) s.hasher
  gen : s.hasher.gen = s.files.map (File.scan sha1)
  hashed : ∃ done, files₀ = done ++ s.files ∧ ∀ f ∈ done,
    (∃ digest, (hashExif sha1 f.answers).2 = .ok digest) ∧
      ∀ block ∈ (hashExif sha1 f.answers).1, block ∈ s.handed

theorem follows_start : Follows sha1 args files₀ (start sha1 files₀) :=
  ⟨.refl _, rfl, [], rfl, by simp⟩

theorem Follows.step (h : Follows sha1 args files₀ s) (ha : ExifHasher.Asks act)
    (hst : s.step sha1 args act = some t) : Follows sha1 args files₀ t := by
  obtain ⟨done, hsplit, hdone⟩ := h.hashed
  obtain ⟨_, ⟨f, files, hnext, hcons, ⟨_, rfl⟩ | ⟨digest, hasher, hok, hh, rfl⟩⟩ |
    ⟨hnil, hasher, hh, rfl⟩⟩ := step_cases hst
  · refine ⟨h.hasher, h.gen, done, hsplit, fun g hg => ⟨(hdone g hg).1, fun b hb => ?_⟩⟩
    exact List.mem_append_left _ ((hdone g hg).2 b hb)
  · refine ⟨h.hasher.tail (a := .run) trivial hh, ?_, done ++ [f], ?_, fun g hg => ?_⟩
    · rw [ExifHasher.gen_step hh, if_pos ⟨rfl, hnext.2⟩, h.gen, hcons, List.map_cons,
        List.tail_cons]
    · rw [hsplit, hcons, List.append_assoc]
      rfl
    · rcases List.mem_append.mp hg with hg | hg
      · exact ⟨(hdone g hg).1, fun b hb => List.mem_append_left _ ((hdone g hg).2 b hb)⟩
      · rw [List.mem_singleton.mp hg]
        exact ⟨⟨digest, hok⟩, fun b hb => List.mem_append_right _ hb⟩
  · refine ⟨h.hasher.tail ha hh, ?_, done, hsplit, hdone⟩
    rw [ExifHasher.gen_step hh, h.gen]
    split
    · rename_i hnext
      simp [hnil hnext]
    · rfl

/-- Once `done_` is set, every file has been hashed. -/
theorem Follows.done (hu : args.unique = true) (h : Follows sha1 args files₀ s)
    (hdone : s.hasher.done = true) :
    s.hasher.entries = ExifHasher.firstOfEach [] (files₀.map (File.scan sha1)) ∧ s.files = [] := by
  have hH := ExifHasher.handOver_of_reaches hu h.hasher
  have hgen := hH.ended (Or.inr (Or.inr (hH.done.mp hdone)))
  refine ⟨?_, ?_⟩
  · rw [← hH.rest, hgen, ExifHasher.firstOfEach, List.append_nil]
  · rw [h.gen] at hgen
    exact List.map_eq_nil_iff.mp hgen

/-- Nothing bad has happened, and no file is left with which it could. -/
structure Clean (s : Hashing) : Prop where
  files : ∀ f ∈ s.files, f.answers.Harmless
  running : s.terminated = false
  mapped : mapFailed ∉ s.handed

theorem Clean.step (h : Clean s) (hst : s.step sha1 args act = some t) : Clean t := by
  obtain ⟨_, ⟨f, files, _, hcons, ⟨herr, rfl⟩ | ⟨_, hasher, _, _, rfl⟩⟩ |
    ⟨_, hasher, _, rfl⟩⟩ := step_cases hst
  · have hf := (h.files f (by simp [hcons])).hashExif sha1
    rw [hf] at herr
    cases herr
  · have hharmless := h.files f (by simp [hcons])
    refine ⟨fun g hg => h.files g (by simp [hcons, hg]), h.running, ?_⟩
    rw [hharmless.hashExif, List.mem_append, List.mem_singleton]
    exact fun hmem => hmem.elim h.mapped fun heq => hharmless.mapped.2 heq.symm
  · exact ⟨h.files, h.running, h.mapped⟩

/-- With harmless files every step of the hasher is a step here. -/
theorem Clean.follow (sha1 : Bytes → ExifHash) (h : Clean s) {hasher : ExifHasher}
    (hst : s.hasher.step args act = some hasher) :
    ∃ t, s.step sha1 args act = some t ∧ t.hasher = hasher := by
  unfold Hashing.step
  rw [h.running]
  simp only [Bool.false_eq_true, if_false]
  split
  · rename_i hnext
    rw [hnext.1] at hst
    split
    next => exact ⟨_, by rw [hst]; rfl, rfl⟩
    next f files hcons =>
      rw [(h.files f (by simp [hcons])).hashExif]
      exact ⟨_, by rw [hst]; rfl, rfl⟩
  · exact ⟨_, by rw [hst]; rfl, rfl⟩

end Hashing

/-- **When no file stops hashing**: exactly when every file can be opened,
mapped, read and released, a failure of `ImageFactory::open` excepted. -/
theorem skips_bad_files_iff {args : RunArgs} (hu : args.unique = true) (files : List File) :
    SkipsBadFiles sha1 args files ↔ ∀ f ∈ files, f.answers.Harmless := by
  have hfollows : ∀ s, (Hashing.system sha1 args).Reaches (fun _ a => ExifHasher.Asks a)
      (.start sha1 files) s → Hashing.Follows sha1 args files s := fun s hs =>
    hs.invariant (fun _ _ _ h ha hst => h.step ha hst) Hashing.follows_start
  constructor
  · intro h f hf
    obtain ⟨_, _, ⟨t, ht, hdone⟩, _⟩ := h _ (.refl _)
    obtain ⟨_, hmapped, _⟩ := h t ht
    obtain ⟨done, hsplit, hhashed⟩ := (hfollows t ht).hashed
    rw [((hfollows t ht).done hu hdone).2, List.append_nil] at hsplit
    obtain ⟨⟨digest, hok⟩, hhanded⟩ := hhashed f (hsplit ▸ hf)
    exact Answers.harmless_of_hashExif (Prod.ext (rfl : (Jpgsync.hashExif sha1 _).1 = _) hok)
      fun hmem => hmapped (hhanded _ hmem)
  · intro h s hs
    have hclean : Hashing.Clean s := hs.invariant (fun _ _ _ h _ hst => h.step hst)
      (show Hashing.Clean (.start sha1 files) from ⟨h, rfl, by simp [Hashing.start]⟩)
    have hfollow := hfollows s hs
    refine ⟨hclean.running, hclean.mapped, ?_, fun hdone => ?_⟩
    · have hlocks : s.hasher.Locks :=
        hfollow.hasher.invariant (fun _ _ _ h _ hst => h.step hst) (ExifHasher.locks_start _)
      obtain ⟨hasher, hreach, hexited⟩ := ExifHasher.exited_reachable args hlocks
      obtain ⟨t, ht, hteq, _⟩ := hreach.invariant
        (I := fun hasher => ∃ t, (Hashing.system sha1 args).Reaches
          (fun _ a => ExifHasher.Asks a) s t ∧ t.hasher = hasher ∧ Hashing.Clean t)
        (fun _ a v ⟨u, hu, heq, hcu⟩ ha hst => by
          subst heq
          obtain ⟨w, hw, hweq⟩ := hcu.follow sha1 hst
          exact ⟨w, hu.tail ha hw, hweq, hcu.step hw⟩) ⟨s, .refl s, rfl, hclean⟩
      have hH := ExifHasher.handOver_of_reaches hu (hfollows t (hs.trans ht)).hasher
      exact ⟨t, ht, hH.done.mpr (hteq ▸ hexited)⟩
    · rw [(hfollow.done hu hdone).1]
      congr 1
      refine List.map_congr_left fun f hf => ?_
      rw [File.scan, File.given, (h f hf).hashExif sha1]

/-- A path at which there is no file. -/
def missingFile : File where
  path := [97]
  answers := ⟨-1, -1, mapFailed, .throws, -1, -1⟩
  path_ne := by decide

/-- **A missing file stops hashing.** -/
theorem not_always_skips_bad_files :
    ¬ ∀ (sha1 : Bytes → ExifHash) (args : RunArgs) (files : List File), args.unique = true →
        SkipsBadFiles sha1 args files := by
  intro hall
  have hskips := hall (fun _ => ⟨0, 0, 0, 0, 0⟩) ⟨1, true⟩ [missingFile] rfl
  -- the first step of the thread is its last
  obtain ⟨hrunning, _⟩ := hskips _ ((StepSystem.Reaches.refl _).tail (a := .run) trivial rfl)
  exact absurd hrunning (by decide)

/-- A file that is no image, one without EXIF data, and a photo. -/
def harmlessFiles : List File :=
  [⟨[97], ⟨3, 0, 4096, .throws, 0, 0⟩, by decide⟩,
    ⟨[98], ⟨3, 0, 4096, .image (some []), 0, 0⟩, by decide⟩,
    ⟨[99], ⟨3, 0, 4096, .image (some [⟨exifImageMake, [88]⟩]), 0, 0⟩, by decide⟩]

theorem skips_bad_files_harmlessFiles :
    SkipsBadFiles (fun text => ⟨UInt32.ofNat text.length, 0, 0, 0, 0⟩) ⟨1, true⟩ harmlessFiles :=
  (skips_bad_files_iff (rfl : (⟨1, true⟩ : RunArgs).unique = true) harmlessFiles).mpr
    fun f hf => by
      simp only [harmlessFiles, List.mem_cons, List.not_mem_nil, or_false] at hf
      rcases hf with rfl | rfl | rfl <;>
        exact ⟨by decide, by decide, by decide, by decide, by decide⟩

/-! ## Two images with one text -/

/-- **A photo is dropped** when its items have the text of another's: it
gets no entry, whatever it shows. -/
theorem firstOfEach_of_exifStr_eq {f g : File} {items items' : List ExifItem}
    (hf : f.answers.Harmless) (hg : g.answers.Harmless)
    (hitems : f.answers.factory = .image (some items)) (hne : items ≠ [])
    (hitems' : g.answers.factory = .image (some items')) (hne' : items' ≠ [])
    (heq : exifStr items = exifStr items') (seen : List ExifHash) (scans : List Scan) :
    ExifHasher.firstOfEach seen (f.given sha1 :: g.given sha1 :: scans) =
      ExifHasher.firstOfEach seen (f.given sha1 :: scans) := by
  have hdigest : (f.given sha1).exif = some (sha1 (exifStr items)) := by
    simp [File.given, Answers.digest, hitems, hf.opened, hf.stat, hf.mapped, hne]
  have hdigest' : (g.given sha1).exif = some (sha1 (exifStr items)) := by
    simp [File.given, Answers.digest, hitems', hg.opened, hg.stat, hg.mapped, hne', heq]
  by_cases hseen : sha1 (exifStr items) ∈ seen
  · simp [ExifHasher.firstOfEach, hdigest, hdigest', hseen]
  · simp [ExifHasher.firstOfEach, hdigest, hdigest', hseen]

end Jpgsync
