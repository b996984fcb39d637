import Jpgsync.ExifHash.Text
import Jpgsync.ExifHasher.Command
import Jpgsync.ExifHasher.Duplicates

/-!
# ExifHasher — Programs

The two programs besides `jpgsync`. `jpghash` prints a line for every image
among its arguments, copies of an image included; `jpgln` links one image
of each kind under the name of its hash. The paths are the arguments up to
the first empty one, which ends `Run`; what `HashExif` answers for them is
a parameter, and so is what `link` answers.
-/

namespace Jpgsync

open ExifHasher Command

/-! ## The arguments -/

/-- What `Run` reads when `path_gen` returns these paths. -/
def scansOf (hashExif : Bytes → Option ExifHash) : List Bytes → List Scan
  | [] => []
  | path :: paths =>
    if h : path = [] then [] else ⟨path, hashExif path, h⟩ :: scansOf hashExif paths

/-- The paths `main` passes to `Run`: `argv[1]` and so on. -/
def argumentPaths (argv : List Bytes) : List Bytes := (argv.drop 1).takeWhile (· ≠ [])

def argumentScans (hashExif : Bytes → Option ExifHash) (argv : List Bytes) : List Scan :=
  scansOf hashExif (argv.drop 1)

section

variable {hashExif : Bytes → Option ExifHash}

theorem mem_scansOf {paths : List Bytes} {scan : Scan} : scan ∈ scansOf hashExif paths ↔
    scan.path ∈ paths.takeWhile (· ≠ []) ∧ scan.exif = hashExif scan.path := by
  induction paths with
  | nil => simp [scansOf]
  | cons path paths ih =>
      rw [scansOf]
      by_cases hnil : path = []
      · simp [hnil]
      · rw [dif_neg hnil, List.takeWhile_cons_of_pos (by simpa using hnil), List.mem_cons,
          List.mem_cons, ih, or_and_right]
        refine or_congr ?_ Iff.rfl
        obtain ⟨p, exif, hp⟩ := scan
        rw [Scan.mk.injEq]
        refine and_congr_right fun heq => ?_
        dsimp only at heq ⊢
        rw [heq]

/-- An entry for every argument that is hashed. -/
theorem eachHashed_scansOf (paths : List Bytes) :
    eachHashed (scansOf hashExif paths) = (paths.takeWhile (· ≠ [])).filterMap fun path =>
      (hashExif path).map fun hash => ⟨hash, path⟩ := by
  induction paths with
  | nil => rfl
  | cons path paths ih =>
      rw [scansOf]
      by_cases hnil : path = []
      · simp [hnil, eachHashed]
      · rw [dif_neg hnil, List.takeWhile_cons_of_pos (by simpa using hnil), List.filterMap_cons,
          ← ih]
        rfl

end

/-! ## `jpghash` -/

/-- `cout << *e->hash << ' ' << ' ' << e->path << endl`. -/
def hashLine (e : Entry) : Bytes := e.hash.toString ++ [32, 32] ++ e.path ++ [10]

def jpghashUse (out : Bytes) (e : Entry) : Except Bytes Bytes := .ok (out ++ hashLine e)

/-- `main` of `jpghash.cpp`. -/
def jpghash : StepSystem (Command Bytes) Command.Act := Command.system ⟨1, false⟩ jpghashUse

def jpghashStart (hashExif : Bytes → Option ExifHash) (argv : List Bytes) : Command Bytes :=
  Command.start (argumentScans hashExif argv) []

/-- What `jpghash` is to print. -/
def hashListing (hashExif : Bytes → Option ExifHash) (argv : List Bytes) : Bytes :=
  (argumentPaths argv).flatMap fun path =>
    ((hashExif path).map fun hash => hashLine ⟨hash, path⟩).getD []

section

variable {hashExif : Bytes → Option ExifHash} {argv : List Bytes}

/-- With duplicates and a threshold of one everything is handed out. -/
theorem promises_each (gen : List Scan) : Promises ⟨1, false⟩ gen (eachHashed gen) := by
  intro s hs
  have h := jpghash_counts hs.reachable
  exact ⟨h.announced_le, h.inside, h.handed, h.all, h.awake⟩

theorem hashListing_eq : hashListing hashExif argv =
    (eachHashed (argumentScans hashExif argv)).flatMap hashLine := by
  rw [argumentScans, eachHashed_scansOf, hashListing, argumentPaths]
  induction (argv.drop 1).takeWhile (· ≠ []) with
  | nil => rfl
  | cons path paths ih =>
      rw [List.flatMap_cons, ih, List.filterMap_cons]
      cases hashExif path <;> rfl

/-- **`jpghash` lists its arguments**: whatever the interleaving of its two
threads, what it has printed is a front of the list of all images among its
arguments, in their order and each as often as it is named; it gets to the
end of the list, and has printed all of it when `main` returns. -/
theorem jpghash_lists (hashExif : Bytes → Option ExifHash) (argv : List Bytes) :
    (WellFounded fun t s : Command Bytes => jpghash.Reachable (jpghashStart hashExif argv) s ∧
      ∃ a, Own a ∧ jpghash.step s a = some t) ∧
    ∀ s, jpghash.Reachable (jpghashStart hashExif argv) s →
      (s.pc = .listing ∧ s.out <+: hashListing hashExif argv ∧
        ∃ a, Own a ∧ (jpghash.step s a).isSome) ∨
      (s.pc = .returned ∧ s.out = hashListing hashExif argv) := by
  have hp := promises_each (argumentScans hashExif argv)
  obtain ⟨hwf, hmoves⟩ := hp.ends jpghashUse []
  refine ⟨hwf, fun s hs => ?_⟩
  have h := listing (K := fun used out => out = used.flatMap hashLine) hp rfl
    (fun used e out out' _ hout huse => by
      cases huse
      rw [hout, List.flatMap_append, List.flatMap_singleton]) hs
  rw [hashListing_eq]
  cases hpc : s.pc with
  | listing =>
      simp only [hpc] at h
      obtain ⟨used, hout, rest, hall⟩ := h
      refine Or.inl ⟨rfl, ?_, hmoves s hs hpc⟩
      rw [hout, ← hall, List.flatMap_append]
      exact List.prefix_append _ _
  | returned =>
      simp only [hpc] at h
      exact Or.inr ⟨rfl, h⟩
  | thrown =>
      simp only [hpc] at h
      obtain ⟨used, out, e, -, -, he⟩ := h
      cases he

end

/-! ## `jpgln` -/

/-- What `link` fails with. -/
inductive LinkError where
  | eexist
  | other
deriving DecidableEq

/-- `link(path, name)`, when `name` is there or not: it replaces nothing,
and a name that is not there is not the reason it fails for. -/
structure LinkCall where
  answer : Bytes → Bool → Option LinkError
  answer_taken : ∀ path, answer path true ≠ none
  answer_free : ∀ path, answer path false ≠ some .eexist

/-- The output of `jpgln`: what it prints, the names in its working
directory with the file each was linked to, and the warnings. -/
structure Links where
  printed : Bytes
  names : List (Bytes × Bytes)
  warned : List Bytes

/-- Whether a name is there. -/
def Links.has (out : Links) (name : Bytes) : Bool := out.names.any fun n => n.1 == name

theorem Links.has_iff {out : Links} {name : Bytes} :
    out.has name = true ↔ name ∈ out.names.map Prod.fst := by
  simp only [Links.has, List.any_eq_true, beq_iff_eq, List.mem_map]

/-- `cout << "ln " << e->path << ' ' << *e->hash << endl`. -/
def linkLine (e : Entry) : Bytes := [108, 110, 32] ++ e.path ++ [32] ++ e.hash.toString ++ [10]

/-- The name an entry is linked under, and its file. -/
def linkOf (e : Entry) : Bytes × Bytes := (e.hash.toString, e.path)

/-- The body of the loop: prints, links, and catches only `EEXIST`. -/
def jpglnUse (call : LinkCall) (out : Links) (e : Entry) : Except Links Links :=
  let out := { out with printed := out.printed ++ linkLine e }
  match call.answer e.path (out.has e.hash.toString) with
  | none => .ok { out with names := out.names ++ [linkOf e] }
  | some .eexist => .ok { out with warned := out.warned ++ [e.path] }
  | some .other => .error out

/-- `main` of `jpgln.cpp`. -/
def jpgln (call : LinkCall) : StepSystem (Command Links) Command.Act :=
  Command.system ⟨1, true⟩ (jpglnUse call)

def jpglnStart (hashExif : Bytes → Option ExifHash) (argv : List Bytes)
    (before : List (Bytes × Bytes)) : Command Links :=
  Command.start (argumentScans hashExif argv) ⟨[], before, []⟩

/-- One image of each kind, the first one named. -/
def imagesToLink (hashExif : Bytes → Option ExifHash) (argv : List Bytes) : List Entry :=
  firstOfEach [] (argumentScans hashExif argv)

/-- No file had the name of this hash before. -/
def Fresh (before : List (Bytes × Bytes)) (e : Entry) : Prop :=
  e.hash.toString ∉ before.map Prod.fst

instance (before : List (Bytes × Bytes)) : DecidablePred (Fresh before) :=
  fun e => inferInstanceAs (Decidable (e.hash.toString ∉ before.map Prod.fst))

section

variable {hashExif : Bytes → Option ExifHash} {argv : List Bytes} {call : LinkCall}
  {before : List (Bytes × Bytes)} {used all : List Entry} {out out' : Links} {e : Entry}

/-- The output when these entries have been used. -/
structure LinksOf (before : List (Bytes × Bytes)) (used : List Entry) (out : Links) : Prop where
  printed : out.printed = used.flatMap linkLine
  names : out.names = before ++ (used.filter fun e => decide (Fresh before e)).map linkOf
  warned : out.warned = (used.filter fun e => !decide (Fresh before e)).map Entry.path

/-- `link` fails for these entries only where their name was there. -/
def Linked (call : LinkCall) (before : List (Bytes × Bytes)) (used : List Entry) : Prop :=
  ∀ e ∈ used, call.answer e.path (!decide (Fresh before e)) ≠ some .other

/-- An entry of a new hash meets only names that were there before. -/
theorem LinksOf.has_eq (h : LinksOf before used out) (hnew : e.hash ∉ used.map Entry.hash) :
    out.has e.hash.toString = !decide (Fresh before e) := by
  rw [Bool.eq_iff_iff, Links.has_iff, Bool.not_eq_true', decide_eq_false_iff_not, h.names,
    List.map_append, List.mem_append, Fresh, not_not, or_iff_left]
  rw [List.map_map]
  intro hmem
  obtain ⟨e', he', heq⟩ := List.mem_map.mp hmem
  have hhash : e'.hash = e.hash := ExifHash.toString_injective.mp heq
  exact hnew (hhash ▸ List.mem_map_of_mem (List.mem_filter.mp he').1)

theorem LinksOf.jpglnUse_eq (h : LinksOf before used out) (hnew : e.hash ∉ used.map Entry.hash) :
    jpglnUse call out e =
      let out := { out with printed := out.printed ++ linkLine e }
      match call.answer e.path (!decide (Fresh before e)) with
      | none => .ok { out with names := out.names ++ [linkOf e] }
      | some .eexist => .ok { out with warned := out.warned ++ [e.path] }
      | some .other => .error out := by
  rw [← h.has_eq hnew]
  rfl

theorem LinksOf.use (h : LinksOf before used out) (hnew : e.hash ∉ used.map Entry.hash)
    (huse : jpglnUse call out e = .ok out') : LinksOf before (used ++ [e]) out' := by
  rw [h.jpglnUse_eq hnew] at huse
  dsimp only at huse
  split at huse
  next hlinked =>
    cases huse
    have hfresh : Fresh before e := by
      by_contra hnot
      rw [decide_eq_false hnot] at hlinked
      exact call.answer_taken _ hlinked
    refine ⟨by simp [h.printed], ?_, ?_⟩
    · simp [h.names, List.filter_append, hfresh]
    · simp [h.warned, List.filter_append, hfresh]
  next hexists =>
    cases huse
    have hnot : ¬ Fresh before e := by
      intro hfresh
      rw [decide_eq_true hfresh] at hexists
      exact call.answer_free _ hexists
    refine ⟨by simp [h.printed], ?_, ?_⟩
    · simp [h.names, List.filter_append, hnot]
    · simp [h.warned, List.filter_append, hnot]
  next => cases huse

theorem Linked.use (hlinked : Linked call before used) (h : LinksOf before used out)
    (hnew : e.hash ∉ used.map Entry.hash) (huse : jpglnUse call out e = .ok out') :
    Linked call before (used ++ [e]) := by
  rw [Linked, List.forall_mem_append, List.forall_mem_singleton]
  refine ⟨hlinked, fun hother => ?_⟩
  rw [h.jpglnUse_eq hnew] at huse
  simp [hother] at huse

/-- The hash of the next image is new. -/
theorem hash_notMem (hpre : used ++ [e] <+: imagesToLink hashExif argv) :
    e.hash ∉ used.map Entry.hash := by
  have hnodup := (nodup_firstOfEach [] (argumentScans hashExif argv)).sublist
    (hpre.sublist.map Entry.hash)
  rw [List.map_append, List.map_singleton, List.nodup_append] at hnodup
  intro hmem
  exact hnodup.2.2 _ hmem _ (List.mem_singleton_self _) rfl

/-- **`jpgln` links each image once.** Whatever the interleaving of its two
threads, no name that was there changes, and every new one is the hash of
the file it was linked to; it gets to the end, and when `main` returns
every image among the arguments has a name, the first one of its kind where
that name was free before, and there is a warning for each other one. It
throws at the first image for which `link` fails for another reason than
the name, and at no other one. -/
theorem jpgln_links (hashExif : Bytes → Option ExifHash) (argv : List Bytes) (call : LinkCall)
    (before : List (Bytes × Bytes)) :
    (WellFounded fun t s : Command Links =>
      (jpgln call).Reachable (jpglnStart hashExif argv before) s ∧
        ∃ a, Own a ∧ (jpgln call).step s a = some t) ∧
    ∀ s, (jpgln call).Reachable (jpglnStart hashExif argv before) s →
      (s.pc = .listing ∧
        (∃ used, used <+: imagesToLink hashExif argv ∧ LinksOf before used s.out ∧
          Linked call before used) ∧
        ∃ a, Own a ∧ ((jpgln call).step s a).isSome) ∨
      (s.pc = .returned ∧ LinksOf before (imagesToLink hashExif argv) s.out ∧
        Linked call before (imagesToLink hashExif argv) ∧
        ∀ path ∈ argumentPaths argv, ∀ hash, hashExif path = some hash →
          hash.toString ∈ s.out.names.map Prod.fst) ∨
      (s.pc = .thrown ∧ ∃ used e, used ++ [e] <+: imagesToLink hashExif argv ∧
        Linked call before used ∧
        call.answer e.path (!decide (Fresh before e)) = some .other ∧
        s.out.names = before ++ (used.filter fun e => decide (Fresh before e)).map linkOf) := by
  have hp : Promises ⟨1, true⟩ (argumentScans hashExif argv) (imagesToLink hashExif argv) :=
    promises_unique rfl _
  obtain ⟨hwf, hmoves⟩ := hp.ends (jpglnUse call) ⟨[], before, []⟩
  refine ⟨hwf, fun s hs => ?_⟩
  have h := listing (K := fun used out => LinksOf before used out ∧ Linked call before used) hp
    ⟨⟨rfl, by simp, rfl⟩, List.forall_mem_nil _⟩
    (fun used e out out' hpre hout huse =>
      ⟨hout.1.use (hash_notMem hpre) huse, hout.2.use hout.1 (hash_notMem hpre) huse⟩) hs
  cases hpc : s.pc with
  | listing =>
      simp only [hpc] at h
      obtain ⟨used, hout, hpre⟩ := h
      exact Or.inl ⟨rfl, ⟨used, hpre, hout.1, hout.2⟩, hmoves s hs hpc⟩
  | returned =>
      simp only [hpc] at h
      obtain ⟨h, hlinked⟩ := h
      refine Or.inr (Or.inl ⟨rfl, h, hlinked, fun path hpath hash hexif => ?_⟩)
      have hne : path ≠ [] := by
        rintro rfl
        simpa using List.all_eq_true.mp List.all_takeWhile _ hpath
      have hmem : hash ∈ (imagesToLink hashExif argv).map Entry.hash :=
        mem_hashes_firstOfEach.mpr ⟨List.not_mem_nil, ⟨path, some hash, hne⟩,
          mem_scansOf.mpr ⟨hpath, hexif.symm⟩, rfl⟩
      obtain ⟨e, he, rfl⟩ := List.mem_map.mp hmem
      rw [h.names, List.map_append, List.mem_append, List.map_map]
      by_cases hfresh : Fresh before e
      · exact Or.inr (List.mem_map_of_mem (f := Prod.fst ∘ linkOf)
          (List.mem_filter.mpr ⟨he, decide_eq_true hfresh⟩))
      · exact Or.inl (not_not.mp hfresh)
  | thrown =>
      simp only [hpc] at h
      obtain ⟨used, out, e, ⟨hout, hlinked⟩, hpre, huse⟩ := h
      refine Or.inr (Or.inr ⟨rfl, used, e, hpre, hlinked, ?_⟩)
      rw [hout.jpglnUse_eq (hash_notMem hpre)] at huse
      dsimp only at huse
      split at huse
      next => cases huse
      next => cases huse
      next hother =>
        have hnames : s.out.names = out.names := by rw [← Except.error.inj huse]
        exact ⟨hother, hnames.trans hout.names⟩

/-- The second of two copies is not linked. -/
example : ((jpgln ⟨fun _ taken => if taken then some .eexist else none, by simp, by simp⟩).exec
    (jpglnStart (fun _ => some ⟨1, 0, 0, 0, 0⟩) [[106], [97], [98]] [])
    (List.replicate 7 .run ++ List.replicate 10 .main)).map
      (fun s => (s.pc, s.out.names.map Prod.snd)) = some (.returned, [[97]]) := by
  decide +kernel

end

end Jpgsync
