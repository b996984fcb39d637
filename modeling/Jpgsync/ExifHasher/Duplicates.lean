import Jpgsync.ExifHasher.HandOver
import Mathlib.Data.List.Induction

/-!
# ExifHasher — Duplicates

`Run` without `unique`: every hashed path is appended, but announcements
are computed from the number of different hashes. A repetition is early
where that number is no multiple of the threshold, and is then announced
by nobody; it is late where it is one, and then a whole threshold is
announced for one entry. `Even` says that the two make up for each other at
every point of the run, and `counts_all_iff` that nothing else does.
-/

namespace Jpgsync
namespace ExifHasher

/-! ## Repetitions -/

/-- The different hashes of a sequence, and its repetitions. -/
structure Tally where
  seen : List ExifHash
  early : Nat
  late : Nat
deriving DecidableEq

/-- One more hash. -/
def Tally.add (threshold : Nat) (t : Tally) (h : ExifHash) : Tally :=
  if h ∈ t.seen then
    if t.seen.length % threshold = 0 then { t with late := t.late + 1 }
    else { t with early := t.early + 1 }
  else { t with seen := h :: t.seen }

/-- The tally of a sequence of hashes. -/
def tally (threshold : Nat) (hashes : List ExifHash) : Tally :=
  hashes.foldl (Tally.add threshold) ⟨[], 0, 0⟩

/-- What is appended without `unique`: an entry for every hashed path. -/
def eachHashed (scans : List Scan) : List Entry :=
  scans.filterMap fun scan => scan.exif.map fun h => ⟨h, scan.path⟩

/-- The tally of what is appended for some paths. -/
def tallyOf (threshold : Nat) (scans : List Scan) : Tally :=
  tally threshold ((eachHashed scans).map Entry.hash)

/-- **Late and early repetitions make up for each other**: late ones never
get ahead, and in the end there are as many as it takes. -/
def Even (threshold : Nat) (scans : List Scan) : Prop :=
  (∀ k ≤ scans.length, let t := tallyOf threshold (scans.take k)
    (threshold - 1) * t.late ≤ t.early + t.seen.length % threshold) ∧
  let t := tallyOf threshold scans
  (threshold - 1) * t.late = t.early

instance (threshold : Nat) (scans : List Scan) : Decidable (Even threshold scans) :=
  inferInstanceAs (Decidable (_ ∧ _))

/-- What is announced for a sequence until `Run` is done. -/
def Tally.total (threshold : Nat) (t : Tally) : Nat :=
  threshold * (t.seen.length / threshold) + threshold * t.late

section

variable {threshold : Nat} {t : Tally} {h : ExifHash} {hashes : List ExifHash}

@[simp] theorem seen_add : (t.add threshold h).seen = t.seen.insert h := by
  unfold Tally.add
  by_cases hmem : h ∈ t.seen
  · rw [if_pos hmem, List.insert_of_mem hmem]
    split <;> rfl
  · rw [if_neg hmem, List.insert_of_not_mem hmem]

/-- **An entry is announced** with a threshold or not at all. -/
theorem total_add : (t.add threshold h).total threshold =
    t.total threshold +
      if (t.add threshold h).seen.length % threshold = 0 then threshold else 0 := by
  unfold Tally.add
  by_cases hmem : h ∈ t.seen
  · rw [if_pos hmem]
    by_cases hmul : t.seen.length % threshold = 0
    · simp only [hmul, if_true, Tally.total, Nat.mul_add, Nat.mul_one, Nat.add_assoc]
    · simp only [hmul, if_false, Tally.total, Nat.add_zero]
  · have hdiv := Nat.succ_div (a := t.seen.length) (b := threshold)
    simp only [Nat.dvd_iff_mod_eq_zero] at hdiv
    simp only [if_neg hmem, Tally.total, List.length_cons]
    rw [hdiv]
    split
    · rw [Nat.mul_add, Nat.mul_one]
      omega
    · rw [Nat.add_zero, Nat.add_zero]

theorem size_add : (t.add threshold h).seen.length + (t.add threshold h).early +
    (t.add threshold h).late = t.seen.length + t.early + t.late + 1 := by
  unfold Tally.add
  split
  · split <;> dsimp only <;> omega
  · simp only [List.length_cons]
    omega

theorem tally_append_singleton :
    tally threshold (hashes ++ [h]) = (tally threshold hashes).add threshold h := by
  simp [tally]

/-- Every hash is new, early or late. -/
theorem size_tally (threshold : Nat) (hashes : List ExifHash) :
    (tally threshold hashes).seen.length + (tally threshold hashes).early +
      (tally threshold hashes).late = hashes.length := by
  induction hashes using List.reverseRecOn with
  | nil => rfl
  | append_singleton hashes h ih =>
      rw [tally_append_singleton, size_add, ih, List.length_append, List.length_singleton]

theorem mul_late (hpos : 0 < threshold) (t : Tally) :
    threshold * t.late = (threshold - 1) * t.late + t.late := by
  obtain ⟨n, rfl⟩ : ∃ n, threshold = n + 1 := ⟨threshold - 1, by omega⟩
  rw [Nat.add_sub_cancel, Nat.add_mul, Nat.one_mul]

/-- Late repetitions are ahead exactly when too much is announced, -/
theorem total_le_iff (hpos : 0 < threshold) :
    (tally threshold hashes).total threshold ≤ hashes.length ↔
      (threshold - 1) * (tally threshold hashes).late ≤
        (tally threshold hashes).early + (tally threshold hashes).seen.length % threshold := by
  have hsize := size_tally threshold hashes
  have hdiv := Nat.div_add_mod (tally threshold hashes).seen.length threshold
  have hlate := mul_late hpos (tally threshold hashes)
  rw [Tally.total]
  omega

/-- and even in the end exactly when all is. -/
theorem total_eq_iff (hpos : 0 < threshold) :
    (tally threshold hashes).total threshold + (tally threshold hashes).seen.length % threshold =
        hashes.length ↔
      (threshold - 1) * (tally threshold hashes).late = (tally threshold hashes).early := by
  have hsize := size_tally threshold hashes
  have hdiv := Nat.div_add_mod (tally threshold hashes).seen.length threshold
  have hlate := mul_late hpos (tally threshold hashes)
  rw [Tally.total]
  omega

end

/-! ## What `Run` has announced -/

/-- How many entries have been announced, by where `Run` is. -/
def AnnouncedAll (threshold : Nat) (s : ExifHasher) : Prop :=
  let total := (tally threshold (s.entries.map Entry.hash)).total threshold
  match s.run with
  | .next | .finishLock | .finish => s.announced = total
  | .publishLock | .publish => s.announced + threshold = total
  | .exited => s.announced = total + s.hashes.length % threshold

/-- **What `Run` without `unique` keeps**, whatever is announced. -/
structure Counting (threshold : Nat) (scans : List Scan) (s : ExifHasher) : Prop where
  read : ∃ k ≤ scans.length, s.gen = scans.drop k ∧ s.entries = eachHashed (scans.take k)
  hashes : s.hashes = (tally threshold (s.entries.map Entry.hash)).seen
  ended : s.run = .finishLock ∨ s.run = .finish ∨ s.run = .exited → s.gen = []
  done : s.done = true ↔ s.run = .exited
  counts : AnnouncedAll threshold s

theorem counting_start (threshold : Nat) (scans : List Scan) :
    Counting threshold scans (start scans) where
  read := ⟨0, Nat.zero_le _, rfl, rfl⟩
  hashes := rfl
  ended := by simp [start]
  done := by simp [start]
  counts := by simp [AnnouncedAll, announced, start, inWalk, tally, Tally.total]

namespace Counting

variable {args : RunArgs} {threshold : Nat} {scans : List Scan} {s t : ExifHasher}

/-- A path is read. -/
theorem read_cons (h : Counting threshold scans s) {scan : Scan} {gen : List Scan}
    (hgen : s.gen = scan :: gen) :
    ∃ k ≤ scans.length, gen = scans.drop k ∧
      eachHashed (scans.take k) =
        s.entries ++ (scan.exif.map fun g => (⟨g, scan.path⟩ : Entry)).toList := by
  obtain ⟨k, hk, hdrop, hentries⟩ := h.read
  rw [hgen] at hdrop
  have hlt : k < scans.length := by
    by_contra hge
    rw [List.drop_of_length_le (by omega)] at hdrop
    cases hdrop
  rw [List.drop_eq_getElem_cons hlt] at hdrop
  obtain ⟨rfl, rfl⟩ := List.cons.inj hdrop
  refine ⟨k + 1, hlt, rfl, ?_⟩
  rw [hentries, List.take_succ_eq_append_getElem hlt, eachHashed, List.filterMap_append]
  cases hexif : scans[k].exif <;> simp [eachHashed, hexif]

/-- An entry is appended: the total moves on exactly when `Run` goes on to
announce. -/
theorem append (h : Counting args.progressThreshold scans s) {scan : Scan} {gen : List Scan}
    {g : ExifHash} (hrun : s.run = .next) (hgen : s.gen = scan :: gen)
    (hexif : scan.exif = some g) :
    Counting args.progressThreshold scans { s with
      gen := gen
      entries := s.entries ++ [⟨g, scan.path⟩]
      hashes := s.hashes.insert g
      run := if (s.hashes.insert g).length % args.progressThreshold = 0
        then .publishLock else .next } := by
  have htally : tally args.progressThreshold
      ((s.entries ++ [(⟨g, scan.path⟩ : Entry)]).map Entry.hash) =
      (tally args.progressThreshold (s.entries.map Entry.hash)).add args.progressThreshold g := by
    rw [List.map_append, List.map_singleton, tally_append_singleton]
  have hdone : ¬ s.done = true := fun hd => by simp [h.done.mp hd] at hrun
  obtain ⟨k, hk, hdrop, hentries⟩ := h.read_cons hgen
  refine ⟨⟨k, hk, hdrop, by simp [hentries, hexif]⟩, ?_, ?_, ?_, ?_⟩
  · rw [htally, seen_add, ← h.hashes]
  · dsimp only
    split <;> simp
  · dsimp only
    split <;> simp [hdone]
  · have hcounts := h.counts
    have htotal := @total_add args.progressThreshold
      (tally args.progressThreshold (s.entries.map Entry.hash)) g
    rw [seen_add, ← h.hashes] at htotal
    simp only [AnnouncedAll, hrun, announced] at hcounts
    by_cases hfull : (s.hashes.insert g).length % args.progressThreshold = 0
    · simp only [AnnouncedAll, announced, htally, htotal, if_pos hfull, hcounts]
    · simp only [AnnouncedAll, announced, htally, htotal, if_neg hfull, hcounts, Nat.add_zero]

theorem runStep (hu : args.unique = false) (h : Counting args.progressThreshold scans s)
    (hst : s.runStep args = some t) : Counting args.progressThreshold scans t := by
  have hcounts := h.counts
  cases runMove_of_step hst with
  | ended hrun hgen ht =>
      subst ht
      refine { h with ended := fun _ => hgen, done := by simp [h.done, hrun], counts := ?_ }
      simpa [AnnouncedAll, hrun, announced] using hcounts
  | failed scan gen hrun hgen hexif ht =>
      subst ht
      obtain ⟨k, hk, hdrop, hentries⟩ := h.read_cons hgen
      refine { h with
        read := ⟨k, hk, hdrop, by simp [hentries, hexif]⟩
        ended := by simp [hrun] }
  | duplicate scan gen g hrun hgen hexif hunique hmem ht =>
      rw [hu] at hunique
      cases hunique
  | append scan gen g hrun hgen hexif hnew ht =>
      subst ht
      exact h.append hrun hgen hexif
  | publishLock hrun hfree ht =>
      subst ht
      refine { h with ended := by simp, done := by simp [h.done, hrun], counts := ?_ }
      simpa [AnnouncedAll, hrun, announced] using hcounts
  | publish hrun ht =>
      subst ht
      refine { h with ended := by simp, done := by simp [h.done, hrun], counts := ?_ }
      simp only [AnnouncedAll, hrun, announced] at hcounts
      simp only [AnnouncedAll, announced, inWalk_notifyGet]
      omega
  | finishLock hrun hfree ht =>
      subst ht
      refine { h with ended := fun _ => h.ended (Or.inl hrun), done := by simp [h.done, hrun],
                      counts := ?_ }
      simpa [AnnouncedAll, hrun, announced] using hcounts
  | finish hrun ht =>
      subst ht
      refine { h with ended := fun _ => h.ended (Or.inr (Or.inl hrun)), done := by simp,
                      counts := ?_ }
      simp only [AnnouncedAll, hrun, announced] at hcounts
      simp only [AnnouncedAll, announced, inWalk_notifyGet]
      omega

/-- Nothing `Run` has done changes, and no entry is announced. -/
theorem keep (h : Counting threshold scans s) (hgen : t.gen = s.gen)
    (hentries : t.entries = s.entries)
    (hhashes : t.hashes = s.hashes) (hrun : t.run = s.run) (hdone : t.done = s.done)
    (hannounced : t.announced = s.announced) : Counting threshold scans t := by
  refine ⟨?_, ?_, ?_, ?_, ?_⟩
  · rw [hgen, hentries]
    exact h.read
  · rw [hhashes, hentries]
    exact h.hashes
  · rw [hgen, hrun]
    exact h.ended
  · rw [hdone, hrun]
    exact h.done
  · unfold AnnouncedAll
    rw [hrun, hentries, hhashes, hannounced]
    exact h.counts

/-- In an even run no more is announced than is there, and in the end all. -/
theorem announced_le (h : Counting threshold scans s) (hpos : 0 < threshold)
    (heven : Even threshold scans) :
    s.announced ≤ s.entries.length ∧ (s.done = true → s.announced = s.entries.length) := by
  obtain ⟨k, hk, hgen, hentries⟩ := h.read
  have htotal : (tally threshold (s.entries.map Entry.hash)).total threshold ≤
      s.entries.length := by
    have hfront := (total_le_iff hpos).mpr (heven.1 k hk)
    rwa [← hentries, List.length_map] at hfront
  have hcounts := h.counts
  have hexited : s.run = .exited → s.announced = s.entries.length := by
    intro hrun
    have hnil := h.ended (Or.inr (Or.inr hrun))
    rw [hgen, List.drop_eq_nil_iff] at hnil
    have hend := (total_eq_iff hpos).mpr heven.2
    rw [← List.take_of_length_le hnil, ← hentries, List.length_map] at hend
    simp only [AnnouncedAll, hrun, h.hashes] at hcounts
    exact hcounts.trans hend
  refine ⟨?_, fun hdone => hexited (h.done.mp hdone)⟩
  cases hrun : s.run with
  | exited => exact Nat.le_of_eq (hexited hrun)
  | next | finishLock | finish | publishLock | publish =>
      simp only [AnnouncedAll, hrun] at hcounts
      omega

end Counting

/-! ## What `Get` hands out -/

/-- **What `Get` keeps** as long as it is told of no more than there is. -/
structure Handing (s : ExifHasher) : Prop where
  handed : s.segments.flatten = s.entries.take s.newEntry
  walks : s.get ≠ .nullNext
  awake : s.done = true → ∀ count, s.get ≠ .asleep count

theorem handing_start (scans : List Scan) : Handing (start scans) where
  handed := rfl
  walks := by simp [start]
  awake := by simp [start]

section

variable {args : RunArgs} {s t : ExifHasher}

/-- A notification leaves a caller where it is, or wakes it. -/
theorem notifyGet_ne {pc : GetPc} :
    (pc ≠ .nullNext → notifyGet pc ≠ .nullNext) ∧ ∀ count, notifyGet pc ≠ .asleep count := by
  cases pc <;> simp [notifyGet]

theorem Handing.runStep (h : Handing s) (hle : s.announced ≤ s.entries.length)
    (hst : s.runStep args = some t) : Handing t := by
  obtain ⟨⟨rest, hentries⟩, hnew, hsegments, hget⟩ := runStep_frame hst
  have hnewEntry : s.newEntry ≤ s.entries.length := by
    simp only [announced] at hle
    omega
  refine ⟨?_, ?_, ?_⟩
  · rw [hsegments, hnew, ← hentries, List.take_append_of_le_length hnewEntry, h.handed]
  · rcases hget with hget | hget <;> rw [hget]
    · exact h.walks
    · exact notifyGet_ne.1 h.walks
  -- `done_` is only set in the step that notifies
  · intro hdone
    cases runMove_of_step hst with
    | ended _ _ ht | failed _ _ _ _ _ ht | duplicate _ _ _ _ _ _ _ _ ht | append _ _ _ _ _ _ _ ht
    | publishLock _ _ ht | finishLock _ _ ht =>
        subst ht
        exact h.awake hdone
    | publish _ ht | finish _ ht =>
        subst ht
        exact notifyGet_ne.2

/-- **A step of `Get`** takes what it is told of, and returns it. -/
theorem Handing.getStep (h : Handing s) (hle : s.announced ≤ s.entries.length)
    (hst : s.getStep = some t) : Handing t ∧ t.announced = s.announced := by
  have hwalk : ∀ count, s.get = .walk count → Handing t ∧ t.announced = s.announced := by
    intro count hget
    rw [(getMove_of_step hst).walked hget (inside_of_walk hle hget)]
    refine ⟨⟨?_, by simp, by simp⟩, by simp [announced, hget, inWalk]⟩
    rw [List.flatten_append, h.handed, List.flatten_singleton, List.take_add]
  cases getMove_of_step hst with
  | lock count hget _ ht =>
      subst ht
      exact ⟨⟨h.handed, by simp, by simp⟩, by simp [announced, hget, inWalk]⟩
  | take count hget _ ht =>
      subst ht
      refine ⟨⟨h.handed, by simp, by simp⟩, ?_⟩
      simp only [announced, hget, inWalk]
      omega
  | wait count hget hpred ht =>
      subst ht
      exact ⟨⟨h.handed, by simp, fun hdone => absurd (Or.inr hdone) hpred⟩,
        by simp [announced, hget, inWalk]⟩
  | walk count _ _ hget => exact hwalk count hget
  | pastEnd count hget => exact hwalk count hget

end

/-- What holds in every state of an even run. -/
structure Accounted (threshold : Nat) (scans : List Scan) (s : ExifHasher) : Prop where
  counting : Counting threshold scans s
  handing : Handing s

/-- **Every step of an even run keeps it**, whatever is asked for. -/
theorem Accounted.step {args : RunArgs} {scans : List Scan} {s t : ExifHasher} {a : Act}
    (hu : args.unique = false) (hpos : 0 < args.progressThreshold)
    (heven : Even args.progressThreshold scans) (h : Accounted args.progressThreshold scans s)
    (hst : s.step args a = some t) : Accounted args.progressThreshold scans t := by
  have hle := (h.counting.announced_le hpos heven).1
  cases a with
  | run => exact ⟨h.counting.runStep hu hst, h.handing.runStep hle hst⟩
  | get =>
      obtain ⟨hhanding, hannounced⟩ := h.handing.getStep hle hst
      obtain ⟨hentries, hhashes, hgen, hrun, hdone, -⟩ := getStep_frame hst
      exact ⟨h.counting.keep hgen hentries hhashes hrun hdone hannounced, hhanding⟩
  | call count =>
      simp only [ExifHasher.step] at hst
      split at hst
      · rename_i hget
        cases hst
        exact ⟨h.counting.keep rfl rfl rfl rfl rfl (by simp [announced, hget, inWalk]),
          ⟨h.handing.handed, by simp, by simp⟩⟩
      · cases hst
  | getWakes =>
      simp only [ExifHasher.step] at hst
      split at hst
      · rename_i count hget
        cases hst
        exact ⟨h.counting.keep rfl rfl rfl rfl rfl (by simp [announced, hget, inWalk]),
          ⟨h.handing.handed, by simp, by simp⟩⟩
      · cases hst
  | take =>
      simp only [ExifHasher.step] at hst
      split at hst
      · rename_i segment hget
        cases hst
        exact ⟨h.counting.keep rfl rfl rfl rfl rfl (by simp [announced, hget, inWalk]),
          ⟨h.handing.handed, by simp, by simp⟩⟩
      · cases hst

/-! ## The hashing thread by itself -/

/-- Between two paths, with nobody in `Get`. -/
structure Alone (gen : List Scan) (s : ExifHasher) : Prop where
  run : s.run = .next
  gen_eq : s.gen = gen
  mutex : s.mutex = none
  get : s.get = .idle

section

variable {args : RunArgs} {scans gen gen' : List Scan} {s t : ExifHasher}

/-- Only the hashing thread moves. -/
def RunsTo (args : RunArgs) (s t : ExifHasher) : Prop :=
  (system args).Reaches (fun _ a => a = .run) s t

theorem RunsTo.step {u : ExifHasher} (h : RunsTo args s t) (hst : t.runStep args = some u) :
    RunsTo args s u :=
  h.tail rfl hst

theorem RunsTo.counting (hu : args.unique = false) (h : RunsTo args s t)
    (hs : Counting args.progressThreshold scans s) : Counting args.progressThreshold scans t := by
  refine h.invariant ?_ hs
  rintro s a t hs rfl hst
  exact hs.runStep hu hst

/-- It reads a path, and announces it where that is due, -/
theorem Alone.read (hu : args.unique = false) {scan : Scan} (h : Alone (scan :: gen) s) :
    ∃ t, RunsTo args s t ∧ Alone gen t := by
  cases hexif : scan.exif with
  | none =>
      refine ⟨{ s with gen := gen }, (StepSystem.Reaches.refl s).tail rfl ?_,
        ⟨h.run, rfl, h.mutex, h.get⟩⟩
      simp [system, ExifHasher.step, runStep, h.run, h.gen_eq, hexif]
  | some g =>
      have happend : s.runStep args = some { s with
          gen := gen
          entries := s.entries ++ [⟨g, scan.path⟩]
          hashes := s.hashes.insert g
          run := if (s.hashes.insert g).length % args.progressThreshold = 0
            then .publishLock else .next } := by
        simp [runStep, h.run, h.gen_eq, hexif, hu]
      have hfirst := RunsTo.step (StepSystem.Reaches.refl s) happend
      by_cases hfull : (s.hashes.insert g).length % args.progressThreshold = 0
      · simp only [hfull, if_true] at hfirst
        obtain ⟨u, hsu, hrun, hgen, hmutex, hget⟩ : ∃ u, RunsTo args s u ∧
            u.run = .publishLock ∧ u.gen = gen ∧ u.mutex = none ∧ u.get = .idle :=
          ⟨_, hfirst, rfl, rfl, h.mutex, h.get⟩
        have hlock : u.runStep args = some { u with mutex := some .run, run := .publish } := by
          simp [runStep, hrun, hmutex]
        exact ⟨_, (hsu.step hlock).step rfl, ⟨rfl, hgen, rfl, by simp [hget, notifyGet]⟩⟩
      · simp only [hfull, if_false] at hfirst
        exact ⟨_, hfirst, ⟨rfl, rfl, h.mutex, h.get⟩⟩

/-- then the next ones, -/
theorem Alone.read_append (hu : args.unique = false) (h : Alone (gen ++ gen') s) :
    ∃ t, RunsTo args s t ∧ Alone gen' t := by
  induction gen generalizing s with
  | nil => exact ⟨s, StepSystem.Reaches.refl s, h⟩
  | cons scan gen ih =>
      obtain ⟨u, hsu, hu'⟩ := h.read hu
      obtain ⟨t, hut, ht⟩ := ih hu'
      exact ⟨t, hsu.trans hut, ht⟩

/-- and is done behind the last. -/
theorem Alone.finish (args : RunArgs) (h : Alone [] s) :
    ∃ t, RunsTo args s t ∧ t.done = true := by
  have hend : s.runStep args = some { s with run := .finishLock } := by
    simp [runStep, h.run, h.gen_eq]
  have hlock : runStep args { s with run := .finishLock } =
      some { s with mutex := some .run, run := .finish } := by
    simp [runStep, h.mutex]
  exact ⟨_, ((RunsTo.step (StepSystem.Reaches.refl s) hend).step hlock).step rfl, rfl⟩

end

/-! ## The property itself -/

/-- **No entry is announced that is not there, and all are in the end**, so
`Get` hands out every hashed path once, in order, and stays in the list. -/
structure CountsAll (scans : List Scan) (s : ExifHasher) : Prop where
  appended : s.entries <+: eachHashed scans
  announced_le : s.announced ≤ s.entries.length
  announced_eq : s.done = true → s.announced = s.entries.length ∧ s.entries = eachHashed scans
  inside : s.get ≠ .nullNext
  awake : s.done = true → ∀ count, s.get ≠ .asleep count
  handed : s.segments.flatten <+: eachHashed scans
  all : s.done = true → s.newEntryCount = 0 → inWalk s.get = 0 →
    s.segments.flatten = eachHashed scans

theorem Accounted.countsAll {threshold : Nat} {scans : List Scan} {s : ExifHasher}
    (hpos : 0 < threshold) (heven : Even threshold scans) (h : Accounted threshold scans s) :
    CountsAll scans s := by
  obtain ⟨k, -, hgen, hentries⟩ := h.counting.read
  obtain ⟨hle, heq⟩ := h.counting.announced_le hpos heven
  have hfront : s.entries <+: eachHashed scans := by
    refine ⟨eachHashed (scans.drop k), ?_⟩
    rw [hentries, eachHashed, eachHashed, ← List.filterMap_append, List.take_append_drop]
    rfl
  have hwhole : s.done = true → s.entries = eachHashed scans := by
    intro hdone
    have hnil := h.counting.ended (Or.inr (Or.inr (h.counting.done.mp hdone)))
    rw [hgen, List.drop_eq_nil_iff] at hnil
    rw [hentries, List.take_of_length_le hnil]
  refine ⟨hfront, hle, fun hdone => ⟨heq hdone, hwhole hdone⟩, h.handing.walks,
    h.handing.awake, ?_, fun hdone hcount hwalk => ?_⟩
  · rw [h.handing.handed]
    exact (List.take_prefix _ _).trans hfront
  · have hall := heq hdone
    simp only [announced, hcount, hwalk] at hall
    rw [h.handing.handed, ← hwhole hdone]
    exact List.take_of_length_le (by omega)

/-- What an even run keeps is enough. -/
theorem countsAll_of_even {args : RunArgs} {scans : List Scan} {s : ExifHasher}
    (hu : args.unique = false) (hpos : 0 < args.progressThreshold)
    (heven : Even args.progressThreshold scans)
    (hs : (system args).Reachable (start scans) s) : CountsAll scans s := by
  have haccounted : Accounted args.progressThreshold scans s :=
    hs.invariant (fun _ _ _ h hst => h.step hu hpos heven hst)
      ⟨counting_start _ _, handing_start _⟩
  exact haccounted.countsAll hpos heven

/-- Without a repetition before the threshold there is nothing to make up
for: a threshold of one is always even. -/
theorem even_one (scans : List Scan) : Even 1 scans := by
  have hearly : ∀ hashes : List ExifHash, (tally 1 hashes).early = 0 := by
    intro hashes
    induction hashes using List.reverseRecOn with
    | nil => rfl
    | append_singleton hashes h ih =>
        rw [tally_append_singleton, Tally.add]
        split
        · rw [if_pos (Nat.mod_one _)]
          exact ih
        · exact ih
  exact ⟨fun k _ => by simp, by simp [tallyOf, hearly]⟩

/-- **`jpghash`** runs with a threshold of one, and prints every path. -/
theorem jpghash_counts {scans : List Scan} {s : ExifHasher}
    (hs : (system ⟨1, false⟩).Reachable (start scans) s) : CountsAll scans s :=
  countsAll_of_even rfl Nat.one_pos (even_one scans) hs

/-- **When counting with duplicates works**: in every run, with whatever
interleaving and for whatever counts, exactly when late repetitions never
get ahead of early ones and make up for them in the end. -/
theorem counts_all_iff {args : RunArgs} (hu : args.unique = false)
    (hpos : 0 < args.progressThreshold) (scans : List Scan) :
    (∀ s, (system args).Reachable (start scans) s → CountsAll scans s) ↔
      Even args.progressThreshold scans := by
  constructor
  -- the hashing thread by itself shows every point of the run
  · intro hall
    have hstart : Alone scans (start scans) := ⟨rfl, rfl, rfl, rfl⟩
    have hcounting := counting_start args.progressThreshold scans
    have hpoint : ∀ k ≤ scans.length, ∃ s, RunsTo args (start scans) s ∧
        Alone (scans.drop k) s ∧ s.entries = eachHashed (scans.take k) := by
      intro k hk
      rw [← List.take_append_drop k scans] at hstart
      obtain ⟨s, hs, halone⟩ := hstart.read_append hu
      rw [List.take_append_drop] at hs
      obtain ⟨k', hk', hgen, hentries⟩ := (hs.counting hu hcounting).read
      have hlen := congrArg List.length (halone.gen_eq.symm.trans hgen)
      rw [List.length_drop, List.length_drop] at hlen
      obtain rfl : k = k' := by omega
      exact ⟨s, hs, halone, hentries⟩
    refine ⟨fun k hk => ?_, ?_⟩
    · obtain ⟨s, hs, halone, hentries⟩ := hpoint k hk
      have hcounts := (hs.counting hu hcounting).counts
      simp only [AnnouncedAll, halone.run] at hcounts
      have hle := (hall s hs.reachable).announced_le
      rw [hcounts, ← List.length_map (f := Entry.hash), hentries] at hle
      exact (total_le_iff hpos).mp hle
    · obtain ⟨s, hs, halone, hentries⟩ := hpoint scans.length (Nat.le_refl _)
      rw [List.drop_length] at halone
      obtain ⟨t, ht, hdone⟩ := halone.finish args
      have hst := hs.trans ht
      have hcounting' := RunsTo.counting hu hst hcounting
      have hcounts := hcounting'.counts
      simp only [AnnouncedAll, hcounting'.done.mp hdone, hcounting'.hashes] at hcounts
      obtain ⟨heq, hwhole⟩ := (hall t hst.reachable).announced_eq hdone
      rw [hcounts, ← List.length_map (f := Entry.hash), hwhole] at heq
      exact (total_eq_iff hpos).mp heq
  · exact fun heven s hs => countsAll_of_even hu hpos heven hs

theorem pathsOf_path_ne : ([97] : Bytes) ≠ [] := List.cons_ne_nil _ _

/-- A path for each hash. -/
def pathsOf (hashes : List UInt32) : List Scan :=
  hashes.map fun w => ⟨[97], some ⟨w, 0, 0, 0, 0⟩, pathsOf_path_ne⟩

/-- An early repetition, then a late one. -/
theorem counts_all_iff_twoPairs :
    ∃ s, (system ⟨2, false⟩).exec (start (pathsOf [1, 1, 2, 2])) (List.replicate 11 .run) =
      some s ∧ s.done = true ∧ CountsAll (pathsOf [1, 1, 2, 2]) s :=
  have hrun : ∃ s, (system ⟨2, false⟩).exec (start (pathsOf [1, 1, 2, 2]))
      (List.replicate 11 .run) = some s ∧ s.done = true := ⟨_, rfl, rfl⟩
  hrun.elim fun s hs => ⟨s, hs.1, hs.2,
    (counts_all_iff (show RunArgs.unique ⟨2, false⟩ = false from rfl) (by decide) _).mpr
      (by decide) s ⟨_, hs.1⟩⟩

/-- A late repetition: four entries are announced where there are three, and
a call that asks for four walks past the tail. -/
theorem not_always_counts_all :
    ¬ ∀ (args : RunArgs) (scans : List Scan), args.unique = false → 1 ≤ args.progressThreshold →
      ∀ s, (system args).Reachable (start scans) s → CountsAll scans s := by
  intro h
  have hrun : ∃ s, (system ⟨2, false⟩).exec (start (pathsOf [1, 2, 2]))
      (List.replicate 7 .run ++ [.call 4, .get, .get, .get]) = some s ∧ s.get = .nullNext :=
    ⟨_, rfl, rfl⟩
  obtain ⟨s, hs, hnull⟩ := hrun
  exact (h ⟨2, false⟩ _ rfl (by decide) s ⟨_, hs⟩).inside hnull

end ExifHasher
end Jpgsync
