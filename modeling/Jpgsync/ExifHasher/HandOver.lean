import Jpgsync.ExifHasher
import Mathlib.Tactic.Common

/-!
# ExifHasher — HandOver

`Run` appends outside the lock and announces entries in multiples of the
threshold, the rest at the end; `Get` takes unrelated counts. The
invariant `HandOver` ties the four numbers together: what the caller's
cursor has passed, what a call in progress has taken, and what is still in
`new_entry_count_` add up to what was announced, which is a multiple of
the threshold until `Run` is done and everything afterwards.

Uniqueness of the hashes is what makes `hashes_.size()`, from which the
announcements are computed, the length of the list.
-/

namespace Jpgsync
namespace ExifHasher

/-- Entries a call of `Get` has taken off the counter and not yet walked. -/
def inWalk : GetPc → Nat
  | .walk count => count
  | _ => 0

/-- All entries announced so far. -/
def announced (s : ExifHasher) : Nat := s.newEntry + inWalk s.get + s.newEntryCount

/-- How many entries have been announced, by where `Run` is. -/
def Announced (threshold : Nat) (s : ExifHasher) : Prop :=
  match s.run with
  | .next | .finishLock | .finish =>
      s.announced = threshold * (s.entries.length / threshold)
  | .publishLock | .publish =>
      s.announced + threshold = threshold * (s.entries.length / threshold)
  | .exited => s.announced = s.entries.length

/-- What a call of `Get` knows at each point. -/
def GetFacts (s : ExifHasher) : Prop :=
  match s.get with
  | .lock count | .test count => 0 < count
  | .asleep count => 0 < count ∧ s.done = false
  | .walk count => count = 0 → s.done = true ∧ s.newEntryCount = 0
  | .returned segment => segment ∈ s.segments
  | .nullNext => False
  | .idle => True

/-- **The hand-over invariant** of `Run` with `unique` set. -/
structure HandOver (threshold : Nat) (scans : List Scan) (s : ExifHasher) : Prop where
  rest : s.entries ++ firstOfEach s.hashes s.gen = firstOfEach [] scans
  size : s.hashes.length = s.entries.length
  mem : ∀ h, h ∈ s.hashes ↔ h ∈ s.entries.map Entry.hash
  ended : s.run = .finishLock ∨ s.run = .finish ∨ s.run = .exited → s.gen = []
  done : s.done = true ↔ s.run = .exited
  counts : Announced threshold s
  facts : GetFacts s
  handed : s.segments.flatten = s.entries.take s.newEntry
  zero : [] ∈ s.segments → s.done = true ∧ s.newEntry = s.entries.length

theorem handOver_start (threshold : Nat) (scans : List Scan) :
    HandOver threshold scans (start scans) where
  rest := rfl
  size := rfl
  mem := by simp [start]
  ended := by simp [start]
  done := by simp [start]
  counts := by simp [Announced, announced, start, inWalk]
  facts := by simp [GetFacts, start]
  handed := rfl
  zero := by simp [start]

/-! ## What the invariant says about the counters -/

/-- Notifying the caller of `Get` moves no entry. -/
@[simp] theorem inWalk_notifyGet (pc : GetPc) : inWalk (notifyGet pc) = inWalk pc := by
  cases pc <;> rfl

/-- A walk stays inside the list where no more is announced than there is. -/
theorem inside_of_walk {s : ExifHasher} {count : Nat} (h : s.announced ≤ s.entries.length)
    (hget : s.get = .walk count) : s.newEntry + count ≤ s.entries.length := by
  simp only [announced, hget, inWalk] at h
  omega

theorem announced_le {threshold : Nat} {s : ExifHasher} (h : Announced threshold s) :
    s.announced ≤ s.entries.length := by
  have hmul : threshold * (s.entries.length / threshold) ≤ s.entries.length :=
    Nat.mul_div_le _ _
  unfold Announced at h
  split at h <;> omega

namespace HandOver

variable {args : RunArgs} {scans : List Scan} {s t : ExifHasher}

/-- The cursor and a call's entries stay inside the list. -/
theorem walk_le (h : HandOver args.progressThreshold scans s) {count : Nat}
    (hget : s.get = .walk count) : s.newEntry + count ≤ s.entries.length :=
  inside_of_walk (announced_le h.counts) hget

theorem newEntry_le (h : HandOver args.progressThreshold scans s) :
    s.newEntry ≤ s.entries.length := by
  have := announced_le h.counts
  simp only [announced] at this
  omega

/-- A call that takes nothing finds the whole list handed out. -/
theorem walk_zero (h : HandOver args.progressThreshold scans s) (hget : s.get = .walk 0) :
    s.done = true ∧ s.newEntry = s.entries.length := by
  have hfacts := h.facts
  simp only [GetFacts, hget] at hfacts
  obtain ⟨hdone, hcount⟩ := hfacts trivial
  have hcounts := h.counts
  simp only [Announced, h.done.mp hdone, announced, hget, inWalk, hcount] at hcounts
  exact ⟨hdone, by omega⟩

/-! ## Every step keeps the invariant -/

/-- A new hash: the list and the set grow together, and the announced
multiple moves on exactly when the size reaches one. -/
theorem append (h : HandOver args.progressThreshold scans s)
    {scan : Scan} {gen : List Scan} {g : ExifHash} (hrun : s.run = .next)
    (hgen : s.gen = scan :: gen) (hexif : scan.exif = some g) (hmem : g ∉ s.hashes) :
    HandOver args.progressThreshold scans { s with
      gen := gen
      entries := s.entries ++ [⟨g, scan.path⟩]
      hashes := s.hashes.insert g
      run := if (s.hashes.insert g).length % args.progressThreshold = 0
        then .publishLock else .next } := by
  have hins : s.hashes.insert g = g :: s.hashes := List.insert_of_not_mem hmem
  have hlen : (s.hashes.insert g).length = s.entries.length + 1 := by
    rw [hins, List.length_cons, h.size]
  have hnext := h.newEntry_le
  have hdone : ¬ s.done = true := fun hd => by simp [h.done.mp hd] at hrun
  refine {
    rest := ?_
    size := by simp [hlen]
    mem := ?_
    ended := ?_
    done := ?_
    counts := ?_
    facts := h.facts
    handed := ?_
    zero := ?_ }
  · have hrest := h.rest
    rw [hgen, firstOfEach, hexif] at hrest
    simp only [if_neg hmem] at hrest
    rw [hins, List.append_assoc]
    exact hrest
  · intro g'
    rw [hins]
    simp [h.mem, or_comm]
  · dsimp only
    split <;> simp
  · dsimp only
    split <;> simp [hdone]
  · have hcounts := h.counts
    simp only [Announced, hrun, announced] at hcounts
    -- the quotient by the threshold grows exactly when the new size is a multiple of it
    have hdiv := Nat.succ_div (a := s.entries.length) (b := args.progressThreshold)
    simp only [Nat.dvd_iff_mod_eq_zero] at hdiv
    rw [hlen]
    simp only [Announced, announced, List.length_append, List.length_singleton]
    split at hdiv
    · rename_i hmod
      simp only [if_pos hmod]
      rw [hdiv, Nat.mul_add, Nat.mul_one, hcounts]
    · rename_i hmod
      simp only [if_neg hmod]
      rw [hdiv, Nat.add_zero, hcounts]
  · rw [h.handed, List.take_append_of_le_length hnext]
  · exact fun hz => absurd (h.zero hz).1 hdone

/-- A full threshold is announced. -/
theorem publish (h : HandOver args.progressThreshold scans s) (hrun : s.run = .publish) :
    HandOver args.progressThreshold scans { s with
      newEntryCount := s.newEntryCount + args.progressThreshold
      get := notifyGet s.get
      mutex := none
      run := .next } := by
  have hdone : ¬ s.done = true := fun hd => by simp [h.done.mp hd] at hrun
  refine { h with ended := ?_, done := ?_, counts := ?_, facts := ?_ }
  · simp
  · simpa using hdone
  · have hcounts := h.counts
    simp only [Announced, hrun, announced] at hcounts
    simp only [Announced, announced, inWalk_notifyGet]
    omega
  · have hfacts := h.facts
    cases hget : s.get with
    -- a call that took nothing saw `done_`, which is not set yet
    | walk count =>
        simp only [GetFacts, hget, notifyGet] at hfacts ⊢
        intro hc
        exact absurd (hfacts hc).1 hdone
    | _ => simp_all [GetFacts, notifyGet]

/-- The rest is announced and `done_` is set. -/
theorem finish (h : HandOver args.progressThreshold scans s) (hrun : s.run = .finish) :
    HandOver args.progressThreshold scans { s with
      newEntryCount := s.newEntryCount + s.hashes.length % args.progressThreshold
      done := true
      get := notifyGet s.get
      mutex := none
      run := .exited } := by
  have hdone : ¬ s.done = true := fun hd => by simp [h.done.mp hd] at hrun
  have hgen : s.gen = [] := h.ended (Or.inr (Or.inl hrun))
  refine { h with ended := ?_, done := ?_, counts := ?_, facts := ?_, zero := ?_ }
  · exact fun _ => hgen
  · simp
  · have hcounts := h.counts
    have hdiv := Nat.div_add_mod s.entries.length args.progressThreshold
    simp only [Announced, hrun, announced] at hcounts
    simp only [Announced, announced, inWalk_notifyGet, h.size]
    omega
  · have hfacts := h.facts
    cases hget : s.get with
    | walk count =>
        simp only [GetFacts, hget, notifyGet] at hfacts ⊢
        intro hc
        exact absurd (hfacts hc).1 hdone
    | _ => simp_all [GetFacts, notifyGet]
  · exact fun hz => absurd (h.zero hz).1 hdone

theorem runStep (hu : args.unique = true) (h : HandOver args.progressThreshold scans s)
    (hst : s.runStep args = some t) : HandOver args.progressThreshold scans t := by
  have hrest := h.rest
  cases runMove_of_step hst with
  | ended hrun hgen ht =>
      subst ht
      refine { h with ended := fun _ => hgen, done := ?_, counts := ?_ }
      · simp [h.done, hrun]
      · simpa [Announced, hrun, announced] using h.counts
  | failed scan gen hrun hgen hexif ht =>
      rw [hgen, firstOfEach] at hrest
      simp only [hexif] at hrest
      subst ht
      exact { h with rest := hrest, ended := by simp [hrun] }
  | duplicate scan gen g hrun hgen hexif _ hmem ht =>
      rw [hgen, firstOfEach] at hrest
      simp only [hexif, if_pos hmem] at hrest
      subst ht
      exact { h with rest := hrest, ended := by simp [hrun] }
  | append scan gen g hrun hgen hexif hnew ht =>
      subst ht
      exact h.append hrun hgen hexif (hnew hu)
  | publishLock hrun hfree ht =>
      subst ht
      refine { h with ended := by simp, done := by simp [h.done, hrun], counts := ?_ }
      simpa [Announced, hrun, announced] using h.counts
  | publish hrun ht =>
      subst ht
      exact h.publish hrun
  | finishLock hrun hfree ht =>
      subst ht
      refine { h with ended := ?_, done := by simp [h.done, hrun], counts := ?_ }
      · exact fun _ => h.ended (Or.inl hrun)
      · simpa [Announced, hrun, announced] using h.counts
  | finish hrun ht =>
      subst ht
      exact h.finish hrun

/-- Only the caller's control point changes, and no entry is taken or
given back. -/
theorem setGet (h : HandOver args.progressThreshold scans s) {pc : GetPc}
    {mutex : Option HasherThread} (hin : inWalk pc = inWalk s.get)
    (hfacts : GetFacts { s with mutex := mutex, get := pc }) :
    HandOver args.progressThreshold scans { s with mutex := mutex, get := pc } := by
  refine { h with counts := ?_, facts := hfacts }
  have hcounts := h.counts
  simp only [Announced, announced] at hcounts ⊢
  rw [hin]
  exact hcounts

/-- The predicate holds: the call takes what it may. -/
theorem takeCount (h : HandOver args.progressThreshold scans s) {count : Nat}
    (hget : s.get = .test count) (hpred : s.newEntryCount ≥ count ∨ s.done = true) :
    HandOver args.progressThreshold scans { s with
      newEntryCount := s.newEntryCount - min count s.newEntryCount
      mutex := none
      get := .walk (min count s.newEntryCount) } := by
  have hpos : 0 < count := by simpa [GetFacts, hget] using h.facts
  refine { h with counts := ?_, facts := ?_ }
  · have hcounts := h.counts
    have hsplit : min count s.newEntryCount +
        (s.newEntryCount - min count s.newEntryCount) = s.newEntryCount := by omega
    simp only [Announced, announced, hget, inWalk, Nat.add_zero] at hcounts ⊢
    rw [Nat.add_assoc, hsplit]
    exact hcounts
  · intro hz
    dsimp only
    rcases hpred with hge | hdone
    · omega
    · exact ⟨hdone, by omega⟩

/-- The walk returns the next entries of the list. -/
theorem walked (h : HandOver args.progressThreshold scans s) {count : Nat}
    (hget : s.get = .walk count) :
    HandOver args.progressThreshold scans { s with
      newEntry := s.newEntry + count
      segments := s.segments ++ [(s.entries.drop s.newEntry).take count]
      get := .returned ((s.entries.drop s.newEntry).take count) } := by
  have hle := h.walk_le hget
  refine { h with counts := ?_, facts := ?_, handed := ?_, zero := ?_ }
  · have hcounts := h.counts
    simp only [Announced, announced, hget, inWalk] at hcounts ⊢
    exact hcounts
  · simp [GetFacts]
  · rw [List.flatten_append, h.handed, List.flatten_singleton, List.take_add]
  -- an empty segment is an old one or the one just returned
  · intro hz
    rcases List.mem_append.mp hz with hz | hz
    · obtain ⟨hdone, heq⟩ := h.zero hz
      exact ⟨hdone, by dsimp only; omega⟩
    · have hempty : (s.entries.drop s.newEntry).take count = [] :=
        (List.mem_singleton.mp hz).symm
      have hcount : count = 0 := by
        have hlen := congrArg List.length hempty
        simp only [List.length_take, List.length_drop, List.length_nil] at hlen
        omega
      subst hcount
      exact h.walk_zero hget

theorem getStep (h : HandOver args.progressThreshold scans s) (hst : s.getStep = some t) :
    HandOver args.progressThreshold scans t := by
  cases getMove_of_step hst with
  | lock count hget hfree ht =>
      subst ht
      have hfacts := h.facts
      exact h.setGet (by simp [hget, inWalk]) (by simpa [GetFacts, hget] using hfacts)
  | take count hget hpred ht =>
      subst ht
      exact h.takeCount hget hpred
  | wait count hget hpred ht =>
      subst ht
      have hpos : 0 < count := by simpa [GetFacts, hget] using h.facts
      exact h.setGet (by simp [hget, inWalk]) ⟨hpos, by simpa using fun hd => hpred (Or.inr hd)⟩
  | walk count segment node hget =>
      rw [(getMove_of_step hst).walked hget (h.walk_le hget)]
      exact h.walked hget
  | pastEnd count hget =>
      rw [(getMove_of_step hst).walked hget (h.walk_le hget)]
      exact h.walked hget

/-- **Every step keeps the invariant.** -/
theorem step (hu : args.unique = true) (h : HandOver args.progressThreshold scans s) {a : Act}
    (ha : Asks a) (hst : s.step args a = some t) : HandOver args.progressThreshold scans t := by
  cases a with
  | run => exact h.runStep hu hst
  | call count =>
      simp only [ExifHasher.step] at hst
      split at hst
      · rename_i hget
        cases hst
        exact h.setGet (by simp [hget, inWalk]) ha
      · cases hst
  | get => exact h.getStep hst
  | getWakes =>
      simp only [ExifHasher.step] at hst
      split at hst
      · rename_i count hget
        cases hst
        have hfacts := h.facts
        simp only [GetFacts, hget] at hfacts
        exact h.setGet (by simp [hget, inWalk]) hfacts.1
      · cases hst
  | take =>
      simp only [ExifHasher.step] at hst
      split at hst
      · rename_i segment hget
        cases hst
        exact h.setGet (by simp [hget, inWalk]) trivial
      · cases hst

end HandOver

/-! ## What a step leaves alone -/

/-- Entries of a call of `Get` that returned and whose result is not taken
yet. -/
def returnedCount : GetPc → Nat
  | .returned segment => segment.length
  | _ => 0

@[simp] theorem returnedCount_notifyGet (pc : GetPc) :
    returnedCount (notifyGet pc) = returnedCount pc := by
  cases pc <;> rfl

/-- The hashing thread only appends, and touches a call of `Get` only by
waking it. -/
theorem runStep_frame {args : RunArgs} {s t : ExifHasher} (h : s.runStep args = some t) :
    s.entries <+: t.entries ∧ t.newEntry = s.newEntry ∧ t.segments = s.segments ∧
      (t.get = s.get ∨ t.get = notifyGet s.get) := by
  cases runMove_of_step h with
  | ended _ _ ht | failed _ _ _ _ _ ht | duplicate _ _ _ _ _ _ _ _ ht | append _ _ _ _ _ _ _ ht
  | publishLock _ _ ht | publish _ ht | finishLock _ _ ht | finish _ ht =>
      subst ht
      simp

/-- A step inside `Get` touches neither the list nor the hashing thread. -/
theorem getStep_frame {s t : ExifHasher} (h : s.getStep = some t) :
    t.entries = s.entries ∧ t.hashes = s.hashes ∧ t.gen = s.gen ∧ t.run = s.run ∧
      t.done = s.done ∧ s.segments <+: t.segments := by
  cases getMove_of_step h with
  | lock _ _ _ ht | take _ _ _ ht | wait _ _ _ ht | walk _ _ _ _ _ _ ht | pastEnd _ _ _ ht =>
      subst ht
      simp

/-- The cursor moves by exactly what `Get` returns. -/
theorem HandOver.getStep_count {threshold : Nat} {scans : List Scan} {s t : ExifHasher}
    (h : HandOver threshold scans s) (hst : s.getStep = some t) :
    returnedCount s.get = 0 ∧ s.get ≠ .idle ∧
      t.newEntry = s.newEntry + returnedCount t.get := by
  have hwalk : ∀ count, s.get = .walk count → returnedCount s.get = 0 ∧ s.get ≠ .idle ∧
      t.newEntry = s.newEntry + returnedCount t.get := by
    intro count hget
    have hle := inside_of_walk (announced_le h.counts) hget
    rw [(getMove_of_step hst).walked hget hle]
    refine ⟨by simp [hget, returnedCount], by simp [hget], ?_⟩
    simp only [returnedCount, List.length_take, List.length_drop]
    omega
  cases getMove_of_step hst with
  | lock count hget _ ht | take count hget _ ht | wait count hget _ ht =>
      subst ht
      simp [hget, returnedCount]
  | walk count _ _ hget => exact hwalk count hget
  | pastEnd count hget => exact hwalk count hget

/-- The invariant holds in every state a run of the hasher reaches. -/
theorem handOver_of_reaches {args : RunArgs} (hu : args.unique = true) {scans : List Scan}
    {s : ExifHasher} (hs : (system args).Reaches (fun _ a => Asks a) (start scans) s) :
    HandOver args.progressThreshold scans s :=
  hs.invariant (fun _ _ _ h ha hst => h.step hu ha hst) (handOver_start _ _)

/-! ## The property itself -/

/-- **Exactly once, in order.** Whatever the threshold, the paths and the
interleaving of `Run` with calls of `Get` for any counts: no `NULL` next
pointer is followed; the segments handed out so far, one after the other,
are the first entries of the list of first paths of each distinct hash; a
call whose count is settled returns exactly that many entries from where
the previous call ended; and once a call has returned nothing, `done_` is
set and the segments are the whole list. -/
theorem get_exactly_once_in_order {args : RunArgs} (hu : args.unique = true)
    {scans : List Scan} {s : ExifHasher}
    (hs : (system args).Reaches (fun _ a => Asks a) (start scans) s) :
    s.get ≠ .nullNext ∧
      s.segments.flatten <+: firstOfEach [] scans ∧
      (∀ count, s.get = .walk count → ∃ t segment,
        s.step args .get = some t ∧ t.get = .returned segment ∧
          t.segments = s.segments ++ [segment] ∧ segment.length = count ∧
          segment = ((firstOfEach [] scans).drop s.segments.flatten.length).take count) ∧
      ([] ∈ s.segments → s.done = true ∧ s.segments.flatten = firstOfEach [] scans) := by
  have h := handOver_of_reaches hu hs
  have hpre : s.entries <+: firstOfEach [] scans := h.rest ▸ List.prefix_append _ _
  refine ⟨?_, ?_, ?_, ?_⟩
  · intro hnull
    simpa [GetFacts, hnull] using h.facts
  · rw [h.handed]
    exact (List.take_prefix _ _).trans hpre
  · intro count hget
    have hle := h.walk_le hget
    let segment := (s.entries.drop s.newEntry).take count
    refine ⟨{ s with
      newEntry := s.newEntry + count
      segments := s.segments ++ [segment]
      get := .returned segment }, segment, ?_, rfl, rfl, ?_, ?_⟩
    · simp only [step, getStep, hget, readFrom_eq_some hle, advance_eq_some hle, segment]
    · simp only [segment, List.length_take, List.length_drop]
      omega
    · simp only [segment]
      rw [h.handed, List.length_take, Nat.min_eq_left h.newEntry_le, ← h.rest,
        List.drop_append_of_le_length h.newEntry_le, List.take_append_of_le_length]
      rw [List.length_drop]
      omega
  · intro hz
    obtain ⟨hdone, heq⟩ := h.zero hz
    have hgen : s.gen = [] := h.ended (Or.inr (Or.inr (h.done.mp hdone)))
    refine ⟨hdone, ?_⟩
    rw [h.handed, heq, List.take_length]
    simpa [hgen, firstOfEach] using h.rest

/-- Two paths with one hash, a path without EXIF data and another hash. -/
def fourPaths : List Scan :=
  [⟨[97], some ⟨1, 0, 0, 0, 0⟩, List.cons_ne_nil _ _⟩,
    ⟨[98], some ⟨1, 0, 0, 0, 0⟩, List.cons_ne_nil _ _⟩,
    ⟨[99], none, List.cons_ne_nil _ _⟩,
    ⟨[100], some ⟨2, 0, 0, 0, 0⟩, List.cons_ne_nil _ _⟩]

/-- `Get` asks for three with a threshold of two: it sleeps through the
announcement of two and is woken by `done_`; the second call gets nothing. -/
def fourPathsSchedule : List Act :=
  [.call 3, .get, .get, .run, .run, .run, .run, .run, .run, .get, .get, .run, .run, .run,
    .get, .get, .get, .take, .call 1, .get, .get, .get]

theorem get_exactly_once_in_order_fourPaths :
    ∃ s, (system ⟨2, true⟩).exec (start fourPaths) fourPathsSchedule = some s ∧
      s.done = true ∧ s.segments.flatten = firstOfEach [] fourPaths :=
  have hrun : ∃ s, (system ⟨2, true⟩).exec (start fourPaths) fourPathsSchedule = some s ∧
      [] ∈ s.segments := ⟨_, rfl, by decide⟩
  hrun.elim fun s hs => ⟨s, hs.1,
    (get_exactly_once_in_order (show RunArgs.unique ⟨2, true⟩ = true from rfl)
      ⟨fourPathsSchedule, hs.1, by decide⟩).2.2.2 hs.2⟩

end ExifHasher
end Jpgsync
