import Jpgsync.Lib.StepSystem
import Jpgsync.ExifHash

/-!
# ExifHasher — the hashing thread and `Get`

The object of `exif_hasher.cpp` together with the two threads that use it:
the thread started by `Run`, and one caller of `Get` (a program never calls
`Get` from two threads). A step is one access to shared memory or one
operation on `mutex_` / `new_entries_`; the entry list is the linked list
behind `dummy_entry_`, whose node `i` is entry `i - 1` and whose node `0`
is the dummy, so a pointer is a number and `NULL` is `none`.

What `path_gen` will return and what `HashExif` will answer for it is the
list `gen`; an empty list stands for the empty path that ends `Run`.
-/

namespace Jpgsync

/-- One call of `path_gen` that returns a path, with what `HashExif` then
does: the digest, or failure. Only the end marker is empty. -/
structure Scan where
  path : Bytes
  exif : Option ExifHash
  path_ne : path ≠ []

/-- `ExifHasher::Entry` without its `next` pointer. -/
structure Entry where
  hash : ExifHash
  path : Bytes
deriving DecidableEq, Repr

/-- The arguments of `Run` besides the path generator. -/
structure RunArgs where
  progressThreshold : Nat
  unique : Bool

/-- The threads that lock `mutex_`. -/
inductive HasherThread where
  | run
  | get
deriving DecidableEq, Repr

/-- Control of the thread started by `Run`. -/
inductive RunPc where
  | next         -- about to call `path_gen`
  | publishLock  -- about to lock `mutex_` to announce a full threshold
  | publish      -- holds `mutex_`
  | finishLock   -- about to lock `mutex_` to announce the rest
  | finish       -- holds `mutex_`
  | exited
deriving DecidableEq, Repr

/-- Control of the caller of `Get(&count)`. -/
inductive GetPc where
  | idle
  | lock (count : Nat)      -- about to lock `mutex_`, first or after a wake-up
  | test (count : Nat)      -- holds `mutex_`, about to test the predicate
  | asleep (count : Nat)    -- in `new_entries_.wait`
  | walk (count : Nat)      -- `*count` is set, about to walk the list
  | returned (segment : List Entry)
  | nullNext                -- a `NULL` next pointer was followed
deriving DecidableEq, Repr

structure ExifHasher where
  gen : List Scan
  run : RunPc
  entries : List Entry
  hashes : List ExifHash
  mutex : Option HasherThread
  newEntryCount : Nat
  done : Bool
  get : GetPc
  newEntry : Nat
  segments : List (List Entry)  -- what the calls of `Get` returned, oldest first

namespace ExifHasher

/-- The constructor, followed by `Run`. -/
def start (gen : List Scan) : ExifHasher where
  gen := gen
  run := .next
  entries := []
  hashes := []
  mutex := none
  newEntryCount := 0
  done := false
  get := .idle
  newEntry := 0
  segments := []

/-! ## The linked list -/

/-- `node->next`. -/
def next? (entries : List Entry) (node : Nat) : Option Nat :=
  if node < entries.length then some (node + 1) else none

/-- `for (i = 0; i < count; ++i) node = node->next`. -/
def advance (entries : List Entry) : Nat → Nat → Option Nat
  | node, 0 => some node
  | node, count + 1 => (next? entries node).bind fun node' => advance entries node' count

/-- The `count` entries from `e` on, as a caller of `Get` reads them. -/
def readFrom (entries : List Entry) : Option Nat → Nat → Option (List Entry)
  | _, 0 => some []
  | none, _ + 1 => none
  | some node, count + 1 =>
      (entries[node - 1]?).bind fun e =>
        (readFrom entries (next? entries node) count).map (e :: ·)

/-! ## Steps -/

/-- `new_entries_.notify_one()`: at most the one caller of `Get` waits. -/
def notifyGet : GetPc → GetPc
  | .asleep count => .lock count
  | pc => pc

/-- The next step of the hashing thread. -/
def runStep (args : RunArgs) (s : ExifHasher) : Option ExifHasher :=
  match s.run with
  | .next =>
    match s.gen with
    | [] => some { s with run := .finishLock }
    | scan :: gen =>
      match scan.exif with
      -- no EXIF data: `HashExif` failed, the path is dropped
      | none => some { s with gen := gen }
      | some h =>
        if args.unique && decide (h ∈ s.hashes) then
          some { s with gen := gen }
        else
          -- the list grows outside the lock; the mutex is only taken at a full threshold
          let hashes := s.hashes.insert h
          some { s with
            gen := gen
            entries := s.entries ++ [⟨h, scan.path⟩]
            hashes := hashes
            run := if hashes.length % args.progressThreshold = 0 then .publishLock else .next }
  | .publishLock =>
    if s.mutex = none then some { s with mutex := some .run, run := .publish } else none
  | .publish =>
    some { s with
      newEntryCount := s.newEntryCount + args.progressThreshold
      get := notifyGet s.get
      mutex := none
      run := .next }
  | .finishLock =>
    if s.mutex = none then some { s with mutex := some .run, run := .finish } else none
  | .finish =>
    some { s with
      newEntryCount := s.newEntryCount + s.hashes.length % args.progressThreshold
      done := true
      get := notifyGet s.get
      mutex := none
      run := .exited }
  | .exited => none

/-- The next step inside `Get`. -/
def getStep (s : ExifHasher) : Option ExifHasher :=
  match s.get with
  | .lock count =>
    if s.mutex = none then some { s with mutex := some .get, get := .test count } else none
  | .test count =>
    if s.newEntryCount ≥ count ∨ s.done then
      -- `*count` is set to what there is, which is less only when `done_`
      let taken := min count s.newEntryCount
      some { s with
        newEntryCount := s.newEntryCount - taken
        mutex := none
        get := .walk taken }
    else
      some { s with mutex := none, get := .asleep count }
  | .walk count =>
    match readFrom s.entries (next? s.entries s.newEntry) count,
        advance s.entries s.newEntry count with
    | some segment, some node =>
      some { s with
        newEntry := node
        segments := s.segments ++ [segment]
        get := .returned segment }
    | _, _ => some { s with get := .nullNext }
  | _ => none

inductive Act where
  | run
  | call (count : Nat)   -- the client calls `Get(&count)`
  | get
  | getWakes             -- a spurious wake-up
  | take                 -- the client takes what `Get` returned
deriving DecidableEq, Repr

def step (args : RunArgs) (s : ExifHasher) : Act → Option ExifHasher
  | .run => s.runStep args
  | .call count => if s.get = .idle then some { s with get := .lock count } else none
  | .get => s.getStep
  | .getWakes =>
    match s.get with
    | .asleep count => some { s with get := .lock count }
    | _ => none
  | .take =>
    match s.get with
    | .returned _ => some { s with get := .idle }
    | _ => none

/-- The hasher under an arbitrary client. -/
def system (args : RunArgs) : StepSystem ExifHasher Act := ⟨step args⟩

/-- Clients ask for at least one entry. -/
def Asks : Act → Prop
  | .call count => 0 < count
  | _ => True

instance : DecidablePred Asks := fun a => by
  cases a <;> simp only [Asks] <;> infer_instance

/-! ## What hashing a list of paths should produce -/

/-- The entry of the first path of each distinct hash, in path order,
leaving out the hashes already `seen`. -/
def firstOfEach : List ExifHash → List Scan → List Entry
  | _, [] => []
  | seen, scan :: scans =>
    match scan.exif with
    | none => firstOfEach seen scans
    | some h =>
      if h ∈ seen then firstOfEach seen scans
      else ⟨h, scan.path⟩ :: firstOfEach (h :: seen) scans

theorem mem_hashes_firstOfEach {seen : List ExifHash} {scans : List Scan} {h : ExifHash} :
    h ∈ (firstOfEach seen scans).map Entry.hash ↔
      h ∉ seen ∧ ∃ scan ∈ scans, scan.exif = some h := by
  induction scans generalizing seen with
  | nil => simp [firstOfEach]
  | cons scan scans ih =>
      rw [firstOfEach]
      cases hexif : scan.exif with
      | none => simp [ih, hexif]
      | some g =>
          by_cases hg : g ∈ seen
          · simp only [hg, if_true, ih, List.mem_cons, exists_eq_or_imp, hexif,
              Option.some.injEq]
            constructor
            · rintro ⟨hseen, hex⟩
              exact ⟨hseen, Or.inr hex⟩
            · rintro ⟨hseen, rfl | hex⟩
              · exact absurd hg hseen
              · exact ⟨hseen, hex⟩
          · simp only [hg, if_false, List.map_cons, List.mem_cons, ih, not_or,
              exists_eq_or_imp, hexif, Option.some.injEq]
            constructor
            · rintro (rfl | ⟨⟨_, hseen⟩, hex⟩)
              · exact ⟨hg, Or.inl rfl⟩
              · exact ⟨hseen, Or.inr hex⟩
            · rintro ⟨hseen, hgh | hex⟩
              · exact Or.inl hgh.symm
              · by_cases hhg : h = g
                · exact Or.inl hhg
                · exact Or.inr ⟨⟨hhg, hseen⟩, hex⟩

theorem nodup_firstOfEach (seen : List ExifHash) (scans : List Scan) :
    ((firstOfEach seen scans).map Entry.hash).Nodup := by
  induction scans generalizing seen with
  | nil => simp [firstOfEach]
  | cons scan scans ih =>
      rw [firstOfEach]
      split
      · exact ih seen
      · split
        · exact ih seen
        · rw [List.map_cons, List.nodup_cons]
          refine ⟨fun hmem => ?_, ih _⟩
          exact (mem_hashes_firstOfEach.mp hmem).1 (List.mem_cons_self ..)

/-- The entries keep paths that were scanned, in their order. -/
theorem paths_firstOfEach (seen : List ExifHash) (scans : List Scan) :
    ((firstOfEach seen scans).map Entry.path).Sublist (scans.map Scan.path) := by
  induction scans generalizing seen with
  | nil => simp [firstOfEach]
  | cons scan scans ih =>
      rw [firstOfEach]
      split
      · exact (ih seen).cons _
      · split
        · exact (ih seen).cons _
        · exact (ih _).cons_cons _

/-- **Which path an entry keeps**: the first one with its hash. -/
theorem find?_of_mem_firstOfEach {seen : List ExifHash} {scans : List Scan} {e : Entry}
    (he : e ∈ firstOfEach seen scans) :
    e.hash ∉ seen ∧
      (scans.find? fun scan => decide (scan.exif = some e.hash)).map Scan.path = some e.path := by
  induction scans generalizing seen with
  | nil => simp [firstOfEach] at he
  | cons scan scans ih =>
      rw [firstOfEach] at he
      rw [List.find?_cons]
      cases hexif : scan.exif with
      | none =>
          simp only [hexif] at he
          simpa using ih he
      | some g =>
          simp only [hexif] at he
          split at he
          · rename_i hg
            obtain ⟨hseen, hfind⟩ := ih he
            have hne : g ≠ e.hash := fun h => hseen (h ▸ hg)
            exact ⟨hseen, by simpa [hne] using hfind⟩
          · rename_i hg
            rcases List.mem_cons.mp he with rfl | he
            · simpa using hg
            · obtain ⟨hseen, hfind⟩ := ih he
              have hne : g ≠ e.hash := fun h => hseen (h ▸ List.mem_cons_self ..)
              exact ⟨fun h => hseen (List.mem_cons_of_mem _ h), by simpa [hne] using hfind⟩

/-! ## The list operations on a prefix -/

theorem advance_eq_some {entries : List Entry} {node count : Nat}
    (h : node + count ≤ entries.length) : advance entries node count = some (node + count) := by
  induction count generalizing node with
  | zero => rfl
  | succ count ih =>
      have hlt : node < entries.length := by omega
      rw [advance, next?, if_pos hlt, Option.bind_some, ih (by omega)]
      congr 1
      omega

/-- Reading from the node behind `node` returns the next entries in order. -/
theorem readFrom_eq_some {entries : List Entry} {node count : Nat}
    (h : node + count ≤ entries.length) :
    readFrom entries (next? entries node) count = some ((entries.drop node).take count) := by
  induction count generalizing node with
  | zero => cases next? entries node <;> simp [readFrom]
  | succ count ih =>
      have hlt : node < entries.length := by omega
      rw [next?, if_pos hlt, readFrom, Nat.add_sub_cancel, List.getElem?_eq_getElem hlt,
        Option.bind_some, ih (by omega), Option.map_some, List.drop_eq_getElem_cons hlt,
        List.take_succ_cons]

/-! ## What a step inside Get can do -/

/-- The steps of `runStep`: the next path, which ends the round, is dropped
or appended, and the two critical sections. -/
inductive RunMove (args : RunArgs) (s t : ExifHasher) : Prop
  | ended (hrun : s.run = .next) (hgen : s.gen = []) (ht : t = { s with run := .finishLock })
  | failed (scan : Scan) (gen : List Scan) (hrun : s.run = .next) (hgen : s.gen = scan :: gen)
      (hexif : scan.exif = none) (ht : t = { s with gen := gen })
  | duplicate (scan : Scan) (gen : List Scan) (h : ExifHash) (hrun : s.run = .next)
      (hgen : s.gen = scan :: gen) (hexif : scan.exif = some h) (hu : args.unique = true)
      (hmem : h ∈ s.hashes) (ht : t = { s with gen := gen })
  | append (scan : Scan) (gen : List Scan) (h : ExifHash) (hrun : s.run = .next)
      (hgen : s.gen = scan :: gen) (hexif : scan.exif = some h)
      (hnew : args.unique = true → h ∉ s.hashes)
      (ht : t = { s with
        gen := gen
        entries := s.entries ++ [⟨h, scan.path⟩]
        hashes := s.hashes.insert h
        run := if (s.hashes.insert h).length % args.progressThreshold = 0 then .publishLock
          else .next })
  | publishLock (hrun : s.run = .publishLock) (hfree : s.mutex = none)
      (ht : t = { s with mutex := some .run, run := .publish })
  | publish (hrun : s.run = .publish)
      (ht : t = { s with
        newEntryCount := s.newEntryCount + args.progressThreshold
        get := notifyGet s.get
        mutex := none
        run := .next })
  | finishLock (hrun : s.run = .finishLock) (hfree : s.mutex = none)
      (ht : t = { s with mutex := some .run, run := .finish })
  | finish (hrun : s.run = .finish)
      (ht : t = { s with
        newEntryCount := s.newEntryCount + s.hashes.length % args.progressThreshold
        done := true
        get := notifyGet s.get
        mutex := none
        run := .exited })

theorem runMove_of_step {args : RunArgs} {s t : ExifHasher} (hst : s.runStep args = some t) :
    RunMove args s t := by
  unfold runStep at hst
  split at hst
  next hrun =>
    split at hst
    next hgen => cases hst; exact .ended hrun hgen rfl
    next scan gen hgen =>
      split at hst
      next hexif => cases hst; exact .failed scan gen hrun hgen hexif rfl
      next h hexif =>
        split at hst
        next hdup =>
          obtain ⟨hu, hmem⟩ := (Bool.and_eq_true_iff.mp hdup).imp_right of_decide_eq_true
          cases hst
          exact .duplicate scan gen h hrun hgen hexif hu hmem rfl
        next hdup =>
          have hnew : args.unique = true → h ∉ s.hashes := fun hu hmem => by simp [hu, hmem] at hdup
          cases hst
          exact .append scan gen h hrun hgen hexif hnew rfl
  next hrun =>
    split at hst
    next hfree => cases hst; exact .publishLock hrun hfree rfl
    next => cases hst
  next hrun => cases hst; exact .publish hrun rfl
  next hrun =>
    split at hst
    next hfree => cases hst; exact .finishLock hrun hfree rfl
    next => cases hst
  next hrun => cases hst; exact .finish hrun rfl
  next => cases hst

/-- The steps of `getStep`: the lock, the predicate and what follows it, and
the walk along the list, which finds the next entries or the end. -/
inductive GetMove (s t : ExifHasher) : Prop
  | lock (count : Nat) (hget : s.get = .lock count) (hfree : s.mutex = none)
      (ht : t = { s with mutex := some .get, get := .test count })
  | take (count : Nat) (hget : s.get = .test count)
      (hpred : s.newEntryCount ≥ count ∨ s.done = true)
      (ht : t = { s with
        newEntryCount := s.newEntryCount - min count s.newEntryCount
        mutex := none
        get := .walk (min count s.newEntryCount) })
  | wait (count : Nat) (hget : s.get = .test count)
      (hpred : ¬ (s.newEntryCount ≥ count ∨ s.done = true))
      (ht : t = { s with mutex := none, get := .asleep count })
  | walk (count : Nat) (segment : List Entry) (node : Nat) (hget : s.get = .walk count)
      (hread : readFrom s.entries (next? s.entries s.newEntry) count = some segment)
      (hadvance : advance s.entries s.newEntry count = some node)
      (ht : t = { s with
        newEntry := node
        segments := s.segments ++ [segment]
        get := .returned segment })
  | pastEnd (count : Nat) (hget : s.get = .walk count)
      (hlost : ∀ segment node,
        readFrom s.entries (next? s.entries s.newEntry) count = some segment →
          advance s.entries s.newEntry count ≠ some node)
      (ht : t = { s with get := .nullNext })

theorem getMove_of_step {s t : ExifHasher} (hst : s.getStep = some t) : GetMove s t := by
  unfold getStep at hst
  split at hst
  next count hget =>
    split at hst
    · rename_i hfree
      cases hst
      exact .lock count hget hfree rfl
    · cases hst
  next count hget =>
    split at hst
    · rename_i hpred
      cases hst
      exact .take count hget hpred rfl
    · rename_i hpred
      cases hst
      exact .wait count hget hpred rfl
  next count hget =>
    split at hst
    · rename_i segment node hread hadvance
      cases hst
      exact .walk count segment node hget hread hadvance rfl
    · rename_i hlost
      cases hst
      exact .pastEnd count hget hlost rfl
  next => cases hst

/-- A walk that stays inside the list returns the next entries of it. -/
theorem GetMove.walked {s t : ExifHasher} {count : Nat} (h : GetMove s t)
    (hget : s.get = .walk count) (hle : s.newEntry + count ≤ s.entries.length) :
    t = { s with
      newEntry := s.newEntry + count
      segments := s.segments ++ [(s.entries.drop s.newEntry).take count]
      get := .returned ((s.entries.drop s.newEntry).take count) } := by
  cases h with
  | walk count' segment node hget' hread hadvance ht =>
      cases hget.symm.trans hget'
      rw [readFrom_eq_some hle] at hread
      rw [advance_eq_some hle] at hadvance
      cases hread
      cases hadvance
      exact ht
  | pastEnd count' hget' hlost ht =>
      cases hget.symm.trans hget'
      exact absurd (advance_eq_some hle) (hlost _ _ (readFrom_eq_some hle))
  | lock count' hget' | take count' hget' | wait count' hget' =>
      rw [hget] at hget'
      cases hget'

end ExifHasher
end Jpgsync
