import Jpgsync.ExifHasher.Programs
import Jpgsync.Storage

/-!
# Dir — the files of a directory

`util/dir.cpp`. `Next` returns the path of the next entry that is no
directory, written over the one before behind the path of the directory
itself, and the empty path at the end. Called again and again, as `Run`
does, it returns each file once, in the order of `readdir`; it never fails
to write a path, and it throws exactly where `readdir` fails before the end
(`generate_opened`).
-/

namespace Jpgsync

/-- `dirent`: `d_name`, and `d_type == DT_DIR`. -/
structure Dirent where
  name : Bytes
  isDir : Bool
deriving DecidableEq

/-- What `readdir` returns; `errno` is set by an error only. -/
inductive ReadDir where
  | entry (e : Dirent)
  | null
  | error
deriving DecidableEq

/-- What `Next` throws. -/
inductive DirError where
  | readdir       -- `SysCallException`
  | outOfRange    -- `std::out_of_range`, of `path_.replace`
deriving DecidableEq

/-- `Dir`, with what `readdir` will return; then it returns `NULL`. -/
structure Dir where
  path : Bytes
  prefixLen : Nat
  stream : List ReadDir

namespace Dir

/-- The constructor, when `opendir` works. -/
def opened (path : Bytes) (stream : List ReadDir) : Dir :=
  ⟨path ++ [slash], path.length + 1, stream⟩

/-- The loop of `Next`, with what is left of the stream. -/
def nextFrom (d : Dir) : List ReadDir → Except DirError (Bytes × Dir)
  | [] => .ok ([], { d with path := [], stream := [] })
  | .null :: stream => .ok ([], { d with path := [], stream := stream })
  | .error :: _ => .error .readdir
  | .entry e :: stream =>
    if e.isDir then d.nextFrom stream
    else if d.path.length < d.prefixLen then .error .outOfRange
    else
      let path := d.path.take d.prefixLen ++ e.name
      .ok (path, { d with path := path, stream := stream })

/-- `Next`. -/
def next (d : Dir) : Except DirError (Bytes × Dir) := d.nextFrom d.stream

theorem length_nextFrom {d d' : Dir} {stream : List ReadDir} {path : Bytes}
    (h : d.nextFrom stream = .ok (path, d')) (hne : path ≠ []) :
    d'.stream.length < stream.length := by
  induction stream with
  | nil =>
      cases h
      exact absurd rfl hne
  | cons r stream ih =>
      cases r with
      | null =>
          cases h
          exact absurd rfl hne
      | error => cases h
      | entry e =>
          rw [nextFrom] at h
          split at h
          · exact Nat.lt_succ_of_lt (ih h)
          · split at h
            · cases h
            · cases h
              exact Nat.lt_succ_self _

/-- The paths that `Run` gets: those of `Next` until it returns an empty
one. -/
def generate (d : Dir) : Except DirError (List Bytes) :=
  match _h : d.next with
  | .error e => .error e
  | .ok (path, d') =>
    if _hne : path = [] then .ok []
    else (generate d').map (path :: ·)
termination_by d.stream.length
decreasing_by exact length_nextFrom _h _hne

/-! ## What is generated -/

/-- What a stream has before its end: the files behind a directory's path,
or the error. -/
def filesOf (dir : Bytes) : List ReadDir → Except DirError (List Bytes)
  | [] | .null :: _ => .ok []
  | .error :: _ => .error .readdir
  | .entry e :: stream =>
    if e.isDir then filesOf dir stream else (filesOf dir stream).map (toPath dir e.name :: ·)

/-- The path is the directory's, whatever was written behind it. -/
structure Ready (dir : Bytes) (d : Dir) : Prop where
  front : d.path.take d.prefixLen = dir ++ [slash]
  prefixLen : d.prefixLen = dir.length + 1

theorem ready_opened (dir : Bytes) (stream : List ReadDir) : Ready dir (opened dir stream) where
  front := List.take_of_length_le (by simp [opened])
  prefixLen := rfl

variable {dir : Bytes} {d d' : Dir} {stream : List ReadDir} {path : Bytes}

theorem Ready.le_length (h : Ready dir d) : d.prefixLen ≤ d.path.length := by
  have hlen := congrArg List.length h.front
  rw [List.length_take, List.length_append, List.length_singleton, ← h.prefixLen] at hlen
  omega

/-- **One call**: a file, and the directory is ready for the next one, or
the end, or the error. -/
theorem Ready.next (h : Ready dir d) (stream : List ReadDir) :
    (∃ path d', d.nextFrom stream = .ok (path, d') ∧ path ≠ [] ∧ Ready dir d' ∧
      filesOf dir stream = (filesOf dir d'.stream).map (path :: ·)) ∨
    (∃ d', d.nextFrom stream = .ok ([], d') ∧ filesOf dir stream = .ok []) ∨
    ∃ e, d.nextFrom stream = .error e ∧ filesOf dir stream = .error e := by
  induction stream with
  | nil => exact Or.inr (Or.inl ⟨_, rfl, rfl⟩)
  | cons r stream ih =>
      cases r with
      | null => exact Or.inr (Or.inl ⟨_, rfl, rfl⟩)
      | error => exact Or.inr (Or.inr ⟨_, rfl, rfl⟩)
      | entry e =>
          rw [nextFrom, filesOf]
          by_cases hdir : e.isDir = true
          · rw [if_pos hdir, if_pos hdir]
            exact ih
          · have hpath : d.path.take d.prefixLen ++ e.name = toPath dir e.name := by
              rw [h.front, toPath]
            rw [if_neg hdir, if_neg hdir, if_neg (Nat.not_lt.mpr h.le_length)]
            refine Or.inl ⟨_, _, rfl, by simp [h.front], ⟨?_, h.prefixLen⟩, by rw [hpath]⟩
            rw [h.front, List.take_append_of_le_length (by simp [h.prefixLen])]
            exact List.take_of_length_le (by simp [h.prefixLen])

theorem Ready.generate (h : Ready dir d) : d.generate = filesOf dir d.stream := by
  induction hn : d.stream.length using Nat.strongRecOn generalizing d with
  | ind n ih =>
      rw [Dir.generate]
      split
      · rename_i e hnext
        rw [Dir.next] at hnext
        have hcases := h.next d.stream
        simp only [hnext, reduceCtorEq, false_and, exists_false, false_or, Except.error.injEq,
          exists_eq_left'] at hcases
        exact hcases.symm
      · rename_i path d' hnext
        have hlen := length_nextFrom hnext
        rw [Dir.next] at hnext
        have hcases := h.next d.stream
        simp only [hnext, Except.ok.injEq, Prod.mk.injEq, reduceCtorEq, false_and, exists_false,
          or_false] at hcases
        rcases hcases with ⟨_, _, ⟨rfl, rfl⟩, hne, hready, hfiles⟩ | ⟨_, ⟨rfl, rfl⟩, hfiles⟩
        · rw [dif_neg hne, hfiles, ih _ (hn ▸ hlen hne) hready rfl]
        · rw [dif_pos rfl, hfiles]

/-- **What `Run` gets of a directory**, whatever `readdir` returns: the
path of each file in front of the end, in order, or the error. -/
theorem generate_opened (dir : Bytes) (stream : List ReadDir) :
    (opened dir stream).generate = filesOf dir stream :=
  (ready_opened dir stream).generate

end Dir
end Jpgsync
