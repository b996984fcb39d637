import Mathlib.Data.List.Basic

/-!
# Paths — what a path denotes

Pathname resolution over an arbitrary tree of directories, links to
directories included: `enter` says where an entry of a directory leads. A
path is walked component by component; empty components, of which a
trailing slash leaves one, are skipped. What a path to a file denotes is
the directory its last component is looked up in, and that component.
-/

namespace Paths

/-- `'/'`. -/
abbrev separator : UInt8 := 47

/-! ## Components -/

/-- The components of a path. -/
def components (path : List UInt8) : List (List UInt8) :=
  (path.splitOn separator).filter (· ≠ [])

/-- What follows the last slash. -/
def name (path : List UInt8) : List UInt8 := (path.reverse.takeWhile (· ≠ separator)).reverse

/-- What the last slash ends. -/
def parent (path : List UInt8) : List UInt8 := (path.reverse.dropWhile (· ≠ separator)).reverse

/-- Names that no file can have. -/
def Reserved (entry : List UInt8) : Prop := entry = [] ∨ entry = [46] ∨ entry = [46, 46]

instance : DecidablePred Reserved := fun _ => inferInstanceAs (Decidable (_ ∨ _))

section

variable {a b path text : List UInt8}

theorem components_append : components (a ++ separator :: b) = components a ++ components b := by
  rw [components, List.splitOn_append_cons_self, List.filter_append]
  rfl

theorem parent_append_name (path : List UInt8) : parent path ++ name path = path := by
  rw [parent, name, ← List.reverse_append, List.takeWhile_append_dropWhile, List.reverse_reverse]

theorem name_append_slash : name (a ++ separator :: b) = name b := by
  have hstop : ∀ l, (separator :: l).takeWhile (· ≠ separator) = [] := fun l =>
    List.takeWhile_cons_of_neg (by simp)
  rw [name, name, List.reverse_append, List.reverse_cons, List.append_assoc,
    List.singleton_append, List.takeWhile_append, hstop, List.append_nil]
  split
  · rename_i hall
    rw [(List.takeWhile_prefix _).eq_of_length hall]
  · rfl

/-- A path in a directory. -/
theorem parent_append_slash : parent (a ++ separator :: b) = a ++ separator :: parent b := by
  have hpath := parent_append_name (a ++ separator :: b)
  rw [name_append_slash] at hpath
  refine List.append_cancel_right (hpath.trans ?_)
  rw [List.append_assoc, List.cons_append, parent_append_name]

/-- A longer name. -/
theorem parent_append (h : separator ∉ text) : parent (path ++ text) = parent path := by
  rw [parent, List.reverse_append, List.dropWhile_append_of_pos]
  · rfl
  · intro c hc
    rw [decide_eq_true_eq]
    rintro rfl
    exact h (List.mem_reverse.mp hc)

theorem name_append (h : separator ∉ text) : name (path ++ text) = name path ++ text := by
  have hpath := parent_append_name (path ++ text)
  rw [parent_append h] at hpath
  refine List.append_cancel_left (hpath.trans ?_)
  rw [← List.append_assoc, parent_append_name]

theorem parent_of_notMem (h : separator ∉ path) : parent path = [] := by
  rw [← List.nil_append path, parent_append h]
  rfl

end

/-! ## Directories -/

/-- Directories and what can be entered from them. -/
structure FileSystem (Dir : Type*) where
  root : Dir
  cwd : Dir
  enter : Dir → List UInt8 → Option Dir
  enter_dot : ∀ d, enter d [46] = some d

namespace FileSystem

variable {Dir : Type*} (fs : FileSystem Dir)

/-- Where a path starts. -/
def start (path : List UInt8) : Dir := if path.head? = some separator then fs.root else fs.cwd

/-- From a directory, one entry after another. -/
def walk (d : Dir) (entries : List (List UInt8)) : Option Dir := entries.foldlM fs.enter d

/-- The directory a path denotes. -/
def directory (path : List UInt8) : Option Dir :=
  if path = [] then none else fs.walk (fs.start path) (components path)

/-- The place a path to a file denotes: a directory and an entry in it. -/
def place (path : List UInt8) : Option (Dir × List UInt8) :=
  if Reserved (name path) then none
  else (fs.walk (fs.start path) (components (parent path))).map fun d => (d, name path)

theorem walk_append (d : Dir) (entries later : List (List UInt8)) :
    fs.walk d (entries ++ later) = (fs.walk d entries).bind fun d' => fs.walk d' later :=
  List.foldlM_append

/-- Dots lead nowhere else. -/
theorem walk_dots {entries : List (List UInt8)} (h : ∀ e ∈ entries, e = [46]) (d : Dir) :
    fs.walk d entries = some d := by
  induction entries with
  | nil => rfl
  | cons e entries ih =>
      obtain rfl := h e (by simp)
      rw [walk, List.foldlM_cons, fs.enter_dot]
      exact ih fun e he => h e (List.mem_cons_of_mem _ he)

variable {dir file entry : List UInt8} {d' : Dir}

/-- **A file below a directory**: the directory is walked to first, and
from there the directories in front of the name. -/
theorem place_below (hdir : dir ≠ []) :
    fs.place (dir ++ separator :: file) = some (d', entry) ↔
      ¬ Reserved (name file) ∧ entry = name file ∧
        ∃ d, fs.directory dir = some d ∧ fs.walk d (components (parent file)) = some d' := by
  have hstart : fs.start (dir ++ separator :: file) = fs.start dir := by
    rw [start, start, List.head?_append_of_ne_nil _ hdir]
  rw [place, name_append_slash, hstart, parent_append_slash, components_append, walk_append,
    directory, if_neg hdir]
  by_cases hname : Reserved (name file)
  · simp [hname]
  · rw [if_neg hname, Option.map_eq_some_iff]
    simp only [Option.bind_eq_some_iff, Prod.mk.injEq]
    constructor
    · rintro ⟨_, hwalk, rfl, rfl⟩
      exact ⟨hname, rfl, hwalk⟩
    · rintro ⟨-, rfl, hwalk⟩
      exact ⟨d', hwalk, rfl, rfl⟩

end FileSystem

end Paths
