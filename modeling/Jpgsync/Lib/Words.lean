import Mathlib.Data.List.Basic

/-!
# Words — the words of a text

The words of a list are its longest pieces without a separator. They are
what a reader finds that drops separators and then takes everything up to
the next one, again and again.
-/

namespace Words

variable {α : Type*} {sep : α → Bool}

/-- The words of a text. -/
def words (sep : α → Bool) (xs : List α) : List (List α) :=
  (xs.splitOnP sep).filter (· ≠ [])

@[simp] theorem words_nil : words sep ([] : List α) = [] := by
  simp [words, List.splitOnP_nil]

@[simp] theorem words_sep {a : α} {xs : List α} (h : sep a = true) :
    words sep (a :: xs) = words sep xs := by
  rw [words, words, ← List.nil_append (a :: xs), List.splitOnP_append_cons _ _ h]
  simp [List.splitOnP_nil]

/-- Separators in front do not matter. -/
theorem words_dropWhile (xs : List α) : words sep (xs.dropWhile sep) = words sep xs := by
  induction xs with
  | nil => rfl
  | cons a xs ih =>
      by_cases ha : sep a = true
      · rw [List.dropWhile_cons_of_pos ha, ih, words_sep ha]
      · rw [List.dropWhile_cons_of_neg ha]

/-- A word, up to the next separator or the end. -/
theorem words_append {w rest : List α} (hne : w ≠ []) (hw : ∀ a ∈ w, sep a = false)
    (hrest : ∀ a xs, rest = a :: xs → sep a = true) :
    words sep (w ++ rest) = w :: words sep rest := by
  cases rest with
  | nil =>
      rw [List.append_nil, words_nil, words, List.splitOnP_eq_singleton hw]
      simp [hne]
  | cons a xs =>
      have ha := hrest a xs rfl
      rw [words_sep ha, words, List.splitOnP_append_cons _ _ ha, List.splitOnP_eq_singleton hw,
        words]
      simp [hne]

/-- **The first word**, as a reader takes it. -/
theorem words_eq {xs : List α} (hne : xs.dropWhile sep ≠ []) :
    words sep xs = (xs.dropWhile sep).takeWhile (fun a => !sep a) ::
      words sep ((xs.dropWhile sep).dropWhile fun a => !sep a) := by
  have hhead : ∀ a ys, xs.dropWhile sep = a :: ys → sep a = false := by
    intro a ys h
    have hnot := List.head?_dropWhile_not sep xs
    rw [h] at hnot
    simpa using hnot
  rw [← words_dropWhile xs]
  conv_lhs => rw [← List.takeWhile_append_dropWhile (p := fun a => !sep a) (l := xs.dropWhile sep)]
  refine words_append ?_ (fun a ha => ?_) fun a ys h => ?_
  · cases hxs : xs.dropWhile sep with
    | nil => exact absurd hxs hne
    | cons a ys => simp [hhead a ys hxs]
  · simpa using List.all_eq_true.mp List.all_takeWhile a ha
  · have hnot := List.head?_dropWhile_not (fun a => !sep a) (xs.dropWhile sep)
    rw [h] at hnot
    simpa using hnot

end Words
