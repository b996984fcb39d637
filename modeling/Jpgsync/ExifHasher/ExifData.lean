import Jpgsync.ExifHasher

/-!
# ExifHasher — ExifData

The text that `HashExif` passes to `SHA1`: the keys and values of the EXIF
items, one after the other, with nothing between them. What the keys are
is Exiv2's table of names, a parameter here of which only is used that no
name is empty.

Where an item ends cannot be read off the text, so two items say no more
than one item with a longer value (`unambiguous_iff`).
-/

namespace Jpgsync

/-- An item of `exifData`: `key()`, and the text of its value. -/
structure ExifItem where
  key : Bytes
  value : Bytes
deriving DecidableEq, Repr

/-- `for (auto i = exifData.begin(); i != end; ++i) oss << i->key() <<
i->value();` -/
def exifStr : List ExifItem → Bytes
  | [] => []
  | i :: items => i.key ++ i.value ++ exifStr items

/-- The keys are names of the table. -/
def Keyed (isKey : Bytes → Prop) (items : List ExifItem) : Prop :=
  ∀ i ∈ items, isKey i.key

/-- No other items have the same text. -/
def Unambiguous (isKey : Bytes → Prop) (items : List ExifItem) : Prop :=
  ∀ items', Keyed isKey items' → items' ≠ items → exifStr items' ≠ exifStr items

/-- No other key begins the item's text, and no key stands in its value. -/
def KeyFree (isKey : Bytes → Prop) (i : ExifItem) : Prop :=
  (∀ k, isKey k → k <+: i.key ++ i.value → k = i.key) ∧ ∀ k, isKey k → ¬ k <:+: i.value

variable {isKey : Bytes → Prop} {items items' : List ExifItem} {i : ExifItem}

theorem keyed_cons : Keyed isKey (i :: items) ↔ isKey i.key ∧ Keyed isKey items := by
  simp [Keyed]

/-- The text of one item with everything that follows in its value. -/
theorem exifStr_merge (i : ExifItem) (items : List ExifItem) :
    exifStr [⟨i.key, i.value ++ exifStr items⟩] = exifStr (i :: items) := by
  simp [exifStr]

theorem exifStr_eq_nil (hkey : ∀ k, isKey k → k ≠ []) (hitems : Keyed isKey items)
    (h : exifStr items = []) : items = [] := by
  cases items with
  | nil => rfl
  | cons i items =>
      simp only [exifStr, List.append_assoc, List.append_eq_nil_iff] at h
      exact absurd h.1 (hkey _ (keyed_cons.mp hitems).1)

theorem unambiguous_nil (hkey : ∀ k, isKey k → k ≠ []) : Unambiguous isKey [] :=
  fun _ hkeyed hne heq => hne (exifStr_eq_nil hkey hkeyed heq)

/-- **Two items are never unambiguous**: the first of them could have had
the rest for its value. -/
theorem not_unambiguous_cons_cons (hitems : Keyed isKey (i :: items)) (hne : items ≠ []) :
    ¬ Unambiguous isKey (i :: items) := by
  intro h
  have hmerged : Keyed isKey [⟨i.key, i.value ++ exifStr items⟩] := by
    simpa [Keyed] using (keyed_cons.mp hitems).1
  exact h _ hmerged (fun heq => hne (List.cons.inj heq).2.symm) (exifStr_merge i items)

/-- **One item** is unambiguous when no key can be found elsewhere in its
text, and only then. -/
theorem unambiguous_singleton (hkey : ∀ k, isKey k → k ≠ []) (hi : isKey i.key) :
    Unambiguous isKey [i] ↔ KeyFree isKey i := by
  have htext : exifStr [i] = i.key ++ i.value := by simp [exifStr]
  constructor
  · refine fun h => ⟨fun k hk hpre => ?_, fun k hk hin => ?_⟩
    · by_contra hne
      obtain ⟨value, hvalue⟩ := hpre
      refine h [⟨k, value⟩] (by simpa [Keyed] using hk) (fun heq => ?_) ?_
      · rw [← (List.cons.inj heq).1] at hne
        exact hne rfl
      · rw [htext, ← hvalue]
        simp [exifStr]
    · obtain ⟨front, back, hvalue⟩ := hin
      refine h [⟨i.key, front⟩, ⟨k, back⟩] (by simp [Keyed, hi, hk]) (by simp) ?_
      rw [htext, ← hvalue]
      simp [exifStr]
  · rintro ⟨hhead, hinfix⟩ items' hkeyed hne heq
    rw [htext] at heq
    cases items' with
    | nil =>
        simp only [exifStr, List.nil_eq, List.append_eq_nil_iff] at heq
        exact hkey _ hi heq.1
    | cons j items' =>
        obtain ⟨hj, hkeyed'⟩ := keyed_cons.mp hkeyed
        rw [exifStr, List.append_assoc] at heq
        -- the first key is the item's own, so the rest of the text is its value
        have hkeys : j.key = i.key := hhead _ hj ⟨_, heq⟩
        rw [hkeys] at heq
        have hvalue : j.value ++ exifStr items' = i.value := List.append_cancel_left heq
        cases items' with
        | nil =>
            rw [exifStr, List.append_nil] at hvalue
            obtain ⟨key, value⟩ := j
            cases i
            cases hkeys
            cases hvalue
            exact hne rfl
        | cons j' items' =>
            refine hinfix j'.key (keyed_cons.mp hkeyed').1 ⟨j.value, j'.value ++ exifStr items', ?_⟩
            rw [← hvalue, exifStr]
            simp

/-- **Which images have a text of their own**: those without items, and
those with one item whose text holds no key but its own at its start. -/
theorem unambiguous_iff (hkey : ∀ k, isKey k → k ≠ []) (hitems : Keyed isKey items) :
    Unambiguous isKey items ↔ items = [] ∨ ∃ i, items = [i] ∧ KeyFree isKey i := by
  cases items with
  | nil => exact iff_of_true (unambiguous_nil hkey) (Or.inl rfl)
  | cons i items =>
      cases items with
      | nil =>
          rw [unambiguous_singleton hkey (keyed_cons.mp hitems).1]
          simp
      | cons j items =>
          refine iff_of_false (not_unambiguous_cons_cons hitems (by simp)) ?_
          simp

/-- `Exif.Image.Make`. -/
def exifImageMake : Bytes := [69, 120, 105, 102, 46, 73, 109, 97, 103, 101, 46, 77, 97, 107, 101]

/-- `Exif.Image.Model`. -/
def exifImageModel : Bytes :=
  [69, 120, 105, 102, 46, 73, 109, 97, 103, 101, 46, 77, 111, 100, 101, 108]

/-- Two names of the table. -/
def someKeys : List Bytes := [exifImageMake, exifImageModel]

/-- **The text is ambiguous**: a make and a model, both `X`, or a make that
reads `XExif.Image.ModelX`. -/
theorem not_always_unambiguous :
    ¬ ∀ items items' : List ExifItem, Keyed (· ∈ someKeys) items → Keyed (· ∈ someKeys) items' →
        items ≠ items' → exifStr items ≠ exifStr items' := by
  intro hall
  exact hall [⟨exifImageMake, [88]⟩, ⟨exifImageModel, [88]⟩]
    [⟨exifImageMake, [88] ++ exifImageModel ++ [88]⟩] (by simp [Keyed, someKeys])
    (by simp [Keyed, someKeys]) (by decide) (by decide)

/-- A make alone. -/
theorem unambiguous_make : Unambiguous (· ∈ someKeys) [⟨exifImageMake, [88]⟩] :=
  (unambiguous_iff (by decide : ∀ k, k ∈ someKeys → k ≠ []) (by simp [Keyed, someKeys])).mpr
    (Or.inr ⟨_, rfl, by decide, by decide⟩)

end Jpgsync
