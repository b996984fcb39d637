import Mathlib.Data.List.Basic

/-!
# Delimited — encodings that end by themselves

An encoding is self-delimiting when a reader can tell a value from
whatever follows it: two streams that agree and begin with encoded values
begin with the same value, and go on in the same way. Statements carry the
arbitrary rest, which is what lets them compose: fields of fixed length,
lists behind their length, and one field after another.
-/

/-- **Self-delimiting** on the values that are `ok`. -/
def SelfDelimiting {α β : Type*} (ok : α → Prop) (enc : α → List β) : Prop :=
  ∀ ⦃a b : α⦄ ⦃rest rest' : List β⦄, ok a → ok b → enc a ++ rest = enc b ++ rest' →
    a = b ∧ rest = rest'

namespace SelfDelimiting

variable {α β γ : Type*} {ok : α → Prop} {enc : α → List β}

/-- A field of fixed length. -/
theorem of_length {n : Nat} (hlen : ∀ a, ok a → (enc a).length = n)
    (hinj : ∀ a b, ok a → ok b → enc a = enc b → a = b) : SelfDelimiting ok enc := by
  intro a b rest rest' ha hb heq
  obtain ⟨henc, hrest⟩ := List.append_inj heq ((hlen a ha).trans (hlen b hb).symm)
  exact ⟨hinj a b ha hb henc, hrest⟩

/-- One field after another. -/
theorem prod {ok' : γ → Prop} {enc' : γ → List β} (h : SelfDelimiting ok enc)
    (h' : SelfDelimiting ok' enc') :
    SelfDelimiting (fun p : α × γ => ok p.1 ∧ ok' p.2) (fun p => enc p.1 ++ enc' p.2) := by
  rintro ⟨a, c⟩ ⟨b, d⟩ rest rest' ⟨ha, hc⟩ ⟨hb, hd⟩ heq
  rw [List.append_assoc, List.append_assoc] at heq
  obtain ⟨rfl, htail⟩ := h ha hb heq
  obtain ⟨rfl, hrest⟩ := h' hc hd htail
  exact ⟨rfl, hrest⟩

/-- A list behind its length. -/
theorem sized {okLength : Nat → Prop} {size : Nat → List β}
    (h : SelfDelimiting okLength size) :
    SelfDelimiting (fun xs : List β => okLength xs.length) (fun xs => size xs.length ++ xs) := by
  intro xs ys rest rest' hxs hys heq
  rw [List.append_assoc, List.append_assoc] at heq
  obtain ⟨hlen, htail⟩ := h hxs hys heq
  exact List.append_inj htail hlen

/-- What begins with one value and is all of another is just that value. -/
theorem head_eq (h : SelfDelimiting ok enc) {a b : α} {rest : List β} (ha : ok a) (hb : ok b)
    (heq : enc a ++ rest = enc b) : a = b ∧ rest = [] :=
  h ha hb (heq.trans (List.append_nil (enc b)).symm)

end SelfDelimiting
