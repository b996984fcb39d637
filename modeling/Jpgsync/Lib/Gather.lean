import Mathlib.Data.List.Basic

/-!
# Gather — chosen entries moved to the front by swaps

`gather` exchanges the entry at each chosen position with the entry at the
next position of the front. When the positions increase this brings the
chosen entries to the front in their order, while the entries that stood
there are scattered to where the chosen ones came from: `gather_entries`
says where everything goes.
-/

namespace Gather

variable {α : Type*}

/-- Exchange the entries at two positions. -/
def swapAt (xs : List α) (i j : Nat) : List α :=
  match xs[i]?, xs[j]? with
  | some a, some b => (xs.set i b).set j a
  | _, _ => xs

/-- Exchange the entry at each chosen position with that at `k`, `k + 1`, … -/
def gather (xs : List α) : Nat → List Nat → List α
  | _, [] => xs
  | k, i :: is => gather (swapAt xs k i) (k + 1) is

@[simp] theorem swapAt_self (xs : List α) (i : Nat) : swapAt xs i i = xs := by
  unfold swapAt
  cases h : xs[i]? with
  | none => rfl
  | some a =>
      obtain ⟨hi, rfl⟩ := List.getElem?_eq_some_iff.mp h
      simp

@[simp] theorem length_swapAt (xs : List α) (i j : Nat) : (swapAt xs i j).length = xs.length := by
  unfold swapAt
  split <;> simp

/-- The entry in front of those exchanged may be any. -/
theorem swapAt_set (xs : List α) (x : α) : swapAt (xs.set 0 x) 1 2 = (swapAt xs 1 2).set 0 x := by
  rcases xs with _ | ⟨a, _ | ⟨b, _ | ⟨c, xs⟩⟩⟩ <;> rfl

/-- An exchange loses nothing, -/
theorem perm_swapAt (xs : List α) (i j : Nat) : (swapAt xs i j).Perm xs := by
  unfold swapAt
  split
  · rename_i a b ha hb
    obtain ⟨hi, rfl⟩ := List.getElem?_eq_some_iff.mp ha
    obtain ⟨hj, rfl⟩ := List.getElem?_eq_some_iff.mp hb
    exact List.set_set_perm hi hj
  · exact List.Perm.refl xs

/-- and so do all of them. -/
theorem perm_gather (xs : List α) (k : Nat) (is : List Nat) : (gather xs k is).Perm xs := by
  induction is generalizing xs k with
  | nil => exact List.Perm.refl xs
  | cons i is ih => exact (ih (swapAt xs k i) (k + 1)).trans (perm_swapAt xs k i)

/-- Two entries and what is before, between and behind them. -/
theorem swapAt_split (xs ys zs : List α) (a b : α) :
    swapAt (xs ++ a :: (ys ++ b :: zs)) xs.length (xs.length + 1 + ys.length) =
      xs ++ b :: (ys ++ a :: zs) := by
  have hfirst : (xs ++ a :: (ys ++ b :: zs))[xs.length]? = some a := by simp
  have hsecond : (xs ++ a :: (ys ++ b :: zs))[xs.length + 1 + ys.length]? = some b := by
    rw [List.getElem?_append_right (by omega), show xs.length + 1 + ys.length - xs.length =
      ys.length + 1 by omega]
    simp
  simp only [swapAt, hfirst, hsecond]
  rw [List.set_append_right _ _ (Nat.le_refl _), Nat.sub_self, List.set_cons_zero,
    List.set_append_right _ _ (by omega), show xs.length + 1 + ys.length - xs.length =
      ys.length + 1 by omega, List.set_cons_succ, List.set_append_right _ _ (Nat.le_refl _),
    Nat.sub_self, List.set_cons_zero]

/-! ## Where everything goes -/

/-- What an entry moved over `pre` to the front leaves behind it: the first
entry has taken its place. -/
def leftBehind : List α → List α
  | [] => []
  | t :: pre => pre ++ [t]

theorem perm_leftBehind (pre : List α) : (leftBehind pre).Perm pre := by
  cases pre with
  | nil => exact List.Perm.refl _
  | cons t pre => exact List.perm_append_singleton t pre

@[simp] theorem mem_leftBehind {x : α} {pre : List α} : x ∈ leftBehind pre ↔ x ∈ pre :=
  (perm_leftBehind pre).mem_iff

@[simp] theorem length_leftBehind (pre : List α) : (leftBehind pre).length = pre.length :=
  (perm_leftBehind pre).length_eq

/-- One exchange. -/
theorem swapAt_front (front pre post : List α) (r : α) :
    swapAt (front ++ (pre ++ r :: post)) front.length (front.length + pre.length) =
      front ++ r :: (leftBehind pre ++ post) := by
  cases pre with
  | nil => simp [leftBehind]
  | cons t pre =>
      have h := swapAt_split front pre post t r
      rw [List.length_cons, show front.length + (pre.length + 1) = front.length + 1 + pre.length by
        omega, List.cons_append, h]
      simp [leftBehind]

/-- Chosen entries, each with what stands before it. -/
def entries : List (List α × α) → List α
  | [] => []
  | (pre, r) :: blocks => pre ++ r :: entries blocks

/-- The positions of the chosen entries when the first block begins at `n`. -/
def positions : Nat → List (List α × α) → List Nat
  | _, [] => []
  | n, (pre, _) :: blocks => (n + pre.length) :: positions (n + pre.length + 1) blocks

theorem entries_append (blocks blocks' : List (List α × α)) :
    entries (blocks ++ blocks') = entries blocks ++ entries blocks' := by
  induction blocks with
  | nil => rfl
  | cons block blocks ih =>
      obtain ⟨pre, r⟩ := block
      simp [entries, ih]

theorem positions_append (n : Nat) (blocks blocks' : List (List α × α)) :
    positions n (blocks ++ blocks') =
      positions n blocks ++ positions (n + (entries blocks).length) blocks' := by
  induction blocks generalizing n with
  | nil => rfl
  | cons block blocks ih =>
      obtain ⟨pre, r⟩ := block
      simp only [List.cons_append, positions, entries, List.length_append, List.length_cons, ih]
      rw [show n + pre.length + 1 + (entries blocks).length =
        n + (pre.length + ((entries blocks).length + 1)) by omega]

/-- What is not chosen, in the order the exchanges leave it. -/
def scattered : List α → List (List α × α) → List α
  | left, [] => left
  | left, (pre, _) :: blocks => scattered (leftBehind (left ++ pre)) blocks

theorem perm_scattered (left : List α) (blocks : List (List α × α)) :
    (scattered left blocks).Perm (left ++ (blocks.map Prod.fst).flatten) := by
  induction blocks generalizing left with
  | nil => simp [scattered]
  | cons block blocks ih =>
      obtain ⟨pre, r⟩ := block
      have h := (perm_leftBehind (left ++ pre)).append_right (blocks.map Prod.fst).flatten
      simpa [scattered] using (ih _).trans h

/-- **The chosen entries come to the front in their order**; the others are
scattered behind them. -/
theorem gather_entries (front left post : List α) (blocks : List (List α × α)) :
    gather (front ++ (left ++ (entries blocks ++ post))) front.length
        (positions (front.length + left.length) blocks) =
      front ++ (blocks.map Prod.snd ++ (scattered left blocks ++ post)) := by
  induction blocks generalizing front left with
  | nil => simp [entries, positions, gather, scattered]
  | cons block blocks ih =>
      obtain ⟨pre, r⟩ := block
      have hswap := swapAt_front front (left ++ pre) (entries blocks ++ post) r
      have hrest := ih (front ++ [r]) (leftBehind (left ++ pre))
      simp only [List.length_append, List.length_singleton, length_leftBehind, List.append_assoc,
        List.singleton_append] at hswap hrest
      simp only [entries, positions, gather, scattered, List.map_cons, List.append_assoc,
        List.cons_append]
      rw [show front.length + left.length + pre.length = front.length + (left.length + pre.length)
        by omega, hswap, show front.length + (left.length + pre.length) + 1 =
        front.length + 1 + (left.length + pre.length) by omega, hrest]

end Gather
