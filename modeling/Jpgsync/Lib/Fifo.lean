import Mathlib.Data.List.Basic

/-!
# Fifo — a one-way stream with its whole history

A stream keeps everything that was ever written, how much of it the
reader has consumed, and whether the writing end is closed. The cursor
bound is a field, so a stream whose reader is ahead of its writer cannot
be built. `pending` is what is still to be read.

`fill` is one `read`-style call of a reader that collects `want` elements:
it moves a nonempty chunk of any size. The point of the module is
`fill_conserves`: such a call never changes what was collected followed by
what is pending, which is how a message is followed through any
fragmentation.
-/

/-- A FIFO stream with its history. -/
structure Fifo (α : Type*) where
  sent : List α
  taken : Nat
  closed : Bool
  taken_le : taken ≤ sent.length
deriving DecidableEq

namespace Fifo

variable {α : Type*}

/-- A fresh stream. -/
def empty : Fifo α := ⟨[], 0, false, Nat.le_refl 0⟩

/-- A stream of which `xs` was written before its writer closed it. -/
def closedOf (xs : List α) : Fifo α := ⟨xs, 0, true, Nat.zero_le _⟩

/-- What was written and not yet read. -/
def pending (s : Fifo α) : List α := s.sent.drop s.taken

/-- Write `xs`. -/
def push (s : Fifo α) (xs : List α) : Fifo α :=
  ⟨s.sent ++ xs, s.taken, s.closed, by
    rw [List.length_append]
    exact Nat.le_add_right_of_le s.taken_le⟩

/-- Close the writing end. -/
def close (s : Fifo α) : Fifo α := { s with closed := true }

/-- The reader sees the end of the stream. -/
def atEnd (s : Fifo α) : Bool := s.closed && s.pending.isEmpty

/-- Read exactly `n` elements; `none` when fewer are there. -/
def pop (s : Fifo α) (n : Nat) : Option (List α × Fifo α) :=
  if h : s.taken + n ≤ s.sent.length then
    some (s.pending.take n, ⟨s.sent, s.taken + n, s.closed, h⟩)
  else none

@[simp] theorem pending_empty : (empty : Fifo α).pending = [] := rfl

@[simp] theorem closed_empty : (empty : Fifo α).closed = false := rfl

@[simp] theorem pending_closedOf (xs : List α) : (closedOf xs).pending = xs := rfl

@[simp] theorem closed_closedOf (xs : List α) : (closedOf xs).closed = true := rfl

@[simp] theorem sent_push (s : Fifo α) (xs : List α) :
    (s.push xs).sent = s.sent ++ xs := rfl

@[simp] theorem closed_push (s : Fifo α) (xs : List α) :
    (s.push xs).closed = s.closed := rfl

@[simp] theorem pending_push (s : Fifo α) (xs : List α) :
    (s.push xs).pending = s.pending ++ xs := by
  simp [pending, push, List.drop_append_of_le_length s.taken_le]

@[simp] theorem sent_close (s : Fifo α) : s.close.sent = s.sent := rfl

@[simp] theorem pending_close (s : Fifo α) : s.close.pending = s.pending := rfl

@[simp] theorem closed_close (s : Fifo α) : s.close.closed = true := rfl

theorem atEnd_iff {s : Fifo α} : s.atEnd = true ↔ s.closed = true ∧ s.pending = [] := by
  simp [atEnd]

theorem length_pending (s : Fifo α) : s.pending.length = s.sent.length - s.taken := by
  simp [pending]

/-- What a read returns and leaves. -/
theorem pop_eq_some {s t : Fifo α} {n : Nat} {xs : List α} (h : s.pop n = some (xs, t)) :
    n ≤ s.pending.length ∧ xs = s.pending.take n ∧ t.pending = s.pending.drop n ∧
      t.sent = s.sent ∧ t.closed = s.closed := by
  unfold pop at h
  split at h
  · rename_i hle
    obtain ⟨rfl, rfl⟩ : s.pending.take n = xs ∧ _ = t := by simpa using h
    refine ⟨by rw [length_pending]; omega, rfl, ?_, rfl, rfl⟩
    simp [pending, List.drop_drop]
  · cases h

theorem pop_isSome {s : Fifo α} {n : Nat} (h : n ≤ s.pending.length) :
    (s.pop n).isSome := by
  have hle : s.taken + n ≤ s.sent.length := by
    have := s.taken_le
    rw [length_pending] at h
    omega
  simp [pop, hle]

/-- One read: the element that was next in the stream. -/
theorem pop_one {s t : Fifo α} {xs : List α} (h : s.pop 1 = some (xs, t)) :
    ∃ x, xs = [x] ∧ s.pending = x :: t.pending ∧ t.sent = s.sent ∧ t.closed = s.closed := by
  obtain ⟨hlen, rfl, ht, hsent, hclosed⟩ := pop_eq_some h
  cases hp : s.pending with
  | nil => simp [hp] at hlen
  | cons x rest => exact ⟨x, by simp, by simp [ht, hp], hsent, hclosed⟩

/-! ## Collecting a message chunk by chunk -/

/-- One call of a reader that has `acc` of the `want` elements it needs:
`n` elements arrive, at least one and no more than asked for. -/
def fill (s : Fifo α) (want : Nat) (acc : List α) (n : Nat) :
    Option (List α × Fifo α) :=
  if 0 < n ∧ acc.length + n ≤ want then
    (s.pop n).map fun r => (acc ++ r.1, r.2)
  else none

/-- **Conservation**: a call moves the border between collected and pending
and changes nothing else. -/
theorem fill_conserves {s t : Fifo α} {want n : Nat} {acc acc' : List α}
    (h : s.fill want acc n = some (acc', t)) :
    acc' ++ t.pending = acc ++ s.pending ∧ acc'.length = acc.length + n ∧
      acc'.length ≤ want ∧ acc <+: acc' ∧ t.sent = s.sent ∧ t.closed = s.closed := by
  unfold fill at h
  split at h
  · rename_i hn
    obtain ⟨⟨xs, u⟩, hpop, heq⟩ := Option.map_eq_some_iff.mp h
    obtain ⟨rfl, rfl⟩ : acc ++ xs = acc' ∧ u = t := by simpa using heq
    obtain ⟨hlen, rfl, ht, hsent, hclosed⟩ := pop_eq_some hpop
    have hxs : (s.pending.take n).length = n := by simp [hlen]
    refine ⟨?_, by rw [List.length_append, hxs], ?_, List.prefix_append _ _, hsent, hclosed⟩
    · rw [ht, List.append_assoc, List.take_append_drop]
    · rw [List.length_append, hxs]
      exact hn.2
  · cases h

/-- A call moves at least one element. -/
theorem length_fill {s t : Fifo α} {want n : Nat} {acc acc' : List α}
    (h : s.fill want acc n = some (acc', t)) : acc.length < acc'.length := by
  have hlen := (fill_conserves h).2.1
  unfold fill at h
  split at h
  · omega
  · cases h

/-- A reader that still needs elements can make a call as soon as one is
pending. -/
theorem fill_enabled {s : Fifo α} {want : Nat} {acc : List α}
    (hacc : acc.length < want) (hs : s.pending ≠ []) : (s.fill want acc 1).isSome := by
  have hlen : 1 ≤ s.pending.length := List.length_pos_iff.mpr hs
  have hle : acc.length + 1 ≤ want := hacc
  simp [fill, hle, pop_isSome hlen]

end Fifo
