import Jpgsync.Lib.Fifo
import Jpgsync.ExifHash
import Mathlib.Algebra.Group.Nat.Defs

/-!
# Protocol — reading and writing on a sync connection

`Protocol<SOCK_STREAM>` of `protocol.hpp`, one system call at a time. A
`read` or `write` moves any number of bytes between one and what was asked
for; which number is the `k` of the caller's step. `ReadFully` and
`WriteFully` are what their callers repeat: `readExactly` and
`writeExactly` say what the next call does.
-/

namespace Jpgsync

/-- The next call inside `ReadExactly`. -/
inductive ReadResult where
  | complete                                   -- returns true
  | short                                      -- the stream has ended: returns false
  | more (buf : Bytes) (input : Fifo UInt8)
deriving DecidableEq

/-- `ReadExactly(fd, buf, count)` with `buf` read so far. -/
def readExactly (input : Fifo UInt8) (count : Nat) (buf : Bytes) (k : Nat) :
    Option ReadResult :=
  -- also for a count of zero: `read` then returns zero at once
  if buf.length = count then some .complete
  else if input.atEnd then some .short
  else (input.fill count buf k).map fun r => .more r.1 r.2

/-- `ReadByte`: the byte, or `none` at the end of the stream. -/
def readByte (input : Fifo UInt8) : Option (Option UInt8 × Fifo UInt8) :=
  if input.atEnd then some (none, input)
  else (input.pop 1).map fun r => (r.1.head?, r.2)

/-- The next call inside `WriteExactly`. -/
inductive WriteResult where
  | complete
  | more (rest : Bytes) (output : Fifo UInt8)
deriving DecidableEq

/-- `WriteExactly` with `rest` still to be written. -/
def writeExactly (output : Fifo UInt8) (rest : Bytes) (k : Nat) : Option WriteResult :=
  if rest.length = 0 then some .complete
  else if 0 < k ∧ k ≤ rest.length then some (.more (rest.drop k) (output.push (rest.take k)))
  else none

/-- The four bytes of `WriteFileSize`. -/
def writeFileSize (fileSize : Nat) : Bytes := toNetworkOrderByte (UInt32.ofNat fileSize)

/-- `ReadFileSize` on its four bytes. -/
def readFileSize (buf : Bytes) : Nat := (bytesToWord32 buf 0).toNat

/-- `sizeof(uint32_t)`. -/
abbrev sizeofFileSize : Nat := 4

/-! ## What the calls do -/

variable {input input' output output' : Fifo UInt8} {count k : Nat} {buf buf' rest rest' : Bytes}

theorem readExactly_complete (h : readExactly input count buf k = some .complete) :
    buf.length = count := by
  unfold readExactly at h
  split at h
  · assumption
  · split at h
    · cases h
    · obtain ⟨_, _, h⟩ := Option.map_eq_some_iff.mp h
      cases h

theorem readExactly_short (h : readExactly input count buf k = some .short) :
    buf.length ≠ count ∧ input.closed = true ∧ input.pending = [] := by
  unfold readExactly at h
  split at h
  · cases h
  · rename_i hlen
    split at h
    · rename_i hend
      exact ⟨hlen, Fifo.atEnd_iff.mp hend⟩
    · obtain ⟨_, _, h⟩ := Option.map_eq_some_iff.mp h
      cases h

/-- A call that does not end the reading brings something. -/
theorem length_readExactly (h : readExactly input count buf k = some (.more buf' input')) :
    buf.length < buf'.length := by
  unfold readExactly at h
  split at h
  · cases h
  · split at h
    · cases h
    · obtain ⟨r, hr, heq⟩ := Option.map_eq_some_iff.mp h
      cases heq
      exact Fifo.length_fill hr

/-- There is a next call unless bytes are needed, none is pending, and more
may come. -/
theorem readExactly_isSome (hbuf : buf.length ≤ count)
    (hready : input.closed = true ∨ (buf.length ≠ count → input.pending ≠ [])) :
    (readExactly input count buf 1).isSome := by
  unfold readExactly
  split
  · rfl
  · rename_i hlen
    by_cases hpending : input.pending = []
    · have hclosed : input.closed = true :=
        hready.resolve_right fun h => h hlen hpending
      rw [if_pos (Fifo.atEnd_iff.mpr ⟨hclosed, hpending⟩)]
      rfl
    · rw [if_neg fun hend => hpending (Fifo.atEnd_iff.mp hend).2, Option.isSome_map]
      exact Fifo.fill_enabled (Nat.lt_of_le_of_ne hbuf hlen) hpending

theorem readByte_isSome (hready : input.closed = true ∨ input.pending ≠ []) :
    (readByte input).isSome := by
  unfold readByte
  by_cases hpending : input.pending = []
  · have hclosed : input.closed = true := hready.resolve_right fun h => h hpending
    rw [if_pos (Fifo.atEnd_iff.mpr ⟨hclosed, hpending⟩)]
    rfl
  · rw [if_neg fun hend => hpending (Fifo.atEnd_iff.mp hend).2, Option.isSome_map]
    exact Fifo.pop_isSome (List.length_pos_iff.mpr hpending)

theorem writeExactly_isSome : (writeExactly output rest 1).isSome := by
  unfold writeExactly
  split
  · rfl
  · rename_i hlen
    rw [if_pos ⟨Nat.one_pos, Nat.pos_of_ne_zero hlen⟩]
    rfl

/-- **Reading conserves**: what is buffered followed by what is pending
stays the same. -/
theorem readExactly_more (h : readExactly input count buf k = some (.more buf' input')) :
    buf' ++ input'.pending = buf ++ input.pending ∧ buf'.length ≤ count ∧
      input'.sent = input.sent ∧ input'.closed = input.closed := by
  unfold readExactly at h
  split at h
  · cases h
  · split at h
    · cases h
    · obtain ⟨r, hr, heq⟩ := Option.map_eq_some_iff.mp h
      cases heq
      obtain ⟨hcons, _, hle, _, hsent, hclosed⟩ := Fifo.fill_conserves hr
      exact ⟨hcons, hle, hsent, hclosed⟩

theorem readByte_none (h : readByte input = some (none, input')) :
    input.closed = true ∧ input.pending = [] ∧ input' = input := by
  unfold readByte at h
  split at h
  · rename_i hend
    cases h
    exact ⟨(Fifo.atEnd_iff.mp hend).1, (Fifo.atEnd_iff.mp hend).2, rfl⟩
  · obtain ⟨r, hr, heq⟩ := Option.map_eq_some_iff.mp h
    obtain ⟨x, hx, _⟩ := Fifo.pop_one hr
    simp [hx] at heq

theorem readByte_some {byte : UInt8} (h : readByte input = some (some byte, input')) :
    input.pending = byte :: input'.pending ∧ input'.sent = input.sent ∧
      input'.closed = input.closed := by
  unfold readByte at h
  split at h
  · cases h
  · obtain ⟨r, hr, heq⟩ := Option.map_eq_some_iff.mp h
    obtain ⟨x, hx, hp, hsent, hclosed⟩ := Fifo.pop_one hr
    simp only [hx, List.head?_cons, Prod.mk.injEq, Option.some.injEq] at heq
    obtain ⟨rfl, rfl⟩ := heq
    exact ⟨hp, hsent, hclosed⟩

theorem writeExactly_complete (h : writeExactly output rest k = some .complete) : rest = [] := by
  unfold writeExactly at h
  split at h
  · rename_i hlen
    exact List.length_eq_zero_iff.mp hlen
  · split at h <;> cases h

/-- **Writing conserves**: what is pending followed by what is still to be
written stays the same. -/
theorem writeExactly_more (h : writeExactly output rest k = some (.more rest' output')) :
    output'.pending ++ rest' = output.pending ++ rest ∧
      output'.sent ++ rest' = output.sent ++ rest ∧ output'.closed = output.closed ∧
      rest ≠ [] := by
  unfold writeExactly at h
  split at h
  · cases h
  · rename_i hlen
    split at h
    · cases h
      refine ⟨by simp, by simp, rfl, ?_⟩
      rintro rfl
      exact hlen rfl
    · cases h

/-- A call that does not end the writing writes something. -/
theorem length_writeExactly (h : writeExactly output rest k = some (.more rest' output')) :
    rest'.length < rest.length := by
  unfold writeExactly at h
  split at h
  · cases h
  · split at h
    · cases h
      rw [List.length_drop]
      omega
    · cases h

/-! ## File sizes -/

@[simp] theorem length_writeFileSize (n : Nat) : (writeFileSize n).length = sizeofFileSize := rfl

/-- **A size that fits 32 bits** arrives. -/
theorem readFileSize_writeFileSize {n : Nat} (h : n < 2 ^ 32) :
    readFileSize (writeFileSize n) = n := by
  have hword : bytesToWord32 (toNetworkOrderByte (UInt32.ofNat n)) 0 = UInt32.ofNat n := by
    simp only [toNetworkOrderByte, bytesToWord32, List.getD_cons_zero, List.getD_cons_succ,
      Nat.reduceAdd]
    exact ExifHash.word_of_networkOrder _
  rw [readFileSize, writeFileSize, hword, UInt32.toNat_ofNat', Nat.mod_eq_of_lt h]

/-- Four bytes are the size read from them. -/
theorem writeFileSize_readFileSize {buf : Bytes} (h : buf.length = sizeofFileSize) :
    writeFileSize (readFileSize buf) = buf := by
  match buf, h with
  | [a, b, c, d], _ =>
    rw [writeFileSize, readFileSize, UInt32.ofNat_toNat, ExifHash.networkOrder_of_word]

theorem readFileSize_lt (buf : Bytes) : readFileSize buf < 2 ^ 32 := UInt32.toNat_lt _

end Jpgsync
