import Jpgsync.Lib.ByteBits
import Jpgsync.Pipeline

/-!
# Offer — `found_bitmask` on both sides

The downloader answers an offer of hashes with a bitmask of those it
already has (`peer.cpp`, *figure out missing hashes*), the uploader reads
the bitmask and sends the files whose bit is clear. Both loops move a byte
cursor `found` and a bit counter `found_bit` of their own; they are
modelled with these cursors, and an access outside the buffer is `none`.

The downloader's `continue` leaves both cursors where they are when a hash
is found, and neither side reduces `found_bit` modulo `CHAR_BIT`. The
second half of the module says what the two loops compute.
-/

namespace Jpgsync

open ByteBits

/-- `CHAR_BIT`. -/
abbrev charBit : Nat := 8

/-- `found += (++found_bit % CHAR_BIT == 0)`: the new `found`. -/
def nextFound (found foundBit : Nat) : Nat :=
  found + if (foundBit + 1) % charBit = 0 then 1 else 0

/-- `(hash_count + CHAR_BIT - 1) / CHAR_BIT`. -/
def foundBitmaskSize (hashCount : Nat) : Nat := (hashCount + charBit - 1) / charBit

/-! ## The downloader's loop -/

/-- The variables of the loop that answers an offer. -/
structure Answer where
  foundBitmask : Bytes
  found : Nat
  foundBit : Nat
  missingHashes : List ExifHash
deriving DecidableEq, Repr

/-- One iteration on a hash of the offer. -/
def answerHash (contains : ExifHash → Bool) (hash : ExifHash) (s : Answer) : Option Answer :=
  if contains hash then
    -- `emplace_back` is undone by `pop_back`, and `continue` skips the cursors
    if s.found < s.foundBitmask.length then
      some { s with foundBitmask := s.foundBitmask.modify s.found (orBit · s.foundBit) }
    else none
  else
    some { s with
      missingHashes := s.missingHashes ++ [hash]
      found := nextFound s.found s.foundBit
      foundBit := s.foundBit + 1 }

/-- `for (bytes = buf; bytes != bytes_end; bytes += sizeof(ExifHash))`. -/
def answerLoop (contains : ExifHash → Bool) (buf : Bytes) (bytesEnd bytes : Nat)
    (s : Answer) : Option Answer :=
  if bytes = bytesEnd then some s
  else if bytes + sizeofExifHash ≤ buf.length then
    (answerHash contains (.ofDigest ((buf.drop bytes).take sizeofExifHash)) s).bind fun s' =>
      answerLoop contains buf bytesEnd (bytes + sizeofExifHash) s'
  else none
termination_by buf.length - bytes
decreasing_by simp only [sizeofExifHash] at *; omega

/-- The answer to an offer of `buf.length / sizeof(ExifHash)` hashes, with a
bitmask array of `size` bytes: the cleared array and the loop. -/
def answerOffer (contains : ExifHash → Bool) (size : Nat) (buf : Bytes) : Option Answer :=
  answerLoop contains buf buf.length 0 ⟨List.replicate size 0, 0, 0, []⟩

/-! ## The uploader's loop -/

/-- The uploader's cursors into the bitmask it received. -/
structure MaskCursor where
  foundBitmask : Bytes
  found : Nat
  foundBit : Nat
deriving DecidableEq, Repr

namespace MaskCursor

def start (foundBitmask : Bytes) : MaskCursor := ⟨foundBitmask, 0, 0⟩

/-- `!(*found & (1 << found_bit))`; `none` outside the bitmask. -/
def wants (c : MaskCursor) : Option Bool :=
  (c.foundBitmask[c.found]?).map fun b => !hasBit b c.foundBit

/-- To the next entry. -/
def next (c : MaskCursor) : MaskCursor :=
  { c with found := nextFound c.found c.foundBit, foundBit := c.foundBit + 1 }

end MaskCursor

/-- The entries the uploader sends, in order. -/
def uploadLoop : MaskCursor → List Entry → Option (List Entry)
  | _, [] => some []
  | c, e :: es =>
    match c.wants with
    | none => none
    | some true => (uploadLoop c.next es).map (e :: ·)
    | some false => uploadLoop c.next es

/-! ## What the downloader's loop computes -/

/-- The bit position used for each found hash: the number of missing
hashes before it, starting from `missing`. -/
def foundSlots {α : Type*} (contains : α → Bool) : List α → Nat → List Nat
  | [], _ => []
  | h :: hs, missing =>
    if contains h then missing :: foundSlots contains hs missing
    else foundSlots contains hs (missing + 1)

/-- Bit `j` of byte `k` of a bitmask; a bitmask too short has none. -/
def maskBit (mask : Bytes) (k j : Nat) : Bool := (mask[k]?).elim false fun b => hasBit b j

theorem nextFound_div (i : Nat) : nextFound (i / charBit) i = (i + 1) / charBit := by
  simp only [nextFound, charBit]
  split <;> omega

theorem maskBit_modify {mask : Bytes} {k : Nat} (hk : k < mask.length) (i k' j : Nat) :
    maskBit (mask.modify k (orBit · i)) k' j =
      (maskBit mask k' j || (decide (k = k') && (decide (i = j) && decide (j < charBit)))) := by
  simp only [maskBit, List.getElem?_modify]
  by_cases hkk : k = k'
  · subst hkk
    simp [List.getElem?_eq_getElem hk, hasBit_orBit]
  · simp [hkk]

/-- The state of the answering loop after `missing` missing hashes. -/
structure AnswerAt (missing : Nat) (s : Answer) : Prop where
  found : s.found = missing / charBit
  foundBit : s.foundBit = missing

theorem answerHash_found {contains : ExifHash → Bool} {h : ExifHash} {s : Answer} {m : Nat}
    (hs : AnswerAt m s) (hh : contains h = true) (hm : m / charBit < s.foundBitmask.length) :
    ∃ s', answerHash contains h s = some s' ∧ AnswerAt m s' ∧
      s'.foundBitmask.length = s.foundBitmask.length ∧
      s'.missingHashes = s.missingHashes ∧
      ∀ k j, maskBit s'.foundBitmask k j =
        (maskBit s.foundBitmask k j ||
          (decide (m / charBit = k) && (decide (m = j) && decide (j < charBit)))) := by
  have hlt : s.found < s.foundBitmask.length := by
    rw [hs.found]
    exact hm
  refine ⟨{ s with foundBitmask := s.foundBitmask.modify s.found (orBit · s.foundBit) },
    by rw [answerHash, if_pos hh, if_pos hlt], ⟨hs.found, hs.foundBit⟩, by simp, rfl,
    fun k j => ?_⟩
  simp only [hs.found, hs.foundBit]
  exact maskBit_modify hm m k j

theorem answerHash_missing {contains : ExifHash → Bool} {h : ExifHash} {s : Answer} {m : Nat}
    (hs : AnswerAt m s) (hh : contains h = false) :
    answerHash contains h s = some { s with
      missingHashes := s.missingHashes ++ [h]
      found := (m + 1) / charBit
      foundBit := m + 1 } := by
  rw [answerHash, if_neg (by simp [hh]), hs.found, hs.foundBit, nextFound_div]

/-- **The answering loop.** Over the hashes `hs` from offset `off` of the
offer it never leaves a buffer, collects the missing hashes in order, and
sets exactly the slots of the found ones, those below eight only. -/
theorem answerLoop_spec (contains : ExifHash → Bool) (buf : Bytes) :
    ∀ (hs : List ExifHash) (off m : Nat) (s : Answer),
      buf.drop off = ExifHash.digests hs → off ≤ buf.length → AnswerAt m s →
      m + hs.length ≤ s.foundBitmask.length * charBit →
      ∃ s', answerLoop contains buf buf.length off s = some s' ∧
        s'.foundBitmask.length = s.foundBitmask.length ∧
        s'.missingHashes = s.missingHashes ++ hs.filter (fun h => !contains h) ∧
        ∀ k j, maskBit s'.foundBitmask k j =
          (maskBit s.foundBitmask k j ||
            (decide (k = 0) && decide (j < charBit) && decide (j ∈ foundSlots contains hs m))) := by
  intro hs
  induction hs with
  | nil =>
      intro off m s hbuf hoff hs _
      have hoff' : off = buf.length := by
        have := congrArg List.length hbuf
        simp only [List.length_drop, RecordCodec.pack_nil, List.length_nil] at this
        omega
      refine ⟨s, by rw [answerLoop, if_pos hoff'], rfl, by simp, fun k j => by simp [foundSlots]⟩
  | cons h hs ih =>
      intro off m s hbuf hoff hs' hroom
      have hlen : buf.length - off = (hs.length + 1) * sizeofExifHash := by
        rw [← List.length_drop, hbuf, ExifHash.length_digests, List.length_cons]
      have hne : off ≠ buf.length := by
        intro heq
        rw [heq, Nat.sub_self] at hlen
        simp [sizeofExifHash] at hlen
      have hin : off + sizeofExifHash ≤ buf.length := by
        simp only [sizeofExifHash] at hlen ⊢
        omega
      have hread : ExifHash.ofDigest ((buf.drop off).take sizeofExifHash) = h := by
        rw [hbuf, ExifHash.take_digests, ExifHash.ofDigest_toDigest]
      have hrest : buf.drop (off + sizeofExifHash) = ExifHash.digests hs := by
        rw [← List.drop_drop, hbuf, ExifHash.drop_digests]
      rw [List.length_cons] at hroom
      rw [answerLoop, if_neg hne, if_pos hin, hread]
      cases hh : contains h with
      -- found: the cursors stay, so the slot is the number of missing hashes before it
      | true =>
          have hm : m / charBit < s.foundBitmask.length := by
            simp only [charBit] at hroom ⊢
            omega
          obtain ⟨s₁, hs₁, hat, hlen₁, hmiss₁, hbits₁⟩ := answerHash_found hs' hh hm
          obtain ⟨s', hs'', hlen', hmiss', hbits'⟩ :=
            ih (off + sizeofExifHash) m s₁ hrest hin hat (by rw [hlen₁]; omega)
          refine ⟨s', by rw [hs₁]; exact hs'', by rw [hlen', hlen₁], ?_, fun k j => ?_⟩
          · rw [hmiss', hmiss₁]
            simp [hh]
          · rw [hbits', hbits₁, foundSlots, if_pos hh]
            by_cases hj : j < charBit
            · by_cases hmj : m = j
              · subst hmj
                simp only [Nat.div_eq_of_lt hj, hj, List.mem_cons, true_or, decide_true,
                  Bool.and_true, Bool.or_assoc]
                by_cases hk : k = 0
                · simp [hk]
                · simp [hk, Ne.symm hk]
              · simp [hmj, Ne.symm hmj]
            · simp [hj]
      -- missing: the cursors move on and no bit is set
      | false =>
          rw [answerHash_missing hs' hh]
          obtain ⟨s', hs'', hlen', hmiss', hbits'⟩ :=
            ih (off + sizeofExifHash) (m + 1)
              { s with
                missingHashes := s.missingHashes ++ [h]
                found := (m + 1) / charBit
                foundBit := m + 1 } hrest hin ⟨rfl, rfl⟩ (by dsimp only; omega)
          refine ⟨s', hs'', hlen', ?_, fun k j => ?_⟩
          · rw [hmiss']
            simp [hh]
          · rw [hbits', foundSlots, if_neg (by simp [hh])]

/-- A cleared bitmask. -/
theorem maskBit_replicate (size k j : Nat) : maskBit (List.replicate size 0) k j = false := by
  rw [maskBit, List.getElem?_replicate]
  split <;> simp

theorem foundBitmaskSize_mono {n m : Nat} (h : n ≤ m) :
    foundBitmaskSize n ≤ foundBitmaskSize m :=
  Nat.div_le_div_right (Nat.sub_le_sub_right (Nat.add_le_add_right h _) _)

/-- **The answer to an offer.** The bitmask array need only have room for
one bit per offered hash. -/
theorem answerOffer_spec (contains : ExifHash → Bool) {size : Nat} {hs : List ExifHash}
    (hroom : hs.length ≤ size * charBit) :
    ∃ s, answerOffer contains size (ExifHash.digests hs) = some s ∧
      s.foundBitmask.length = size ∧
      s.missingHashes = hs.filter (fun h => !contains h) ∧
      ∀ k j, maskBit s.foundBitmask k j =
        (decide (k = 0) && decide (j < charBit) && decide (j ∈ foundSlots contains hs 0)) := by
  obtain ⟨s, hs', hlen, hmiss, hbits⟩ :=
    answerLoop_spec contains (ExifHash.digests hs) hs 0 0 ⟨List.replicate size 0, 0, 0, []⟩
      rfl (Nat.zero_le _) ⟨rfl, rfl⟩ (by simpa using hroom)
  refine ⟨s, hs', by simpa using hlen, by simpa using hmiss, fun k j => ?_⟩
  rw [hbits, maskBit_replicate, Bool.false_or]

/-! ## What the uploader's loop computes -/

/-- The elements of a list, numbered from `i`, that are not skipped. -/
def keepFrom {α : Type*} (skip : Nat → Bool) : Nat → List α → List α
  | _, [] => []
  | i, a :: as => if skip i then keepFrom skip (i + 1) as else a :: keepFrom skip (i + 1) as

/-- The uploader's cursor at entry `i`. -/
def cursorAt (mask : Bytes) (i : Nat) : MaskCursor := ⟨mask, i / charBit, i⟩

theorem next_cursorAt (mask : Bytes) (i : Nat) :
    (cursorAt mask i).next = cursorAt mask (i + 1) := by
  simp [cursorAt, MaskCursor.next, nextFound_div]

theorem wants_cursorAt {mask : Bytes} {i : Nat} (h : i < mask.length * charBit) :
    (cursorAt mask i).wants = some !maskBit mask (i / charBit) i := by
  have hlt : i / charBit < mask.length := Nat.div_lt_of_lt_mul (by rwa [Nat.mul_comm])
  simp [cursorAt, MaskCursor.wants, maskBit, List.getElem?_eq_getElem hlt]

/-- **The uploading loop.** With one bit per entry it never leaves the
bitmask and sends the entries whose bit is clear, where entry `i` is looked
up as bit `i` of byte `i / 8`. -/
theorem uploadLoop_spec (mask : Bytes) :
    ∀ (es : List Entry) (i : Nat), i + es.length ≤ mask.length * charBit →
      uploadLoop (cursorAt mask i) es =
        some (keepFrom (fun i => maskBit mask (i / charBit) i) i es) := by
  intro es
  induction es with
  | nil => intro i _; rfl
  | cons e es ih =>
      intro i hroom
      rw [List.length_cons] at hroom
      have hrest := ih (i + 1) (by omega)
      rw [uploadLoop, wants_cursorAt (by omega), next_cursorAt, hrest, keepFrom]
      cases maskBit mask (i / charBit) i <;> simp

end Jpgsync
