import Jpgsync.Offer

/-!
# Offer — Decoding

The uploader's loop as a decoder of the bitmask. Its test at entry `i`
shifts by `i`, not by `i % CHAR_BIT`, so from the ninth entry on no bit of
a byte can be set under the shift: these entries are always uploaded,
whatever was answered (`decides_iff`).
-/

namespace Jpgsync

open ByteBits

/-- The tests of the loop, entry by entry; `none` outside the bitmask. -/
def decisions : MaskCursor → List Entry → Option (List Bool)
  | _, [] => some []
  | c, _ :: es => c.wants.bind fun upload => (decisions c.next es).map (upload :: ·)

/-- The entries for which the test came out true. -/
def chosen : List Entry → List Bool → List Entry
  | e :: es, upload :: rest => if upload then e :: chosen es rest else chosen es rest
  | _, _ => []

/-- The loop uploads what its tests say. -/
theorem uploadLoop_eq_chosen (c : MaskCursor) (es : List Entry) :
    uploadLoop c es = (decisions c es).map (chosen es) := by
  induction es generalizing c with
  | nil => rfl
  | cons e es ih =>
      rw [uploadLoop, decisions, ih]
      cases c.wants with
      | none => rfl
      | some upload =>
          cases upload <;> cases decisions c.next es <;> rfl

/-- **The tests.** With one bit per entry none is out of range, and entry
`i` is tested as bit `i` of byte `i / 8`. -/
theorem decisions_spec (mask : Bytes) :
    ∀ (es : List Entry) (i : Nat), i + es.length ≤ mask.length * charBit →
      decisions (cursorAt mask i) es =
        some ((List.range' i es.length).map fun i => !maskBit mask (i / charBit) i) := by
  intro es
  induction es with
  | nil => intro i _; rfl
  | cons e es ih =>
      intro i hroom
      rw [List.length_cons] at hroom
      rw [decisions, wants_cursorAt (by omega), next_cursorAt, ih (i + 1) (by omega)]
      rfl

/-- Under a shift of eight or more there is no bit. -/
theorem maskBit_of_le (mask : Bytes) (k : Nat) {j : Nat} (h : charBit ≤ j) :
    maskBit mask k j = false := by
  rw [maskBit]
  cases mask[k]? with
  | none => rfl
  | some b => exact hasBit_of_le b h

/-- Entry `i` of the offer is uploaded if and only if bit `i % 8` of byte
`i / 8` of the answer is clear, in the order of the entries. -/
def DecodesBits (mask : Bytes) (es : List Entry) : Prop :=
  ∃ uploads, decisions (.start mask) es = some uploads ∧
    uploadLoop (.start mask) es = some (chosen es uploads) ∧
    ∀ i < es.length, uploads[i]? = some !maskBit mask (i / charBit) (i % charBit)

/-- **When the bitmask is decoded bit by bit**: for an offer of any length
and an answer of its size, exactly when the answer has no bit set for an
entry after the first eight. -/
theorem decodes_bits_iff {mask : Bytes} {es : List Entry}
    (hmask : mask.length = foundBitmaskSize es.length) :
    DecodesBits mask es ↔
      ∀ i, charBit ≤ i → i < es.length → maskBit mask (i / charBit) (i % charBit) = false := by
  have hroom : 0 + es.length ≤ mask.length * charBit := by
    simp only [hmask, foundBitmaskSize, charBit]
    omega
  have htests := decisions_spec mask es 0 hroom
  have hget : ∀ i < es.length,
      ((List.range' 0 es.length).map fun i => !maskBit mask (i / charBit) i)[i]? =
        some !maskBit mask (i / charBit) i := by
    intro i hi
    rw [List.getElem?_map, List.getElem?_range' hi, Nat.zero_add, Nat.one_mul]
    rfl
  constructor
  · rintro ⟨uploads, hup, _, hall⟩ i hi hlt
    rw [show MaskCursor.start mask = cursorAt mask 0 from rfl, htests] at hup
    cases hup
    have hbit := hall i hlt
    -- the loop's own test is clear, so the bit of the answer has to be
    rw [hget i hlt, maskBit_of_le mask _ hi] at hbit
    simpa using hbit.symm
  · intro hclear
    refine ⟨_, htests, ?_, fun i hi => ?_⟩
    · rw [uploadLoop_eq_chosen, show MaskCursor.start mask = cursorAt mask 0 from rfl, htests]
      rfl
    · rw [hget i hi]
      by_cases h8 : i < charBit
      · rw [Nat.mod_eq_of_lt h8]
      · rw [maskBit_of_le mask _ (Nat.not_lt.mp h8), hclear i (Nat.not_lt.mp h8) hi]

/-- Nine entries. -/
def nineEntries : List Entry :=
  (List.range 9).map fun i => ⟨⟨UInt32.ofNat i, 0, 0, 0, 0⟩, [UInt8.ofNat (97 + i)]⟩

/-- **The ninth bit is not decoded**: the answer says that the ninth image
is held, and it is uploaded all the same. -/
theorem not_always_decodes_bits :
    ¬ ∀ (mask : Bytes) (es : List Entry), 1 ≤ es.length → es.length ≤ syncHashesPerPacket →
        mask.length = foundBitmaskSize es.length → DecodesBits mask es := by
  intro hall
  obtain ⟨uploads, hup, _, hbits⟩ := hall [0, 1] nineEntries (by decide) (by decide) (by decide)
  rw [show decisions (.start [0, 1]) nineEntries = some (List.replicate 9 true) by decide] at hup
  cases hup
  exact absurd (hbits 8 (by decide)) (by decide)

/-- The first two of nine images are held. -/
theorem decodes_bits_nineEntries : DecodesBits [3, 0] nineEntries :=
  (decodes_bits_iff (show [3, 0].length = foundBitmaskSize nineEntries.length by decide)).mpr
    (by
      intro i hi hlt
      have hlt' : i < 9 := hlt
      obtain rfl : i = 8 := by simp only [charBit] at hi; omega
      decide)

end Jpgsync
