import Jpgsync.Offer
import Mathlib.Data.List.Basic

/-!
# Offer — Agreement

When does the uploader send exactly what the downloader waits for? The
downloader's slots are numbered by missing hashes, the uploader's by
entries; they are the same numbers only as long as nothing was found yet.
So the two sides agree exactly on offers of which the receiver holds at
most one hash, among the first eight (`round_agrees_iff`).
-/

namespace Jpgsync

/-- At most one of the offered hashes is held, and none after the first
`CHAR_BIT` of them. -/
def FoundOnceEarly {α : Type*} (contains : α → Bool) (hs : List α) : Prop :=
  hs.countP contains ≤ 1 ∧ ∀ h ∈ hs.drop charBit, contains h = false

instance {α : Type*} (contains : α → Bool) (hs : List α) :
    Decidable (FoundOnceEarly contains hs) :=
  inferInstanceAs (Decidable (_ ∧ _))

/-! ## Numbered lists -/

section Keep

variable {α β : Type*} {skip skip' : Nat → Bool}

theorem keepFrom_append (i : Nat) (as bs : List α) :
    keepFrom skip i (as ++ bs) = keepFrom skip i as ++ keepFrom skip (i + as.length) bs := by
  induction as generalizing i with
  | nil => simp [keepFrom]
  | cons a as ih =>
      rw [List.cons_append, keepFrom, keepFrom, ih, List.length_cons, Nat.add_right_comm,
        Nat.add_assoc]
      split <;> simp

theorem keepFrom_congr (i : Nat) (as : List α)
    (h : ∀ j, i ≤ j → j < i + as.length → skip j = skip' j) :
    keepFrom skip i as = keepFrom skip' i as := by
  induction as generalizing i with
  | nil => rfl
  | cons a as ih =>
      rw [List.length_cons] at h
      rw [keepFrom, keepFrom, h i (Nat.le_refl i) (by omega),
        ih (i + 1) (fun j hj hj' => h j (by omega) (by omega))]

theorem keepFrom_all (i : Nat) (as : List α)
    (h : ∀ j, i ≤ j → j < i + as.length → skip j = false) : keepFrom skip i as = as := by
  induction as generalizing i with
  | nil => rfl
  | cons a as ih =>
      rw [List.length_cons] at h
      rw [keepFrom, h i (Nat.le_refl i) (by omega),
        ih (i + 1) (fun j hj hj' => h j (by omega) (by omega))]
      simp

theorem map_keepFrom (f : α → β) (i : Nat) (as : List α) :
    (keepFrom skip i as).map f = keepFrom skip i (as.map f) := by
  induction as generalizing i with
  | nil => rfl
  | cons a as ih =>
      rw [keepFrom, List.map_cons, keepFrom, ← ih]
      split <;> simp

end Keep

/-! ## The slots of the found hashes -/

variable {α : Type*} {contains : α → Bool}

theorem foundSlots_append (as bs : List α) (m : Nat) :
    foundSlots contains (as ++ bs) m =
      foundSlots contains as m ++
        foundSlots contains bs (m + (as.length - as.countP contains)) := by
  induction as generalizing m with
  | nil => simp [foundSlots]
  | cons a as ih =>
      have hle : as.countP contains ≤ as.length := List.countP_le_length
      rw [List.cons_append, foundSlots, foundSlots, List.length_cons]
      cases ha : contains a with
      | true =>
          rw [List.countP_cons_of_pos ha]
          simp [ih]
      | false =>
          rw [List.countP_cons_of_neg (by simp [ha])]
          simp only [Bool.false_eq_true, if_false, ih]
          congr 2
          omega

theorem foundSlots_none {hs : List α} (h : ∀ x ∈ hs, contains x = false) (m : Nat) :
    foundSlots contains hs m = [] := by
  induction hs generalizing m with
  | nil => rfl
  | cons a hs ih =>
      rw [foundSlots, if_neg (by simp [h a])]
      exact ih (fun x hx => h x (List.mem_cons_of_mem _ hx)) (m + 1)

/-- No slot exceeds the number of missing hashes. -/
theorem foundSlots_le {hs : List α} {m j : Nat} (h : j ∈ foundSlots contains hs m) :
    j ≤ m + (hs.length - hs.countP contains) := by
  induction hs generalizing m with
  | nil => simp [foundSlots] at h
  | cons a hs ih =>
      have hle : hs.countP contains ≤ hs.length := List.countP_le_length
      rw [foundSlots] at h
      rw [List.length_cons]
      cases ha : contains a with
      | true =>
          rw [if_pos ha] at h
          rw [List.countP_cons_of_pos ha]
          rcases List.mem_cons.mp h with rfl | h
          · omega
          · have := ih h
            omega
      | false =>
          rw [if_neg (by simp [ha])] at h
          rw [List.countP_cons_of_neg (by simp [ha])]
          have := ih h
          omega

/-- The last held hash of an offer. -/
theorem exists_last_found {hs : List α} (h : ∃ x ∈ hs, contains x = true) :
    ∃ pre x post, hs = pre ++ x :: post ∧ contains x = true ∧
      ∀ y ∈ post, contains y = false := by
  induction hs with
  | nil => simp at h
  | cons a hs ih =>
      by_cases htail : ∃ x ∈ hs, contains x = true
      · obtain ⟨pre, x, post, rfl, hx, hpost⟩ := ih htail
        exact ⟨a :: pre, x, post, rfl, hx, hpost⟩
      · have hnone : ∀ y ∈ hs, contains y = false := fun y hy => by
          cases hc : contains y with
          | false => rfl
          | true => exact absurd ⟨y, hy, hc⟩ htail
        obtain ⟨x, hx, hc⟩ := h
        rcases List.mem_cons.mp hx with rfl | hx
        · exact ⟨[], x, hs, rfl, hc, hnone⟩
        · exact absurd ⟨x, hx, hc⟩ htail

/-! ## Sent and missing -/

/-- Entry `i` is left out when `i` is a slot below eight. -/
def skipped {α : Type*} (contains : α → Bool) (hs : List α) (i : Nat) : Bool :=
  decide (i < charBit) && decide (i ∈ foundSlots contains hs 0)

theorem countP_zero_iff {hs : List α} :
    hs.countP contains = 0 ↔ ∀ x ∈ hs, contains x = false := by
  rw [List.countP_eq_zero]
  simp

/-- With one held hash, its position is the only slot. -/
theorem keep_of_single {pre post : List α} {x : α} (hx : contains x = true)
    (hpre : ∀ y ∈ pre, contains y = false) (hpost : ∀ y ∈ post, contains y = false)
    (hlen : pre.length < charBit) :
    keepFrom (skipped contains (pre ++ x :: post)) 0 (pre ++ x :: post) =
      (pre ++ x :: post).filter (fun h => !contains h) := by
  have hslots : foundSlots contains (pre ++ x :: post) 0 = [pre.length] := by
    rw [foundSlots_append, foundSlots_none hpre, foundSlots, if_pos hx, foundSlots_none hpost,
      countP_zero_iff.mpr hpre]
    simp
  have hskip : ∀ j, skipped contains (pre ++ x :: post) j = decide (j = pre.length) := by
    intro j
    simp only [skipped, hslots, List.mem_singleton]
    by_cases hj : j = pre.length
    · simp [hj, hlen]
    · simp [hj]
  rw [keepFrom_append, keepFrom_all 0 pre (fun j _ hj => by rw [hskip]; simp; omega), keepFrom,
    keepFrom_all _ post (fun j hj _ => by rw [hskip]; simp; omega), hskip]
  have hf : ∀ {l : List α}, (∀ y ∈ l, contains y = false) →
      l.filter (fun h => !contains h) = l := by
    intro l hl
    rw [List.filter_eq_self]
    intro y hy
    simp [hl y hy]
  simp [hf hpre, hf hpost, hx]

/-- **Sent equals missing** exactly when at most one hash is held, early. -/
theorem keep_eq_missing_iff (hs : List α) :
    keepFrom (skipped contains hs) 0 hs = hs.filter (fun h => !contains h) ↔
      FoundOnceEarly contains hs := by
  by_cases hfound : ∃ x ∈ hs, contains x = true
  · obtain ⟨pre, x, post, rfl, hx, hpost⟩ := exists_last_found hfound
    have hle : pre.countP contains ≤ pre.length := List.countP_le_length
    have hcount : (pre ++ x :: post).countP contains = pre.countP contains + 1 := by
      rw [List.countP_append, List.countP_cons_of_pos hx, countP_zero_iff.mpr hpost]
    constructor
    · -- the last held hash must be left out, which bounds its position by its slot
      intro heq
      have hskip : skipped contains (pre ++ x :: post) pre.length = true := by
        by_contra hkeep
        have hmem : x ∈ (pre ++ x :: post).filter (fun h => !contains h) := by
          rw [← heq, keepFrom_append, keepFrom, Nat.zero_add, if_neg hkeep]
          simp
        simp [hx] at hmem
      simp only [skipped, Bool.and_eq_true, decide_eq_true_eq] at hskip
      obtain ⟨hlt, hslot⟩ := hskip
      rw [foundSlots_append, foundSlots, if_pos hx, foundSlots_none hpost] at hslot
      have hbound : pre.length ≤ pre.length - pre.countP contains := by
        rcases List.mem_append.mp hslot with hslot | hslot
        · simpa using foundSlots_le hslot
        · simpa using (List.mem_singleton.mp hslot).le
      have hzero : pre.countP contains = 0 := by omega
      refine ⟨by omega, fun h hh => ?_⟩
      have hsplit : pre ++ x :: post = (pre ++ [x]) ++ post := by simp
      rw [hsplit, List.drop_append, List.drop_eq_nil_of_le (by simp; omega),
        List.nil_append] at hh
      exact hpost h (List.mem_of_mem_drop hh)
    · rintro ⟨hone, hlate⟩
      refine keep_of_single hx (countP_zero_iff.mp (by omega)) hpost ?_
      by_contra hge
      have hmem : x ∈ (pre ++ x :: post).drop charBit := by
        rw [List.drop_append_of_le_length (by omega)]
        simp
      simp [hlate x hmem] at hx
  · have hnone : ∀ x ∈ hs, contains x = false := fun x hx => by
      cases hc : contains x with
      | false => rfl
      | true => exact absurd ⟨x, hx, hc⟩ hfound
    have hkeep : keepFrom (skipped contains hs) 0 hs = hs :=
      keepFrom_all 0 hs fun j _ _ => by simp [skipped, foundSlots_none hnone]
    have hfilter : hs.filter (fun h => !contains h) = hs := by
      rw [List.filter_eq_self]
      intro x hx
      simp [hnone x hx]
    rw [hkeep, hfilter]
    refine ⟨fun _ => ⟨by rw [countP_zero_iff.mpr hnone]; omega, ?_⟩, fun _ => rfl⟩
    exact fun h hh => hnone h (List.mem_of_mem_drop hh)

/-! ## One round -/

theorem maskBit_take {mask : Bytes} {n k j : Nat} (h : k < n) :
    maskBit (mask.take n) k j = maskBit mask k j := by
  rw [maskBit, maskBit, List.getElem?_take_of_lt h]

/-- What the uploader does with the answer to its own offer: nothing is out
of range, and entry `i` is left out exactly when `i` is a slot below
eight. -/
theorem upload_answered (contains : ExifHash → Bool) {es : List Entry}
    (hlen : es.length ≤ syncHashesPerPacket) :
    ∃ a, answerOffer contains (foundBitmaskSize syncHashesPerPacket)
        (ExifHash.digests (es.map Entry.hash)) = some a ∧
      a.foundBitmask.length = foundBitmaskSize syncHashesPerPacket ∧
      a.missingHashes = (es.map Entry.hash).filter (fun h => !contains h) ∧
      uploadLoop (.start (a.foundBitmask.take (foundBitmaskSize es.length))) es =
        some (keepFrom (skipped contains (es.map Entry.hash)) 0 es) := by
  have hroom : (es.map Entry.hash).length ≤ foundBitmaskSize syncHashesPerPacket * charBit := by
    rw [List.length_map]
    exact Nat.le_trans hlen (by decide)
  obtain ⟨a, ha, hsize, hmiss, hbits⟩ := answerOffer_spec contains hroom
  refine ⟨a, ha, hsize, hmiss, ?_⟩
  have hmono := foundBitmaskSize_mono hlen
  have hneed : es.length ≤ foundBitmaskSize es.length * charBit := by
    simp only [foundBitmaskSize, charBit]
    omega
  have hstart : MaskCursor.start (a.foundBitmask.take (foundBitmaskSize es.length)) =
      cursorAt (a.foundBitmask.take (foundBitmaskSize es.length)) 0 := rfl
  rw [hstart, uploadLoop_spec _ es 0 (by
    rw [List.length_take, hsize, Nat.min_eq_left hmono, Nat.zero_add]
    exact hneed)]
  refine congrArg some (keepFrom_congr 0 es fun j _ hj => ?_)
  have hk : j / charBit < foundBitmaskSize es.length := by
    simp only [foundBitmaskSize, charBit] at hneed ⊢
    omega
  rw [maskBit_take hk, hbits, skipped]
  by_cases hj8 : j < charBit
  · simp [Nat.div_eq_of_lt hj8, hj8]
  · simp [hj8]

theorem foundSlots_map {β : Type*} (f : β → α) (bs : List β) (m : Nat) :
    foundSlots contains (bs.map f) m = foundSlots (fun b => contains (f b)) bs m := by
  induction bs generalizing m with
  | nil => rfl
  | cons b bs ih => rw [List.map_cons, foundSlots, foundSlots, ih, ih]

/-- **A round that agrees**: the uploader sends the entries whose hash the
receiver does not hold. -/
theorem upload_agrees {contains : ExifHash → Bool} {es : List Entry}
    (hlen : es.length ≤ syncHashesPerPacket)
    (hok : FoundOnceEarly contains (es.map Entry.hash)) :
    ∃ a, answerOffer contains (foundBitmaskSize syncHashesPerPacket)
        (ExifHash.digests (es.map Entry.hash)) = some a ∧
      a.foundBitmask.length = foundBitmaskSize syncHashesPerPacket ∧
      a.missingHashes = (es.filter fun e => !contains e.hash).map Entry.hash ∧
      uploadLoop (.start (a.foundBitmask.take (foundBitmaskSize es.length))) es =
        some (es.filter fun e => !contains e.hash) := by
  obtain ⟨a, ha, hsize, hmiss, hup⟩ := upload_answered contains hlen
  have hskip : skipped contains (es.map Entry.hash) =
      skipped (fun e : Entry => contains e.hash) es := by
    funext i
    simp only [skipped, foundSlots_map]
  have hok' : FoundOnceEarly (fun e : Entry => contains e.hash) es := by
    refine ⟨by simpa [List.countP_map, Function.comp_def] using hok.1, fun e he => ?_⟩
    refine hok.2 e.hash ?_
    rw [← List.map_drop]
    exact List.mem_map_of_mem he
  refine ⟨a, ha, hsize, ?_, ?_⟩
  · rw [hmiss, List.filter_map]
    rfl
  · rw [hup, hskip, (keep_eq_missing_iff es).mpr hok']

/-- **When a round agrees.** For every offer of up to
`SyncProtocol::hashes_per_packet` entries and every set the receiver
holds: no access of the two loops is out of range, the receiver waits for
the offered hashes it does not hold, and the uploader sends exactly these,
in order, if and only if the receiver holds at most one of the offered
hashes and none after the eighth. -/
theorem round_agrees_iff (contains : ExifHash → Bool) {es : List Entry}
    (hlen : es.length ≤ syncHashesPerPacket) :
    ∃ a sent, answerOffer contains (foundBitmaskSize syncHashesPerPacket)
        (ExifHash.digests (es.map Entry.hash)) = some a ∧
      uploadLoop (.start (a.foundBitmask.take (foundBitmaskSize es.length))) es = some sent ∧
      a.missingHashes = (es.map Entry.hash).filter (fun h => !contains h) ∧
      (sent.map Entry.hash = a.missingHashes ↔
        FoundOnceEarly contains (es.map Entry.hash)) := by
  obtain ⟨a, ha, _, hmiss, hup⟩ := upload_answered contains hlen
  refine ⟨a, _, ha, hup, hmiss, ?_⟩
  rw [map_keepFrom, hmiss]
  exact keep_eq_missing_iff _

/-- Two entries with different hashes. -/
def twoEntries : List Entry := [⟨⟨1, 0, 0, 0, 0⟩, [97]⟩, ⟨⟨2, 0, 0, 0, 0⟩, [98]⟩]

/-- A receiver that holds both offered hashes waits for nothing and is sent
the second file. -/
theorem upload_twoEntries :
    ∃ a, answerOffer (fun _ => true) (foundBitmaskSize syncHashesPerPacket)
        (ExifHash.digests (twoEntries.map Entry.hash)) = some a ∧ a.missingHashes = [] ∧
      uploadLoop (.start (a.foundBitmask.take (foundBitmaskSize 2))) twoEntries =
        some [⟨⟨2, 0, 0, 0, 0⟩, [98]⟩] :=
  ⟨⟨[1, 0, 0, 0], 0, 0, []⟩, by decide +kernel, rfl, by decide⟩

/-- **Rounds do not always agree**: an offer of two hashes that are both
held. -/
theorem round_disagrees :
    ¬ ∀ (contains : ExifHash → Bool) (es : List Entry),
        1 ≤ es.length → es.length ≤ syncHashesPerPacket →
        ∃ a sent, answerOffer contains (foundBitmaskSize syncHashesPerPacket)
            (ExifHash.digests (es.map Entry.hash)) = some a ∧
          uploadLoop (.start (a.foundBitmask.take (foundBitmaskSize es.length))) es =
            some sent ∧
          sent.map Entry.hash = a.missingHashes := by
  intro hall
  obtain ⟨a, sent, ha, hsent, heq⟩ := hall (fun _ => true) twoEntries (by decide) (by decide)
  obtain ⟨a', ha', hmiss, hsent'⟩ := upload_twoEntries
  rw [ha'] at ha
  cases ha
  have hone : uploadLoop (.start (a.foundBitmask.take (foundBitmaskSize twoEntries.length)))
      twoEntries = some [⟨⟨2, 0, 0, 0, 0⟩, [98]⟩] := hsent'
  rw [hone] at hsent
  cases hsent
  rw [hmiss] at heq
  cases heq

/-- A receiver that holds the first hash only. -/
theorem round_agrees_first :
    ∃ a sent, answerOffer (fun h => h.word0 = 1) (foundBitmaskSize syncHashesPerPacket)
        (ExifHash.digests (twoEntries.map Entry.hash)) = some a ∧
      uploadLoop (.start (a.foundBitmask.take (foundBitmaskSize 2))) twoEntries = some sent ∧
      sent.map Entry.hash = a.missingHashes := by
  obtain ⟨a, sent, ha, hsent, _, hiff⟩ :=
    round_agrees_iff (fun h => h.word0 = 1)
      (show twoEntries.length ≤ syncHashesPerPacket by decide)
  exact ⟨a, sent, ha, hsent, hiff.mpr (by decide)⟩

end Jpgsync
