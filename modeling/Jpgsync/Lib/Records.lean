import Mathlib.Data.List.Basic

/-!
# Records — fixed-width records in a flat buffer

A codec carries the two facts every use of it needs: all encodings have
one width, and decoding undoes encoding. `readAt` is a bounds-checked read
of one record at an element offset; the lemmas say what it finds in a
buffer that was packed from a list.
-/

/-- A fixed-width encoding with its round trip. -/
structure RecordCodec (α β : Type*) where
  width : Nat
  enc : α → List β
  dec : List β → α
  enc_length : ∀ a, (enc a).length = width
  dec_enc : ∀ a, dec (enc a) = a

namespace RecordCodec

variable {α β : Type*} (C : RecordCodec α β)

/-- The records of a list, one after the other. -/
def pack (as : List α) : List β := as.flatMap C.enc

/-- The record at offset `off`; `none` when it would leave the buffer. -/
def readAt (buf : List β) (off : Nat) : Option α :=
  if off + C.width ≤ buf.length then
    some (C.dec ((buf.drop off).take C.width))
  else none

/-- The first `n` records of a buffer. -/
def unpack : Nat → List β → List α
  | 0, _ => []
  | n + 1, buf => C.dec (buf.take C.width) :: unpack n (buf.drop C.width)

@[simp] theorem pack_nil : C.pack [] = [] := rfl

@[simp] theorem pack_cons (a : α) (as : List α) : C.pack (a :: as) = C.enc a ++ C.pack as :=
  rfl

@[simp] theorem pack_append (as bs : List α) : C.pack (as ++ bs) = C.pack as ++ C.pack bs :=
  List.flatMap_append

@[simp] theorem length_pack (as : List α) : (C.pack as).length = as.length * C.width := by
  induction as with
  | nil => simp
  | cons a as ih =>
      rw [pack_cons, List.length_append, C.enc_length, ih, List.length_cons,
        Nat.succ_mul, Nat.add_comm]

/-- The first records of a packed list. -/
theorem take_pack (as : List α) (n : Nat) :
    (C.pack as).take (n * C.width) = C.pack (as.take n) := by
  induction as generalizing n with
  | nil => simp
  | cons a as ih =>
      cases n with
      | zero => simp
      | succ n =>
          rw [pack_cons, List.take_succ_cons, pack_cons, ← ih, Nat.succ_mul, Nat.add_comm,
            ← C.enc_length a, List.take_length_add_append]

/-- Lists packed one after the other are one packed list. -/
theorem flatten_map_pack (groups : List (List α)) :
    (groups.map C.pack).flatten = C.pack groups.flatten := by
  induction groups with
  | nil => rfl
  | cons as groups ih =>
      rw [List.map_cons, List.flatten_cons, List.flatten_cons, pack_append, ih]

/-- A record is read back where it was written. -/
theorem readAt_append (pre post : List β) (a : α) :
    C.readAt (pre ++ C.enc a ++ post) pre.length = some (C.dec (C.enc a)) := by
  have hlen : pre.length + C.width ≤ (pre ++ C.enc a ++ post).length := by
    simp only [List.length_append, C.enc_length]
    omega
  have htake : ((pre ++ C.enc a ++ post).drop pre.length).take C.width = C.enc a := by
    rw [List.append_assoc, List.drop_left, ← C.enc_length a, List.take_left]
  rw [readAt, if_pos hlen, htake]

/-- Reading slot `i` of a packed buffer finds record `i`. -/
theorem readAt_pack {as : List α} {i : Nat} (hi : i < as.length) :
    C.readAt (C.pack as) (i * C.width) = some as[i] := by
  have hlen : (C.pack (as.take i)).length = i * C.width := by
    rw [length_pack, List.length_take, Nat.min_eq_left (Nat.le_of_lt hi)]
  have hsplit : C.pack as = C.pack (as.take i) ++ C.enc as[i] ++ C.pack (as.drop (i + 1)) := by
    rw [List.append_assoc, ← pack_cons, ← List.drop_eq_getElem_cons hi, ← pack_append,
      List.take_append_drop]
  rw [hsplit, ← hlen, C.readAt_append, C.dec_enc]

/-- What a read finds is the record its bytes decode to. -/
theorem dec_of_readAt {buf : List β} {off : Nat} {a : α} (h : C.readAt buf off = some a) :
    C.dec ((buf.drop off).take C.width) = a := by
  rw [readAt] at h
  split at h
  · exact Option.some.inj h
  · cases h

@[simp] theorem length_unpack (n : Nat) (buf : List β) : (C.unpack n buf).length = n := by
  induction n generalizing buf with
  | zero => rfl
  | succ n ih => rw [unpack, List.length_cons, ih]

/-- **Unpacking undoes packing.** -/
theorem unpack_pack (as : List α) : C.unpack as.length (C.pack as) = as := by
  induction as with
  | nil => rfl
  | cons a as ih =>
      rw [List.length_cons, unpack, pack_cons, ← C.enc_length a, List.take_left, List.drop_left,
        C.dec_enc, ih]

/-- Where decoding loses nothing, a buffer of full records is packed from
what it unpacks to. -/
theorem pack_unpack (henc : ∀ bs : List β, bs.length = C.width → C.enc (C.dec bs) = bs)
    {n : Nat} {buf : List β} (hlen : buf.length = n * C.width) :
    C.pack (C.unpack n buf) = buf := by
  induction n generalizing buf with
  | zero =>
      rw [Nat.zero_mul] at hlen
      rw [List.length_eq_zero_iff.mp hlen]
      rfl
  | succ n ih =>
      rw [Nat.succ_mul] at hlen
      have htake : (buf.take C.width).length = C.width := by
        rw [List.length_take]
        omega
      have hdrop : (buf.drop C.width).length = n * C.width := by
        rw [List.length_drop]
        omega
      rw [unpack, pack_cons, henc _ htake, ih hdrop, List.take_append_drop]

end RecordCodec
