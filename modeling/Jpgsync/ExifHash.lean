import Jpgsync.Lib.Records
import Mathlib.Tactic.Common

/-!
# ExifHash — the hash value and its wire form

`ExifHash` is five 32-bit words; on the wire it is the 20-byte digest in
network order (`exif_hash.cpp`). The update packets of `peer.cpp` are
arrays of digests filled and read back to front; both loops are modelled
with the pointer they move, so that an access outside the buffer is `none`.
-/

namespace Jpgsync

/-- Bytes on the wire and in files. -/
abbrev Bytes := List UInt8

/-- `struct ExifHash`. -/
structure ExifHash where
  word0 : UInt32
  word1 : UInt32
  word2 : UInt32
  word3 : UInt32
  word4 : UInt32
deriving DecidableEq, Repr

/-- `BytesToWord32(bytes + off)`. -/
def bytesToWord32 (bytes : Bytes) (off : Nat) : UInt32 :=
  ((bytes.getD off 0).toUInt32 <<< 24) ||| ((bytes.getD (off + 1) 0).toUInt32 <<< 16) |||
    ((bytes.getD (off + 2) 0).toUInt32 <<< 8) ||| (bytes.getD (off + 3) 0).toUInt32

/-- `ToNetworkOrderByte`: `htonl` followed by `memcpy`, most significant
byte first on every host. -/
def toNetworkOrderByte (word : UInt32) : Bytes :=
  [(word >>> 24).toUInt8, (word >>> 16).toUInt8, (word >>> 8).toUInt8, word.toUInt8]

/-- A hexadecimal digit in ASCII. -/
def hexDigit (n : Nat) : UInt8 := UInt8.ofNat (if n < 10 then 48 + n else 87 + n)

/-- `std::hex << std::setfill('0') << std::setw(8) << word`. -/
def hexWord (word : UInt32) : Bytes :=
  [28, 24, 20, 16, 12, 8, 4, 0].map fun shift : UInt32 => hexDigit ((word >>> shift) &&& 15).toNat

/-- `sizeof(ExifHash)`. -/
abbrev sizeofExifHash : Nat := 20

namespace ExifHash

/-- `ExifHash(const unsigned char* sha1_digest)`. -/
def ofDigest (sha1_digest : Bytes) : ExifHash where
  word0 := bytesToWord32 sha1_digest 0
  word1 := bytesToWord32 sha1_digest 4
  word2 := bytesToWord32 sha1_digest 8
  word3 := bytesToWord32 sha1_digest 12
  word4 := bytesToWord32 sha1_digest 16

/-- `ExifHash::ToDigest`. -/
def toDigest (h : ExifHash) : Bytes :=
  toNetworkOrderByte h.word0 ++ toNetworkOrderByte h.word1 ++ toNetworkOrderByte h.word2 ++
    toNetworkOrderByte h.word3 ++ toNetworkOrderByte h.word4

@[simp] theorem length_toDigest (h : ExifHash) : h.toDigest.length = sizeofExifHash := rfl

/-- `operator<<`: each word as eight lower-case hexadecimal digits. -/
def toString (h : ExifHash) : Bytes :=
  hexWord h.word0 ++ hexWord h.word1 ++ hexWord h.word2 ++ hexWord h.word3 ++ hexWord h.word4

/-- Bit `i` of a word made of four bytes is a bit of the byte in whose lane
it lies. -/
theorem getLsbD_word (a b c d : UInt8) (i : Nat) :
    ((a.toUInt32 <<< 24) ||| (b.toUInt32 <<< 16) ||| (c.toUInt32 <<< 8) |||
        d.toUInt32).toBitVec.getLsbD i =
      if i < 8 then d.toBitVec.getLsbD i
      else if i < 16 then c.toBitVec.getLsbD (i - 8)
      else if i < 24 then b.toBitVec.getLsbD (i - 16)
      else if i < 32 then a.toBitVec.getLsbD (i - 24)
      else false := by
  have hz : ∀ (x : UInt8) (j : Nat), 8 ≤ j → x.toBitVec.getLsbD j = false :=
    fun x j hj => BitVec.getLsbD_of_ge _ _ hj
  simp only [UInt32.toBitVec_or, UInt32.toBitVec_shiftLeft, UInt8.toBitVec_toUInt32,
    BitVec.getLsbD_or, UInt32.toBitVec_ofNat, BitVec.reduceMod, BitVec.shiftLeft_eq',
    BitVec.toNat_ofNat, Nat.reducePow, Nat.reduceMod, BitVec.getLsbD_shiftLeft,
    BitVec.getLsbD_setWidth]
  split
  · rename_i h
    simp [h, show i < 16 by omega, show i < 24 by omega, show i < 32 by omega]
  · rename_i h8
    split
    · rename_i h
      simp [h, h8, hz d i (by omega), show i < 24 by omega, show i < 32 by omega,
        show i - 8 < 32 by omega]
    · rename_i h16
      split
      · rename_i h
        simp [h, h8, h16, hz d i (by omega), hz c (i - 8) (by omega), show i < 32 by omega,
          show i - 16 < 32 by omega]
      · rename_i h24
        split
        · rename_i h
          simp [h, h8, h16, h24, hz d i (by omega), hz c (i - 8) (by omega),
            hz b (i - 16) (by omega), show i - 24 < 32 by omega]
        · rename_i h
          simp [h]

/-- Four bytes in network order are the word they came from. -/
theorem word_of_networkOrder (w : UInt32) :
    ((w >>> 24).toUInt8.toUInt32 <<< 24) ||| ((w >>> 16).toUInt8.toUInt32 <<< 16) |||
      ((w >>> 8).toUInt8.toUInt32 <<< 8) ||| w.toUInt8.toUInt32 = w := by
  apply UInt32.toBitVec_inj.mp
  apply BitVec.eq_of_getLsbD_eq
  intro i hi
  rw [getLsbD_word]
  split
  · rename_i h
    simp [h]
  · split
    · simp [show i - 8 < 8 by omega, show 8 + (i - 8) = i by omega]
    · split
      · simp [show i - 16 < 8 by omega, show 16 + (i - 16) = i by omega]
      · simp [show i - 24 < 8 by omega, show 24 + (i - 24) = i by omega, hi]

/-- … and a word is the four bytes it was read from. -/
theorem networkOrder_of_word (a b c d : UInt8) :
    toNetworkOrderByte (bytesToWord32 [a, b, c, d] 0) = [a, b, c, d] := by
  have hlane : ∀ (w : UInt32) (x : UInt8) (k : UInt32),
      (∀ i < 8, w.toBitVec.getLsbD (k.toNat % 32 + i) = x.toBitVec.getLsbD i) →
      (w >>> k).toUInt8 = x := by
    intro w x k hw
    apply UInt8.toBitVec_inj.mp
    apply BitVec.eq_of_getLsbD_eq
    intro i hi
    rw [← hw i hi]
    simp [hi]
  have hlast : ∀ (w : UInt32) (x : UInt8),
      (∀ i < 8, w.toBitVec.getLsbD i = x.toBitVec.getLsbD i) → w.toUInt8 = x := by
    intro w x hw
    simpa using hlane w x 0 fun i hi => by simpa using hw i hi
  simp only [toNetworkOrderByte, bytesToWord32, List.getD_cons_zero, List.getD_cons_succ,
    Nat.reduceAdd, List.cons.injEq, and_true]
  refine ⟨hlane _ _ _ fun i hi => ?_, hlane _ _ _ fun i hi => ?_, hlane _ _ _ fun i hi => ?_,
    hlast _ _ fun i hi => ?_⟩ <;> rw [getLsbD_word]
  · simp [show ¬ 24 + i < 8 by omega, show ¬ 24 + i < 16 by omega, show ¬ 24 + i < 24 by omega,
      show 24 + i < 32 by omega]
  · simp [show ¬ 16 + i < 8 by omega, show ¬ 16 + i < 16 by omega, show 16 + i < 24 by omega]
  · simp [show 8 + i < 16 by omega]
  · simp [hi]

theorem ofDigest_toDigest (h : ExifHash) : ofDigest h.toDigest = h := by
  cases h
  simp only [ofDigest, toDigest, toNetworkOrderByte, bytesToWord32, List.cons_append,
    List.nil_append, List.getD_cons_zero, List.getD_cons_succ, Nat.reduceAdd,
    word_of_networkOrder]

/-- **Twenty bytes are the digest of the hash read from them.** -/
theorem toDigest_ofDigest {digest : Bytes} (h : digest.length = sizeofExifHash) :
    (ofDigest digest).toDigest = digest := by
  match digest, h with
  | [a₀, a₁, a₂, a₃, b₀, b₁, b₂, b₃, c₀, c₁, c₂, c₃, d₀, d₁, d₂, d₃, e₀, e₁, e₂, e₃], _ =>
    have ha := networkOrder_of_word a₀ a₁ a₂ a₃
    have hb := networkOrder_of_word b₀ b₁ b₂ b₃
    have hc := networkOrder_of_word c₀ c₁ c₂ c₃
    have hd := networkOrder_of_word d₀ d₁ d₂ d₃
    have he := networkOrder_of_word e₀ e₁ e₂ e₃
    show toNetworkOrderByte (bytesToWord32 [a₀, a₁, a₂, a₃] 0) ++
      toNetworkOrderByte (bytesToWord32 [b₀, b₁, b₂, b₃] 0) ++
      toNetworkOrderByte (bytesToWord32 [c₀, c₁, c₂, c₃] 0) ++
      toNetworkOrderByte (bytesToWord32 [d₀, d₁, d₂, d₃] 0) ++
      toNetworkOrderByte (bytesToWord32 [e₀, e₁, e₂, e₃] 0) = _
    rw [ha, hb, hc, hd, he]
    rfl

/-- The digest as a fixed-width record. -/
def codec : RecordCodec ExifHash UInt8 where
  width := sizeofExifHash
  enc := toDigest
  dec := ofDigest
  enc_length := length_toDigest
  dec_enc := ofDigest_toDigest

@[simp] theorem codec_width : codec.width = sizeofExifHash := rfl

@[simp] theorem codec_enc (h : ExifHash) : codec.enc h = h.toDigest := rfl

/-- The digests of an array of hashes, in order. -/
abbrev digests (hs : List ExifHash) : Bytes := codec.pack hs

/-- The hashes of an array of `n` digests. -/
abbrev ofDigests (n : Nat) (buf : Bytes) : List ExifHash := codec.unpack n buf

theorem ofDigests_digests (hs : List ExifHash) : ofDigests hs.length (digests hs) = hs :=
  codec.unpack_pack hs

theorem digests_ofDigests {n : Nat} {buf : Bytes} (h : buf.length = n * sizeofExifHash) :
    digests (ofDigests n buf) = buf :=
  codec.pack_unpack (fun _ hlen => toDigest_ofDigest hlen) h

theorem digests_cons (h : ExifHash) (hs : List ExifHash) :
    digests (h :: hs) = h.toDigest ++ digests hs := rfl

@[simp] theorem length_digests (hs : List ExifHash) :
    (digests hs).length = hs.length * sizeofExifHash := codec.length_pack hs

@[simp] theorem take_digests (h : ExifHash) (hs : List ExifHash) :
    (digests (h :: hs)).take sizeofExifHash = h.toDigest := by
  rw [digests_cons, ← length_toDigest h, List.take_left]

@[simp] theorem drop_digests (h : ExifHash) (hs : List ExifHash) :
    (digests (h :: hs)).drop sizeofExifHash = digests hs := by
  rw [digests_cons, ← length_toDigest h, List.drop_left]

end ExifHash
end Jpgsync
