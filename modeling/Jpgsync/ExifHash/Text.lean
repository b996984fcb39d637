import Jpgsync.ExifHash
import Mathlib.Data.Nat.Digits.Defs

/-!
# ExifHash — Text

What `operator<<` prints: the number of each word, filled up with zeros to
eight characters, which is two hexadecimal digits for each byte of the
digest. So the text of a hash, its digest and its words say the same.
-/

namespace Jpgsync

/-! ## A word on a stream -/

/-- The characters of `os << std::hex << n`, before they are filled up. -/
def hexNumber (n : Nat) : Bytes :=
  if n = 0 then [48] else ((Nat.digits 16 n).reverse).map hexDigit

/-- `os << std::hex << std::setfill('0') << std::setw(8) << word`. -/
def printWord (word : UInt32) : Bytes := List.leftpad 8 48 (hexNumber word.toNat)

/-- `k` hexadecimal digits of a number, the last ones. -/
def lastDigits : Nat → Nat → Bytes
  | 0, _ => []
  | k + 1, n => lastDigits k (n / 16) ++ [hexDigit (n % 16)]

theorem lastDigits_zero (k : Nat) : lastDigits k 0 = List.replicate k 48 := by
  induction k with
  | zero => rfl
  | succ k ih =>
      rw [lastDigits, Nat.zero_div, ih, Nat.zero_mod, List.replicate_succ']
      rfl

/-- A number that has no more digits is filled up with zeros. -/
theorem leftpad_digits {k n : Nat} (h : n < 16 ^ k) :
    List.leftpad k 48 (((Nat.digits 16 n).reverse).map hexDigit) = lastDigits k n := by
  induction k generalizing n with
  | zero =>
      obtain rfl : n = 0 := by simpa using h
      rfl
  | succ k ih =>
      rcases Nat.eq_zero_or_pos n with rfl | hpos
      · rw [lastDigits_zero]
        simp [List.leftpad]
      · have hdiv : n / 16 < 16 ^ k := by
          rw [Nat.pow_succ] at h
          omega
        have hrest := ih hdiv
        rw [lastDigits, ← hrest, Nat.digits_def' (by decide) hpos]
        simp [List.leftpad, Nat.add_sub_add_right]

theorem printWord_eq_lastDigits (word : UInt32) : printWord word = lastDigits 8 word.toNat := by
  have hlt : word.toNat < 16 ^ 8 := word.toNat_lt
  rw [printWord, hexNumber]
  split
  · rename_i h0
    rw [h0]
    rfl
  · exact leftpad_digits hlt

/-- Two digits for a byte. -/
def hexByte (b : UInt8) : Bytes := [hexDigit (b.toNat / 16), hexDigit (b.toNat % 16)]

theorem toNat_shiftRight_word (word : UInt32) {k : Nat} (hk : k < 32) :
    (word >>> UInt32.ofNat k).toNat = word.toNat / 2 ^ k := by
  have hmod : (UInt32.ofNat k).toNat % 32 = k := by
    rw [UInt32.toNat_ofNat', Nat.mod_eq_of_lt (by omega : k < 2 ^ 32), Nat.mod_eq_of_lt hk]
  rw [UInt32.toNat_shiftRight, hmod, Nat.shiftRight_eq_div_pow]

/-- The digits of a word. -/
theorem hexWord_eq_digits (word : UInt32) :
    hexWord word =
      [28, 24, 20, 16, 12, 8, 4, 0].map fun k => hexDigit (word.toNat / 2 ^ k % 16) := by
  have hdigit : ∀ k < 32, ((word >>> UInt32.ofNat k) &&& 15).toNat = word.toNat / 2 ^ k % 16 := by
    intro k hk
    rw [UInt32.toNat_and, toNat_shiftRight_word word hk]
    exact Nat.and_two_pow_sub_one_eq_mod _ 4
  simp only [hexWord, List.map_cons, List.map_nil]
  rw [← hdigit 28 (by decide), ← hdigit 24 (by decide), ← hdigit 20 (by decide),
    ← hdigit 16 (by decide), ← hdigit 12 (by decide), ← hdigit 8 (by decide),
    ← hdigit 4 (by decide), ← hdigit 0 (by decide)]
  rfl

/-- They are what a stream prints. -/
theorem hexWord_eq_printWord (word : UInt32) : hexWord word = printWord word := by
  rw [printWord_eq_lastDigits, hexWord_eq_digits]
  simp [lastDigits, Nat.div_div_eq_div_mul]

/-- **A word is printed as its bytes are**, in network order. -/
theorem hexWord_eq_hexByte (word : UInt32) :
    hexWord word = (toNetworkOrderByte word).flatMap hexByte := by
  have hbyte : ∀ k < 32, (word >>> UInt32.ofNat k).toUInt8.toNat = word.toNat / 2 ^ k % 256 := by
    intro k hk
    rw [UInt32.toNat_toUInt8, toNat_shiftRight_word word hk]
  have hbytes : (toNetworkOrderByte word).flatMap hexByte =
      [24, 16, 8, 0].flatMap fun k =>
        [hexDigit (word.toNat / 2 ^ k % 256 / 16), hexDigit (word.toNat / 2 ^ k % 256 % 16)] := by
    simp only [toNetworkOrderByte, List.flatMap_cons, List.flatMap_nil, hexByte]
    rw [← hbyte 24 (by decide), ← hbyte 16 (by decide), ← hbyte 8 (by decide),
      ← hbyte 0 (by decide), show word >>> UInt32.ofNat 0 = word by simp]
    rfl
  have hhigh : ∀ n : Nat, n % 256 / 16 = n / 16 % 16 := by omega
  have hlow : ∀ n : Nat, n % 256 % 16 = n % 16 := by omega
  rw [hexWord_eq_digits, hbytes]
  simp [hhigh, hlow, Nat.div_div_eq_div_mul]

/-! ## Digits and bytes -/

/-- `'0'` to `'9'` and `'a'` to `'f'`. -/
def IsLowerHex (c : UInt8) : Prop := 48 ≤ c ∧ c ≤ 57 ∨ 97 ≤ c ∧ c ≤ 102

instance (c : UInt8) : Decidable (IsLowerHex c) := inferInstanceAs (Decidable (_ ∨ _))

theorem isLowerHex_hexDigit {n : Nat} (h : n < 16) : IsLowerHex (hexDigit n) := by
  have hall : ∀ i : Fin 16, IsLowerHex (hexDigit i) := by decide
  exact hall ⟨n, h⟩

theorem hexDigit_injective {m n : Nat} (hm : m < 16) (hn : n < 16)
    (h : hexDigit m = hexDigit n) : m = n := by
  have hall : ∀ i j : Fin 16, hexDigit i = hexDigit j → i = j := by decide
  exact congrArg Fin.val (hall ⟨m, hm⟩ ⟨n, hn⟩ h)

theorem hexByte_injective {a b : UInt8} (h : hexByte a = hexByte b) : a = b := by
  have ha := a.toNat_lt
  have hb := b.toNat_lt
  obtain ⟨hhigh, htail⟩ := List.cons.inj h
  obtain ⟨hlow, -⟩ := List.cons.inj htail
  have hdiv := hexDigit_injective (by omega) (by omega) hhigh
  have hmod := hexDigit_injective (Nat.mod_lt _ (by decide)) (Nat.mod_lt _ (by decide)) hlow
  apply UInt8.toNat_inj.mp
  omega

/-- **Bytes are read off their digits.** -/
theorem flatMap_hexByte_injective {as bs : Bytes} (h : as.flatMap hexByte = bs.flatMap hexByte) :
    as = bs := by
  induction as generalizing bs with
  | nil =>
      cases bs with
      | nil => rfl
      | cons b bs => simp [hexByte] at h
  | cons a as ih =>
      cases bs with
      | nil => simp [hexByte] at h
      | cons b bs =>
          rw [List.flatMap_cons, List.flatMap_cons] at h
          obtain ⟨hfirst, hrest⟩ := List.append_inj h rfl
          rw [hexByte_injective hfirst, ih hrest]

/-! ## The text of a hash -/

namespace ExifHash

/-- `operator==`. -/
def equal (lhs rhs : ExifHash) : Bool :=
  lhs.word0 == rhs.word0 && lhs.word1 == rhs.word1 && lhs.word2 == rhs.word2 &&
    lhs.word3 == rhs.word3 && lhs.word4 == rhs.word4

variable {lhs rhs h : ExifHash}

theorem equal_iff : lhs.equal rhs = true ↔ lhs = rhs := by
  cases lhs
  cases rhs
  simp [equal, and_assoc]

theorem toDigest_injective : lhs.toDigest = rhs.toDigest ↔ lhs = rhs :=
  ⟨fun heq => by rw [← ofDigest_toDigest lhs, heq, ofDigest_toDigest], fun heq => by rw [heq]⟩

/-- **Two digits for each byte of the digest.** -/
theorem toString_eq_hexByte (h : ExifHash) : h.toString = h.toDigest.flatMap hexByte := by
  simp only [toString, toDigest, hexWord_eq_hexByte, List.flatMap_append]

theorem toString_injective : lhs.toString = rhs.toString ↔ lhs = rhs := by
  constructor
  · intro heq
    rw [toString_eq_hexByte, toString_eq_hexByte] at heq
    exact toDigest_injective.mp (flatMap_hexByte_injective heq)
  · rintro rfl
    rfl

/-- What `operator<<` puts on the stream. -/
theorem toString_eq_printWord (h : ExifHash) :
    h.toString = [h.word0, h.word1, h.word2, h.word3, h.word4].flatMap printWord := by
  simp [toString, hexWord_eq_printWord]

@[simp] theorem length_toString (h : ExifHash) : h.toString.length = 40 := rfl

theorem isLowerHex_of_mem_toString {c : UInt8} (hc : c ∈ h.toString) : IsLowerHex c := by
  rw [toString_eq_hexByte] at hc
  obtain ⟨b, -, hmem⟩ := List.mem_flatMap.mp hc
  have hb := b.toNat_lt
  simp only [hexByte, List.mem_cons, List.not_mem_nil, or_false] at hmem
  rcases hmem with rfl | rfl
  · exact isLowerHex_hexDigit (by omega)
  · exact isLowerHex_hexDigit (Nat.mod_lt _ (by decide))

end ExifHash

end Jpgsync
