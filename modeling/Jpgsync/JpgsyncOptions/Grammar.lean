import Jpgsync.JpgsyncOptions.Defaults
import Mathlib.Data.Nat.Digits.Defs

/-!
# JpgsyncOptions — Grammar

The two texts of the command line that are taken apart by hand: roots,
which the usage line writes as `[[USER@]HOST:]DIR`, and the address
`HOST:PORT` of the master. A text is written in the grammar and read by the
code; what comes back is compared with what was written.
-/

namespace Jpgsync

open ProgramOptions

/-! ## Roots -/

/-- A `HOST` or a `USER`. -/
structure IsName (name : Bytes) : Prop where
  ne : name ≠ []
  noAt : 64 ∉ name
  noColon : 58 ∉ name

/-- `[USER@]HOST:DIR`. -/
def renderRoot (user : Option Bytes) (host dir : Bytes) : Bytes :=
  user.elim [] (· ++ [64]) ++ host ++ 58 :: dir

/-- The directory a text stands for: an empty one is the current one. -/
def dirOf (text : Bytes) : Bytes := if text = [] then ascii "." else text

/-- The root that was written, and the number `Init` returns for it. -/
def writtenRoot (user : Option Bytes) (host dir : Bytes) : Root × Nat :=
  (⟨dirOf dir, host, user.getD []⟩, if user.isSome then 2 else 1)

namespace Root

variable {self : Root} {user : Option Bytes} {host dir front : Bytes}

/-- `Init` splits at the last separator. -/
theorem init_split (self : Root) (hfront : front ≠ []) (hdir : 58 ∉ dir) :
    self.init (front ++ 58 :: dir) =
      match findByte 64 front with
      | none => .ok (⟨dirOf dir, front, self.user⟩, 1)
      | some pos =>
          if pos ≠ 0 ∧ pos + 1 < front.length then
            .ok (⟨dirOf dir, front.drop (pos + 1), front.take pos⟩, 2)
          else .error ⟨ascii "Invalid root: " ++ (front ++ 58 :: dir)⟩ := by
  have hpos : rfindByte 58 (front ++ 58 :: dir) = some front.length :=
    rfindByte_eq_some.mpr ⟨front, dir, rfl, hdir, rfl⟩
  have hlen : front.length ≠ 0 := fun h => hfront (List.length_eq_zero_iff.mp h)
  simp only [init, hpos, if_pos hlen, drop_separator, List.take_left]
  rfl

/-- A text without a separator is a directory here. -/
theorem init_local (self : Root) {text : Bytes} (h : 58 ∉ text) :
    self.init text = .ok (⟨dirOf text, [], []⟩, 0) := by
  rw [init, rfindByte_eq_none.mpr h]
  by_cases htext : text = [] <;> simp [dirOf, htext]

/-- The first `@` behind a user without one. -/
theorem findByte_user {u rest : Bytes} (hu : IsName u) :
    findByte 64 (u ++ 64 :: rest) = some u.length :=
  findByte_eq_some.mpr ⟨u, rest, rfl, hu.noAt, rfl⟩

/-- **A directory without a separator** comes back with its host. -/
theorem init_renderRoot (hhost : IsName host) (huser : ∀ u ∈ user, IsName u) (hdir : 58 ∉ dir)
    (hself : user = none → self.user = []) :
    self.init (renderRoot user host dir) = .ok (writtenRoot user host dir) := by
  cases user with
  | none =>
      rw [renderRoot, Option.elim_none, List.nil_append, init_split self hhost.ne hdir,
        findByte_eq_none.mpr hhost.noAt]
      simp [writtenRoot, hself rfl]
  | some u =>
      have hu := huser u rfl
      have hlen : u.length ≠ 0 := fun h => hu.ne (List.length_eq_zero_iff.mp h)
      have hhostLen : 0 < host.length := List.length_pos_iff.mpr hhost.ne
      have htext : renderRoot (some u) host dir = (u ++ 64 :: host) ++ 58 :: dir := by
        simp [renderRoot]
      rw [htext, init_split self (by simp) hdir, findByte_user hu]
      simp [writtenRoot, hlen, hhostLen]

/-- **A directory with a separator** is cut at its last one, and what is in
front of that goes to the host. -/
theorem init_renderRoot_ne (huser : ∀ u ∈ user, IsName u) (hdir : 58 ∈ dir) :
    self.init (renderRoot user host dir) ≠ .ok (writtenRoot user host dir) := by
  obtain ⟨pos, hpos⟩ := Option.ne_none_iff_exists'.mp fun h => rfindByte_eq_none.mp h hdir
  obtain ⟨a, b, rfl, hb, -⟩ := rfindByte_eq_some.mp hpos
  have htoo : host ++ 58 :: a ≠ host := fun h => by simpa using congrArg List.length h
  cases user with
  | none =>
      have htext : renderRoot none host (a ++ 58 :: b) = (host ++ 58 :: a) ++ 58 :: b := by
        simp [renderRoot]
      rw [htext, init_split self (by simp) hb]
      intro h
      split at h
      · exact htoo (congrArg (fun r => r.1.hostname) (Except.ok.inj h))
      -- an `@` in the directory is taken for that of a user
      · split at h
        · exact absurd (congrArg Prod.snd (Except.ok.inj h)) (by simp [writtenRoot])
        · cases h
  | some u =>
      have hu := huser u rfl
      have htext : renderRoot (some u) host (a ++ 58 :: b) =
          (u ++ 64 :: (host ++ 58 :: a)) ++ 58 :: b := by
        simp [renderRoot]
      rw [htext, init_split self (by simp) hb, findByte_user hu]
      intro h
      dsimp only at h
      split at h
      · have hhost := congrArg (fun r => r.1.hostname) (Except.ok.inj h)
        exact htoo ((drop_separator u 64 _).symm.trans hhost)
      · cases h

/-- **When `Init` inverts the grammar**: a root comes back as it was written
exactly when its directory has no `:` and, where it names no user, the
object had none before; a text without `:` is always a directory. -/
theorem init_inverts_iff (self : Root) :
    (∀ (user : Option Bytes) (host dir : Bytes), IsName host → (∀ u ∈ user, IsName u) →
      (self.init (renderRoot user host dir) = .ok (writtenRoot user host dir) ↔
        58 ∉ dir ∧ (user = none → self.user = []))) ∧
      ∀ text : Bytes, 58 ∉ text → self.init text = .ok (⟨dirOf text, [], []⟩, 0) := by
  refine ⟨fun user host dir hhost huser => ⟨fun h => ?_, fun h => ?_⟩, fun _ => init_local self⟩
  · have hdir : 58 ∉ dir := fun hmem => init_renderRoot_ne huser hmem h
    refine ⟨hdir, ?_⟩
    rintro rfl
    rw [renderRoot, Option.elim_none, List.nil_append, init_split self hhost.ne hdir,
      findByte_eq_none.mpr hhost.noAt] at h
    exact congrArg (fun r => r.1.user) (Except.ok.inj h)
  · exact init_renderRoot hhost huser h.1 h.2

/-- `u@h:d` -/
theorem init_inverts_iff_userHostDir :
    IsName (ascii "h") ∧ (∀ u ∈ some (ascii "u"), IsName u) ∧
      new.init (renderRoot (some (ascii "u")) (ascii "h") (ascii "d")) =
        .ok (⟨ascii "d", ascii "h", ascii "u"⟩, 2) :=
  have hhost : IsName (ascii "h") := ⟨by decide, by decide, by decide⟩
  have huser : ∀ u ∈ some (ascii "u"), IsName u := by
    rintro u ⟨⟩
    exact ⟨by decide, by decide, by decide⟩
  ⟨hhost, huser, ((init_inverts_iff new).1 _ _ (ascii "d") hhost huser).mpr ⟨by decide, by simp⟩⟩

/-- `h:a:b`: the directory `a:b` on `h` is taken for `b` on `h:a`. -/
theorem not_always_inverts :
    ¬ ∀ (user : Option Bytes) (host dir : Bytes), IsName host → (∀ u ∈ user, IsName u) →
      new.init (renderRoot user host dir) = .ok (writtenRoot user host dir) := by
  intro h
  have hread : new.init (renderRoot none (ascii "h") (ascii "a:b")) =
      .ok (⟨ascii "b", ascii "h:a", []⟩, 1) := by rfl
  have hclaimed := h none (ascii "h") (ascii "a:b") ⟨by decide, by decide, by decide⟩ (by simp)
  rw [hread] at hclaimed
  exact absurd (congrArg (fun r => r.1.hostname) (Except.ok.inj hclaimed)) (by decide)

end Root

/-! ## Addresses -/

/-- The digit a character is. -/
def digit (c : UInt8) : Nat := c.toNat - 48

/-- The value of a string of decimal digits. -/
def decimal (digits : Bytes) : Nat := Nat.ofDigits 10 (digits.reverse.map digit)

/-- The values of `ret` in `ExtractPort`, the first one given. -/
def accumulators (ret : Nat) : Bytes → List Nat
  | [] => [ret]
  | c :: text =>
      if !isDigit c then [ret]
      else if 10 * ret + c.toNat - 48 > 0xFFFF then [ret, 10 * ret + c.toNat - 48]
      else ret :: accumulators (10 * ret + c.toNat - 48) text

/-- `HOST:PORT`, with the digits of the port. -/
structure IsHostPort (s host digits : Bytes) : Prop where
  text : s = host ++ 58 :: digits
  host_ne : host ≠ []
  digits_ne : digits ≠ []
  allDigits : ∀ c ∈ digits, isDigit c = true
  inRange : decimal digits ≤ 65535

section

variable {ret : Nat} {c : UInt8} {text digits host : Bytes}

theorem isDigit_iff : isDigit c = true ↔ 48 ≤ c.toNat ∧ c.toNat ≤ 57 := by
  simp [isDigit, UInt8.le_iff_toNat_le]

/-- **`ret` stays small**: it is tested before it is multiplied again. -/
theorem accumulators_le (hret : ret ≤ 0xFFFF) :
    ∀ r ∈ accumulators ret text, r ≤ 10 * 65535 + 9 := by
  induction text generalizing ret with
  | nil =>
      simp only [accumulators, List.mem_singleton, forall_eq]
      omega
  | cons c text ih =>
      rw [accumulators]
      cases hc : isDigit c with
      | false =>
          simp only [Bool.not_false, if_true, List.mem_singleton, forall_eq]
          omega
      | true =>
          have hrange := isDigit_iff.mp hc
          simp only [Bool.not_true, Bool.false_eq_true, if_false]
          split
          · intro r hr
            simp only [List.mem_cons, List.not_mem_nil, or_false] at hr
            omega
          · rename_i hle
            intro r hr
            rcases List.mem_cons.mp hr with rfl | hr
            · omega
            · exact ih (by omega) r hr

/-- What is returned is the last value. -/
theorem extractPort_eq_last {port : UInt16} (h : extractPort ret text = some port) :
    (accumulators ret text).getLast?.map UInt16.ofNat = some port := by
  induction text generalizing ret with
  | nil => simpa [accumulators, extractPort] using h
  | cons c text ih =>
      rw [extractPort] at h
      rw [accumulators]
      split at h
      · cases h
      · rename_i hc
        split at h
        · cases h
        · rename_i hle
          have hlast := ih h
          rw [if_neg hc, if_neg hle]
          cases hacc : accumulators (10 * ret + c.toNat - 48) text with
          | nil => simp [hacc] at hlast
          | cons r rs => simpa [hacc] using hlast

/-- The loop, without the test. -/
def portValue (ret : Nat) (text : Bytes) : Nat := text.foldl (fun n c => 10 * n + digit c) ret

theorem le_portValue (ret : Nat) (text : Bytes) : ret ≤ portValue ret text := by
  induction text generalizing ret with
  | nil => exact Nat.le_refl ret
  | cons c text ih =>
      have hrest := ih (10 * ret + digit c)
      rw [portValue, List.foldl_cons]
      rw [portValue] at hrest
      omega

theorem decimal_eq_portValue (text : Bytes) : decimal text = portValue 0 text := by
  rw [decimal, portValue, Nat.ofDigits_eq_foldr, List.foldr_map, List.foldr_reverse]
  refine congrArg (fun f => text.foldl f 0) ?_
  funext n c
  simp [Nat.add_comm]

/-- **Testing early is testing once**: a value that gets too large stays too
large. -/
theorem extractPort_iff {port : UInt16} (hret : ret ≤ 0xFFFF) :
    extractPort ret text = some port ↔
      (∀ c ∈ text, isDigit c = true) ∧ portValue ret text ≤ 65535 ∧
        port = UInt16.ofNat (portValue ret text) := by
  induction text generalizing ret with
  | nil => simpa [extractPort, portValue, hret] using eq_comm
  | cons c text ih =>
      rw [extractPort, portValue, List.foldl_cons, List.forall_mem_cons]
      cases hc : isDigit c with
      | false => simp
      | true =>
          have hrange := isDigit_iff.mp hc
          have hnext : 10 * ret + c.toNat - 48 = 10 * ret + digit c := by
            simp only [digit]
            omega
          simp only [Bool.not_true, Bool.false_eq_true, if_false, hnext, true_and]
          split
          · rename_i hgt
            have hle := le_portValue (10 * ret + digit c) text
            rw [portValue] at hle
            simp only [reduceCtorEq, false_iff, not_and]
            intro _ hsmall
            omega
          · rename_i hle
            exact ih (by omega)

/-- **Which addresses are accepted**, and how they are split. -/
theorem masterAddress_iff {s : Bytes} {address : Bytes × UInt16} :
    masterAddress s = some address ↔
      ∃ digits, IsHostPort s address.1 digits ∧ address.2 = UInt16.ofNat (decimal digits) := by
  obtain ⟨host, port⟩ := address
  constructor
  · intro h
    unfold masterAddress at h
    split at h
    · cases h
    · rename_i pos hpos
      obtain ⟨a, b, rfl, -, rfl⟩ := rfindByte_eq_some.mp hpos
      split at h
      · rename_i hne
        rw [drop_separator, List.take_left, Option.map_eq_some_iff] at h
        obtain ⟨port', hport, heq⟩ := h
        cases heq
        obtain ⟨hdigits, hle, rfl⟩ := (extractPort_iff (Nat.zero_le _)).mp hport
        rw [← decimal_eq_portValue] at hle ⊢
        have hhost : host ≠ [] := fun hnil => hne.1 (by simpa using hnil)
        refine ⟨b, ⟨rfl, hhost, fun hb => hne.2 ?_, hdigits, hle⟩, rfl⟩
        rw [hb]
        simp
      · cases h
  · rintro ⟨digits, ⟨rfl, hhost, hdigits, hall, hle⟩, hport⟩
    dsimp only at hhost hport ⊢
    have hcolon : 58 ∉ digits := fun hmem => absurd (hall 58 hmem) (by decide)
    have hpos : rfindByte 58 (host ++ 58 :: digits) = some host.length :=
      rfindByte_eq_some.mpr ⟨host, digits, rfl, hcolon, rfl⟩
    have hlen : host.length ≠ 0 ∧ host.length + 1 ≠ (host ++ 58 :: digits).length := by
      have hhostLen := List.length_pos_iff.mpr hhost
      have hdigitsLen := List.length_pos_iff.mpr hdigits
      simp only [List.length_append, List.length_cons]
      omega
    have hextract : extractPort 0 digits = some port :=
      (extractPort_iff (Nat.zero_le _)).mpr
        ⟨hall, by rwa [← decimal_eq_portValue], by rwa [← decimal_eq_portValue]⟩
    simp only [masterAddress, hpos, if_pos hlen]
    rw [drop_separator, List.take_left, hextract, Option.map_some]

end

namespace JpgsyncOptions

variable {po : JpgsyncOptions} {root : Root} {n : Nat}

/-- With `-s`, behind the other checks, the address decides. -/
theorem initDefaults_address (hslave : po.count .slave = true) (hmaster : po.count .master = false)
    (hargc : po.argc = 2) (hroot : po.slaveRoot.init (po.argv.getD 1 []) = .ok (root, n)) :
    po.initDefaults = initMaster { po with slaveRoot := root } := by
  rw [initDefaults_one (by simp [hslave, hmaster]) hargc, initRoots_slave hslave, hroot]
  rfl

/-- **The address of the master.** Where the checks before it are passed,
`InitDefaults` returns exactly when the value of `-s` is a host and a port
in decimal digits, of any length, up to 65535, and sets them; otherwise it
throws. The accumulator of `ExtractPort` stays far below `INT_MAX`,
whatever it is called for, and its last value is the port. -/
theorem accepts_address_iff (hslave : po.count .slave = true)
    (hmaster : po.count .master = false) (hargc : po.argc = 2)
    (hroot : po.slaveRoot.init (po.argv.getD 1 []) = .ok (root, n)) :
    (∀ p, po.initDefaults = .ok p ↔ ∃ host digits, IsHostPort po.slave host digits ∧
      p = { po with
        slaveRoot := root
        masterHost := host
        masterPort := UInt16.ofNat (decimal digits) }) ∧
      ((∀ host digits, ¬ IsHostPort po.slave host digits) →
        po.initDefaults = .error ⟨ascii "Invalid master: " ++ po.slave⟩) ∧
      ∀ text, (∀ ret ∈ accumulators 0 text, ret ≤ 10 * 65535 + 9) ∧
        ∀ port, extractPort 0 text = some port →
          (accumulators 0 text).getLast?.map UInt16.ofNat = some port := by
  rw [initDefaults_address hslave hmaster hargc hroot]
  refine ⟨fun p => ?_, fun hnone => ?_, fun text =>
    ⟨accumulators_le (Nat.zero_le _), fun port => extractPort_eq_last⟩⟩
  · refine (@initMaster_some { po with slaveRoot := root } _ hslave).trans ⟨?_, ?_⟩
    · rintro ⟨⟨host, port⟩, haddress, rfl⟩
      obtain ⟨digits, hparts, rfl⟩ := masterAddress_iff.mp haddress
      exact ⟨host, digits, hparts, rfl⟩
    · rintro ⟨host, digits, hparts, rfl⟩
      exact ⟨(host, _), masterAddress_iff.mpr ⟨digits, hparts, rfl⟩, rfl⟩
  · have haddress : masterAddress po.slave = none := by
      rw [Option.eq_none_iff_forall_ne_some]
      intro address haddress
      obtain ⟨digits, hparts, -⟩ := masterAddress_iff.mp haddress
      exact hnone _ _ hparts
    have hcount : ({ po with slaveRoot := root } : JpgsyncOptions).count .slave = true := hslave
    have hnone : masterAddress ({ po with slaveRoot := root } : JpgsyncOptions).slave = none :=
      haddress
    rw [initMaster, if_pos hcount, hnone]
    rfl

/-- `jpgsync d -s m:007`, when `InitDefaults` is called. -/
def zeroPadded : JpgsyncOptions :=
  ⟨fun o => if o = .slave then some (.word (ascii "m:007")) else none, 2,
    [ascii "jpgsync", ascii "d"], [], 0, Root.new, Root.new⟩

theorem accepts_address_iff_zeroPadded :
    zeroPadded.initDefaults = .ok { zeroPadded with
      slaveRoot := ⟨ascii "d", [], []⟩
      masterHost := ascii "m"
      masterPort := 7 } :=
  have hparts : IsHostPort zeroPadded.slave (ascii "m") (ascii "007") :=
    ⟨by decide, by decide, by decide, List.all_eq_true.mp (by decide), by decide⟩
  have hroot : zeroPadded.slaveRoot.init (zeroPadded.argv.getD 1 []) =
      .ok (⟨ascii "d", [], []⟩, 0) := by rfl
  ((accepts_address_iff (by decide) (by decide) rfl hroot).1 _).mpr
    ⟨ascii "m", ascii "007", hparts, by rfl⟩

end JpgsyncOptions

end Jpgsync
