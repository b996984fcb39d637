import Mathlib.Data.List.Basic
import Mathlib.Data.Set.Basic

/-!
# Shell — the words of a command

How a POSIX shell splits the text of a simple command into words: blanks
between words, the two kinds of quotes, the backslash, comments, and the
tilde in front of a word. The reader takes one byte at a time. It gives no
words where the text is more than a simple command (an operator, a
newline), where a quote stays open, and where the words depend on
variables or on login names. Which word is a command, an assignment or a
reserved word is not asked.

Every byte that is not part of a word has a price: the words, each with
the blank behind it, are at most as long as the text. The results about
what cannot be read back count what the reader loses.
-/

namespace Shell

/-! ## Words -/

/-- A byte of a word, and whether it was quoted. -/
structure Letter where
  byte : UInt8
  quoted : Bool
deriving DecidableEq

abbrev Word := List Letter

def Word.text (w : Word) : List UInt8 := w.map Letter.byte

/-- A word without quotes. -/
def bare (text : List UInt8) : Word := text.map fun b => ⟨b, false⟩

/-- A word whose bytes are all quoted. -/
def quote (text : List UInt8) : Word := text.map fun b => ⟨b, true⟩

@[simp] theorem text_bare (text : List UInt8) : (bare text).text = text := by
  simp [bare, Word.text, Function.comp_def]

@[simp] theorem text_quote (text : List UInt8) : (quote text).text = text := by
  simp [quote, Word.text, Function.comp_def]

@[simp] theorem text_append (v w : Word) : (v ++ w).text = v.text ++ w.text := by
  simp [Word.text]

@[simp] theorem text_singleton (b : UInt8) (q : Bool) : Word.text [⟨b, q⟩] = [b] := rfl

@[simp] theorem length_text (w : Word) : w.text.length = w.length := by
  simp [Word.text]

@[simp] theorem length_quote (text : List UInt8) : (quote text).length = text.length := by
  simp [quote]

/-! ## The reader -/

/-- What a byte means where nothing quotes it. -/
inductive Kind where
  | ordinary | blank | hash | tilde | single | double | escape | stop
deriving DecidableEq

/-- Bytes that end a simple command (newline, operators), and those whose
words depend on variables and commands: `$` and the back quote. -/
def stops : List UInt8 := [10, 36, 38, 40, 41, 59, 60, 62, 96, 124]

def kind (b : UInt8) : Kind :=
  if b = 32 ∨ b = 9 then .blank
  else if b = 35 then .hash
  else if b = 126 then .tilde
  else if b = 39 then .single
  else if b = 34 then .double
  else if b = 92 then .escape
  else if b ∈ stops then .stop
  else .ordinary

/-- Bytes that keep their place in a word that has begun. -/
def Kind.letter : Kind → Bool
  | .ordinary | .hash | .tilde => true
  | _ => false

/-- Where the reader stands, with the word it is in. -/
inductive State where
  | unquoted (w : Option Word)
  | escape (w : Option Word)
  | single (w : Word)
  | double (w : Word)
  | doubleEscape (w : Word)
  | tilde
  | comment
deriving DecidableEq

/-- One byte: the words that end with it, and the state behind it. -/
def step (home : List UInt8) : State → UInt8 → Option (List Word × State)
  | .unquoted w, b =>
      let letter := State.unquoted (some (w.getD [] ++ [⟨b, false⟩]))
      match kind b with
      | .ordinary => some ([], letter)
      | .blank => some (w.toList, .unquoted none)
      | .hash => some ([], if w = none then .comment else letter)
      | .tilde => some ([], if w = none then .tilde else letter)
      | .single => some ([], .single (w.getD []))
      | .double => some ([], .double (w.getD []))
      | .escape => some ([], .escape w)
      | .stop => none
  -- a backslash and a newline are removed together
  | .escape w, b =>
      some ([], .unquoted (if b = 10 then w else some (w.getD [] ++ [⟨b, true⟩])))
  | .single w, b =>
      some ([], if b = 39 then .unquoted (some w) else .single (w ++ [⟨b, true⟩]))
  | .double w, b =>
      if b = 34 then some ([], .unquoted (some w))
      else if b = 92 then some ([], .doubleEscape w)
      else if b = 36 ∨ b = 96 then none
      else some ([], .double (w ++ [⟨b, true⟩]))
  | .doubleEscape w, b =>
      if b = 10 then some ([], .double w)
      else if b = 36 ∨ b = 96 ∨ b = 34 ∨ b = 92 then some ([], .double (w ++ [⟨b, true⟩]))
      else some ([], .double (w ++ [⟨92, true⟩, ⟨b, true⟩]))
  | .tilde, b =>
      if b = 47 then some ([], .unquoted (some (quote home ++ [⟨47, false⟩])))
      else if kind b = .blank then some ([quote home], .unquoted none)
      else none
  | .comment, b => if b = 10 then none else some ([], .comment)

/-- The end of the text: the words that end there. -/
def close (home : List UInt8) : State → Option (List Word)
  | .unquoted w => some w.toList
  | .tilde => some [quote home]
  | .comment => some []
  | _ => none

/-- The words of a text. -/
def read (home : List UInt8) : State → List UInt8 → Option (List Word)
  | s, [] => close home s
  | s, b :: bs =>
      (step home s b).bind fun p => (read home p.2 bs).map (p.1 ++ ·)

theorem read_cons_eq_some {home : List UInt8} {s : State} {b : UInt8} {bs : List UInt8}
    {ws : List Word} :
    read home s (b :: bs) = some ws ↔
      ∃ ended s' later, step home s b = some (ended, s') ∧ read home s' bs = some later ∧
        ws = ended ++ later := by
  simp only [read, Option.bind_eq_some_iff, Option.map_eq_some_iff, Prod.exists]
  constructor
  · rintro ⟨ended, s', hs, later, hr, rfl⟩
    exact ⟨ended, s', later, hs, hr, rfl⟩
  · rintro ⟨ended, s', later, hs, hr, rfl⟩
    exact ⟨ended, s', hs, later, hr, rfl⟩

/-! ## What is around the shell -/

/-- Bytes that make a word a pattern for file names, where they are not
quoted. -/
def isPattern (b : UInt8) : Bool := b = 42 || b = 63 || b = 91

/-- The home directory, and the names of the files that match a pattern. -/
structure Environment where
  home : List UInt8
  matching : Word → List (List UInt8)

namespace Environment

variable (env : Environment)

/-- Pathname expansion: a pattern that matches nothing stays as it is. -/
def expand (w : Word) : List (List UInt8) :=
  if (w.any fun l => !l.quoted && isPattern l.byte) && !(env.matching w).isEmpty then
    env.matching w
  else [w.text]

/-- The words a command is run with. -/
def fields (command : List UInt8) : Option (List (List UInt8)) :=
  (read env.home (.unquoted none) command).map fun ws => ws.flatMap env.expand

end Environment

/-! ## Words without quotes -/

/-- A text that stands for itself: letters, the first of them ordinary. -/
def Bare (text : List UInt8) : Prop :=
  text.head?.map kind = some .ordinary ∧ ∀ b ∈ text, (kind b).letter = true

instance (text : List UInt8) : Decidable (Bare text) :=
  decidable_of_iff
    (text.head?.map kind = some .ordinary ∧ text.all (fun b => (kind b).letter) = true)
    (by rw [Bare, List.all_eq_true])

theorem Bare.concat {text : List UInt8} {b : UInt8} (h : Bare text)
    (hb : (kind b).letter = true) : Bare (text ++ [b]) := by
  obtain ⟨hhead, hall⟩ := h
  refine ⟨?_, ?_⟩
  · cases text with
    | nil => simp at hhead
    | cons a text => exact hhead
  · intro x hx
    rcases List.mem_append.mp hx with hx | hx
    · exact hall x hx
    · rw [List.mem_singleton.mp hx]
      exact hb

theorem bare_singleton {b : UInt8} (h : kind b = .ordinary) : Bare [b] :=
  ⟨by simp [h], by simp [h, Kind.letter]⟩

section Reading

variable {home : List UInt8}

/-- A letter inside a word. -/
theorem step_letter {w : Word} {b : UInt8} (hb : (kind b).letter = true) :
    step home (.unquoted (some w)) b = some ([], .unquoted (some (w ++ [⟨b, false⟩]))) := by
  cases hk : kind b <;> simp_all [step, Kind.letter]

theorem step_ordinary {w : Option Word} {b : UInt8} (hb : kind b = .ordinary) :
    step home (.unquoted w) b = some ([], .unquoted (some (w.getD [] ++ [⟨b, false⟩]))) := by
  simp [step, hb]

theorem step_blank {w : Option Word} {b : UInt8} (hb : kind b = .blank) :
    step home (.unquoted w) b = some (w.toList, .unquoted none) := by
  simp [step, hb]

theorem read_letters {w : Word} {text rest : List UInt8}
    (h : ∀ b ∈ text, (kind b).letter = true) :
    read home (.unquoted (some w)) (text ++ rest) =
      read home (.unquoted (some (w ++ bare text))) rest := by
  induction text generalizing w with
  | nil => simp [bare]
  | cons b text ih =>
      rw [List.cons_append, read, step_letter (h b (by simp))]
      have ih := ih (w := w ++ [⟨b, false⟩]) fun x hx => h x (List.mem_cons_of_mem _ hx)
      simp [ih, bare]

/-- A word that stands for itself is read into the state behind it. -/
theorem read_bare {text rest : List UInt8} (h : Bare text) :
    read home (.unquoted none) (text ++ rest) =
      read home (.unquoted (some (bare text))) rest := by
  obtain ⟨hhead, hall⟩ := h
  cases text with
  | nil => simp at hhead
  | cons b text =>
      have hrest := fun x hx => hall x (List.mem_cons_of_mem b hx)
      rw [List.cons_append, read, step_ordinary (by simpa using hhead), Option.bind_some,
        read_letters hrest]
      simp [bare]

theorem read_blank {w : Option Word} {rest : List UInt8} :
    read home (.unquoted w) (32 :: rest) =
      (read home (.unquoted none) rest).map (w.toList ++ ·) := by
  rw [read, step_blank (by decide)]
  rfl

/-- A path below the home directory. -/
theorem read_tilde {rest : List UInt8} :
    read home (.unquoted none) (126 :: 47 :: rest) =
      read home (.unquoted (some (quote home ++ bare [47]))) rest := by
  rw [read, show step home (.unquoted none) 126 = some ([], .tilde) from rfl, Option.bind_some,
    read, show step home .tilde 47 = some ([], .unquoted (some (quote home ++ bare [47]))) from rfl,
    Option.bind_some]
  simp only [List.nil_append, Option.map_id']

/-- **Words that stand for themselves**, each behind a blank. -/
theorem read_joined {w : Word} {args : List (List UInt8)} (h : ∀ a ∈ args, Bare a) :
    read home (.unquoted (some w)) (args.flatMap (32 :: ·)) = some (w :: args.map bare) := by
  induction args generalizing w with
  | nil => rfl
  | cons a args ih =>
      rw [List.flatMap_cons, List.cons_append, read_blank, read_bare (h a (by simp)),
        ih fun x hx => h x (List.mem_cons_of_mem _ hx)]
      rfl

theorem read_open_quote {w : Option Word} {rest : List UInt8} :
    read home (.unquoted w) (39 :: rest) = read home (.single (w.getD [])) rest := by
  simp [read, step, show kind 39 = .single by decide]

/-- **Between single quotes** everything stands for itself. -/
theorem read_quoted {w : Word} {text : List UInt8} (h : 39 ∉ text) :
    read home (.single w) (text ++ [39]) = some [w ++ quote text] := by
  induction text generalizing w with
  | nil => simp [read, step, close, quote]
  | cons b text ih =>
      have hb : b ≠ 39 := fun hb => h (by simp [hb])
      rw [List.cons_append, read, step, if_neg hb]
      have ih := ih (w := w ++ [⟨b, true⟩]) fun hx => h (List.mem_cons_of_mem _ hx)
      simp [ih, quote]

end Reading

/-! ## What reading costs -/

/-- What words take up: their letters, and a blank behind each. -/
def size : List Word → Nat
  | [] => 0
  | w :: ws => w.length + 1 + size ws

@[simp] theorem size_nil : size [] = 0 := rfl

@[simp] theorem size_cons (w : Word) (ws : List Word) : size (w :: ws) = w.length + 1 + size ws :=
  rfl

@[simp] theorem size_append (vs ws : List Word) : size (vs ++ ws) = size vs + size ws := by
  induction vs with
  | nil => simp
  | cons v vs ih =>
      rw [List.cons_append, size_cons, size_cons, ih]
      omega

/-- What a state holds of the text behind it. -/
def State.held : State → Nat
  | .unquoted w => (w.getD []).length
  | .escape w => (w.getD []).length + 1
  | .single w | .double w => w.length
  | .doubleEscape w => w.length + 1
  | .tilde => 1
  | .comment => 0

/-- Where nothing is lost so far. -/
def State.free : State → Bool
  | .unquoted _ | .tilde => true
  | _ => false

section Costs

variable {home bs : List UInt8} {s s' : State} {b : UInt8} {ws ended : List Word}

theorem size_close_le (hhome : home.length ≤ 1) (h : close home s = some ws) :
    size ws ≤ s.held + 1 := by
  cases s with
  | unquoted w =>
      cases h
      cases w <;> simp [State.held]
  | tilde =>
      cases h
      simpa [State.held] using hhome
  | comment =>
      cases h
      exact Nat.zero_le _
  | _ => cases h

/-- What a byte does outside quotes. -/
theorem step_unquoted_cases {w : Option Word} (h : step home (.unquoted w) b = some (ended, s')) :
    (kind b = .blank ∧ ended = w.toList ∧ s' = .unquoted none) ∨
      ended = [] ∧
        ((kind b).letter = true ∧ (w = none → kind b = .ordinary) ∧
            s' = .unquoted (some (w.getD [] ++ [⟨b, false⟩])) ∨
          w = none ∧ b ≠ 39 ∧ s' = .comment ∨
          w = none ∧ b ≠ 39 ∧ s' = .tilde ∨
          b = 39 ∧ s' = .single (w.getD []) ∨
          b ≠ 39 ∧ s' = .double (w.getD []) ∨
          b ≠ 39 ∧ s' = .escape w) := by
  have hsingle : kind b = .single ↔ b = 39 := by
    constructor
    · intro hk
      by_contra hb
      simp only [kind] at hk
      split_ifs at hk
    · rintro rfl
      decide
  cases w <;> cases hk : kind b <;> simp [step, hk] at h <;> obtain ⟨rfl, rfl⟩ := h <;>
    simp [Kind.letter, ← hsingle, hk]

theorem held_step_le (hhome : home.length ≤ 1) (h : step home s b = some (ended, s')) :
    size ended + s'.held ≤ s.held + 1 := by
  cases s with
  | unquoted w =>
      rcases step_unquoted_cases h with ⟨-, rfl, rfl⟩ | ⟨rfl, hcase⟩
      · cases w <;> simp [State.held]
      · rcases hcase with ⟨-, -, rfl⟩ | ⟨rfl, -, rfl⟩ | ⟨rfl, -, rfl⟩ | ⟨-, rfl⟩ | ⟨-, rfl⟩ |
          ⟨-, rfl⟩ <;> simp [State.held]
  | escape w =>
      cases h
      by_cases hb : b = 10
      · simp only [hb, if_true, State.held, size_nil]
        omega
      · simp [hb, State.held]
  | single w =>
      cases h
      by_cases hb : b = 39 <;> simp [hb, State.held]
  | double w =>
      rw [step] at h
      split_ifs at h <;> cases h <;> simp [State.held]
  | doubleEscape w =>
      rw [step] at h
      split_ifs at h <;> cases h <;> simp only [State.held, size_nil, List.length_append,
        List.length_cons, List.length_nil] <;> omega
  | tilde =>
      rw [step] at h
      split_ifs at h <;> cases h <;> simpa [State.held] using hhome
  | comment =>
      rw [step] at h
      split_ifs at h
      cases h
      simp [State.held]

theorem size_read_le (hhome : home.length ≤ 1) (h : read home s bs = some ws) :
    size ws ≤ s.held + bs.length + 1 := by
  induction bs generalizing s ws with
  | nil => exact size_close_le hhome h
  | cons b bs ih =>
      obtain ⟨ended, s', later, hs, hr, rfl⟩ := read_cons_eq_some.mp h
      have hstep := held_step_le hhome hs
      have hrest := ih hr
      rw [size_append, List.length_cons]
      omega

/-- The byte behind a backslash, and the end of a quote. -/
theorem held_step_lt (h : step home s b = some (ended, s')) (hs : s.free = false ∨ b = 39)
    (hs' : s'.free = true) : size ended + s'.held ≤ s.held := by
  cases s with
  | unquoted w =>
      have hb : b = 39 := by simpa [State.free] using hs
      rcases step_unquoted_cases h with ⟨hk, -, -⟩ | ⟨-, hcase⟩
      · rw [hb] at hk
        cases hk
      · rcases hcase with ⟨hk, -, -⟩ | ⟨-, hne, -⟩ | ⟨-, hne, -⟩ | ⟨-, rfl⟩ | ⟨hne, -⟩ | ⟨hne, -⟩
        · rw [hb] at hk
          cases hk
        · exact absurd hb hne
        · exact absurd hb hne
        · cases hs'
        · exact absurd hb hne
        · exact absurd hb hne
  | escape w =>
      cases h
      by_cases hb : b = 10 <;> simp [hb, State.held]
  | single w =>
      cases h
      by_cases hb : b = 39
      · simp [hb, State.held]
      · simp [hb, State.free] at hs'
  | double w =>
      rw [step] at h
      split_ifs at h <;> cases h <;> simp_all [State.held, State.free]
  | doubleEscape w =>
      rw [step] at h
      split_ifs at h <;> cases h <;> cases hs'
  | tilde =>
      have hb : b = 39 := by simpa [State.free] using hs
      subst hb
      cases h
  | comment =>
      rw [step] at h
      split_ifs at h
      cases h
      cases hs'

/-- **A quote costs**: a text with a single quote in it, and every text
that closes what is open. -/
theorem size_read_lt (hhome : home.length ≤ 1) (h : read home s bs = some ws)
    (hs : s.free = false ∨ 39 ∈ bs) : size ws ≤ s.held + bs.length := by
  induction bs generalizing s ws with
  | nil =>
      have hs : s.free = false := by simpa using hs
      cases s <;> simp_all [read, close, State.free]
  | cons b bs ih =>
      obtain ⟨ended, s', later, hstep, hr, rfl⟩ := read_cons_eq_some.mp h
      rw [size_append, List.length_cons]
      by_cases hs' : s'.free = false ∨ 39 ∈ bs
      · have hone := held_step_le hhome hstep
        have hrest := ih hr hs'
        omega
      · have hfree : s'.free = true := by
          simpa using fun hf => hs' (.inl hf)
        have hs : s.free = false ∨ b = 39 := by
          rcases hs with hs | hs
          · exact .inl hs
          · rcases List.mem_cons.mp hs with hs | hs
            · exact .inr hs.symm
            · exact absurd (.inr hs) hs'
        have hone := held_step_lt hstep hs hfree
        have hrest := size_read_le hhome hr
        omega

/-- Inside double quotes. -/
def State.inDouble : State → Bool
  | .double _ | .doubleEscape _ => true
  | _ => false

theorem held_step_quote (h : step home s b = some (ended, s')) (hs : s.inDouble = false)
    (hb : b = 39 ∨ s'.inDouble = true) : size ended + s'.held ≤ s.held := by
  cases s with
  | unquoted w =>
      rcases step_unquoted_cases h with ⟨hk, -, rfl⟩ | ⟨rfl, hcase⟩
      · rcases hb with rfl | hb
        · cases hk
        · cases hb
      · rcases hcase with ⟨hk, -, rfl⟩ | ⟨-, hne, rfl⟩ | ⟨-, hne, rfl⟩ | ⟨-, rfl⟩ | ⟨-, rfl⟩ |
          ⟨hne, rfl⟩
        · rcases hb with rfl | hb
          · cases hk
          · cases hb
        · simp [hne, State.inDouble] at hb
        · simp [hne, State.inDouble] at hb
        · simp [State.held]
        · simp [State.held]
        · simp [hne, State.inDouble] at hb
  | escape w => exact held_step_lt h (.inl rfl) (by cases h; rfl)
  | single w =>
      cases h
      by_cases hne : b = 39
      · simp [hne, State.held]
      · simp [hne, State.inDouble] at hb
  | tilde =>
      rw [step] at h
      split_ifs at h with hslash hblank <;> cases h
      · rcases hb with rfl | hb
        · cases hslash
        · cases hb
      · rcases hb with rfl | hb
        · cases hblank
        · cases hb
  | comment =>
      rw [step] at h
      split_ifs at h
      cases h
      simp [State.held]
  | _ => cases hs

/-- **Two single quotes** cost two, unless double quotes hide them. -/
theorem size_read_two (hhome : home.length ≤ 1) (h : read home s bs = some ws)
    (hs : s.inDouble = false) (hbs : 2 ≤ bs.count 39) : size ws + 1 ≤ s.held + bs.length := by
  induction bs generalizing s ws with
  | nil => simp at hbs
  | cons b bs ih =>
      obtain ⟨ended, s', later, hstep, hr, rfl⟩ := read_cons_eq_some.mp h
      have hmem : 39 ∈ bs := by
        rw [List.count_cons] at hbs
        split at hbs <;> exact List.count_pos_iff.mp (by omega)
      rw [size_append, List.length_cons]
      by_cases hquote : b = 39 ∨ s'.inDouble = true
      · have hone := held_step_quote hstep hs hquote
        have hrest := size_read_lt hhome hr (.inr hmem)
        omega
      · rw [not_or, Bool.not_eq_true] at hquote
        rw [List.count_cons_of_ne hquote.1] at hbs
        have hone := held_step_le hhome hstep
        have hrest := ih hr hquote.2 hbs
        omega

theorem step_inDouble (h : step home s b = some (ended, s')) (hs : s.inDouble = true) :
    s'.inDouble = true ∨ b = 34 ∧ s'.free = true := by
  cases s with
  | double w =>
      rw [step] at h
      split_ifs at h with hend <;> cases h
      · exact .inr ⟨hend, rfl⟩
      · exact .inl rfl
      · exact .inl rfl
  | doubleEscape w =>
      rw [step] at h
      split_ifs at h <;> cases h <;> exact .inl rfl
  | _ => cases hs

/-- Double quotes and a single quote behind them. -/
theorem size_read_double (hhome : home.length ≤ 1) (h : read home s bs = some ws)
    (hs : s.inDouble = true) (hbs : bs.getLast? = some 39) :
    size ws + 1 ≤ s.held + bs.length := by
  induction bs generalizing s ws with
  | nil => cases hbs
  | cons b bs ih =>
      obtain ⟨ended, s', later, hstep, hr, rfl⟩ := read_cons_eq_some.mp h
      have hone := held_step_le hhome hstep
      rw [size_append, List.length_cons]
      rcases step_inDouble hstep hs with hs' | ⟨rfl, hfree⟩
      · cases bs with
        | nil =>
            -- the quote is still open
            cases s' <;> cases hr <;> cases hs'
        | cons c bs =>
            rw [List.getLast?_cons_cons] at hbs
            have hrest := ih hr hs' hbs
            omega
      · have hmem : 39 ∈ bs := by
          cases bs with
          | nil => simp at hbs
          | cons c bs =>
              rw [List.getLast?_cons_cons] at hbs
              exact List.mem_of_getLast? hbs
        have hlost := held_step_lt hstep (.inl (by cases s <;> first | rfl | cases hs)) hfree
        have hrest := size_read_lt hhome hr (.inr hmem)
        omega

end Costs

/-! ## What costs nothing -/

/-- The word so far stands for itself. -/
def State.Clean : State → Prop
  | .unquoted w => ∀ v ∈ w, Bare v.text
  | .tilde => True
  | _ => False

section Clean

variable {c : UInt8} {bs : List UInt8} {s s' : State} {b : UInt8} {ws ended : List Word}

theorem clean_step (hc : kind c = .ordinary) (hs : s.Clean)
    (h : step [c] s b = some (ended, s')) (hfree : s'.free = true)
    (hheld : s.held + 1 ≤ size ended + s'.held) : s'.Clean ∧ ∀ w ∈ ended, Bare w.text := by
  cases s with
  | unquoted w =>
      rcases step_unquoted_cases h with ⟨-, rfl, rfl⟩ | ⟨rfl, hcase⟩
      · exact ⟨by simp [State.Clean], by simpa [State.Clean] using hs⟩
      · rcases hcase with ⟨hk, hfirst, rfl⟩ | ⟨-, -, rfl⟩ | ⟨-, -, rfl⟩ | ⟨-, rfl⟩ | ⟨-, rfl⟩ |
          ⟨-, rfl⟩
        · refine ⟨?_, by simp⟩
          cases w with
          | none => simpa [State.Clean] using bare_singleton (hfirst rfl)
          | some v =>
              have hv : Bare v.text := hs v rfl
              simpa [State.Clean] using hv.concat hk
        · cases hfree
        · exact ⟨trivial, by simp⟩
        · cases hfree
        · cases hfree
        · cases hfree
  | tilde =>
      rw [step] at h
      split_ifs at h <;> cases h
      · exact ⟨by simpa [State.Clean] using (bare_singleton hc).concat (b := 47) rfl, by simp⟩
      · exact ⟨by simp [State.Clean], by simpa using bare_singleton hc⟩
  | _ => cases hs

/-- **Where nothing is lost** every word stands for itself, its first byte
possibly the home directory of one byte. -/
theorem bare_of_read (hc : kind c = .ordinary) (hs : s.Clean) (h : read [c] s bs = some ws)
    (hsize : s.held + bs.length + 1 ≤ size ws) : ∀ w ∈ ws, Bare w.text := by
  induction bs generalizing s ws with
  | nil =>
      cases s with
      | unquoted w =>
          cases h
          simpa [State.Clean] using hs
      | tilde =>
          cases h
          simpa using bare_singleton hc
      | _ => cases hs
  | cons b bs ih =>
      obtain ⟨ended, s', later, hstep, hr, rfl⟩ := read_cons_eq_some.mp h
      rw [size_append, List.length_cons] at hsize
      have hone := held_step_le (by simp) hstep
      have hrest := size_read_le (by simp) hr
      have hfree : s'.free = true := by
        by_contra hf
        have hlost := size_read_lt (by simp) hr (.inl (by simpa using hf))
        omega
      obtain ⟨hs', hended⟩ := clean_step hc hs hstep hfree (by omega)
      have hlater := ih hs' hr (by omega)
      intro w hw
      rcases List.mem_append.mp hw with hw | hw
      · exact hended w hw
      · exact hlater w hw

/-- Behind a backslash two single quotes are still quotes. -/
theorem size_read_escape {home : List UInt8} {w : Option Word} (hhome : home.length ≤ 1)
    (h : read home (.escape w) (b :: bs) = some ws) (hbs : 2 ≤ bs.count 39) :
    size ws + 2 ≤ (State.escape w).held + (b :: bs).length := by
  obtain ⟨ended, s', later, hstep, hr, rfl⟩ := read_cons_eq_some.mp h
  have hone := held_step_lt hstep (.inl rfl) (by cases hstep; rfl)
  have hrest := size_read_two hhome hr (by cases hstep; rfl) hbs
  rw [size_append, List.length_cons]
  omega

/-- What is opened in front of a last word in single quotes is paid for,
and the quotes too. -/
theorem size_read_opened {text last : List UInt8} (hs : s.Clean)
    (hstep : step [c] s b = some (ended, s')) (hfree : s'.free = false)
    (hr : read [c] s' (text ++ 32 :: 39 :: (last ++ [39])) = some ws) :
    size ended + size ws ≤ s.held + text.length + last.length + 2 := by
  have hhome : [c].length ≤ 1 := by simp
  have hlen : (text ++ 32 :: 39 :: (last ++ [39])).length = text.length + last.length + 3 := by
    simp only [List.length_append, List.length_cons, List.length_nil]
    omega
  have hcount : 2 ≤ (text ++ 32 :: 39 :: (last ++ [39])).count 39 := by
    simp
    omega
  cases s with
  | unquoted w =>
      rcases step_unquoted_cases hstep with ⟨-, -, rfl⟩ | ⟨rfl, hcase⟩
      · cases hfree
      rw [size_nil]
      rcases hcase with ⟨-, -, rfl⟩ | ⟨rfl, -, rfl⟩ | ⟨rfl, -, rfl⟩ | ⟨-, rfl⟩ | ⟨-, rfl⟩ | ⟨-, rfl⟩
      · cases hfree
      · have hrest := size_read_two hhome hr rfl hcount
        simp only [State.held] at hrest ⊢
        omega
      · cases hfree
      · have hrest := size_read_two hhome hr rfl hcount
        simp only [State.held] at hrest ⊢
        omega
      · have hend : (text ++ 32 :: 39 :: (last ++ [39])).getLast? = some 39 := by
          rw [show text ++ 32 :: 39 :: (last ++ [39]) = (text ++ 32 :: 39 :: last) ++ [39] by simp]
          exact List.getLast?_concat
        have hrest := size_read_double hhome hr rfl hend
        simp only [State.held] at hrest ⊢
        omega
      · have hrest : size ws + 2 ≤ (State.escape w).held + (text.length + last.length + 3) := by
          rw [← hlen]
          cases text with
          | nil => exact size_read_escape hhome hr (by simp)
          | cons d text => exact size_read_escape hhome hr (by simp; omega)
        simp only [State.held] at hrest ⊢
        omega
  | tilde =>
      rw [step] at hstep
      split_ifs at hstep <;> cases hstep <;> cases hfree
  | _ => cases hs

theorem step_end_of_word (hs : s.Clean) (h : step [c] s 32 = some (ended, s')) :
    s' = .unquoted none := by
  cases s with
  | unquoted w =>
      rw [step_blank (by decide)] at h
      cases h
      rfl
  | tilde =>
      cases h
      rfl
  | _ => cases hs

/-- **A last word in single quotes**: where only the two quotes are lost,
the words in front of it stand for themselves and the last one is what is
between the quotes. -/
theorem read_last_quoted (hc : kind c = .ordinary) {text last : List UInt8} (hs : s.Clean)
    (h : read [c] s (text ++ 32 :: 39 :: (last ++ [39])) = some ws)
    (hsize : s.held + text.length + last.length + 2 ≤ size ws) :
    ∃ vs, ws = vs ++ [quote last] ∧ ∀ w ∈ vs, Bare w.text := by
  have hhome : [c].length ≤ 1 := by simp
  induction text generalizing s ws with
  | nil =>
      rw [List.nil_append] at h
      obtain ⟨ended, s', later, hstep, hr, rfl⟩ := read_cons_eq_some.mp h
      obtain rfl := step_end_of_word hs hstep
      have hone := held_step_le hhome hstep
      rw [size_append, List.length_nil] at hsize
      have hbehind : read [c] (.single []) (last ++ [39]) = some later := by
        rwa [read_open_quote] at hr
      have hnone : (State.unquoted none).held = 0 := rfl
      have hlast : 39 ∉ last := by
        intro hmem
        have hcount : 2 ≤ (last ++ [39]).count 39 := by
          rw [List.count_append, List.count_singleton_self]
          have hpos := List.count_pos_iff.mpr hmem
          omega
        have hlost := size_read_two hhome hbehind rfl hcount
        simp only [State.held, List.length_nil, List.length_append, List.length_cons] at hlost
        omega
      rw [read_quoted hlast] at hbehind
      cases hbehind
      refine ⟨ended, rfl, (clean_step hc hs hstep rfl ?_).2⟩
      simp only [List.nil_append, size_cons, length_quote, size_nil] at hsize
      omega
  | cons b text ih =>
      rw [List.cons_append] at h
      obtain ⟨ended, s', later, hstep, hr, rfl⟩ := read_cons_eq_some.mp h
      rw [size_append, List.length_cons] at hsize
      cases hfree : s'.free with
      | true =>
          have hout : s'.inDouble = false := by
            cases s' <;> first | rfl | cases hfree
          have hone := held_step_le hhome hstep
          have hrest := size_read_two hhome hr hout (by simp; omega)
          simp only [List.length_append, List.length_cons, List.length_nil] at hrest
          obtain ⟨hs', hended⟩ := clean_step hc hs hstep hfree (by omega)
          obtain ⟨vs, rfl, hvs⟩ := ih hs' hr (by omega)
          refine ⟨ended ++ vs, by simp, ?_⟩
          intro w hw
          rcases List.mem_append.mp hw with hw | hw
          · exact hended w hw
          · exact hvs w hw
      | false =>
          have hlost := size_read_opened hs hstep hfree hr
          omega

end Clean

theorem bare_texts {ws : List Word} {texts : List (List UInt8)} (h : ws.map Word.text = texts)
    (hbare : ∀ w ∈ ws, Bare w.text) : ∀ a ∈ texts, Bare a := by
  subst h
  intro a ha
  obtain ⟨w, hw, rfl⟩ := List.mem_map.mp ha
  exact hbare w hw

/-! ## Commands -/

/-- A text that is a word of itself, whatever files there are. -/
def Literal (environments : Set Environment) (text : List UInt8) : Prop :=
  Bare text ∧ ∀ env ∈ environments, env.expand (bare text) = [text]

namespace Environment

variable {env : Environment}

/-- The environment of a shell that finds no files. -/
def noFiles (home : List UInt8) : Environment := ⟨home, fun _ => []⟩

theorem expand_noFiles (home : List UInt8) (w : Word) : (noFiles home).expand w = [w.text] := by
  simp [expand, noFiles]

theorem fields_noFiles (home command : List UInt8) :
    (noFiles home).fields command =
      (read home (.unquoted none) command).map fun ws => ws.map Word.text := by
  simp only [fields, funext (expand_noFiles home), List.map_eq_flatMap]
  rfl

/-- Quoted bytes are no pattern. -/
theorem expand_eq_text {w : Word} (h : ∀ l ∈ w, l.quoted = true ∨ isPattern l.byte = false) :
    env.expand w = [w.text] := by
  have hany : (w.any fun l => !l.quoted && isPattern l.byte) = false := by
    rw [List.any_eq_false]
    intro l hl
    rcases h l hl with hq | hp
    · simp [hq]
    · simp [hp]
  rw [expand, hany]
  rfl

theorem expand_quote (text : List UInt8) : env.expand (quote text) = [text] := by
  rw [expand_eq_text (by simp [quote]), text_quote]

theorem expand_ne_nil (w : Word) : env.expand w ≠ [] := by
  rw [expand]
  split
  · rename_i h
    simp only [Bool.and_eq_true, Bool.not_eq_true', List.isEmpty_eq_false_iff] at h
    exact h.2
  · simp

theorem length_le_flatMap_expand (ws : List Word) :
    ws.length ≤ (ws.flatMap env.expand).length := by
  induction ws with
  | nil => exact Nat.le_refl 0
  | cons w ws ih =>
      have hpos := List.length_pos_of_ne_nil (env.expand_ne_nil w)
      rw [List.flatMap_cons, List.length_append, List.length_cons]
      omega

/-- Words stay as they are when each of them does. -/
theorem flatMap_expand_eq_iff (ws : List Word) :
    ws.flatMap env.expand = ws.map Word.text ↔ ∀ w ∈ ws, env.expand w = [w.text] := by
  induction ws with
  | nil => simp
  | cons w ws ih =>
      rw [List.flatMap_cons, List.map_cons, List.forall_mem_cons, ← ih]
      constructor
      · intro h
        obtain ⟨x, xs, hx⟩ := List.exists_cons_of_ne_nil (env.expand_ne_nil w)
        rw [hx, List.cons_append] at h
        obtain ⟨rfl, htail⟩ := List.cons.inj h
        have hxs : xs = [] := by
          have hlen := congrArg List.length htail
          have hle := env.length_le_flatMap_expand ws
          rw [List.length_append, List.length_map] at hlen
          exact List.length_eq_zero_iff.mp (by omega)
        subst hxs
        exact ⟨hx, htail⟩
      · rintro ⟨hw, h⟩
        rw [hw, h]
        rfl

end Environment

theorem literal_noFiles {text : List UInt8} (h : Bare text) :
    Literal (Set.range Environment.noFiles) text := by
  refine ⟨h, ?_⟩
  rintro _ ⟨home, rfl⟩
  rw [Environment.expand_noFiles, text_bare]

/-- Without a byte that means anything to a shell, a text stands for itself. -/
def Inert (text : List UInt8) : Prop := Bare text ∧ ∀ b ∈ text, isPattern b = false

instance (text : List UInt8) : Decidable (Inert text) :=
  decidable_of_iff (Bare text ∧ text.all (fun b => !isPattern b) = true)
    (by simp [Inert])

theorem Inert.literal {environments : Set Environment} {text : List UInt8} (h : Inert text) :
    Literal environments text := by
  refine ⟨h.1, fun env _ => ?_⟩
  rw [Environment.expand_eq_text fun l hl => ?_, text_bare]
  obtain ⟨b, hb, rfl⟩ := List.mem_map.mp hl
  exact Or.inr (h.2 b hb)

theorem size_eq (ws : List Word) :
    size ws = ((ws.map Word.text).flatMap fun text => 32 :: text).length := by
  induction ws with
  | nil => rfl
  | cons w ws ih =>
      simp [ih]
      omega

variable {environments : Set Environment} {program : List UInt8} {args : List (List UInt8)}

theorem read_command {home : List UInt8} (h : ∀ a ∈ program :: args, Bare a) :
    read home (.unquoted none) (program ++ args.flatMap (32 :: ·)) =
      some ((program :: args).map bare) := by
  rw [read_bare (h program (by simp)), read_joined fun a ha => h a (List.mem_cons_of_mem _ ha)]
  rfl

theorem fields_command {env : Environment} (h : ∀ a ∈ program :: args, Bare a) :
    env.fields (program ++ args.flatMap (32 :: ·)) = some (program :: args) ↔
      ∀ a ∈ program :: args, env.expand (bare a) = [a] := by
  have hexpand := env.flatMap_expand_eq_iff ((program :: args).map bare)
  simp only [List.map_map, Function.comp_def, text_bare, List.map_id', List.forall_mem_map]
    at hexpand
  rw [Environment.fields, read_command h, Option.map_some, Option.some_inj, hexpand]

/-- **Words joined by blanks** are read back if and only if each of them is
literal. -/
theorem fields_joined_iff {c : UInt8} (hc : kind c = .ordinary)
    (hnone : Environment.noFiles [c] ∈ environments) :
    (∀ env ∈ environments,
        env.fields (program ++ args.flatMap (32 :: ·)) = some (program :: args)) ↔
      ∀ a ∈ program :: args, Literal environments a := by
  constructor
  · intro h
    have hbare : ∀ a ∈ program :: args, Bare a := by
      have hread := h _ hnone
      rw [Environment.fields_noFiles, Option.map_eq_some_iff] at hread
      obtain ⟨ws, hread, hws⟩ := hread
      have hsize := size_eq ws
      rw [hws, List.flatMap_cons, List.length_append, List.length_cons] at hsize
      refine bare_texts hws (bare_of_read hc (by simp [State.Clean]) hread ?_)
      rw [hsize, List.length_append]
      simp only [State.held, Option.getD_none, List.length_nil]
      omega
    intro a ha
    exact ⟨hbare a ha, fun env henv => (fields_command hbare).mp (h env henv) a ha⟩
  · intro h env henv
    exact (fields_command fun a ha => (h a ha).1).mpr fun a ha => (h a ha).2 env henv

end Shell
