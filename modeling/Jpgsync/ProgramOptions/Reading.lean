import Jpgsync.ProgramOptions
import Mathlib.Data.List.Perm.Basic

/-!
# ProgramOptions — Reading

The grammar of command lines. An argument of the grammar is a positional
text or an option, with its value if it has one; `WellRead` says that the
scan reads the tokens of a list of arguments back as these arguments. Then
the scan is a fold over the arguments (`parseLoop_args`), and every command
line that is accepted is such a list, perhaps with `--` behind it
(`exists_layout`).
-/

namespace Jpgsync

namespace ProgramOptions

variable {O : Type*} {po : ProgramOptions O}

/-! ## Arguments -/

/-- An argument of the grammar. -/
inductive Arg (O : Type*) where
  | positional (text : Bytes)
  | option (o : O) (flag : Bytes) (value : Option Bytes)

namespace Arg

/-- How an argument is written. -/
def tokens : Arg O → List Bytes
  | .positional text => [text]
  | .option _ flag value => flag :: value.toList

/-- The texts of the positional arguments. -/
def texts : Arg O → List Bytes
  | .positional text => [text]
  | .option .. => []

variable (po) in
/-- An argument by itself is written as its option wants it. -/
def Stands : Arg O → Prop
  | .positional text => isFlag text = false
  | .option o flag none =>
      isFlag flag = true ∧ flag ≠ dashes ∧ po.find flag = some o ∧
        (po.base o).parserFactory ≠ .word
  | .option o flag (some value) =>
      isFlag flag = true ∧ flag ≠ dashes ∧ po.find flag = some o ∧
        (po.base o).parserFactory ≠ .flag ∧ isFlag value = false

variable (po) in
/-- An option that could take the next argument as its value. -/
def Greedy : Arg O → Prop
  | .option o _ none => (po.base o).parserFactory = .level
  | _ => False

end Arg

/-- The tokens of a list of arguments. -/
def tokens (as : List (Arg O)) : List Bytes := as.flatMap Arg.tokens

/-- Its positional texts. -/
def texts (as : List (Arg O)) : List Bytes := as.flatMap Arg.texts

@[simp] theorem tokens_nil : tokens ([] : List (Arg O)) = [] := rfl

@[simp] theorem tokens_cons (a : Arg O) (as : List (Arg O)) :
    tokens (a :: as) = a.tokens ++ tokens as := rfl

theorem Arg.tokens_eq_cons (a : Arg O) : ∃ t ts, a.tokens = t :: ts := by
  cases a with
  | positional text => exact ⟨text, [], rfl⟩
  | option o flag value => exact ⟨flag, value.toList, rfl⟩

@[simp] theorem tokens_append (as bs : List (Arg O)) :
    tokens (as ++ bs) = tokens as ++ tokens bs := List.flatMap_append

@[simp] theorem texts_nil : texts ([] : List (Arg O)) = [] := rfl

@[simp] theorem texts_cons (a : Arg O) (as : List (Arg O)) :
    texts (a :: as) = a.texts ++ texts as := rfl

@[simp] theorem texts_append (as bs : List (Arg O)) :
    texts (as ++ bs) = texts as ++ texts bs := List.flatMap_append

/-- The first token is no value. -/
def Closed (rest : List Bytes) : Prop := ∀ t ∈ rest.head?, isFlag t = true

@[simp] theorem closed_nil : Closed [] := by simp [Closed]

@[simp] theorem closed_cons {t : Bytes} {rest : List Bytes} :
    Closed (t :: rest) ↔ isFlag t = true := by simp [Closed]

variable (po) in
/-- The tokens of `as`, followed by `rest`, are read as `as`. -/
def WellRead : List (Arg O) → List Bytes → Prop
  | [], _ => True
  | a :: as, rest => a.Stands po ∧ (a.Greedy po → Closed (tokens as ++ rest)) ∧ WellRead as rest

/-- An option begins with a flag. -/
theorem Arg.Stands.closed {a : Arg O} (h : a.Stands po) (ho : a.texts = []) (rest : List Bytes) :
    Closed (a.tokens ++ rest) := by
  cases a with
  | positional text => cases ho
  | option o flag value =>
      cases value <;> simpa [Arg.tokens] using h.1

theorem WellRead.stands {as : List (Arg O)} {rest : List Bytes} (h : WellRead po as rest) :
    ∀ a ∈ as, a.Stands po := by
  induction as with
  | nil => simp
  | cons a as ih =>
      obtain ⟨ha, -, has⟩ := h
      intro b hb
      rcases List.mem_cons.mp hb with rfl | hb
      · exact ha
      · exact ih has b hb

/-- Options side by side are read as they stand. -/
theorem wellRead_of_options {as : List (Arg O)} {rest : List Bytes} (h : ∀ a ∈ as, a.Stands po)
    (hoptions : texts as = []) (hrest : Closed rest) : WellRead po as rest := by
  induction as with
  | nil => trivial
  | cons a as ih =>
      rw [texts_cons, List.append_eq_nil_iff] at hoptions
      have htail : ∀ b ∈ as, b.Stands po := fun b hb => h b (List.mem_cons_of_mem a hb)
      refine ⟨h a List.mem_cons_self, fun _ => ?_, ih htail hoptions.2⟩
      cases as with
      | nil => simpa using hrest
      | cons b as =>
          rw [texts_cons, List.append_eq_nil_iff] at hoptions
          rw [tokens_cons, List.append_assoc]
          exact (htail b List.mem_cons_self).closed hoptions.2.1 _

theorem wellRead_append {as bs : List (Arg O)} {rest : List Bytes} :
    WellRead po (as ++ bs) rest ↔ WellRead po as (tokens bs ++ rest) ∧ WellRead po bs rest := by
  induction as with
  | nil => simp [WellRead]
  | cons a as ih => simp [WellRead, ih, and_assoc]

/-- Only whether the next token could be a value matters. -/
theorem WellRead.congr {as : List (Arg O)} {rest rest' : List Bytes} (h : WellRead po as rest)
    (hclosed : Closed rest → Closed rest') : WellRead po as rest' := by
  induction as with
  | nil => trivial
  | cons a as ih =>
      obtain ⟨ha, hgreedy, has⟩ := h
      refine ⟨ha, fun hg => ?_, ih has⟩
      have hold := hgreedy hg
      cases htok : tokens as with
      | nil =>
          rw [htok, List.nil_append] at hold
          exact hclosed hold
      | cons t ts =>
          rw [htok] at hold
          exact hold

theorem dashes_notMem_tokens {as : List (Arg O)} (h : ∀ a ∈ as, a.Stands po) :
    dashes ∉ tokens as := by
  intro hmem
  obtain ⟨a, ha, htok⟩ := List.mem_flatMap.mp hmem
  have hstands := h a ha
  cases a with
  | positional text =>
      obtain rfl : dashes = text := by simpa [Arg.tokens] using htok
      simp [Arg.Stands] at hstands
  | option o flag value =>
      cases value with
      | none =>
          obtain rfl : dashes = flag := by simpa [Arg.tokens] using htok
          exact hstands.2.1 rfl
      | some value =>
          rcases (by simpa [Arg.tokens] using htok : dashes = flag ∨ dashes = value) with rfl | rfl
          · exact hstands.2.1 rfl
          · simpa using hstands.2.2.2.2

/-- A positional text is no flag. -/
theorem isFlag_of_mem_texts {as : List (Arg O)} {text : Bytes} (h : ∀ a ∈ as, a.Stands po)
    (hmem : text ∈ texts as) : isFlag text = false := by
  obtain ⟨a, ha, htext⟩ := List.mem_flatMap.mp hmem
  have hstands := h a ha
  cases a with
  | positional t =>
      obtain rfl : text = t := by simpa [Arg.texts] using htext
      exact hstands
  | option o flag value => simp [Arg.texts] at htext

/-! ## Reading is unambiguous -/

/-- What follows the arguments of a command line: nothing, or `--` and
further positional arguments. -/
def trail : Option (List Bytes) → List Bytes
  | none => []
  | some more => dashes :: more

theorem closed_trail (more : Option (List Bytes)) : Closed (trail more) := by
  cases more <;> simp [trail]

/-- An argument written with the same tokens is the same. -/
theorem Arg.eq_of_tokens {a b : Arg O} {rest rest' : List Bytes} (ha : a.Stands po)
    (hb : b.Stands po) (hga : a.Greedy po → Closed rest) (hgb : b.Greedy po → Closed rest')
    (heq : a.tokens ++ rest = b.tokens ++ rest') : a = b ∧ rest = rest' := by
  -- an option without a value would have taken it
  have bare : ∀ {o : O} {flag value : Bytes} {x y : List Bytes},
      (Arg.option o flag (some value)).Stands po → (Arg.option o flag none).Stands po →
      ((Arg.option o flag none).Greedy po → Closed x) → x ≠ value :: y := by
    intro o flag value x y hsome hnone hgreedy hx
    have hlevel : (po.base o).parserFactory = .level := by
      cases hf : (po.base o).parserFactory with
      | flag => exact absurd hf hsome.2.2.2.1
      | word => exact absurd hf hnone.2.2.2
      | level => rfl
    have hclosed := hgreedy hlevel
    rw [hx, closed_cons, hsome.2.2.2.2] at hclosed
    cases hclosed
  cases a with
  | positional t =>
      cases b with
      | positional t' => simpa [tokens] using heq
      | option o flag value =>
          obtain rfl : t = flag := (List.cons.inj heq).1
          have hflag : isFlag t = true := by
            cases value <;> exact hb.1
          rw [show isFlag t = false from ha] at hflag
          cases hflag
  | option o flag value =>
      cases b with
      | positional t =>
          obtain rfl : flag = t := (List.cons.inj heq).1
          have hflag : isFlag flag = true := by
            cases value <;> exact ha.1
          rw [show isFlag flag = false from hb] at hflag
          cases hflag
      | option o' flag' value' =>
          obtain ⟨rfl, htail⟩ := List.cons.inj heq
          obtain rfl : o = o' := by
            have hfind : po.find flag = some o := by
              cases value <;> exact ha.2.2.1
            have hfind' : po.find flag = some o' := by
              cases value' <;> exact hb.2.2.1
            exact Option.some.inj (hfind.symm.trans hfind')
          cases value with
          | none =>
              cases value' with
              | none => exact ⟨rfl, htail⟩
              | some v => exact absurd htail (bare hb ha hga)
          | some v =>
              cases value' with
              | none => exact absurd htail.symm (bare ha hb hgb)
              | some v' =>
                  obtain ⟨rfl, hrest⟩ := List.cons.inj htail
                  exact ⟨rfl, hrest⟩

/-- **A command line has one layout.** -/
theorem WellRead.unique {as bs : List (Arg O)} {rest : List Bytes} {more : Option (List Bytes)}
    (ha : WellRead po as rest) (hb : WellRead po bs (trail more))
    (heq : tokens as ++ rest = tokens bs ++ trail more) :
    ∃ cs, bs = as ++ cs ∧ rest = tokens cs ++ trail more := by
  induction as generalizing bs with
  | nil => exact ⟨bs, rfl, heq⟩
  | cons a as ih =>
      obtain ⟨hstands, hgreedy, htail⟩ := ha
      cases bs with
      | nil =>
          have hmem : dashes ∉ tokens [a] := dashes_notMem_tokens (by simpa using hstands)
          obtain ⟨t, ts, ht⟩ := a.tokens_eq_cons
          rw [tokens_cons, ht, tokens_nil, List.nil_append] at heq
          cases more with
          | none => cases heq
          | some more =>
              obtain ⟨rfl, -⟩ := List.cons.inj heq
              simp [ht] at hmem
      | cons b bs =>
          obtain ⟨hstands', hgreedy', htail'⟩ := hb
          rw [tokens_cons, tokens_cons, List.append_assoc, List.append_assoc] at heq
          obtain ⟨rfl, hrest⟩ := Arg.eq_of_tokens hstands hstands' hgreedy hgreedy' heq
          obtain ⟨cs, rfl, hcs⟩ := ih htail htail' hrest
          exact ⟨cs, rfl, hcs⟩

/-! ## Parsers -/

/-- The `Create` a parser comes from. -/
def ValueParser.factory : ValueParser → ParserFactory
  | .flag .. => .flag
  | .word .. => .word
  | .level _ => .level

@[simp] theorem ParserFactory.factory_create (f : ParserFactory) : f.create.factory = f := by
  cases f <;> rfl

/-- `Parse` with the value an option is written with. -/
def ValueParser.use (flag : Bytes) (value : Option Bytes) (p : ValueParser) :
    Except Exception ValueParser :=
  (p.parse flag value.toList).map Prod.fst

/-- What a parser takes. -/
theorem ValueParser.parse_ok {flag : Bytes} {values : List Bytes} {p q : ValueParser} {n : Nat}
    (h : p.parse flag values = .ok (q, n)) :
    q.factory = p.factory ∧
      ((n = 0 ∧ p.factory ≠ .word ∧ (p.factory = .level → values = [])) ∨
        (n = 1 ∧ p.factory ≠ .flag ∧ ∃ v vs, values = v :: vs)) := by
  cases p with
  | flag v done =>
      cases done <;> simp only [parse, if_true, Bool.false_eq_true, if_false, Except.ok.injEq,
        Prod.mk.injEq, reduceCtorEq] at h
      obtain ⟨rfl, rfl⟩ := h
      simp [factory]
  | word v done =>
      cases done <;> cases values <;> simp only [parse, if_true, Bool.false_eq_true, if_false,
        Except.ok.injEq, Prod.mk.injEq, reduceCtorEq] at h
      obtain ⟨rfl, rfl⟩ := h
      simp [factory]
  | level m =>
      cases values <;> simp only [parse, Except.ok.injEq, Prod.mk.injEq] at h
      all_goals
        obtain ⟨rfl, rfl⟩ := h
        simp [factory]

theorem ValueParser.factory_use {flag : Bytes} {value : Option Bytes} {p q : ValueParser}
    (h : p.use flag value = .ok q) : q.factory = p.factory := by
  unfold use at h
  cases hparse : p.parse flag value.toList with
  | error e => simp [hparse, Except.map] at h
  | ok r =>
      simp only [hparse, Except.map, Except.ok.injEq] at h
      rw [← h]
      exact (parse_ok hparse).1

/-- In a well-read command line the scan hands an option its own value. -/
theorem ValueParser.parse_takeWhile {o : O} {flag : Bytes} {value : Option Bytes} {p : ValueParser}
    {rest : List Bytes} (hstands : (Arg.option o flag value).Stands po)
    (hgreedy : (Arg.option o flag value).Greedy po → Closed rest)
    (hp : p.factory = (po.base o).parserFactory) :
    p.parse flag ((value.toList ++ rest).takeWhile fun arg => !isFlag arg) =
      (p.use flag value).map fun q => (q, value.toList.length) := by
  cases value with
  | none =>
      cases p with
      | flag v done => cases done <;> rfl
      | word v done => exact absurd hp.symm hstands.2.2.2
      | level n =>
          have hclosed : Closed rest := hgreedy hp.symm
          have hnone : (rest.takeWhile fun arg => !isFlag arg) = [] := by
            cases rest with
            | nil => rfl
            | cons t rest => simp [closed_cons.mp hclosed]
          simp [hnone, parse, use, Except.map]
  | some v =>
      obtain ⟨-, -, -, hflag, hv⟩ := hstands
      cases p with
      | flag w done => exact absurd hp.symm hflag
      | word w done => cases done <;> simp [hv, parse, use, Except.map]
      | level n => simp [hv, parse, use, Except.map]

/-! ## The scan over arguments -/

variable (po) in
/-- Every parser is one its option creates. -/
def Parsing.Typed (st : Parsing O) : Prop :=
  ∀ o, (st.parser po o).factory = (po.base o).parserFactory

theorem Parsing.typed_start : (Parsing.start : Parsing O).Typed po := by
  intro o
  simp [Parsing.parser, Parsing.start, createParser]

variable [DecidableEq O]

variable (po) in
/-- What the scan does on one argument that begins at index `i`. -/
def Parsing.read (st : Parsing O) (i : Nat) : Arg O → Except Exception (Parsing O)
  | .positional _ => .ok (st.push i)
  | .option o flag value => ((st.parser po o).use flag value).map (st.set o)

variable (po) in
/-- The scan over arguments. -/
def readAll : Nat → List (Arg O) → Parsing O → Except Exception (Parsing O)
  | _, [], st => .ok st
  | i, a :: as, st => (st.read po i a).bind (readAll (i + a.tokens.length) as)

theorem Parsing.Typed.set {st : Parsing O} {o : O} {p : ValueParser} (h : st.Typed po)
    (hp : p.factory = (po.base o).parserFactory) : (st.set o p).Typed po := by
  intro o'
  by_cases ho : o' = o
  · subst ho
    simpa [Parsing.parser, Parsing.set] using hp
  · simpa [Parsing.parser, Parsing.set, ho] using h o'

theorem Parsing.Typed.read {st st' : Parsing O} {i : Nat} {a : Arg O} (h : st.Typed po)
    (hread : st.read po i a = .ok st') : st'.Typed po := by
  cases a with
  | positional text =>
      cases hread
      exact h
  | option o flag value =>
      cases huse : (st.parser po o).use flag value with
      | error e => simp [Parsing.read, huse, Except.map] at hread
      | ok p =>
          simp only [Parsing.read, huse, Except.map, Except.ok.injEq] at hread
          subst hread
          exact h.set ((ValueParser.factory_use huse).trans (h o))

/-- One argument. -/
theorem parseLoop_arg {a : Arg O} {rest : List Bytes} {st : Parsing O} (i : Nat)
    (hstands : a.Stands po) (hgreedy : a.Greedy po → Closed rest) (hst : st.Typed po) :
    po.parseLoop true 0 i (a.tokens ++ rest) st =
      (st.read po i a).bind (po.parseLoop true 0 (i + a.tokens.length) rest) := by
  cases a with
  | positional text =>
      have htext : isFlag text = false := hstands
      simp [Arg.tokens, parseLoop, htext, Parsing.read, Except.bind]
  | option o flag value =>
      have hparse := ValueParser.parse_takeWhile hstands hgreedy (hst o)
      have hflag : isFlag flag = true ∧ flag ≠ dashes ∧ po.find flag = some o := by
        cases value with
        | none => exact ⟨hstands.1, hstands.2.1, hstands.2.2.1⟩
        | some v => exact ⟨hstands.1, hstands.2.1, hstands.2.2.1⟩
      obtain ⟨hf, hd, hfind⟩ := hflag
      simp only [Arg.tokens, List.cons_append, parseLoop, hf, hd, hfind, hparse, Bool.not_true,
        Bool.or_self, Bool.false_eq_true, if_false, Parsing.read]
      cases (st.parser po o).use flag value with
      | error e => rfl
      | ok p => cases value <;> simp [Except.map, Except.bind, parseLoop, Nat.add_assoc]

/-- **The scan reads arguments.** -/
theorem parseLoop_args {as : List (Arg O)} {rest : List Bytes} {st : Parsing O} (i : Nat)
    (h : WellRead po as rest) (hst : st.Typed po) :
    po.parseLoop true 0 i (tokens as ++ rest) st =
      (readAll po i as st).bind (po.parseLoop true 0 (i + (tokens as).length) rest) := by
  induction as generalizing i st with
  | nil => rfl
  | cons a as ih =>
      obtain ⟨ha, hgreedy, has⟩ := h
      rw [tokens_cons, List.append_assoc, parseLoop_arg i ha hgreedy hst, readAll]
      cases hread : st.read po i a with
      | error e => rfl
      | ok st' =>
          have htail := ih (i + a.tokens.length) has (hst.read hread)
          simpa [Except.bind, Nat.add_assoc] using htail

/-- Behind `--` everything is positional. -/
theorem parseLoop_positional (i : Nat) (args : List Bytes) (st : Parsing O) :
    po.parseLoop false 0 i args st =
      .ok { st with argInds := st.argInds ++ List.range' i args.length } := by
  induction args generalizing i st with
  | nil => simp [parseLoop]
  | cons arg args ih =>
      simp only [parseLoop, Bool.not_false, Bool.true_or, if_true, ih, Parsing.push,
        List.length_cons, List.range'_succ, List.append_assoc, List.singleton_append]

/-! ## Layouts -/

theorem parseLoop_trail (i : Nat) (more : Option (List Bytes)) (st : Parsing O) :
    po.parseLoop true 0 i (trail more) st =
      .ok { st with argInds := st.argInds ++ List.range' (i + 1) (more.getD []).length } := by
  cases more with
  | none => simp [trail, parseLoop]
  | some more => simp [trail, parseLoop, parseLoop_positional]

/-- Every command line that the scan accepts has a layout. -/
theorem parseLoop_layout {ts : List Bytes} {st st' : Parsing O} {i : Nat} (hst : st.Typed po)
    (h : po.parseLoop true 0 i ts st = .ok st') :
    ∃ as more, ts = tokens as ++ trail more ∧ WellRead po as (trail more) := by
  induction hn : ts.length using Nat.strongRecOn generalizing ts st i with
  | ind n ih =>
      -- one argument, then the rest of the line
      have cons : ∀ (a : Arg O) (rest : List Bytes) (st₁ : Parsing O) (j : Nat),
          ts = a.tokens ++ rest → a.Stands po → (a.Greedy po → Closed rest) → st₁.Typed po →
          po.parseLoop true 0 j rest st₁ = .ok st' →
          ∃ as more, ts = tokens as ++ trail more ∧ WellRead po as (trail more) := by
        intro a rest st₁ j hts ha hgreedy hst₁ hrest
        have hlt : rest.length < n := by
          obtain ⟨t, ts', ht⟩ := a.tokens_eq_cons
          rw [← hn, hts, ht, List.length_append, List.length_cons]
          omega
        obtain ⟨as, more, rfl, has⟩ := ih rest.length hlt hst₁ hrest rfl
        exact ⟨a :: as, more, by rw [hts, tokens_cons, List.append_assoc], ha, hgreedy, has⟩
      cases ts with
      | nil => exact ⟨[], none, rfl, trivial⟩
      | cons flag ts =>
          rw [parseLoop] at h
          cases hflag : isFlag flag with
          | false =>
              simp only [hflag, Bool.not_true, Bool.not_false, Bool.or_true, if_true] at h
              exact cons (.positional flag) ts (st.push i) _ rfl hflag (fun hg => hg.elim) hst h
          | true =>
              simp only [hflag, Bool.not_true, Bool.or_self, Bool.false_eq_true, if_false] at h
              split at h
              · rename_i hd
                exact ⟨[], some ts, by simp [hd, trail], trivial⟩
              · rename_i hd
                split at h
                · cases h
                · rename_i o hfind
                  split at h
                  · cases h
                  · rename_i q taken hparse
                    obtain ⟨hq, hcase⟩ := ValueParser.parse_ok hparse
                    rw [hst o] at hq hcase
                    have hst₁ := hst.set hq
                    rcases hcase with ⟨rfl, hword, hnone⟩ | ⟨rfl, hone, v, vs, hvalues⟩
                    · refine cons (.option o flag none) ts _ _ rfl ⟨hflag, hd, hfind, hword⟩ ?_
                        hst₁ h
                      intro hg
                      cases ts with
                      | nil => exact closed_nil
                      | cons t ts =>
                          have hempty := hnone hg
                          by_contra hopen
                          simp only [closed_cons, Bool.not_eq_true] at hopen
                          simp [hopen] at hempty
                    · cases ts with
                      | nil => simp at hvalues
                      | cons t ts =>
                          have hvalue : isFlag t = false := by
                            by_contra hopen
                            simp only [Bool.not_eq_false] at hopen
                            simp [hopen] at hvalues
                          rw [parseLoop] at h
                          exact cons (.option o flag (some t)) ts _ _ rfl
                            ⟨hflag, hd, hfind, hone, hvalue⟩ (fun hg => hg.elim) hst₁ h

end ProgramOptions

end Jpgsync
