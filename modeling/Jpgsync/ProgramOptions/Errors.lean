import Jpgsync.ProgramOptions.Positionals

/-!
# ProgramOptions — Errors

What `Parse` does with every command line. It accepts those that the
grammar reads, with each flag and each word at most once (`parse_iff`); in
any other it reads a front of the line up to the first argument that does
not fit, and throws with that argument in the message (`Blames`). There is
nothing in between: `parses_or_blames` says both, for every line.
-/

namespace Jpgsync

namespace ProgramOptions

variable {O : Type*} {po : ProgramOptions O}

/-- Whether values follow is whether the next argument is one. -/
theorem closed_iff {rest : List Bytes} :
    Closed rest ↔ (rest.takeWhile fun arg => !isFlag arg) = [] := by
  cases rest with
  | nil => simp
  | cons t rest => cases h : isFlag t <;> simp [h]

/-- **Why a parser throws**: it has been used before, or wants a value. -/
theorem ValueParser.parse_after {f : ParserFactory} {us : List (Option Bytes)}
    {m : Option ValueParser} {flag : Bytes} {values : List Bytes} {e : Exception}
    (h : after f.create none us = some m) :
    (m.getD f.create).parse flag values = .error e ↔
      (us ≠ [] ∧ f ≠ .level ∧ e = specifiedMultipleTimes flag) ∨
        (us = [] ∧ f = .word ∧ values = [] ∧ e = missingValue flag) := by
  cases us with
  | nil =>
      cases h
      cases f <;> cases values <;> simp [ParserFactory.create, ValueParser.parse, eq_comm]
  | cons u us =>
      cases f with
      | flag =>
          cases us <;> simp [after, ParserFactory.create, ValueParser.use, ValueParser.parse,
            Except.map] at h
          rw [← h]
          simp [ValueParser.parse, eq_comm]
      | word =>
          cases u with
          | none =>
              simp [after, ParserFactory.create, ValueParser.use, ValueParser.parse,
                Except.map] at h
          | some value =>
              cases us <;> simp [after, ParserFactory.create, ValueParser.use, ValueParser.parse,
                Except.map] at h
              rw [← h]
              simp [ValueParser.parse, eq_comm]
      | level =>
          cases u <;> simp [after, ParserFactory.create, ValueParser.use, ValueParser.parse,
            Except.map, after_level] at h
          all_goals
            rw [← h]
            cases values <;> simp [ValueParser.parse]

variable [DecidableEq O]

variable (po) in
/-- **Why `Parse` throws** at `flag`, when `as` stands before it and `rest`
behind it. -/
inductive Blames (as : List (Arg O)) (flag : Bytes) (rest : List Bytes) : Exception → Prop where
  | unrecognized (hfind : po.find flag = none) : Blames as flag rest (unrecognizedOption flag)
  | repeated (o : O) (hfind : po.find flag = some o)
      (honce : (po.base o).parserFactory ≠ .level) (hused : uses o as ≠ []) :
      Blames as flag rest (specifiedMultipleTimes flag)
  | missing (o : O) (hfind : po.find flag = some o) (hword : (po.base o).parserFactory = .word)
      (hunused : uses o as = []) (hclosed : Closed rest) :
      Blames as flag rest (missingValue flag)

variable (po) in
/-- **The way a command line is rejected**: a front of it is read, then
comes the argument that does not fit. -/
structure Rejected (ts : List Bytes) (as : List (Arg O)) (flag : Bytes) (rest : List Bytes)
    (e : Exception) : Prop where
  line : ts = tokens as ++ flag :: rest
  wellRead : WellRead po as (flag :: rest)
  once : ∀ o, Once (po.base o).parserFactory (uses o as)
  isFlag : isFlag flag = true ∧ flag ≠ dashes
  blames : Blames po as flag rest e

variable {ts : List Bytes} {as : List (Arg O)} {flag : Bytes} {rest : List Bytes} {e : Exception}
  {st st' : Parsing O} {prog : Bytes}

variable (po) in
/-- The scan throws `e` at `flag`. -/
def Throws (st : Parsing O) (flag : Bytes) (rest : List Bytes) (e : Exception) : Prop :=
  (po.find flag = none ∧ e = unrecognizedOption flag) ∨ ∃ o, po.find flag = some o ∧
    (st.parser po o).parse flag (rest.takeWhile fun arg => !isFlag arg) = .error e

/-- What it throws says why. -/
theorem throws_iff
    (hst : ∀ o, after (po.createParser o) none (uses o as) = some (st.parserMap o)) :
    Throws po st flag rest e ↔ Blames po as flag rest e := by
  constructor
  · rintro (⟨hfind, rfl⟩ | ⟨o, hfind, herror⟩)
    · exact .unrecognized hfind
    · rcases (ValueParser.parse_after (hst o)).mp herror with
        ⟨hused, honce, rfl⟩ | ⟨hunused, hword, hnone, rfl⟩
      · exact .repeated o hfind honce hused
      · exact .missing o hfind hword hunused (closed_iff.mpr hnone)
  · intro h
    cases h with
    | unrecognized hfind => exact Or.inl ⟨hfind, rfl⟩
    | repeated o hfind honce hused =>
        exact Or.inr ⟨o, hfind, (ValueParser.parse_after (hst o)).mpr
          (Or.inl ⟨hused, honce, rfl⟩)⟩
    | missing o hfind hword hunused hclosed =>
        exact Or.inr ⟨o, hfind, (ValueParser.parse_after (hst o)).mpr
          (Or.inr ⟨hunused, hword, closed_iff.mp hclosed, rfl⟩)⟩

theorem parseLoop_throws {i : Nat} (hflag : isFlag flag = true ∧ flag ≠ dashes)
    (h : Throws po st flag rest e) : po.parseLoop true 0 i (flag :: rest) st = .error e := by
  rw [parseLoop, if_neg (by simp [hflag.1]), if_neg hflag.2]
  rcases h with ⟨hfind, rfl⟩ | ⟨o, hfind, herror⟩
  · simp [hfind]
  · simp [hfind, herror]

variable (po) in
/-- **The front of a line**: nothing, the end of the options, an argument
that is read, or one that does not fit. -/
inductive Front (i : Nat) (st : Parsing O) : List Bytes → Prop where
  | done : Front i st []
  | dashes (more : List Bytes) : Front i st (dashes :: more)
  | arg (a : Arg O) (rest : List Bytes) (st' : Parsing O) (hstands : a.Stands po)
      (hgreedy : a.Greedy po → Closed rest) (hread : st.read po i a = .ok st') :
      Front i st (a.tokens ++ rest)
  | throws (flag : Bytes) (rest : List Bytes) (e : Exception)
      (hflag : isFlag flag = true ∧ flag ≠ Jpgsync.dashes)
      (hthrows : Throws po st flag rest e) : Front i st (flag :: rest)

theorem front (i : Nat) (hst : st.Typed po) (ts : List Bytes) : Front po i st ts := by
  cases ts with
  | nil => exact .done
  | cons flag ts =>
      cases hflag : isFlag flag with
      | false => exact .arg (.positional flag) ts (st.push i) hflag (fun hg => hg.elim) rfl
      | true =>
          by_cases hd : flag = dashes
          · rw [hd]
            exact .dashes ts
          · cases hfind : po.find flag with
            | none => exact .throws flag ts _ ⟨hflag, hd⟩ (Or.inl ⟨hfind, rfl⟩)
            | some o =>
                cases hparse :
                    (st.parser po o).parse flag (ts.takeWhile fun arg => !isFlag arg) with
                | error e => exact .throws flag ts e ⟨hflag, hd⟩ (Or.inr ⟨o, hfind, hparse⟩)
                | ok r =>
                    -- what the parser takes is what stands there
                    have read : ∀ (value : Option Bytes) (rest : List Bytes),
                        ts = value.toList ++ rest → (Arg.option o flag value).Stands po →
                        ((Arg.option o flag value).Greedy po → Closed rest) →
                        Front po i st (flag :: ts) := by
                      intro value rest hts hstands hgreedy
                      have huse := ValueParser.parse_takeWhile hstands hgreedy (hst o)
                      rw [← hts, hparse] at huse
                      rw [hts]
                      cases hq : (st.parser po o).use flag value with
                      | error e => simp [hq, Except.map] at huse
                      | ok q =>
                          exact .arg (.option o flag value) rest (st.set o q) hstands hgreedy
                            (by simp [Parsing.read, hq, Except.map])
                    obtain ⟨q, taken⟩ := r
                    obtain ⟨-, hcase⟩ := ValueParser.parse_ok hparse
                    rw [hst o] at hcase
                    rcases hcase with ⟨-, hword, hnone⟩ | ⟨-, hone, v, vs, hvalues⟩
                    · exact read none ts rfl ⟨hflag, hd, hfind, hword⟩
                        fun hg => closed_iff.mpr (hnone hg)
                    · cases ts with
                      | nil => simp at hvalues
                      | cons t ts =>
                          have hvalue : isFlag t = false := by
                            by_contra hopen
                            simp only [Bool.not_eq_false] at hopen
                            simp [hopen] at hvalues
                          exact read (some t) ts rfl ⟨hflag, hd, hfind, hone, hvalue⟩
                            fun hg => hg.elim

/-- **The scan throws at the first argument that does not fit.** -/
theorem parseLoop_error {i : Nat} (hst : st.Typed po)
    (h : po.parseLoop true 0 i ts st = .error e) :
    ∃ as flag rest st', ts = tokens as ++ flag :: rest ∧ WellRead po as (flag :: rest) ∧
      readAll po i as st = .ok st' ∧ (isFlag flag = true ∧ flag ≠ dashes) ∧
      Throws po st' flag rest e := by
  induction hn : ts.length using Nat.strongRecOn generalizing ts st i with
  | ind n ih =>
      cases front i hst ts with
      | done => cases (parseLoop_trail i none st).symm.trans h
      | dashes more => cases (parseLoop_trail i (some more) st).symm.trans h
      | throws flag rest e' hflag hthrows =>
          rw [parseLoop_throws hflag hthrows] at h
          cases h
          exact ⟨[], flag, rest, st, rfl, trivial, rfl, hflag, hthrows⟩
      | arg a rest st₁ hstands hgreedy hread =>
          rw [parseLoop_arg i hstands hgreedy hst, hread] at h
          have hlt : rest.length < n := by
            obtain ⟨t, ts', ht⟩ := a.tokens_eq_cons
            rw [← hn, ht, List.length_append, List.length_cons]
            omega
          obtain ⟨as, flag, rest', st', rfl, has, hall, hflag, hthrows⟩ :=
            ih rest.length hlt (hst.read hread) h rfl
          refine ⟨a :: as, flag, rest', st', by simp, ⟨hstands, hgreedy, has⟩, ?_, hflag, hthrows⟩
          rw [readAll, hread]
          exact hall

/-- **What `Parse` rejects, and with which message.** -/
theorem rejected_iff :
    po.parse (prog :: ts) = .error e ↔ ∃ as flag rest, Rejected po ts as flag rest e := by
  have hparse : po.parse (prog :: ts) = .error e ↔
      po.parseLoop true 0 1 ts Parsing.start = .error e := by
    rw [parse, List.tail_cons]
    cases po.parseLoop true 0 1 ts Parsing.start <;> simp
  rw [hparse]
  constructor
  · intro h
    obtain ⟨as, flag, rest, st, hline, has, hall, hflag, hthrows⟩ :=
      parseLoop_error Parsing.typed_start h
    have hmap := (readAll_iff.mp hall).2
    exact ⟨as, flag, rest, hline, has,
      fun o => (after_create (fits_uses has.stands o)).mp ⟨_, hmap o⟩, hflag,
      (throws_iff hmap).mp hthrows⟩
  · rintro ⟨as, flag, rest, hline, has, honce, hflag, hblames⟩
    choose m hm using fun o => (after_create (fits_uses has.stands o)).mpr (honce o)
    have hall : readAll po 1 as Parsing.start = .ok ⟨inds 1 as, m⟩ := readAll_iff.mpr ⟨rfl, hm⟩
    rw [hline, parseLoop_args 1 has Parsing.typed_start, hall]
    exact parseLoop_throws hflag ((throws_iff hm).mpr hblames)

/-- **What `Parse` does with a command line**: it gives the one result of a
layout in which no flag and no word is repeated, or it throws at the first
argument that does not fit. -/
theorem parses_or_blames (prog : Bytes) (ts : List Bytes) :
    (∀ parsed, po.parse (prog :: ts) = .ok parsed ↔ ∃ as more, ts = tokens as ++ trail more ∧
      WellRead po as (trail more) ∧ (∀ o, Once (po.base o).parserFactory (uses o as)) ∧
      parsed = po.outcome (prog :: ts) as more) ∧
    (∀ e, po.parse (prog :: ts) = .error e ↔ ∃ as flag rest, Rejected po ts as flag rest e) := by
  refine ⟨fun parsed => ⟨fun h => ?_, ?_⟩, fun e => rejected_iff⟩
  · obtain ⟨as, more, rfl, has⟩ := exists_layout h
    exact ⟨as, more, rfl, has, (parse_iff has).mp h⟩
  · rintro ⟨as, more, rfl, has, honce, heq⟩
    exact (parse_iff has).mpr ⟨honce, heq⟩

end ProgramOptions

end Jpgsync
