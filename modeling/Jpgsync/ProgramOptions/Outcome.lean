import Jpgsync.ProgramOptions.Reading

/-!
# ProgramOptions — Outcome

What `Parse` makes of a command line, read off its layout: `parse_iff`.
Options that are flags or take a word may occur once; a level is counted
up and set by each occurrence in turn.
-/

namespace Jpgsync

namespace ProgramOptions

variable {O : Type*} {po : ProgramOptions O}

/-! ## One option -/

/-- The level after some uses of its option. -/
def levelAfter : UInt32 → List (Option Bytes) → UInt32
  | n, [] => n
  | n, none :: us => levelAfter (n + 1) us
  | _, some value :: us => levelAfter (atoi value).toUInt32 us

/-- The value an option is set to by its uses. -/
def valueOf : ParserFactory → List (Option Bytes) → Option Value
  | _, [] => none
  | .flag, _ :: _ => some (.flag true)
  | .word, u :: _ => some (.word (firstWord (u.getD [])))
  | .level, u :: us => some (.level (levelAfter 0 (u :: us)))

/-- How often an option may be used. -/
def Once (f : ParserFactory) (us : List (Option Bytes)) : Prop := f ≠ .level → us.length ≤ 1

/-- A use has a value where the option wants one. -/
def Fits (f : ParserFactory) (u : Option Bytes) : Prop := f = .word → u ≠ none

/-- The entry of `parser_map` after some uses. -/
def after (c : ValueParser) : Option ValueParser → List (Option Bytes) →
    Option (Option ValueParser)
  | m, [] => some m
  | m, u :: us =>
      match (m.getD c).use [] u with
      | .ok p => after c (some p) us
      | .error _ => none

/-- The text of the flag only matters in messages. -/
theorem ValueParser.use_ok {flag : Bytes} {u : Option Bytes} {p q : ValueParser} :
    p.use flag u = .ok q ↔ p.use [] u = .ok q := by
  cases p with
  | flag v done => cases done <;> simp [use, parse, Except.map]
  | word v done => cases done <;> cases u <;> simp [use, parse, Except.map]
  | level n => cases u <;> simp [use, parse, Except.map]

theorem after_level (n : UInt32) (us : List (Option Bytes)) :
    after (.level 0) (some (.level n)) us = some (some (.level (levelAfter n us))) := by
  induction us generalizing n with
  | nil => rfl
  | cons u us ih =>
      cases u with
      | none =>
          have hn := ih (n + 1)
          simpa [after, ValueParser.use, ValueParser.parse, Except.map, levelAfter] using hn
      | some value =>
          have hn := ih (atoi value).toUInt32
          simpa [after, ValueParser.use, ValueParser.parse, Except.map, levelAfter] using hn

/-- A new parser gets through exactly when the option is not repeated. -/
theorem after_create {f : ParserFactory} {us : List (Option Bytes)} (h : ∀ u ∈ us, Fits f u) :
    (∃ m, after f.create none us = some m) ↔ Once f us := by
  cases f with
  | flag =>
      rcases us with _ | ⟨u, _ | ⟨u', us⟩⟩ <;>
        simp [after, ParserFactory.create, ValueParser.use, ValueParser.parse, Except.map, Once]
  | word =>
      rcases us with _ | ⟨u, us⟩
      · simp [after, Once]
      · cases u with
        | none => exact absurd rfl (h none List.mem_cons_self rfl)
        | some value =>
            rcases us with _ | ⟨u', us⟩ <;>
              simp [after, ParserFactory.create, ValueParser.use, ValueParser.parse, Except.map,
                Once]
  | level =>
      have hsome : ∃ m, after ParserFactory.level.create none us = some m := by
        cases us with
        | nil => exact ⟨none, rfl⟩
        | cons u us =>
            cases u <;>
              simp [after, ParserFactory.create, ValueParser.use, ValueParser.parse, Except.map,
                after_level]
      exact ⟨fun _ h => absurd rfl h, fun _ => hsome⟩

/-- The value it leaves. -/
theorem getValue_after {f : ParserFactory} {us : List (Option Bytes)} {m : Option ValueParser}
    (h : after f.create none us = some m) : m.map ValueParser.getValue = valueOf f us := by
  cases us with
  | nil =>
      cases h
      cases f <;> rfl
  | cons u us =>
      cases f with
      | flag =>
          cases us <;> simp [after, ParserFactory.create, ValueParser.use, ValueParser.parse,
            Except.map] at h
          rw [← h]
          rfl
      | word =>
          cases u with
          | none =>
              simp [after, ParserFactory.create, ValueParser.use, ValueParser.parse,
                Except.map] at h
          | some value =>
              cases us <;> simp [after, ParserFactory.create, ValueParser.use, ValueParser.parse,
                Except.map] at h
              rw [← h]
              rfl
      | level =>
          cases u <;> simp [after, ParserFactory.create, ValueParser.use, ValueParser.parse,
            Except.map, after_level] at h
          all_goals
            rw [← h]
            rfl

/-- In another order a flag and a word have the same value. -/
theorem Once.eq_of_perm {f : ParserFactory} {us us' : List (Option Bytes)} (h : Once f us)
    (hlevel : f ≠ .level) (hperm : us'.Perm us) : us' = us := by
  have hlen := h hlevel
  rcases us with _ | ⟨u, _ | ⟨u', us⟩⟩
  · exact hperm.eq_nil
  · exact hperm.eq_singleton
  · simp at hlen

/-! ## All options -/

variable [DecidableEq O]

/-- The uses of an option in an argument. -/
def Arg.uses (o : O) : Arg O → List (Option Bytes)
  | .positional _ => []
  | .option o' _ value => if o' = o then [value] else []

/-- The uses of an option, in order. -/
def uses (o : O) (as : List (Arg O)) : List (Option Bytes) := as.flatMap (Arg.uses o)

@[simp] theorem uses_nil (o : O) : uses o [] = [] := rfl

@[simp] theorem uses_cons (o : O) (a : Arg O) (as : List (Arg O)) :
    uses o (a :: as) = a.uses o ++ uses o as := rfl

@[simp] theorem uses_append (o : O) (as bs : List (Arg O)) :
    uses o (as ++ bs) = uses o as ++ uses o bs := List.flatMap_append

theorem perm_uses {as bs : List (Arg O)} (o : O) (h : as.Perm bs) :
    (uses o as).Perm (uses o bs) := h.flatMap_right _

theorem fits_uses {as : List (Arg O)} (h : ∀ a ∈ as, a.Stands po) (o : O) :
    ∀ u ∈ uses o as, Fits (po.base o).parserFactory u := by
  intro u hu hword hnone
  obtain ⟨a, ha, hmem⟩ := List.mem_flatMap.mp hu
  have hstands := h a ha
  cases a with
  | positional text => simp [Arg.uses] at hmem
  | option o' flag value =>
      simp only [Arg.uses] at hmem
      split at hmem
      · rename_i ho
        obtain rfl : u = value := by simpa using hmem
        subst hnone ho
        exact hstands.2.2.2 hword
      · simp at hmem

omit [DecidableEq O] in
/-- The indices of the positional arguments. -/
def inds : Nat → List (Arg O) → List Nat
  | _, [] => []
  | i, .positional _ :: as => i :: inds (i + 1) as
  | i, .option _ _ value :: as => inds (i + 1 + value.toList.length) as

/-- The scan, option by option. -/
theorem readAll_iff {i : Nat} {as : List (Arg O)} {st st' : Parsing O} :
    readAll po i as st = .ok st' ↔
      st'.argInds = st.argInds ++ inds i as ∧
        ∀ o, after (po.createParser o) (st.parserMap o) (uses o as) = some (st'.parserMap o) := by
  induction as generalizing i st with
  | nil =>
      obtain ⟨inds, map⟩ := st
      obtain ⟨inds', map'⟩ := st'
      simp only [readAll, Except.ok.injEq, Parsing.mk.injEq, ProgramOptions.inds, List.append_nil,
        uses_nil, after, Option.some.injEq, funext_iff]
      exact and_congr_left' eq_comm
  | cons a as ih =>
      cases a with
      | positional text =>
          simp only [readAll, Parsing.read, Except.bind, ih, inds, uses_cons, Arg.uses,
            List.nil_append, Parsing.push, Arg.tokens, List.length_singleton, List.append_assoc,
            List.singleton_append]
      | option o flag value =>
          simp only [readAll, Parsing.read]
          cases huse : (st.parser po o).use flag value with
          | error e =>
              simp only [Except.map, Except.bind, reduceCtorEq, false_iff, not_and, not_forall]
              intro _
              refine ⟨o, ?_⟩
              have hfail : ∀ q, (st.parser po o).use [] value ≠ .ok q := by
                intro q hq
                rw [ValueParser.use_ok.mpr hq] at huse
                cases huse
              cases hnil : (st.parser po o).use [] value with
              | ok q => exact absurd hnil (hfail q)
              | error e' =>
                  have hnil' : ((st.parserMap o).getD (po.createParser o)).use [] value =
                    .error e' := hnil
                  simp [Arg.uses, after, hnil']
          | ok q =>
              have hnil : ((st.parserMap o).getD (po.createParser o)).use [] value = .ok q :=
                ValueParser.use_ok.mp huse
              simp only [Except.map, Except.bind, ih, inds, Arg.tokens, List.length_cons]
              refine and_congr (by simp [Parsing.set, Nat.add_assoc, Nat.add_comm]) ?_
              refine forall_congr' fun o' => ?_
              by_cases ho : o = o'
              · subst ho
                simp [Arg.uses, after, hnil, Parsing.set]
              · have ho' : o' ≠ o := fun h => ho h.symm
                simp [Arg.uses, ho, Parsing.set, ho']

omit [DecidableEq O] in
theorem length_inds (i : Nat) (as : List (Arg O)) : (inds i as).length = (texts as).length := by
  induction as generalizing i with
  | nil => rfl
  | cons a as ih => cases a <;> simp [inds, Arg.texts, ih]

omit [DecidableEq O] in
theorem inds_append (i : Nat) (as bs : List (Arg O)) :
    inds i (as ++ bs) = inds i as ++ inds (i + (tokens as).length) bs := by
  induction as generalizing i with
  | nil => rfl
  | cons a as ih =>
      cases a <;> simp [inds, Arg.tokens, ih, Nat.add_assoc, Nat.add_comm]

/-! ## Parse -/

variable (po) in
/-- The result of `Parse` for a layout. -/
def outcome (argv : List Bytes) (as : List (Arg O)) (more : Option (List Bytes)) : Parsed O where
  val := fun o => (valueOf (po.base o).parserFactory (uses o as)).or (po.initialValue o)
  argc := (texts as).length + (more.getD []).length + 1
  argv := Gather.gather argv 1
    (inds 1 as ++ List.range' (1 + (tokens as).length + 1) (more.getD []).length)

theorem finish_eq {as : List (Arg O)} {m : O → Option ValueParser} (argv : List Bytes)
    (more : Option (List Bytes))
    (hmap : ∀ o, after (po.createParser o) none (uses o as) = some (m o)) :
    po.finish argv ⟨inds 1 as ++
        List.range' (1 + (tokens as).length + 1) (more.getD []).length, m⟩ =
      po.outcome argv as more := by
  simp only [finish, outcome, Parsed.mk.injEq, List.length_append, length_inds,
    List.length_range', and_self, and_true]
  funext o
  rw [← show (m o).map ValueParser.getValue = valueOf (po.base o).parserFactory (uses o as) from
    getValue_after (hmap o)]
  cases m o <;> rfl

/-- **What `Parse` accepts, and with which result.** -/
theorem parse_iff {prog : Bytes} {as : List (Arg O)} {more : Option (List Bytes)}
    {parsed : Parsed O} (h : WellRead po as (trail more)) :
    po.parse (prog :: (tokens as ++ trail more)) = .ok parsed ↔
      (∀ o, Once (po.base o).parserFactory (uses o as)) ∧
        parsed = po.outcome (prog :: (tokens as ++ trail more)) as more := by
  have hfits := fits_uses h.stands
  simp only [parse, List.tail_cons, parseLoop_args 1 h Parsing.typed_start]
  cases hread : readAll po 1 as Parsing.start with
  | error e =>
      simp only [Except.bind, reduceCtorEq, false_iff, not_and]
      intro honce _
      choose m hm using fun o => (after_create (hfits o)).mpr (honce o)
      have hok : readAll po 1 as Parsing.start = .ok ⟨inds 1 as, m⟩ := readAll_iff.mpr ⟨rfl, hm⟩
      rw [hread] at hok
      cases hok
  | ok st =>
      obtain ⟨hinds, hmap⟩ := readAll_iff.mp hread
      have honce : ∀ o, Once (po.base o).parserFactory (uses o as) :=
        fun o => (after_create (hfits o)).mp ⟨_, hmap o⟩
      have hinds' : st.argInds = inds 1 as := by simpa [Parsing.start] using hinds
      simp only [Except.bind, parseLoop_trail, Except.ok.injEq, hinds']
      rw [finish_eq _ more hmap]
      exact ⟨fun heq => ⟨honce, heq.symm⟩, fun heq => heq.2.symm⟩

/-- **Every accepted command line has a layout.** -/
theorem exists_layout {prog : Bytes} {ts : List Bytes} {parsed : Parsed O}
    (h : po.parse (prog :: ts) = .ok parsed) :
    ∃ as more, ts = tokens as ++ trail more ∧ WellRead po as (trail more) := by
  simp only [parse, List.tail_cons] at h
  split at h
  · cases h
  · rename_i st hst
    exact parseLoop_layout Parsing.typed_start hst

end ProgramOptions

end Jpgsync
