import Jpgsync.JpgsyncOptions.Grammar
import Jpgsync.Launch.Delivery
import Jpgsync.Launch.Whole
import Jpgsync.Lib.Words
import Jpgsync.Storage
import Mathlib.Data.List.TakeWhile
import Mathlib.Data.Nat.Digits.Lemmas

/-!
# Launch — Capture

The launcher starts the master first and reads its port from the first line
that it prints; then it starts the slave, with that port behind `-s`. Of
the line the launcher takes the first word that is a port, and where none
is, the last word (`captureLoop_eq`). What the master prints has one, so the
slave's address has the port the master listens on (`slave_finds_master`).
-/

namespace Jpgsync

open ProgramOptions JpgsyncOptions Words
open Shell (Environment)

/-! ## The master's line -/

/-- `os << port`. -/
def printNumber (n : Nat) : Bytes :=
  if n = 0 then [48] else ((Nat.digits 10 n).reverse).map fun d => UInt8.ofNat (48 + d)

/-- `cout << "Listening on port " << master->Listen() << endl`. -/
def listeningLine (port : UInt16) : Bytes :=
  ascii "Listening on port " ++ printNumber port.toNat ++ [10]

/-! ## The launcher -/

/-- What `fgets` stores of a stream when there is room for `room`
characters. -/
def fgets : Nat → Bytes → Bytes
  | 0, _ | _, [] => []
  | room + 1, c :: stream => if c = 10 then [c] else c :: fgets room stream

/-- `iss >> *master_port`: the word and what is left of the stream; none at
the end of the stream, and then the string keeps what it has. -/
def nextWord (stream : Bytes) : Option (Bytes × Bytes) :=
  match stream.dropWhile isSpace with
  | [] => none
  | c :: text => some ((c :: text).takeWhile (!isSpace ·), (c :: text).dropWhile (!isSpace ·))

theorem length_nextWord {stream word rest : Bytes} (h : nextWord stream = some (word, rest)) :
    rest.length < stream.length := by
  unfold nextWord at h
  split at h
  · cases h
  · rename_i c text hdrop
    cases h
    have hlen := (List.dropWhile_suffix (l := stream) isSpace).length_le
    have hhead : (!isSpace c) = true := by
      have hnot := List.head?_dropWhile_not isSpace stream
      rw [hdrop] at hnot
      simpa using hnot
    have hskip : (c :: text).dropWhile (!isSpace ·) = text.dropWhile (!isSpace ·) :=
      List.dropWhile_cons_of_pos hhead
    rw [hskip]
    have hrest := (List.dropWhile_suffix (l := text) (!isSpace ·)).length_le
    rw [hdrop, List.length_cons] at hlen
    omega

/-- The loop over the words of the line, with `*master_port` so far. -/
def captureLoop (masterPort stream : Bytes) : Bytes :=
  match _h : nextWord stream with
  | none => masterPort
  | some (word, rest) =>
      if (extractPort 0 word).isSome then word
      else if rest = [] then word
      else captureLoop word rest
termination_by stream.length
decreasing_by exact length_nextWord _h

/-- What `Executor::Execute` captures from the output of the master, with
`char port_str[126]`; none where `fgets` fails, which is reported. -/
def capture (output : Bytes) : Option Bytes :=
  if output = [] then none else some (captureLoop [] (cString (fgets 125 output)))

/-! ## What is captured -/

theorem nextWord_none {stream : Bytes} (h : nextWord stream = none) :
    words isSpace stream = [] := by
  unfold nextWord at h
  split at h
  · rename_i hdrop
    rw [← words_dropWhile, hdrop, words_nil]
  · cases h

theorem nextWord_some {stream word rest : Bytes} (h : nextWord stream = some (word, rest)) :
    words isSpace stream = word :: words isSpace rest := by
  unfold nextWord at h
  split at h
  · cases h
  · rename_i c text hdrop
    cases h
    rw [← hdrop]
    exact words_eq (by simp [hdrop])

/-- **The word that is captured**: the first one that is a port, else the
last one. -/
theorem captureLoop_eq (masterPort stream : Bytes) :
    captureLoop masterPort stream =
      (((words isSpace stream).find? fun word => (extractPort 0 word).isSome).or
        (words isSpace stream).getLast?).getD masterPort := by
  induction hn : stream.length using Nat.strongRecOn generalizing masterPort stream with
  | ind n ih =>
      rw [captureLoop]
      split
      · rename_i hnone
        rw [nextWord_none hnone]
        rfl
      · rename_i word rest hsome
        rw [nextWord_some hsome]
        by_cases hport : (extractPort 0 word).isSome = true
        · simp [hport]
        · rw [if_neg hport, List.find?_cons_of_neg (by simpa using hport)]
          by_cases hrest : rest = []
          · simp [hrest]
          · rw [if_neg hrest, ih _ (hn ▸ length_nextWord hsome) word rest rfl]
            -- without a port behind it, `word` is only the last one if no word follows
            cases hwords : words isSpace rest with
            | nil => rfl
            | cons v vs => simp [List.getLast?_eq_some_getLast]

/-! ## The number of the port -/

theorem digit_ofNat {d : Nat} (h : d < 10) : digit (UInt8.ofNat (48 + d)) = d := by
  rw [digit, UInt8.toNat_ofNat_of_lt' (by simp [UInt8.size]; omega)]
  omega

theorem isDigit_ofNat {d : Nat} (h : d < 10) : isDigit (UInt8.ofNat (48 + d)) = true := by
  rw [isDigit_iff, UInt8.toNat_ofNat_of_lt' (by simp [UInt8.size]; omega)]
  omega

theorem isDigit_printNumber (n : Nat) : ∀ c ∈ printNumber n, isDigit c = true := by
  intro c hc
  unfold printNumber at hc
  split at hc
  · rw [List.mem_singleton.mp hc]
    rfl
  · obtain ⟨d, hd, rfl⟩ := List.mem_map.mp hc
    exact isDigit_ofNat (Nat.digits_lt_base (by omega) (List.mem_reverse.mp hd))

theorem printNumber_ne_nil (n : Nat) : printNumber n ≠ [] := by
  unfold printNumber
  split
  · simp
  · rename_i hn
    simpa [Nat.digits_eq_nil_iff_eq_zero] using hn

/-- A printed number is read again. -/
theorem decimal_printNumber (n : Nat) : decimal (printNumber n) = n := by
  unfold printNumber
  split
  · rename_i hn
    rw [hn]
    rfl
  · have hdigits : ((Nat.digits 10 n).map fun d => digit (UInt8.ofNat (48 + d))) =
        Nat.digits 10 n := by
      conv_rhs => rw [← List.map_id (Nat.digits 10 n)]
      exact List.map_congr_left fun d hd => digit_ofNat (Nat.digits_lt_base (by omega) hd)
    rw [decimal, ← List.map_reverse, List.reverse_reverse, List.map_map]
    exact (congrArg (Nat.ofDigits 10) hdigits).trans (Nat.ofDigits_digits 10 n)

theorem length_printNumber {n : Nat} (h : n < 10 ^ 5) : (printNumber n).length ≤ 5 := by
  unfold printNumber
  split
  · simp
  · rw [List.length_map, List.length_reverse]
    exact (Nat.digits_length_le_iff (by omega) n).mpr h

theorem extractPort_printNumber (port : UInt16) :
    extractPort 0 (printNumber port.toNat) = some port := by
  refine (extractPort_iff (Nat.zero_le _)).mpr ⟨isDigit_printNumber _, ?_, ?_⟩
  · rw [← decimal_eq_portValue, decimal_printNumber]
    have hlt := port.toNat_lt
    omega
  · rw [← decimal_eq_portValue, decimal_printNumber, UInt16.ofNat_toNat]

/-! ## The line of the master -/

/-- A line for which there is room is read whole. -/
theorem fgets_line {room : Nat} {line : Bytes} (more : Bytes) (hroom : line.length < room)
    (hline : (10 : UInt8) ∉ line) : fgets room (line ++ 10 :: more) = line ++ [10] := by
  induction line generalizing room with
  | nil =>
      cases room with
      | zero => simp at hroom
      | succ room => rfl
  | cons c line ih =>
      cases room with
      | zero => simp at hroom
      | succ room =>
          rw [List.mem_cons, not_or] at hline
          rw [List.cons_append, fgets, if_neg (Ne.symm hline.1),
            ih (by simpa using hroom) hline.2]
          rfl

/-- Neither a blank nor a NUL is a digit. -/
theorem not_isDigit {c : UInt8} (h : isSpace c = true ∨ c = 0) : isDigit c = false := by
  rcases h with h | rfl
  · cases hc : isDigit c with
    | false => rfl
    | true =>
        have hrange := isDigit_iff.mp hc
        simp [isSpace, UInt8.le_iff_toNat_le, ← UInt8.toNat_inj] at h
        omega
  · rfl

theorem words_listening {word : Bytes} (hne : word ≠ []) (hword : ∀ c ∈ word, isDigit c = true) :
    words isSpace (ascii "Listening on port " ++ word ++ [10]) =
      [ascii "Listening", ascii "on", ascii "port", word] := by
  have hblank : ∀ c ∈ word, isSpace c = false := by
    intro c hc
    cases hs : isSpace c with
    | false => rfl
    | true => exact absurd (hword c hc) (by simp [not_isDigit (Or.inl hs)])
  have hlast : words isSpace (word ++ [10]) = [word] := by
    rw [words_append hne hblank fun a xs h => by cases h; rfl, words_sep rfl, words_nil]
  have hstep : ∀ w rest : Bytes, w ≠ [] → (∀ c ∈ w, isSpace c = false) →
      words isSpace (w ++ 32 :: rest) = w :: words isSpace rest := by
    intro w rest hw hspace
    rw [words_append hw hspace fun a xs h => by cases h; rfl, words_sep rfl]
  have hline : ascii "Listening on port " ++ word ++ [10] =
      ascii "Listening" ++ 32 :: (ascii "on" ++ 32 :: (ascii "port" ++ 32 :: (word ++ [10]))) := by
    rw [List.append_assoc]
    rfl
  rw [hline, hstep _ _ (by decide) (List.forall_iff_forall_mem.mp (by decide)),
    hstep _ _ (by decide) (List.forall_iff_forall_mem.mp (by decide)),
    hstep _ _ (by decide) (List.forall_iff_forall_mem.mp (by decide)), hlast]

/-- **What is captured of the master's output** is the port, whatever else
it prints. -/
theorem capture_listeningLine (port : UInt16) (more : Bytes) :
    capture (listeningLine port ++ more) = some (printNumber port.toNat) := by
  have hdigits := isDigit_printNumber port.toNat
  have hline : (10 : UInt8) ∉ ascii "Listening on port " ++ printNumber port.toNat := by
    rw [List.mem_append, not_or]
    exact ⟨by decide, fun hmem => absurd (hdigits 10 hmem) (by decide)⟩
  have hlen : (ascii "Listening on port " ++ printNumber port.toNat).length < 125 := by
    have hlt := port.toNat_lt
    have hnumber := length_printNumber (n := port.toNat) (by omega)
    have htext : (ascii "Listening on port ").length = 18 := rfl
    rw [List.length_append]
    omega
  have hnul : (0 : UInt8) ∉ ascii "Listening on port " ++ printNumber port.toNat ++ [10] := by
    rw [List.mem_append, List.mem_append, not_or, not_or]
    exact ⟨⟨by decide, fun hmem => absurd (hdigits 0 hmem) (by decide)⟩, by decide⟩
  have hne : listeningLine port ++ more ≠ [] := by simp [listeningLine]
  rw [capture, if_neg hne, listeningLine, List.append_assoc, List.singleton_append,
    fgets_line more hlen hline, cString_of_notMem hnul, captureLoop_eq,
    words_listening (printNumber_ne_nil _) hdigits]
  have hport : (extractPort 0 (printNumber port.toNat)).isSome = true := by
    rw [extractPort_printNumber]
    rfl
  have hwords : ([ascii "Listening", ascii "on", ascii "port", printNumber port.toNat].find?
      fun word => (extractPort 0 word).isSome) = some (printNumber port.toNat) := by
    rw [List.find?_cons_of_neg (by decide), List.find?_cons_of_neg (by decide),
      List.find?_cons_of_neg (by decide), List.find?_cons_of_pos (by exact hport)]
  rw [hwords]
  rfl

/-! ## The processes that are started -/

section

variable {before between after kept : List Argument} {first second dir prog word : Bytes}
  {ts argv : List Bytes} {blocks : List (List Argument × Bytes)} {post : List Argument}
  {po q : JpgsyncOptions}

theorem JpgsyncOptions.Accepted.help_iff (h : Accepted q blocks post) :
    q.help = false ↔ usesIn .help blocks post = [] := by
  rw [JpgsyncOptions.help, h.val]
  cases usesIn .help blocks post with
  | nil => simp [valueAfter, valueOf, initialValue, jpgsyncOptions]
  | cons u us => simp [valueAfter, valueOf, JpgsyncOption.base]

/-- A run with one directory is in it. -/
theorem dir_of_parse (h : JpgsyncOptions.parse argv = .ok q) (hpos : q.positionals = [dir])
    (hplain : PlainDir dir) :
    (q.count .master = true → q.count .slave = false ∧ q.masterRoot.dir = dir) ∧
      (q.count .slave = true → q.slaveRoot.dir = dir) := by
  obtain ⟨parsed, -, hq⟩ := parse_eq_ok.mp h
  obtain ⟨hval, hargc, hcases⟩ := initDefaults_cases hq
  have hcount : ∀ o, (ofParsed parsed).count o = q.count o := by
    intro o
    rw [JpgsyncOptions.count, JpgsyncOptions.count, hval]
  have hget : q.argv.getD 1 [] = dir := by
    have htwo : q.argv[1]? = some dir := by
      have hfirst : q.positionals[0]? = some dir := by
        rw [hpos]
        rfl
      rw [positionals, List.getElem?_drop, List.getElem?_take] at hfirst
      split at hfirst
      · exact hfirst
      · cases hfirst
    rw [List.getD_eq_getElem?_getD, htwo, Option.getD_some]
  rcases hcases with hslave | hmaster | ⟨r, r', hboth⟩
  · obtain ⟨n, hinit⟩ := hslave.root
    rw [← hslave.argv, hget, Root.init_plainDir _ hplain, Except.ok.injEq, Prod.mk.injEq] at hinit
    refine ⟨fun hm => ?_, fun _ => by rw [← hinit.1]⟩
    rw [← hcount, hslave.master] at hm
    cases hm
  · obtain ⟨n, hinit⟩ := hmaster.root
    rw [← hmaster.argv, hget, Root.init_plainDir _ hplain, Except.ok.injEq, Prod.mk.injEq] at hinit
    refine ⟨fun _ => ⟨by rw [← hcount, hmaster.slave], by rw [← hinit.1]⟩, fun hs => ?_⟩
    rw [← hcount, hmaster.slave] at hs
    cases hs
  · refine ⟨fun hm => ?_, fun hs => ?_⟩
    · rw [← hcount, hboth.master] at hm
      cases hm
    · rw [← hcount, hboth.slave] at hs
      cases hs

/-- A run as a master in a directory. -/
structure RunsMaster (q : JpgsyncOptions) (dir : Bytes) : Prop where
  help : q.help = false
  master : q.count .master = true
  dir_eq : q.masterRoot.dir = dir

/-- A run as a slave in a directory, which is told where the master is. -/
structure RunsSlave (q : JpgsyncOptions) (dir address : Bytes) : Prop where
  help : q.help = false
  sides : q.count .slave = true ∧ q.count .master = false
  dir_eq : q.slaveRoot.dir = dir
  address_eq : masterAddress (firstWord address) = some (q.masterHost, q.masterPort)

section

variable {child : Child} {extra : List Argument} {name : Bytes}
  (line : IsLayout jpgsyncOptions ts [(before, first), (between, second)] after none)
  (kept_eq : Kept₂ before between after kept)
  (h : JpgsyncOptions.parse (prog :: ts) = .ok po) (hhelp : po.help = false)
  (hdir : isFlag child.root.dir = false ∧ PlainDir child.root.dir)
  (hq : JpgsyncOptions.parse (name :: child.args) = .ok q)
  (hfollows : Follows po q child)

include line kept_eq h hhelp hdir hq

/-- How a child of a launcher with two roots reads its arguments. -/
theorem accepted_of_child (hextra : (∀ a ∈ extra, a.Stands jpgsyncOptions) ∧ texts extra = [])
    (hnone : uses .help extra = [])
    (hargs : child.args = child.root.dir ::
      (leftOver [(before, first), (between, second)] after none ++ tokens extra)) :
    q.help = false ∧
      IsLayout jpgsyncOptions child.args [([], child.root.dir)] (kept ++ extra) none ∧
      Accepted q [([], child.root.dir)] (kept ++ extra) := by
  have hl := layout_twoRoots extra line kept_eq hdir.1 hextra
  rw [← hargs] at hl
  have hacc := (accepted_of_layout hl hq).1
  refine ⟨hacc.help_iff.mpr ?_, hl, hacc⟩
  have hunused : uses .help (before ++ between ++ after) = [] := by
    rw [← usesIn_two]
    exact (accepted_of_layout line h).1.help_iff.mp hhelp
  rw [usesIn_one, List.nil_append, uses_append, hnone, List.append_nil]
  exact uses_kept_nil (perm_kept₂ kept_eq) hunused

include hfollows

theorem runsMaster_of_child
    (hargs : child.args = child.root.dir ::
      (leftOver [(before, first), (between, second)] after none ++
        tokens [localArg, masterArg])) : RunsMaster q child.root.dir := by
  obtain ⟨hnohelp, -, hacc⟩ := accepted_of_child line kept_eq h hhelp hdir hq
    ⟨by simpa using ⟨stands_localArg, stands_masterArg⟩, rfl⟩ rfl hargs
  have hcount : q.count .master = true := by
    rw [hacc.count (by simp) (by simp), usesIn_one, List.nil_append, uses_append]
    exact List.append_ne_nil_of_right_ne_nil _ (by decide)
  exact ⟨hnohelp, hcount, ((dir_of_parse hq hfollows.positionals hdir.2).1 hcount).2⟩

theorem runsSlave_of_child {address : Bytes} (haddress : isFlag address = false)
    (hslave : po.count .slave = false)
    (hargs : child.args = child.root.dir ::
      (leftOver [(before, first), (between, second)] after none ++
        tokens [localArg, addressArg address])) : RunsSlave q child.root.dir address := by
  obtain ⟨hnohelp, hl, hacc⟩ := accepted_of_child line kept_eq h hhelp hdir hq
    ⟨by simpa using ⟨stands_localArg, stands_addressArg haddress⟩, rfl⟩ rfl hargs
  have hunused : uses .slave (before ++ between ++ after) = [] := by
    rw [← usesIn_two]
    exact (accepted_of_layout line h).1.unused (by simp) (by simp) hslave
  have huses : usesIn .slave [([], child.root.dir)] (kept ++ [localArg, addressArg address]) =
      [some address] := by
    rw [usesIn_one, List.nil_append, uses_append, uses_kept_nil (perm_kept₂ kept_eq) hunused]
    rfl
  have hcount : q.count .slave = true := by
    rw [hacc.count (by simp) (by simp), huses]
    simp
  obtain ⟨value, hvalue, hword⟩ := hacc.slave_use hl hcount
  rw [huses, List.singleton_inj, Option.some.injEq] at hvalue
  have hdirs := dir_of_parse hq hfollows.positionals hdir.2
  have hnotMaster : q.count .master = false := by
    by_contra hmaster
    rw [(hdirs.1 (by simpa using hmaster)).1] at hcount
    cases hcount
  refine ⟨hnohelp, ⟨hcount, hnotMaster⟩, hdirs.2 hcount, ?_⟩
  rw [hvalue, ← hword]
  exact masterAddress_of_parse hq hcount

end

/-- **The two processes of a launcher with two roots** run a master and a
slave, by whatever name they are called. -/
theorem exists_children (hf : Forwardable word ts) (h : JpgsyncOptions.parse (prog :: ts) = .ok po)
    (hhelp : po.help = false) (hlocal : po.count .asLocal = false)
    (hmaster : po.count .master = false) (hslave : po.count .slave = false) :
    ∃ m s, children po word = [m, s] ∧ s.root = po.slaveRoot ∧
      (∀ name, ∃ q, JpgsyncOptions.parse (name :: m.args) = .ok q ∧ Follows po q m ∧
        RunsMaster q po.masterRoot.dir) ∧
      ∀ name, ∃ q, JpgsyncOptions.parse (name :: s.args) = .ok q ∧ Follows po q s ∧
        RunsSlave q po.slaveRoot.dir (slaveArg po.masterRoot word) := by
  have hforwarded := hf.forwarded h hhelp hlocal
  have hroots : (children po word).map Child.root = [po.masterRoot, po.slaveRoot] := by
    simp [children, hhelp, hlocal, hmaster, hslave]
  -- one root would come with a side
  have two : ∀ {blocks : List (List Argument × Bytes)} {post : List Argument}
      {more : Option (List Bytes)}, IsLayout jpgsyncOptions ts blocks post more →
      ∃ first second, blocks.map Prod.snd ++ more.getD [] = [first, second] ∧
        TwoChildren po word prog first second (leftOver blocks post more) := by
    intro blocks post more line
    rcases children_of_layout word line h hhelp hlocal with ⟨root, -, -, hone⟩ | htwo
    · have hside := hone.side
      simp [hmaster, hslave] at hside
    · exact htwo
  cases hf with
  | oneRoot before after kept root line dir kept_eq same =>
      obtain ⟨first, second, heq, -⟩ := two line
      simp at heq
  | oddRoot before after kept root line dir kept_eq same =>
      obtain ⟨first, second, heq, -⟩ := two line
      simp at heq
  | twoRoots before between after kept first second line dirs kept_eq same address =>
      obtain ⟨r, r', heq, hchild⟩ := two line
      obtain ⟨rfl, rfl⟩ : first = r ∧ second = r' := by simpa using heq
      have hchildren := hchild.children_eq
      rw [hchildren] at hroots
      obtain ⟨hmain, hother⟩ : mainRoot first second = po.masterRoot ∧
          otherRoot first second = po.slaveRoot := by
        simpa using hroots
      have hdirs : (isFlag (mainRoot first second).dir = false ∧
          PlainDir (mainRoot first second).dir) ∧
          isFlag (otherRoot first second).dir = false ∧
            PlainDir (otherRoot first second).dir := by
        rcases mainRoot_cases first second with ⟨hm, ho⟩ | ⟨hm, ho⟩
        · rw [hm, ho]
          exact ⟨⟨dirs.1, hchild.plain.1⟩, dirs.2, hchild.plain.2⟩
        · rw [hm, ho]
          exact ⟨⟨dirs.2, hchild.plain.2⟩, dirs.1, hchild.plain.1⟩
      rw [← hmain, ← hother]
      refine ⟨_, _, hchildren, rfl, fun name => ?_, fun name => ?_⟩
      · obtain ⟨q, hq, hfollows⟩ := hforwarded.parse (hchildren ▸ List.mem_cons_self) name
        exact ⟨q, hq, hfollows, runsMaster_of_child line kept_eq h hhelp hdirs.1 hq hfollows rfl⟩
      · obtain ⟨q, hq, hfollows⟩ := hforwarded.parse
          (hchildren ▸ List.mem_cons_of_mem _ List.mem_cons_self) name
        exact ⟨q, hq, hfollows,
          runsSlave_of_child line kept_eq h hhelp hdirs.2 hq hfollows address.1 hslave rfl⟩

/-- The host the slave connects to. -/
def slaveHost (root : Root) : Bytes :=
  if root.hostname = [] then ascii "localhost" else root.hostname

/-- The address of a host without blanks is one word, and names the port. -/
theorem masterAddress_slaveArg {root : Root} (port : UInt16)
    (hhost : ∀ c ∈ root.hostname, isSpace c = false) :
    masterAddress (firstWord (slaveArg root (printNumber port.toNat))) =
      some (slaveHost root, port) := by
  have hdigits := isDigit_printNumber port.toNat
  have hslaveHost : slaveHost root ≠ [] ∧ ∀ c ∈ slaveHost root, isSpace c = false := by
    unfold slaveHost
    split
    · exact ⟨by decide, List.forall_iff_forall_mem.mp (by decide)⟩
    · rename_i hne
      exact ⟨hne, hhost⟩
  have hword : ∀ c ∈ slaveArg root (printNumber port.toNat), (!isSpace c) = true := by
    intro c hc
    rw [slaveArg, List.append_assoc, List.mem_append, List.mem_append] at hc
    rcases hc with hc | hc | hc
    · rw [hslaveHost.2 c hc]
      rfl
    · rw [List.mem_singleton.mp hc]
      rfl
    · cases hs : isSpace c with
      | false => rfl
      | true => exact absurd (hdigits c hc) (by simp [not_isDigit (Or.inl hs)])
  have hfirst : firstWord (slaveArg root (printNumber port.toNat)) =
      slaveArg root (printNumber port.toNat) := by
    have hdrop : (slaveArg root (printNumber port.toNat)).dropWhile isSpace =
        slaveArg root (printNumber port.toNat) :=
      List.dropWhile_eq_self_iff.mpr fun hlen => by
        simpa using hword _ (List.getElem_mem hlen)
    rw [firstWord, hdrop]
    exact List.takeWhile_eq_self_iff.mpr hword
  rw [hfirst, masterAddress_iff]
  refine ⟨printNumber port.toNat, ⟨?_, hslaveHost.1, printNumber_ne_nil _, hdigits, ?_⟩, ?_⟩
  · rw [slaveArg, List.append_assoc]
    rfl
  · rw [decimal_printNumber]
    have hlt := port.toNat_lt
    omega
  · rw [decimal_printNumber, UInt16.ofNat_toNat]

/-- **The slave finds the master**: with two roots, whatever port the master
listens on and whatever else it prints, the launcher starts a slave that
reads the host of the master's root and exactly this port, where the shells
between them pass its arguments on. -/
theorem slave_finds_master {environments : Set Environment} (port : UInt16) (more : Bytes)
    (hf : Forwardable (printNumber port.toNat) ts)
    (h : JpgsyncOptions.parse (prog :: ts) = .ok po) (hhelp : po.help = false)
    (hlocal : po.count .asLocal = false) (hmaster : po.count .master = false)
    (hslave : po.count .slave = false)
    (hhost : ∀ c ∈ po.masterRoot.hostname, isSpace c = false)
    (hliteral : ∀ child ∈ children po (printNumber port.toNat), child.Literal environments) :
    ∃ word, capture (listeningLine port ++ more) = some word ∧
      ∃ child ∈ children po word, child.root = po.slaveRoot ∧
        ∀ env ∈ environments, ∀ env' ∈ environments, ∃ argv,
          child.delivered env env' = some argv ∧ ∃ q, JpgsyncOptions.parse argv = .ok q ∧
            q.count .slave = true ∧ q.positionals = [child.root.dir] ∧
            q.masterHost = slaveHost po.masterRoot ∧ q.masterPort = port := by
  refine ⟨printNumber port.toNat, capture_listeningLine port more, ?_⟩
  obtain ⟨_, child, hchildren, hroot, -, hrun⟩ :=
    exists_children hf h hhelp hlocal hmaster hslave
  have hmem : child ∈ children po (printNumber port.toNat) := by simp [hchildren]
  refine ⟨child, hmem, hroot, fun env henv env' henv' =>
    ⟨_, Child.delivered_eq (hliteral child hmem) henv henv', ?_⟩⟩
  obtain ⟨q, hq, hfollows, hrun⟩ := hrun (child.path env')
  have haddress := hrun.address_eq
  rw [masterAddress_slaveArg port hhost, Option.some.injEq, Prod.mk.injEq] at haddress
  exact ⟨q, hq, hrun.sides.1, hfollows.positionals, haddress.1.symm, haddress.2.symm⟩

/-- Two roots and nothing else. -/
theorem forwardable_roots {first second : Bytes} (port : UInt16)
    (hroots : isFlag first = false ∧ isFlag second = false)
    (hdirs : isFlag (rootOf first).dir = false ∧ isFlag (rootOf second).dir = false)
    (haddress : isFlag (slaveArg (mainRoot first second) (printNumber port.toNat)) = false)
    (hhost : ∀ c ∈ (mainRoot first second).hostname, isSpace c = false) :
    Forwardable (printNumber port.toNat) [first, second] := by
  have hline : IsLayout jpgsyncOptions [first, second] [([], first), ([], second)] [] none :=
    { line := rfl
      wellRead := ⟨hroots.1, fun h => h.elim, hroots.2, fun h => h.elim, trivial⟩
      options := by simp
      last := rfl }
  exact Forwardable.twoRoots [] [] [] [] _ _ hline hdirs
    (Or.inl ⟨by simp [Bare], by simp [Bare, Gather.leftBehind], rfl⟩) rfl
    ⟨haddress, _, masterAddress_slaveArg port hhost⟩

/-- A local directory and one on another host, where the master runs, for
shells that find no files. -/
theorem slave_finds_master_remote :
    ∃ po, JpgsyncOptions.parse [ascii "jpgsync", ascii "A", ascii "host:B"] = .ok po ∧
      ∃ word, capture (listeningLine 40000 ++ ascii "more") = some word ∧
        ∃ child ∈ children po word, child.root = po.slaveRoot ∧
          ∀ env ∈ Set.range Environment.noFiles, ∀ env' ∈ Set.range Environment.noFiles, ∃ argv,
            child.delivered env env' = some argv ∧ ∃ q, JpgsyncOptions.parse argv = .ok q ∧
              q.count .slave = true ∧ q.positionals = [child.root.dir] ∧
              q.masterHost = slaveHost po.masterRoot ∧ q.masterPort = 40000 := by
  have hf : Forwardable (printNumber (40000 : UInt16).toNat) [ascii "A", ascii "host:B"] :=
    forwardable_roots 40000 (by decide) (by decide) (by decide)
      (List.forall_iff_forall_mem.mp (by decide))
  refine ⟨_, rfl, slave_finds_master 40000 (ascii "more") hf rfl rfl rfl rfl rfl
    (List.forall_iff_forall_mem.mp (by decide)) ?_⟩
  exact fun child hchild => .of_bare (by revert child; decide) (by revert child; decide)

end

end Jpgsync
