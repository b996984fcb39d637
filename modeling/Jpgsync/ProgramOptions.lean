import Jpgsync.ExifHash
import Jpgsync.Lib.Gather
import Mathlib.Logic.Function.Basic

/-!
# ProgramOptions — the command line

`ProgramOptions<>::Parse` of `program_options.hpp` over any table of
options: the scan, which leaves the value of an option to the parser the
option creates, and the exchanges that bring the other arguments to the
front of `argv`. What follows them, `InitDefaults`, is the subclass's.
Descriptions and `PrintUsage` are left out.
-/

namespace Jpgsync

/-! ## Characters and words -/

/-- The bytes of a literal of the source. -/
def ascii (s : String) : Bytes := s.toList.map fun c => UInt8.ofNat c.toNat

/-- `isspace` in the "C" locale. -/
def isSpace (c : UInt8) : Bool := c == 32 || (9 ≤ c && c ≤ 13)

/-- `isdigit`. -/
def isDigit (c : UInt8) : Bool := 48 ≤ c && c ≤ 57

/-- `std::istringstream(token) >> value` into an empty string. -/
def firstWord (token : Bytes) : Bytes :=
  (token.dropWhile isSpace).takeWhile fun c => !isSpace c

/-- The number at the front of a text, without its sign. -/
def digitsValue (text : Bytes) : Nat :=
  (text.takeWhile isDigit).foldl (fun n c => 10 * n + (c.toNat - 48)) 0

/-- `strtol(token, NULL, 10)` for a `long` of 64 bits. -/
def strtol (token : Bytes) : Int :=
  let positive (text : Bytes) : Int :=
    if digitsValue text ≤ 0x7FFFFFFFFFFFFFFF then digitsValue text else 0x7FFFFFFFFFFFFFFF
  match token.dropWhile isSpace with
  | 45 :: text =>
      if digitsValue text ≤ 0x8000000000000000 then -(digitsValue text : Int)
      else -0x8000000000000000
  | 43 :: text => positive text
  | text => positive text

/-- `atoi`, which is `(int) strtol(token, NULL, 10)`. -/
def atoi (token : Bytes) : Int32 := Int32.ofInt (strtol token)

/-- `flag[0] == '-'`. -/
def isFlag (arg : Bytes) : Bool := arg.head? == some 45

/-- The argument `--`. -/
def dashes : Bytes := [45, 45]

@[simp] theorem isFlag_dashes : isFlag dashes = true := rfl

namespace ProgramOptions

/-- `ProgramOptions::Exception`. -/
structure Exception where
  msg : Bytes
deriving DecidableEq

/-! ## Value parsers -/

/-- The values of options. -/
inductive Value where
  | flag (value : Bool)
  | word (value : Bytes)
  | level (value : UInt32)
deriving DecidableEq

/-- A `ValueParser` with its fields. -/
inductive ValueParser where
  | flag (value done : Bool)                   -- Option<bool>::DefaultParser
  | word (value : Bytes) (done : Bool)         -- Option<std::string>::DefaultParser
  | level (level : UInt32)                     -- LevelParser
deriving DecidableEq

/-- `parser_factory_`: which `Create` it points to. -/
inductive ParserFactory where
  | flag
  | word
  | level
deriving DecidableEq

/-- `CreateParser`. The constructor of the parser of a flag does not
initialise `done_`; it is taken to be false, as for the other types. -/
def ParserFactory.create : ParserFactory → ValueParser
  | .flag => .flag false false
  | .word => .word [] false
  | .level => .level 0

/-- `CheckNotParsed` throws. -/
def specifiedMultipleTimes (flag : Bytes) : Exception :=
  ⟨ascii "Option '" ++ flag ++ ascii "' specified multiple times."⟩

def missingValue (flag : Bytes) : Exception :=
  ⟨ascii "Missing value for option '" ++ flag ++ ascii "'"⟩

def unrecognizedOption (flag : Bytes) : Exception :=
  ⟨ascii "Unrecognized option '" ++ flag ++ ascii "'"⟩

/-- `Parse(argv, cnt, argind)`: `flag` is `argv[*argind - 1]` and `values`
are the `cnt` arguments behind it; the number is how far `*argind` moves. -/
def ValueParser.parse (flag : Bytes) (values : List Bytes) :
    ValueParser → Except Exception (ValueParser × Nat)
  | .flag _ done =>
      if done then .error (specifiedMultipleTimes flag)
      else .ok (.flag true true, 0)
  | .word _ done =>
      if done then .error (specifiedMultipleTimes flag)
      else
        match values with
        | [] => .error (missingValue flag)
        | value :: _ => .ok (.word (firstWord value) true, 1)
  | .level n =>
      match values with
      | [] => .ok (.level (n + 1), 0)
      | value :: _ => .ok (.level (atoi value).toUInt32, 1)

/-- `GetValue`. -/
def ValueParser.getValue : ValueParser → Value
  | .flag value _ => .flag value
  | .word value _ => .word value
  | .level n => .level n

/-! ## Options -/

/-- `OptionBase`: `alias_` is `none` where it is zero. -/
structure OptionBase where
  name : Bytes
  shortName : Option UInt8
  parserFactory : ParserFactory
deriving DecidableEq

end ProgramOptions

open ProgramOptions

/-- `ProgramOptions<>` with the options a subclass adds. -/
structure ProgramOptions (O : Type*) where
  options : List O                             -- in the order of `Add`
  base : O → OptionBase
  help : O
  verbosity : O

namespace ProgramOptions

variable {O : Type*} (po : ProgramOptions O)

/-- `name_map_.find(name)`: a later option replaces an earlier one. -/
def named (name : Bytes) : Option O :=
  po.options.reverse.find? fun o => (po.base o).name = name

/-- `alias_map_.find(alias)`. -/
def aliased (c : UInt8) : Option O :=
  po.options.reverse.find? fun o => (po.base o).shortName = some c

/-- The option an argument names. -/
def find (flag : Bytes) : Option O :=
  match flag with
  | 45 :: 45 :: name => po.named name
  | [45, c] => po.aliased c
  | _ => none

/-- `CreateParser` of an option. -/
def createParser (o : O) : ValueParser := (po.base o).parserFactory.create

/-- The local variables `arg_inds` and `parser_map` of `Parse`. -/
structure Parsing (O : Type*) where
  argInds : List Nat
  parserMap : O → Option ValueParser

/-- Nothing read yet. -/
def Parsing.start : Parsing O := ⟨[], fun _ => none⟩

/-- `arg_inds.push_back(i)`. -/
def Parsing.push (st : Parsing O) (i : Nat) : Parsing O :=
  { st with argInds := st.argInds ++ [i] }

/-- `parser_map[o]`, created when it is not there. -/
def Parsing.parser (st : Parsing O) (o : O) : ValueParser :=
  (st.parserMap o).getD (po.createParser o)

/-- What an option has been set to before the scan. -/
def initialValue [DecidableEq O] (o : O) : Option Value :=
  if o = po.help then some (.flag false)
  else if o = po.verbosity then some (.level 0)
  else none

variable [DecidableEq O]

/-- The parser of `o` has gone on to `p`. -/
def Parsing.set (st : Parsing O) (o : O) (p : ValueParser) : Parsing O :=
  { st with parserMap := Function.update st.parserMap o (some p) }

/-- The scan of `Parse`. The first of `args` stands at index `i`; value
parsers have moved `from` beyond `skip` of them. -/
def parseLoop : (moreflags : Bool) → (skip i : Nat) → (args : List Bytes) → Parsing O →
    Except Exception (Parsing O)
  | _, _, _, [], st => .ok st
  | moreflags, skip + 1, i, _ :: args, st => parseLoop moreflags skip (i + 1) args st
  | moreflags, 0, i, flag :: args, st =>
      if !moreflags || !isFlag flag then parseLoop moreflags 0 (i + 1) args (st.push i)
      else if flag = dashes then parseLoop false 0 (i + 1) args st
      else
        match po.find flag with
        | none => .error (unrecognizedOption flag)
        | some o =>
            -- the values of an option are the arguments up to the next that begins with '-'
            match (st.parser po o).parse flag (args.takeWhile fun arg => !isFlag arg) with
            | .error e => .error e
            | .ok (p, taken) => parseLoop moreflags taken (i + 1) args (st.set o p)

/-- The options and `argc` and `argv` when `Parse` calls `InitDefaults`. -/
structure Parsed (O : Type*) where
  val : O → Option Value
  argc : Nat
  argv : List Bytes

/-- `SetValue` of every parser, and the exchanges in `argv`. -/
def finish (argv : List Bytes) (st : Parsing O) : Parsed O where
  val := fun o =>
    match st.parserMap o with
    | some p => some p.getValue
    | none => po.initialValue o
  argc := st.argInds.length + 1
  argv := Gather.gather argv 1 st.argInds

/-- `Parse` up to the call of `InitDefaults`. -/
def parse (argv : List Bytes) : Except Exception (Parsed O) :=
  match po.parseLoop true 0 1 argv.tail Parsing.start with
  | .error e => .error e
  | .ok st => .ok (po.finish argv st)

end ProgramOptions

end Jpgsync
