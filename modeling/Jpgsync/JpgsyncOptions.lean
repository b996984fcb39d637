import Jpgsync.ProgramOptions

/-!
# JpgsyncOptions — options and roots of the program

`struct JpgsyncOptions` of `jpgsync.cpp`: its options, `Root::Init`,
`ExtractPort` and `InitDefaults`. What is printed when `verbosity` is set
is left out.
-/

namespace Jpgsync

open ProgramOptions

/-! ## Ports and addresses -/

/-- `ExtractPort(begin, end, port)` with `ret` so far. -/
def extractPort (ret : Nat) : Bytes → Option UInt16
  | [] => some (UInt16.ofNat ret)
  | c :: text =>
      if !isDigit c then none
      else if 10 * ret + c.toNat - 48 > 0xFFFF then none
      else extractPort (10 * ret + c.toNat - 48) text

/-- `std::string::find(c)`. -/
def findByte (c : UInt8) (s : Bytes) : Option Nat := s.findIdx? (· == c)

/-- `std::string::rfind(c)`. -/
def rfindByte (c : UInt8) (s : Bytes) : Option Nat :=
  (findByte c s.reverse).map fun i => s.length - 1 - i

/-- The address of the master in `InitDefaults`, and how it is split. -/
def masterAddress (slave : Bytes) : Option (Bytes × UInt16) :=
  match rfindByte 58 slave with
  | none => none
  | some pos =>
      if pos ≠ 0 ∧ pos + 1 ≠ slave.length then
        (extractPort 0 (slave.drop (pos + 1))).map fun port => (slave.take pos, port)
      else none

/-! ## Roots -/

/-- `JpgsyncOptions::Root`. -/
structure Root where
  dir : Bytes
  hostname : Bytes
  user : Bytes
deriving DecidableEq

/-- A new `Root`. -/
def Root.new : Root := ⟨[], [], []⟩

/-- `Root::Init`, with the number it returns. -/
def Root.init (self : Root) (root : Bytes) : Except Exception (Root × Nat) :=
  let invalid : Exception := ⟨ascii "Invalid root: " ++ root⟩
  match rfindByte 58 root with
  | none => .ok (⟨if root ≠ [] then root else ascii ".", [], []⟩, 0)
  | some pos =>
      if pos ≠ 0 then
        let dir := if root.drop (pos + 1) = [] then ascii "." else root.drop (pos + 1)
        let hostname := root.take pos
        match findByte 64 hostname with
        | none => .ok (⟨dir, hostname, self.user⟩, 1)
        | some pos =>
            if pos ≠ 0 ∧ pos + 1 < hostname.length then
              .ok (⟨dir, hostname.drop (pos + 1), hostname.take pos⟩, 2)
            else .error invalid
      else .error invalid

/-! ## Options -/

/-- The options of the program; `asLocal` is `local`. -/
inductive JpgsyncOption where
  | help
  | verbosity
  | master
  | slave
  | asLocal
  | distribute
  | ncTest
deriving DecidableEq

/-- The arguments of their constructors. -/
def JpgsyncOption.base : JpgsyncOption → OptionBase
  | .help => ⟨ascii "help", some 104, .flag⟩
  | .verbosity => ⟨ascii "verbosity", some 118, .level⟩
  | .master => ⟨ascii "master", some 109, .flag⟩
  | .slave => ⟨ascii "slave", some 115, .word⟩
  | .asLocal => ⟨ascii "local", some 108, .flag⟩
  | .distribute => ⟨ascii "distribute", some 100, .flag⟩
  | .ncTest => ⟨ascii "nc-test", none, .flag⟩

/-- The table of options, in the order in which they are constructed. -/
def jpgsyncOptions : ProgramOptions JpgsyncOption where
  options := [.help, .verbosity, .master, .slave, .asLocal, .distribute, .ncTest]
  base := JpgsyncOption.base
  help := .help
  verbosity := .verbosity

/-- `JpgsyncOptions`, with `argc` and `argv` as `Parse` leaves them. -/
structure JpgsyncOptions where
  val : JpgsyncOption → Option Value
  argc : Nat
  argv : List Bytes
  masterHost : Bytes
  masterPort : UInt16
  masterRoot : Root
  slaveRoot : Root

namespace JpgsyncOptions

variable (po : JpgsyncOptions)

/-- `count()` of an option is not zero. -/
def count (o : JpgsyncOption) : Bool := (po.val o).isSome

/-- `help()`. -/
def help : Bool := po.val .help == some (.flag true)

/-- `slave()`. -/
def slave : Bytes :=
  match po.val .slave with
  | some (.word word) => word
  | _ => []

/-- The arguments that are no options and their values: `argv[1..argc)`. -/
def positionals : List Bytes := (po.argv.take po.argc).drop 1

/-- "check the right number of dirs": how many are needed. -/
def rootsNeeded : Nat := 2 - (po.count .slave || po.count .master).toNat

/-- "parse roots and swap the args such that the remote one comes first" -/
def initRoots : Except Exception JpgsyncOptions :=
  if po.count .slave then do
    let (slaveRoot, _) ← po.slaveRoot.init (po.argv.getD 1 [])
    return { po with slaveRoot := slaveRoot }
  else do
    let (masterRoot, masterRemote) ← po.masterRoot.init (po.argv.getD 1 [])
    if po.count .master then
      return { po with masterRoot := masterRoot }
    else
      let (slaveRoot, slaveRemote) ← po.slaveRoot.init (po.argv.getD 2 [])
      if slaveRemote ≠ 0 ∧ masterRemote = 0 then
        return { po with
          masterRoot := slaveRoot
          slaveRoot := masterRoot
          argv := Gather.swapAt po.argv 1 2 }
      else
        return { po with masterRoot := masterRoot, slaveRoot := slaveRoot }

/-- The address of the master, where one is given. -/
def initMaster : Except Exception JpgsyncOptions :=
  if po.count .slave then
    match masterAddress po.slave with
    | some (host, port) => return { po with masterHost := host, masterPort := port }
    | none => throw ⟨ascii "Invalid master: " ++ po.slave⟩
  else return po

/-- `InitDefaults`. -/
def initDefaults : Except Exception JpgsyncOptions :=
  if po.count .slave && po.count .master then
    throw ⟨ascii "Options -m and -s are mutually exclusive."⟩
  else if (po.count .slave || po.count .master).toNat + (po.argc - 1) ≠ 2 then
    throw ⟨ascii "Invalid number of roots (need " ++ [UInt8.ofNat (48 + po.rootsNeeded)] ++
      ascii ")"⟩
  else po.initRoots >>= initMaster

/-- The object when `InitDefaults` is called; `master_port_` is not
initialised before. -/
def ofParsed (parsed : Parsed JpgsyncOption) : JpgsyncOptions :=
  ⟨parsed.val, parsed.argc, parsed.argv, [], 0, Root.new, Root.new⟩

/-- `gPO.Parse(&argc, argv)`. -/
def parse (argv : List Bytes) : Except Exception JpgsyncOptions :=
  (jpgsyncOptions.parse argv).bind fun parsed => (ofParsed parsed).initDefaults

end JpgsyncOptions

end Jpgsync
