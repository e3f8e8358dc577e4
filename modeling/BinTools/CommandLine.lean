import BinTools.CString
import BinTools.ObjectFormat

namespace BinTools.CommandLine

open ObjectFormat (Format)

/-!
# The command line of the linker

`read_cmdline` goes over the arguments with an index of eight bits.  Options set
the configuration, and the first run of other arguments is the list of input
files.  The list and the argument vector are accessed within their bounds only:
any other access is a fault.
-/

/-- `ET_DYN`, `PE_EXEC` and `PE_DLL` -/
def etDyn : Nat := 3
def peExec : Nat := 2
def peDll : Nat := 3

/-- The part of `config` that the command line sets. -/
structure Config where
  verbose : Bool := false
  outfileName : Option CString := none
  outfileType : Nat := 0
  pack : Bool := false
  nodynamic : Bool := false
  dynlib : Option Nat := none
  useDtHash : Bool := false
  nopie : Bool := false
  fileFormat : Format := .none
  noInterp : Bool := false
  interpName : Option CString := none
  entryFunctionName : Option CString := none
  keepGnuProperty : Bool := false
  deriving DecidableEq, Repr

/-- The variables of the loop; operands are kept as indices of `argv`. -/
structure Reader where
  i : Nat
  operands : List Nat
  getObj : Bool
  getObjDone : Bool
  config : Config
  deriving DecidableEq, Repr

/-- The part of a name from its first dot on. -/
def suffix (name : CString) : List UInt8 :=
  name.bytes.dropWhile (· ≠ 0x2e)

/-- The type of the output file by its suffix. -/
def typeOf (s : List UInt8) : Nat :=
  if s = (CString.ofString ".so").bytes then etDyn
  else if s = (CString.ofString ".o").bytes then etDyn
  else if s = (CString.ofString ".dll").bytes then peDll
  else if s = (CString.ofString ".exe").bytes then peExec
  else etDyn

/-- `-o`: the search for a dot ends at a dot only. -/
def setOutfile (next : Option CString) (config : Config) : Option Config :=
  next.bind fun name =>
    if 0x2e ∈ name.bytes then
      some
        { config with
          outfileName := some name
          outfileType := typeOf (suffix name) }
    else
      none

/-- `-f`; an unknown format is reported and changes nothing. -/
def setFormat (next : Option CString) (config : Config) : Option Config :=
  next.map fun name =>
    if name = .ofString "win32" then { config with fileFormat := .coffI386 }
    else if name = .ofString "win64" then
      { config with fileFormat := .coffAmd64 }
    else if name = .ofString "elf32" then { config with fileFormat := .elf32 }
    else if name = .ofString "elf64" then { config with fileFormat := .elf64 }
    else config

/--
The options: the new configuration, unless there is a fault, with the number of
further arguments that are skipped.
-/
def readOption (i : Nat) (arg : CString) (next : Option CString)
    (config : Config) : Option (Option (Config × Nat)) :=
  if arg = .ofString "-v" then
    some (some ({ config with verbose := true }, 0))
  else if arg = .ofString "-o" then
    some ((setOutfile next config).map fun config => (config, 1))
  else if arg = .ofString "-p" then
    some (some ({ config with pack := true }, 0))
  else if arg = .ofString "-nodynamic" then
    some (some ({ config with nodynamic := true }, 0))
  else if arg = .ofString "-l" then
    some (some ({ config with dynlib := some (i + 1) }, 1))
  else if arg = .ofString "-use-dt-hash" then
    some (some ({ config with useDtHash := true }, 0))
  else if arg = .ofString "-no-pie" then
    some (some ({ config with nopie := true }, 0))
  else if arg = .ofString "-f" then
    some ((setFormat next config).map fun config => (config, 1))
  else if arg = .ofString "-ib" then
    some (some (config, 1))
  else if arg = .ofString "-nointerp" then
    some (some ({ config with noInterp := true }, 0))
  else if arg = .ofString "-interp-name" then
    some (some ({ config with interpName := next }, 1))
  else if arg = .ofString "-ef" then
    some (some ({ config with entryFunctionName := next }, 1))
  else if arg = .ofString "-keep-gnu-property" then
    some (some ({ config with keepGnuProperty := true }, 1))
  else
    none

/-- The body of the loop. -/
def readArgument (argv : List CString) (reader : Reader) (arg : CString) :
    Option Reader :=
  match readOption reader.i arg argv[reader.i + 1]? reader.config with
  | some result =>
      result.map fun (config, skipped) =>
        { reader with
          config := config
          i := (reader.i + skipped) % 2 ^ 8
          getObjDone := reader.getObjDone || reader.getObj }
  | none =>
      if reader.getObjDone = false then
        if reader.operands.length < argv.length then
          some
            { reader with
              getObj := true
              operands := reader.operands ++ [reader.i] }
        else
          none
      else
        some { reader with getObjDone := reader.getObjDone || reader.getObj }

/-- The loop, for a number of rounds. -/
def readArguments (argv : List CString) : Nat → Reader → Option Reader
  | 0, _ => none
  | fuel + 1, reader =>
      match argv[reader.i]? with
      | none => some reader
      | some arg =>
          (readArgument argv reader arg).bind fun reader =>
            readArguments argv fuel
              { reader with i := (reader.i + 1) % 2 ^ 8 }

/--
`read_cmdline`: the list of operands, which a null pointer stands for when there
are no arguments, and the configuration.
-/
def readCmdline (fuel : Nat) (program : CString) (args : List CString) :
    Option (Option (List Nat) × Config) :=
  let argv := program :: args
  if argv.length = 1 then
    some (none, {})
  else
    (readArguments argv fuel
        { i := 1
          operands := []
          getObj := false
          getObjDone := false
          config := {} }).bind fun reader =>
      if reader.operands.length < argv.length then
        some
          (some reader.operands,
            if reader.config.fileFormat = .none then
              { reader.config with fileFormat := .elf64 }
            else
              reader.config)
      else
        none

/-! ## Argument vectors -/

/-- The options that take the next argument. -/
def takers : List CString :=
  [.ofString "-o", .ofString "-l", .ofString "-f", .ofString "-ib",
    .ofString "-interp-name", .ofString "-ef"]

/-- The option that keeps the GNU property. -/
def keep : CString :=
  .ofString "-keep-gnu-property"

/-- The options without an argument. -/
def flags : List CString :=
  [.ofString "-v", .ofString "-p", .ofString "-nodynamic",
    .ofString "-use-dt-hash", .ofString "-no-pie", .ofString "-nointerp", keep]

/-- An operand or an option. -/
inductive Item where
  | operand (name : CString) (notTaker : name ∉ takers) (notFlag : name ∉ flags)
  | flag (name : CString) (isFlag : name ∈ flags)
  | option (name argument : CString) (isTaker : name ∈ takers)

/-- The arguments of some items, with a mark on the arguments of options. -/
def tokens : List Item → List (CString × Bool)
  | [] => []
  | .operand name _ _ :: items => (name, false) :: tokens items
  | .flag name _ :: items => (name, false) :: tokens items
  | .option name argument _ :: items =>
      (name, false) :: (argument, true) :: tokens items

/-- The arguments of some items. -/
def arguments (items : List Item) : List CString :=
  (tokens items).map Prod.fst

/-- The operands at the front, by their indices. -/
def operandsAt : Nat → List Item → List Nat
  | position, .operand _ _ _ :: items =>
      position :: operandsAt (position + 1) items
  | _, _ => []

/-- The first run of operands, by their indices. -/
def firstRun : Nat → List Item → List Nat
  | _, [] => []
  | position, .operand _ _ _ :: items =>
      position :: operandsAt (position + 1) items
  | position, .flag _ _ :: items => firstRun (position + 1) items
  | position, .option _ _ _ :: items => firstRun (position + 2) items

/--
The command line is read to its end within bounds, and what is returned are the
operands of the first run.
-/
def ReadsOperands (program : CString) (items : List Item) : Prop :=
  ∃ fuel returned config,
    readCmdline fuel program (arguments items) = some (returned, config) ∧
      returned.getD [] = firstRun 1 items

end BinTools.CommandLine
