import RamRestore.Config

/-! # Command arguments

Arguments are read from left to right, up to the first that is wrong or asks for help.
Options may stand anywhere before `--`; each may be given once, with its value behind an
equals sign or as the next argument.
-/

namespace RamRestore.Command

structure RestoreArguments where
  snapshot : String
  layout : String
  config : Option String := none
  /-- Takes the place of the configured load type. -/
  mode : Option LoadType := none
  output : Option String := none
  deriving DecidableEq, Repr

/-- What the arguments ask for. -/
inductive Invocation where
  | help
  /-- They are wrong. -/
  | misuse
  | restore (args : RestoreArguments)
  deriving DecidableEq, Repr

inductive OptionName where
  | config
  | mode
  | output
  deriving DecidableEq, Repr

inductive Argument where
  | operand
  | help
  | option (name : OptionName) (value : Option String)
  | unknown
  deriving DecidableEq, Repr

namespace Argument

def named (name : List Char) (value : Option String) : Argument :=
  if name = "help".toList then (if value.isNone then .help else .unknown)
  else if name = "config".toList then .option .config value
  else if name = "mode".toList then .option .mode value
  else if name = "output".toList then .option .output value
  else .unknown

/-- An option by its name and, behind an equals sign, its value. -/
def ofLong (text : List Char) : Argument :=
  named (text.takeWhile (· ≠ '='))
    (match text.dropWhile (· ≠ '=') with
    | [] => none
    | _ :: value => some (String.ofList value))

def ofChars : List Char → Argument
  | '-' :: '-' :: text => ofLong text
  | '-' :: 'h' :: _ => .help
  | '-' :: _ :: _ => .unknown
  | _ => .operand

def ofString (arg : String) : Argument := ofChars arg.toList

end Argument

/-- The arguments of a restore that were read so far. -/
structure Draft where
  operands : List String := []
  config : Option String := none
  mode : Option LoadType := none
  output : Option String := none

namespace Draft

def isPath (text : String) : Bool := text ≠ ""

def addOperand (d : Draft) (text : String) : Option Draft :=
  if isPath text && d.operands.length < 2 then some { d with operands := d.operands ++ [text] }
  else none

def loadType? (text : String) : Option LoadType :=
  if text = "eager" then some .eager else if text = "lazy" then some .lazy else none

def setOption (d : Draft) (name : OptionName) (value : String) : Option Draft :=
  match name with
  | .config => if d.config.isNone && isPath value then some { d with config := value } else none
  | .output => if d.output.isNone && isPath value then some { d with output := value } else none
  | .mode =>
    match d.mode, loadType? value with
    | none, some mode => some { d with mode }
    | _, _ => none

def finish (d : Draft) : Invocation :=
  match d.operands with
  | [snapshot, layout] => .restore ⟨snapshot, layout, d.config, d.mode, d.output⟩
  | _ => .misuse

def read (d : Draft) : List String → Invocation
  | [] => d.finish
  | arg :: rest =>
    if arg = "--" then ((rest.foldlM addOperand d).map finish).getD .misuse
    else match Argument.ofString arg, rest with
      | .help, _ => .help
      | .operand, rest => ((d.addOperand arg).map (read · rest)).getD .misuse
      | .option name (some value), rest => ((d.setOption name value).map (read · rest)).getD .misuse
      | .option name none, value :: rest =>
        if Argument.ofString value = .operand then
          ((d.setOption name value).map (read · rest)).getD .misuse
        else .misuse
      | _, _ => .misuse

end Draft

def Invocation.ofArguments : List String → Invocation
  | [] => .misuse
  | command :: args =>
    if command = "restore" then Draft.read {} args
    else if command = "help" then
      if args = [] || args = ["restore"] || args = ["help"] then .help else .misuse
    else if command ≠ "--" && Argument.ofString command = .help then .help
    else .misuse

end RamRestore.Command
