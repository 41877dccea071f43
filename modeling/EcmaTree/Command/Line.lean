import EcmaTree.Command.Job
import EcmaTree.Options.Text

/-!
# The command line

Arguments are read from left to right. A parameter whose value may still come is
settled when the next parameter or switch begins, so of two faults the earlier one is
told, except where an argument cannot be placed at all. After two dashes all arguments
are positional, and one file may be named.
-/

namespace EcmaTree

/-- Why a command line is not run. -/
inductive UsageFault where
  | missingRequiredArgument
  | unknownArgument
  | invalidValue
  | argumentConflict
  | tooManyValues
  | displayHelp
  | displayVersion
deriving DecidableEq, Repr, Inhabited

def UsageFault.title : UsageFault → String
  | .missingRequiredArgument => "MissingRequiredArgument"
  | .unknownArgument => "UnknownArgument"
  | .invalidValue => "InvalidValue"
  | .argumentConflict => "ArgumentConflict"
  | .tooManyValues => "TooManyValues"
  | .displayHelp => "DisplayHelp"
  | .displayVersion => "DisplayVersion"

structure CommandLine where
  file : String
  sourceType : Option SourceType
  sloppy : Bool
  options : Option String
  product : Product
  noColor : Bool
deriving DecidableEq, Repr, Inhabited

namespace CommandLine

/-- What takes a value. -/
inductive Parameter where
  | file
  | sourceType
  | options
  | product
deriving DecidableEq, Repr, Inhabited

/-- What is given without a value. -/
inductive Switch where
  | sloppy
  | noColor
  | help
  | version
deriving DecidableEq, Repr, Inhabited

/-- The option of a long name. -/
def option? (name : String) : Option (Parameter ⊕ Switch) :=
  [("source-type", .inl .sourceType), ("options", .inl .options), ("emit", .inl .product),
   ("sloppy", .inr .sloppy), ("no-color", .inr .noColor), ("help", .inr .help),
   ("version", .inr .version)].lookup name

/-- What the arguments so far have settled. -/
structure Settings where
  file : Option String := none
  sourceType : Option SourceType := none
  options : Option String := none
  product : Option Product := none
  sloppy : Bool := false
  noColor : Bool := false
deriving DecidableEq, Repr, Inhabited

namespace Settings

/-- Fills a setting that may be given once. -/
def once {α : Type} (current : Option α) (value : Option α) : Except UsageFault (Option α) :=
  match current, value with
  | some _, _ => .error .argumentConflict
  | none, none => .error .invalidValue
  | none, some a => .ok (some a)

def fill (s : Settings) (value : String) : Parameter → Except UsageFault Settings
  | .file => do
    let file ← once s.file (if value.isEmpty then none else some value)
    return { s with file := file }
  | .sourceType => do
    let sourceType ← once s.sourceType (SourceType.ofName? value.toLower)
    return { s with sourceType := sourceType }
  | .options => do
    let options ← once s.options (some value)
    return { s with options := options }
  | .product => do
    let product ← once s.product (Product.ofName? value)
    return { s with product := product }

def turnOn (s : Settings) : Switch → Except UsageFault Settings
  | .sloppy => if s.sloppy then .error .argumentConflict else .ok { s with sloppy := true }
  | .noColor => if s.noColor then .error .argumentConflict else .ok { s with noColor := true }
  | .help => .error .displayHelp
  | .version => .error .displayVersion

end Settings

/-- A parameter that has begun, with its value if that has come. -/
structure Begun where
  parameter : Parameter
  value : Option String
deriving DecidableEq, Repr, Inhabited

structure Reading where
  settings : Settings := {}
  begun : Option Begun := none
  /-- A file has been named. -/
  fileSeen : Bool := false
  /-- Two dashes have ended the options. -/
  optionsEnded : Bool := false
deriving DecidableEq, Repr, Inhabited

namespace Reading

/-- Settles the parameter that has begun. -/
def settle (r : Reading) : Except UsageFault Reading :=
  match r.begun with
  | none => .ok r
  | some ⟨_, none⟩ => .error .invalidValue
  | some ⟨parameter, some value⟩ => do
    let settings ← r.settings.fill value parameter
    return { r with settings := settings, begun := none }

def switch (r : Reading) (s : Switch) : Except UsageFault Reading := do
  let r ← r.settle
  let settings ← r.settings.turnOn s
  return { r with settings := settings }

/-- An argument after two dashes in front: a name, and a value if an equals sign follows it. -/
def longOption (r : Reading) (text : List Char) : Except UsageFault Reading :=
  let name := String.ofList (text.takeWhile (· != '='))
  match option? name, text.dropWhile (· != '=') with
  | none, _ => .error .unknownArgument
  | some (.inl parameter), [] => do
    let r ← r.settle
    return { r with begun := some ⟨parameter, none⟩ }
  | some (.inl parameter), _ :: value => do
    let r ← r.settle
    let settings ← r.settings.fill (String.ofList value) parameter
    return { r with settings := settings }
  | some (.inr s), [] => r.switch s
  | some (.inr _), _ :: _ => .error .tooManyValues

/-- Letters after one dash. Each letter there is ends the reading. -/
def shortOption (r : Reading) (letter : Char) : Except UsageFault Reading :=
  if letter == 'h' then r.switch .help
  else if letter == 'V' then r.switch .version
  else .error .unknownArgument

def positional (r : Reading) (value : String) : Except UsageFault Reading :=
  if r.fileSeen then .error .unknownArgument
  else do
    let r ← r.settle
    return { r with begun := some ⟨.file, some value⟩, fileSeen := true }

/-- An argument that is no option: the value of the parameter that waits for one, or a file. -/
def plain (r : Reading) (value : String) : Except UsageFault Reading :=
  match r.begun with
  | some ⟨parameter, none⟩ => .ok { r with begun := some ⟨parameter, some value⟩ }
  | _ => r.positional value

def argument (r : Reading) (arg : String) : Except UsageFault Reading :=
  if r.optionsEnded then r.positional arg
  else match arg.toList with
    | ['-', '-'] => .ok { r with optionsEnded := true }
    | '-' :: '-' :: text => r.longOption text
    | '-' :: letter :: _ => r.shortOption letter
    | _ => r.plain arg

end Reading

/-- Reads the arguments after the name of the program. -/
def ofArguments (args : List String) : Except UsageFault CommandLine := do
  let r ← args.foldlM Reading.argument {}
  let settings := (← r.settle).settings
  match settings.file with
  | none => throw .missingRequiredArgument
  | some file =>
    return ⟨file, settings.sourceType, settings.sloppy, settings.options,
      settings.product.getD .ast, settings.noColor⟩

/-- The options in JSON, on top of them the source type, and on top of that sloppy mode. -/
def parseOptions? (c : CommandLine) : Option ParseOptions := do
  let base ← match c.options with
    | some text => ParseOptions.ofText? text
    | none => some {}
  let typed := { base with sourceType := c.sourceType.getD base.sourceType }
  return if c.sloppy then { typed with strictMode := some false } else typed

end CommandLine

end EcmaTree
