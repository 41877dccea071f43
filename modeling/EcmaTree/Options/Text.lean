import EcmaTree.Options
import EcmaTree.Source.Character

/-!
# Options written in JSON

Options are an object whose unknown keys are skipped, or a list of the values in the
order of the fields, which may be short. A key that is known may come once. Skipped
values have to be JSON, but a skipped string may hold an unpaired surrogate and a
skipped number may be too large. The source type is a name, or an object that maps
the name to null.
-/

namespace EcmaTree.OptionsText

/-- A reader takes characters off the front of the text or rejects it. -/
abbrev Reader := StateT (List Char) Option

def reject {α : Type} : Reader α := fun _ => none

def isJsonSpace (c : Char) : Bool :=
  c == ' ' || c == '\t' || c == '\n' || c == '\r'

/-- The next character after blanks, which is left in place. -/
def peek : Reader Char := fun text =>
  match text.dropWhile isJsonSpace with
  | [] => none
  | c :: rest => some (c, c :: rest)

def skip (n : Nat) : Reader Unit := fun text => some ((), text.drop n)

def expect (c : Char) : Reader Unit := do
  if (← peek) == c then skip 1 else reject

def word (w : String) : Reader Unit := fun text =>
  if w.toList.isPrefixOf text then some ((), text.drop w.length) else none

def hexValue? (digits : List Char) : Option Nat :=
  digits.foldlM (fun n c => (digitValue? 16 c).map (16 * n + ·)) 0

/-- The four digits of a code unit. -/
def codeUnit? (text : List Char) : Option Nat :=
  if (text.take 4).length = 4 then hexValue? (text.take 4) else none

/-- The character of an escape after its backslash, and how long it is. -/
def escape? : List Char → Option (Char × Nat)
  | '\x22' :: _ => some ('\x22', 1)
  | '\\' :: _ => some ('\\', 1)
  | '/' :: _ => some ('/', 1)
  | 'b' :: _ => some ('\x08', 1)
  | 'f' :: _ => some ('\x0c', 1)
  | 'n' :: _ => some ('\n', 1)
  | 'r' :: _ => some ('\r', 1)
  | 't' :: _ => some ('\t', 1)
  | 'u' :: rest => do
    let high ← codeUnit? rest
    if 0xD800 ≤ high && high < 0xDC00 then
      match rest.drop 4 with
      | '\\' :: 'u' :: rest =>
        let low ← codeUnit? rest
        if 0xDC00 ≤ low && low < 0xE000 then
          some (Char.ofNat (0x10000 + (high - 0xD800) * 0x400 + (low - 0xDC00)), 11)
        else none
      | _ => none
    else if 0xDC00 ≤ high && high < 0xE000 then none
    else some (Char.ofNat high, 5)
  | _ => none

/-- The length of an escape in a skipped string, where any code unit will do. -/
def escapeLength? : List Char → Option Nat
  | 'u' :: rest => (codeUnit? rest).map fun _ => 5
  | text => (escape? text).map (·.2)

/-- The characters up to the closing quote; the first `owed` ones belong to an escape. -/
def stringBody (owed : Nat) : List Char → Option (List Char × List Char)
  | [] => none
  | c :: rest =>
    match owed with
    | owed + 1 => stringBody owed rest
    | 0 =>
      if c == '\x22' then some ([], rest)
      else if c.toNat < 0x20 then none
      else if c == '\\' then
        (escape? rest).bind fun (ch, n) => (stringBody n rest).map fun (cs, rest) => (ch :: cs, rest)
      else (stringBody 0 rest).map fun (cs, rest) => (c :: cs, rest)

/-- The text after the closing quote of a skipped string. -/
def stringEnd (owed : Nat) : List Char → Option (List Char)
  | [] => none
  | c :: rest =>
    match owed with
    | owed + 1 => stringEnd owed rest
    | 0 =>
      if c == '\x22' then some rest
      else if c.toNat < 0x20 then none
      else if c == '\\' then (escapeLength? rest).bind fun n => stringEnd n rest
      else stringEnd 0 rest

def string : Reader String := do
  expect '\x22'
  fun text => (stringBody 0 text).map fun (cs, rest) => (String.ofList cs, rest)

def boolean : Reader Bool := do
  if (← peek) == 't' then
    word "true"
    return true
  else
    word "false"
    return false

/-- A value or null. -/
def optional {α : Type} (value : Reader α) : Reader (Option α) := do
  if (← peek) == 'n' then
    word "null"
    return none
  else
    return some (← value)

/-- At least one decimal digit. -/
def digits : Reader Unit := fun text =>
  match text with
  | c :: rest => if isDecimalDigit c then some ((), rest.dropWhile isDecimalDigit) else none
  | [] => none

/-- Runs a reader if the text goes on with one of the characters, which is taken off. -/
def after (starts : List Char) (next : Reader Unit) : Reader Unit := fun text =>
  match text with
  | c :: rest => if starts.contains c then next rest else some ((), text)
  | [] => some ((), [])

def skipNumber : Reader Unit := do
  after ['-'] (pure ())
  fun text => match text with
    | '0' :: c :: rest => if isDecimalDigit c then none else some ((), c :: rest)
    | text => digits text
  after ['.'] digits
  after ['e', 'E'] (after ['+', '-'] (pure ()) *> digits)

mutual

/-- Skips one value; every bracket costs fuel. -/
def skipValue : Nat → Reader Unit
  | 0 => reject
  | fuel + 1 => do
    let c ← peek
    if c == '[' then
      skip 1
      if (← peek) == ']' then skip 1 else skipItems fuel
    else if c == '\x7b' then
      skip 1
      if (← peek) == '\x7d' then skip 1 else skipFields fuel
    else if c == '\x22' then
      skip 1
      fun text => (stringEnd 0 text).map ((), ·)
    else if c == 'n' then word "null"
    else if c == 't' then word "true"
    else if c == 'f' then word "false"
    else skipNumber

def skipItems : Nat → Reader Unit
  | 0 => reject
  | fuel + 1 => do
    skipValue fuel
    if (← peek) == ',' then
      skip 1
      skipItems fuel
    else expect ']'

def skipFields : Nat → Reader Unit
  | 0 => reject
  | fuel + 1 => do
    expect '\x22'
    fun text => (stringEnd 0 text).map ((), ·)
    expect ':'
    skipValue fuel
    if (← peek) == ',' then
      skip 1
      skipFields fuel
    else expect '\x7d'

end

/-- The items of a list after its bracket. -/
def items {α : Type} (item : Reader α) : Nat → Reader (List α)
  | 0 => reject
  | fuel + 1 => do
    let a ← item
    if (← peek) == ',' then
      skip 1
      return a :: (← items item fuel)
    else
      expect ']'
      return [a]

def list {α : Type} (item : Reader α) : Reader (List α) := do
  expect '['
  if (← peek) == ']' then
    skip 1
    return []
  else
    items item (← get).length

def names : Reader (List String) := do
  return (← list string).foldl (fun names name => insertName name names) []

def sourceTypeName : Reader SourceType := do
  match SourceType.ofName? (← string) with
  | some sourceType => return sourceType
  | none => reject

def sourceType : Reader SourceType := do
  if (← peek) == '\x7b' then
    skip 1
    let sourceType ← sourceTypeName
    expect ':'
    let _ ← peek
    word "null"
    expect '\x7d'
    return sourceType
  else
    sourceTypeName

/-- The fields met so far. -/
structure Fields where
  sourceType : Option SourceType := none
  allowReturn : Option Bool := none
  allowImportExport : Option Bool := none
  plugins : Option (List String) := none
  strictMode : Option (Option Bool) := none

def Fields.resolve (f : Fields) : ParseOptions where
  sourceType := f.sourceType.getD .script
  allowReturnOutsideFunction := f.allowReturn.getD false
  allowImportExportEverywhere := f.allowImportExport.getD false
  plugins := f.plugins.getD []
  strictMode := f.strictMode.getD none

/-- Reads the value of a field that must not have been met. -/
def once {α : Type} (old : Option α) (value : Reader α) : Reader (Option α) := do
  if old.isSome then reject else return some (← value)

def field (f : Fields) (key : String) : Reader Fields := do
  if key == "sourceType" then
    return { f with sourceType := ← once f.sourceType sourceType }
  else if key == "allowReturnOutsideFunction" then
    return { f with allowReturn := ← once f.allowReturn boolean }
  else if key == "allowImportExportEverywhere" then
    return { f with allowImportExport := ← once f.allowImportExport boolean }
  else if key == "plugins" then
    return { f with plugins := ← once f.plugins names }
  else if key == "strictMode" then
    return { f with strictMode := ← once f.strictMode (optional boolean) }
  else
    skipValue ((← get).length + 1)
    return f

def fields (f : Fields) : Nat → Reader Fields
  | 0 => reject
  | fuel + 1 => do
    let key ← string
    expect ':'
    let _ ← peek
    let f ← field f key
    if (← peek) == ',' then
      skip 1
      fields f fuel
    else
      expect '\x7d'
      return f

/-- One value of the list form: read if the list goes on, else left out. -/
def positional {α : Type} (isFirst ended : Bool) (value : Reader α) : Reader (Option α × Bool) := do
  if ended then return (none, true)
  if (← peek) == ']' then
    skip 1
    return (none, true)
  unless isFirst do expect ','
  let _ ← peek
  return (some (← value), false)

def positionals : Reader Fields := do
  let (sourceType, ended) ← positional true false sourceType
  let (allowReturn, ended) ← positional false ended boolean
  let (allowImportExport, ended) ← positional false ended boolean
  let (plugins, ended) ← positional false ended names
  let (strictMode, ended) ← positional false ended (optional boolean)
  unless ended do expect ']'
  return ⟨sourceType, allowReturn, allowImportExport, plugins, strictMode⟩

def options : Reader Fields := do
  if (← peek) == '[' then
    skip 1
    positionals
  else
    expect '\x7b'
    if (← peek) == '\x7d' then
      skip 1
      return {}
    else
      fields {} (← get).length

end OptionsText

/-- Reads options from JSON text; nothing but blanks may follow them. -/
def ParseOptions.ofText? (text : String) : Option ParseOptions :=
  match OptionsText.options text.toList with
  | some (fields, rest) => if rest.all OptionsText.isJsonSpace then some fields.resolve else none
  | none => none

end EcmaTree
