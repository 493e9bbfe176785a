import Wordlang.Text.Blank
import Wordlang.Text.Numeral
import Wordlang.Token.Lexer

/-!
# Command line options

Arguments are read from left to right. Options may stand anywhere in front of `--`; the first argument that
is no option names the file and the others are the numbers passed to the program. A value is checked when
the next item comes, and numbers that stand side by side are one item, so an unknown option is found before
a bad value in front of it.
-/

namespace Wordlang.CommandLine

/-! ## Globals -/

/-- Why a text does not declare a global. -/
inductive GlobalError
  | noValue (text : String)
  | invalidName (name : String)
  | invalidValue (name : String) (error : NumeralError)
  deriving DecidableEq, Repr

namespace GlobalError

def message : GlobalError → String
  | noValue text => "expected NAME=VALUE, got '" ++ text ++ "'"
  | invalidName name => "'" ++ name ++ "' is not a valid identifier"
  | invalidValue name error => "invalid value for '" ++ name ++ "': " ++ error.message

end GlobalError

def isName : List Char → Bool
  | [] => false
  | c :: cs => Lexeme.isNameStart c && (c :: cs).all Lexeme.isNameChar

/-- Cuts a text at its first `=`. -/
def cutAtEquals? (cs : List Char) : Option (List Char × List Char) :=
  match cs.dropWhile (· != '=') with
  | [] => none
  | _ :: value => some (cs.takeWhile (· != '='), value)

/-- Reads `NAME=VALUE`, with white space around either (`parse_global`). -/
def readGlobal (text : String) : Except GlobalError (String × Word) :=
  match cutAtEquals? text.toList with
  | none => .error (.noValue text)
  | some (left, right) =>
    let name := String.ofList (trim left)
    if isName (trim left) then
      match Numeral.read (trim right) with
      | .ok value => .ok (name, value)
      | .error e => .error (.invalidValue name e)
    else .error (.invalidName name)

/-! ## Options -/

structure Options where
  file : String
  entry : String := "Main"
  emit : Bool := false
  noRun : Bool := false
  globals : List (String × Word) := []
  args : List Word := []
  deriving DecidableEq, Repr

/-- Why arguments give no options. -/
inductive Usage
  | helpAsked
  | versionAsked
  | missingFile
  | missingValue
  | repeatedOption
  | needlessValue
  | unknownOption
  | invalidGlobal (error : GlobalError)
  | invalidArgument (error : NumeralError)
  deriving DecidableEq, Repr

/-- One argument by its form. -/
inductive Item
  | separator
  | long (name : String) (value : Option String)
  | short (flag : Char) (rest : List Char)
  | plain
  deriving DecidableEq, Repr

namespace Item

def ofText (text : String) : Item :=
  match text.toList with
  | ['-', '-'] => separator
  | '-' :: '-' :: cs =>
    match cutAtEquals? cs with
    | some (name, value) => long (String.ofList name) (some (String.ofList value))
    | none => long (String.ofList cs) none
  | '-' :: c :: cs => short c cs
  | _ => plain

/-- The value that follows the letter of an option without a gap, behind an optional `=`. -/
def attached? : List Char → Option String
  | [] => none
  | '=' :: cs => some (String.ofList cs)
  | cs => some (String.ofList cs)

/-- Whether the text behind a minus sign makes it a number: digits, perhaps with a point and an exponent. -/
def isNumeric (cs : List Char) : Bool :=
  let fraction := match cs.dropWhile Char.isDigit with
    | '.' :: ds => ds.dropWhile Char.isDigit
    | ds => ds
  cs.head?.any Char.isDigit &&
    match fraction with
    | [] => true
    | e :: ds => (e == 'e' || e == 'E') && !ds.isEmpty && ds.all Char.isDigit

end Item

/-- An item whose value is not checked yet. An option may still wait for its value, and a row of numbers may
still grow. -/
inductive Held
  | entry (value : Option String)
  | global (value : Option String)
  | file (path : String)
  | args (texts : List String)
  deriving DecidableEq, Repr

/-- What has been read so far. -/
structure Draft where
  file : Option String := none
  entry : Option String := none
  emit : Bool := false
  noRun : Bool := false
  globals : List (String × Word) := []
  args : List Word := []
  held : Option Held := none

namespace Draft

/-- Checks an item and takes it in. -/
def take (d : Draft) : Held → Except Usage Draft
  | .entry none => .error .missingValue
  | .entry (some name) => if d.entry.isSome then .error .repeatedOption else .ok { d with entry := some name }
  | .global none => .error .missingValue
  | .global (some text) =>
    match readGlobal text with
    | .ok declared => .ok { d with globals := d.globals ++ [declared] }
    | .error e => .error (.invalidGlobal e)
  | .file path => if path.isEmpty then .error .missingValue else .ok { d with file := some path }
  | .args texts =>
    match texts.mapM (Numeral.read ·.toList) with
    | .ok values => .ok { d with args := d.args ++ values }
    | .error e => .error (.invalidArgument e)

/-- Takes in the item that is held. -/
def settle (d : Draft) : Except Usage Draft :=
  match d.held with
  | some item => { d with held := none }.take item
  | none => .ok d

/-- An option with a value, which may be the next argument. -/
def valued (d : Draft) (option : Option String → Held) (value : Option String) : Except Usage Draft := do
  let d ← d.settle
  if value.isSome then d.take (option value) else return { d with held := some (option none) }

/-- An option without a value that ends the reading. -/
def ask (d : Draft) (usage : Usage) : Except Usage Draft := do
  let _ ← d.settle
  throw usage

def setEmit (d : Draft) : Except Usage Draft := do
  let d ← d.settle
  if d.emit then throw .repeatedOption else return { d with emit := true }

def setNoRun (d : Draft) : Except Usage Draft := do
  let d ← d.settle
  if d.noRun then throw .repeatedOption else return { d with noRun := true }

/-- An argument that is no option and no option's value. -/
def positional (d : Draft) (text : String) : Except Usage Draft :=
  match d.held with
  | some (.args texts) => .ok { d with held := some (.args (texts ++ [text])) }
  | _ => do
    let d ← d.settle
    return { d with held := some (if d.file.isNone then .file text else .args [text]) }

/-- An argument that is no option. -/
def plain (d : Draft) (text : String) : Except Usage Draft :=
  match d.held with
  | some (.entry none) => .ok { d with held := some (.entry (some text)) }
  | some (.global none) => .ok { d with held := some (.global (some text)) }
  | _ => d.positional text

/-- Whether the next argument that is no option is a number for the program. -/
def expectsArgs (d : Draft) : Bool :=
  d.file.isSome || match d.held with
    | some (.file _) => true
    | _ => false

def long (d : Draft) (name : String) (value : Option String) : Except Usage Draft :=
  match name, value with
  | "entry", value => d.valued .entry value
  | "global", value => d.valued .global value
  | "emit", none => d.setEmit
  | "no-run", none => d.setNoRun
  | "help", none => d.ask .helpAsked
  | "version", none => d.ask .versionAsked
  | "emit", some _ => .error .needlessValue
  | "no-run", some _ => .error .needlessValue
  | "help", some _ => .error .needlessValue
  | "version", some _ => .error .needlessValue
  | _, _ => .error .unknownOption

def short (d : Draft) (flag : Char) (rest : List Char) : Except Usage Draft :=
  match flag with
  | 'e' => d.valued .entry (Item.attached? rest)
  | 'g' => d.valued .global (Item.attached? rest)
  | 'h' => d.ask .helpAsked
  | 'V' => d.ask .versionAsked
  | _ => .error .unknownOption

/-- Reads one argument in front of `--`. -/
def item (d : Draft) (text : String) : Except Usage Draft :=
  match Item.ofText text with
  | .long name value => d.long name value
  | .short flag rest =>
    if d.expectsArgs && Item.isNumeric (flag :: rest) then d.plain text else d.short flag rest
  | _ => d.plain text

def read (d : Draft) : List String → Except Usage Draft
  | [] => d.settle
  | text :: texts => do
    match Item.ofText text with
    | .separator => (← texts.foldlM positional d).settle
    | _ => (← d.item text).read texts

end Draft

/-- The options that arguments give. -/
def Options.ofArgs (args : List String) : Except Usage Options := do
  let d ← Draft.read {} args
  match d.file with
  | none => throw .missingFile
  | some file =>
    return {
      file
      entry := d.entry.getD "Main"
      emit := d.emit
      noRun := d.noRun
      globals := d.globals
      args := d.args }

end Wordlang.CommandLine
