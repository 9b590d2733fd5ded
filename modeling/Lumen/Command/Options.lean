import Lumen.Text.Integer
import Lumen.Text.Quoted

/-!
# Command line options

Arguments are sorted first: options, options that do not exist, positional
arguments, and the first bare `--`, behind which everything is positional.
Then they are taken from left to right.  One positional argument is the source;
what nobody takes is collected and refused at the very end, so a request for
help or a bad value wins wherever it stands.
-/

namespace Lumen.Command

inductive Flag where
  | help | inline | tokens | tree | maxDepth | repl | verbose
  deriving DecidableEq, Repr

namespace Flag

def spellings : Flag → List String
  | help => ["-h", "--help"]
  | inline => ["-s", "--string"]
  | tokens => ["--tokens"]
  | tree => ["--ast"]
  | maxDepth => ["--max-depth"]
  | repl => ["--repl"]
  | verbose => ["--verbose"]

def name (flag : Flag) : String :=
  "/".intercalate flag.spellings

def all : List Flag :=
  [help, inline, tokens, tree, maxDepth, repl, verbose]

def takesValue (flag : Flag) : Bool :=
  flag == maxDepth

def table : List (String × Flag) :=
  all.flatMap fun flag => flag.spellings.map fun spelling => (spelling, flag)

def ofSpelling? (spelling : String) : Option Flag :=
  table.lookup spelling

/-- Flags of which only one may be given. -/
def excludes : Flag → Option Flag
  | tokens => some tree
  | tree => some tokens
  | _ => none

end Flag

inductive UsageFault where
  | ambiguous (argument : String) (spellings : List String)
  | missingValue (flag : Flag)
  | notInteger (flag : Flag) (text : String)
  | ignoredValue (flag : Flag) (text : String)
  | excluded (flag other : Flag)
  | unrecognized (arguments : List String)
  deriving DecidableEq, Repr

def aboutFlag (flag : Flag) (complaint : String) : String :=
  "argument " ++ flag.name ++ ": " ++ complaint

def UsageFault.message : UsageFault → String
  | ambiguous argument spellings =>
      "ambiguous option: " ++ argument ++ " could match " ++ ", ".intercalate spellings
  | missingValue flag => aboutFlag flag "expected one argument"
  | notInteger flag text => aboutFlag flag ("invalid int value: " ++ Text.quoted text)
  | ignoredValue flag text =>
      aboutFlag flag ("ignored explicit argument " ++ Text.quoted text)
  | excluded flag other => aboutFlag flag ("not allowed with argument " ++ other.name)
  | unrecognized arguments => "unrecognized arguments: " ++ " ".intercalate arguments

inductive Argument where
  | positional (text : String)
  /-- A flag as it was spelled, with a value given in the same argument. -/
  | option (flag : Flag) (spelling : String) (value : Option String)
  | unknown (text : String)
  | separator
  deriving DecidableEq, Repr

namespace Argument

/-- The text before and behind the first equals sign, if there is one. -/
def splitValue (text : List Char) : List Char × Option (List Char) :=
  let name := text.takeWhile (· != '=')
  match text.drop name.length with
  | [] => (name, none)
  | _ :: value => (name, some value)

/-- Digits of any script, at least one. -/
def isDigitRun (text : List Char) : Bool :=
  !text.isEmpty && text.all fun c => (Text.digitValue? c).isSome

/-- Whether an argument that begins with a dash is a negative number.  A line
feed may follow it. -/
def isNegativeNumber (text : List Char) : Bool :=
  match text with
  | '-' :: digits =>
      let digits := if digits.getLast? == some '\n' then digits.dropLast else digits
      let whole := digits.takeWhile (· != '.')
      isDigitRun digits ||
        (whole.all fun c => (Text.digitValue? c).isSome) &&
          (match digits.drop whole.length with
          | [] => false
          | _ :: fraction => isDigitRun fraction)
  | _ => false

/-- The options that an argument may abbreviate.  A long option may be cut
short; a short one may be followed at once by more. -/
def candidates (text : List Char) : List Argument :=
  match text with
  | '-' :: '-' :: _ =>
      let (name, value) := splitValue text
      Flag.table.filterMap fun (spelling, flag) =>
        if name.isPrefixOf spelling.toList then
          some (option flag spelling (value.map String.ofList))
        else none
  | '-' :: letter :: rest =>
      Flag.table.filterMap fun (spelling, flag) =>
        if spelling.toList = ['-', letter] then
          some (option flag spelling (some (String.ofList rest)))
        else if text.isPrefixOf spelling.toList then some (option flag spelling none)
        else none
  | _ => []

def spelling : Argument → String
  | positional text => text
  | option _ spelling _ => spelling
  | unknown text => text
  | separator => "--"

/-- An argument with a dash in front that is no option by its full name. -/
def sortDashed (text : String) : Except UsageFault Argument :=
  match candidates text.toList with
  | [argument] => .ok argument
  | [] =>
      if isNegativeNumber text.toList || text.toList.contains ' ' then .ok (positional text)
      else .ok (unknown text)
  | several => .error (.ambiguous text (several.map spelling))

/-- Sorts an argument that stands before any separator. -/
def sort (text : String) : Except UsageFault Argument :=
  match text.toList with
  | '-' :: rest =>
      match Flag.ofSpelling? text with
      | some flag => .ok (option flag text none)
      | none =>
          if rest.isEmpty then .ok (positional text)
          else
            let (name, value) := splitValue text.toList
            match value, Flag.ofSpelling? (String.ofList name) with
            | some value, some flag =>
                .ok (option flag (String.ofList name) (some (String.ofList value)))
            | _, _ => sortDashed text
  | _ => .ok (positional text)

def sortAll : List String → Except UsageFault (List Argument)
  | [] => .ok []
  | text :: texts =>
      if text = "--" then .ok (separator :: texts.map positional)
      else do
        let argument ← sort text
        let arguments ← sortAll texts
        return argument :: arguments

end Argument

/-- The depth limit that the arguments ask for. -/
inductive DepthChoice where
  | unset
  /-- The option is there, and its value is a separator, which is dropped. -/
  | empty
  | limit (depth : Int)
  deriving DecidableEq, Repr, Inhabited

structure Options where
  source : Option String := none
  inline : Bool := false
  tokens : Bool := false
  tree : Bool := false
  maxDepth : DepthChoice := .unset
  repl : Bool := false
  verbose : Bool := false
  deriving DecidableEq, Repr, Inhabited

namespace Options

/-- Why no options come out: help was asked for, or the arguments are refused. -/
inductive Stop where
  | help
  | refused (fault : UsageFault)
  deriving DecidableEq, Repr

def has (options : Options) : Flag → Bool
  | .tokens => options.tokens
  | .tree => options.tree
  | _ => false

def take (options : Options) (flag : Flag) : Except Stop Options :=
  match flag.excludes.filter options.has with
  | some other => .error (.refused (.excluded flag other))
  | none =>
      match flag with
      | .help => .error .help
      | .inline => .ok { options with inline := true }
      | .tokens => .ok { options with tokens := true }
      | .tree => .ok { options with tree := true }
      | .repl => .ok { options with repl := true }
      | .verbose => .ok { options with verbose := true }
      | .maxDepth => .ok options

/-- Takes a flag with its value.  A separator is no value, even where it is
joined to the flag. -/
def takeValue (options : Options) (flag : Flag) (text : String) : Except Stop Options :=
  if text = "--" then .ok { options with maxDepth := .empty }
  else
    match Text.readInteger text with
    | some depth => .ok { options with maxDepth := .limit depth }
    | none => .error (.refused (.notInteger flag text))

/-- The flags that a short option opens when its value is the rest of a cluster:
every letter is again a short option. -/
def cluster (flag : Flag) : List Char → Except Stop (List Flag)
  | [] => .ok [flag]
  | letter :: rest =>
      match Flag.ofSpelling? (String.ofList ['-', letter]) with
      | some next => (cluster next rest).map (flag :: ·)
      | none => .error (.refused (.ignoredValue flag (String.ofList (letter :: rest))))

/-- The flags that an option with a value in the same argument stands for, when
the flag takes none. -/
def clustered (flag : Flag) (spelling value : String) : Except Stop (List Flag) :=
  if value.isEmpty || spelling.toList.length != 2 then
    .error (.refused (.ignoredValue flag value))
  else cluster flag value.toList

/-- Options so far, whether the source has been taken, and what nobody took. -/
structure Progress where
  options : Options
  sourceTaken : Bool
  leftOver : List String

/-- Takes the arguments from left to right.  A separator goes with the source
that it stands next to. -/
def takeAll : Progress → List Argument → Except Stop Progress
  | progress, [] => .ok progress
  | progress, .unknown text :: rest =>
      takeAll { progress with leftOver := progress.leftOver ++ [text] } rest
  | progress, .separator :: rest =>
      if progress.sourceTaken then
        takeAll { progress with leftOver := progress.leftOver ++ ["--"] } rest
      else takeAll progress rest
  | progress, .positional text :: rest =>
      if progress.sourceTaken then
        takeAll { progress with leftOver := progress.leftOver ++ [text] } rest
      else
        let taken : Progress :=
          { progress with
            options := { progress.options with source := some text }
            sourceTaken := true }
        match rest with
        | .separator :: rest => takeAll taken rest
        | rest => takeAll taken rest
  | progress, .option flag spelling (some value) :: rest =>
      if flag.takesValue then do
        let options ← progress.options.takeValue flag value
        takeAll { progress with options := options } rest
      else do
        let flags ← clustered flag spelling value
        let options ← flags.foldlM take progress.options
        takeAll { progress with options := options } rest
  | progress, .option flag _ none :: rest =>
      if flag.takesValue then
        match rest with
        | .positional text :: rest => do
            let options ← progress.options.takeValue flag text
            takeAll { progress with options := options } rest
        | _ => .error (.refused (.missingValue flag))
      else do
        let options ← progress.options.take flag
        takeAll { progress with options := options } rest

def ofArguments (arguments : List String) : Except Stop Options :=
  match Argument.sortAll arguments with
  | .error fault => .error (.refused fault)
  | .ok sorted => do
      let progress ← takeAll ⟨{}, false, []⟩ sorted
      if progress.leftOver.isEmpty then return progress.options
      else throw (.refused (.unrecognized progress.leftOver))

end Options

end Lumen.Command
