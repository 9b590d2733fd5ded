import Lumen.Command.Options
import Lumen.Command.Script
import Lumen.Repl

/-!
# The command

From its arguments and the environment a command decides what to do: give help,
refuse, converse, or run a source.
-/

namespace Lumen.Command

def usage : String :=
  "usage: lumen [-h] [-s] [--tokens | --ast] [--max-depth N] [--repl] [--verbose]\n" ++
    "             [source]\n"

def help : String :=
  usage ++
    "\n" ++
    "positional arguments:\n" ++
    "  source         Script path or raw source (with -s)\n" ++
    "\n" ++
    "options:\n" ++
    "  -h, --help     show this help message and exit\n" ++
    "  -s, --string   Interpret source as literal code\n" ++
    "  --tokens       Print the token stream\n" ++
    "  --ast          Print the parsed statements\n" ++
    "  --max-depth N  Deepest expression nesting accepted (default:\n" ++
    "                 $LUMEN_MAX_DEPTH or 100)\n" ++
    "  --repl         Launch the interactive REPL\n" ++
    "  --verbose      Log debug output to stderr\n"

/-- What a command is about to do. -/
inductive Task where
  | help
  | misused (fault : UsageFault)
  | misconfigured (fault : SettingsFault)
  /-- The depth option was given without a value. -/
  | depthless
  | converse (settings : Settings)
  | runText (settings : Settings) (mode : Mode) (source : String)
  | runScript (settings : Settings) (mode : Mode) (path : String)
  deriving DecidableEq

namespace Task

def modeOf (options : Options) : Mode :=
  if options.tokens then .tokens else if options.tree then .tree else .evaluate

def levelOf (options : Options) : Option String :=
  if options.verbose then some LogLevel.debug.name else none

/-- Settings overruled by the options, or the task that comes of it if they
cannot be. -/
def overrule (settings : Settings) (options : Options) : Except Task Settings :=
  match options.maxDepth with
  | .empty => .error depthless
  | .unset => (settings.replace none (levelOf options)).mapError misconfigured
  | .limit depth => (settings.replace (some depth) (levelOf options)).mapError misconfigured

/-- The settings of a command: the environment, overruled by the options. -/
def settingsOf (depth level : Option String) (options : Options) : Except Task Settings :=
  match Settings.fromEnvironment depth level with
  | .error fault => .error (misconfigured fault)
  | .ok settings => overrule settings options

/-- The task of a command with the given arguments, where `depth` and `level` are
the environment's settings. -/
def ofArguments (depth level : Option String) (arguments : List String) : Task :=
  match Options.ofArguments arguments with
  | .error .help => help
  | .error (.refused fault) => misused fault
  | .ok options =>
      match settingsOf depth level options with
      | .error task => task
      | .ok settings =>
          match options.source with
          | none => converse settings
          | some source =>
              if options.repl then converse settings
              else if options.inline then runText settings (modeOf options) source
              else runScript settings (modeOf options) source

def verbose : Task → Bool
  | converse settings => settings.verbose
  | runText settings _ _ => settings.verbose
  | runScript settings _ _ => settings.verbose
  | _ => false

/-- Does a task, given the lines of the input and a way to read files. -/
def outcome (lines : List String) (read : String → Except OpenFault (List UInt8)) :
    Task → Outcome
  | help => ⟨.exit exitOk, [.printed Command.help]⟩
  | misused fault =>
      ⟨.exit exitUsage, .complained usage :: complain ("error: " ++ fault.message)⟩
  | misconfigured fault => ⟨.exit exitUsage, complain fault.message⟩
  | depthless => ⟨.missingDepth, []⟩
  | converse settings => ⟨.exit exitOk, Repl.transcript settings lines⟩
  | runText settings mode source => runSource settings mode source
  | runScript settings mode path => runFile settings mode path (read path)

end Task

end Lumen.Command
