import Lumen.Text.Integer
import Lumen.Text.Quoted

/-!
# Settings

The depth limit and the log level.  Defaults give way to the environment, and
the environment gives way to the command line.
-/

namespace Lumen

inductive LogLevel where
  | debug | info | warning | error | critical
  deriving DecidableEq, Repr, Inhabited

namespace LogLevel

def name : LogLevel → String
  | debug => "DEBUG"
  | info => "INFO"
  | warning => "WARNING"
  | error => "ERROR"
  | critical => "CRITICAL"

/-- Records of at least this severity are shown. -/
def severity : LogLevel → Nat
  | debug => 10
  | info => 20
  | warning => 30
  | error => 40
  | critical => 50

def all : List LogLevel :=
  [debug, info, warning, error, critical]

/-- The capital of a letter, as far as the names of levels need it: beside the
Latin letters only the dotless i has a Latin capital that occurs in one. -/
def capital (c : Char) : Char :=
  if c == 'ı' then 'I' else c.toUpper

/-- The level with a given name, in any case. -/
def ofText? (text : String) : Option LogLevel :=
  all.find? fun level => level.name.toList == text.toList.map capital

end LogLevel

structure Settings where
  maxDepth : Nat
  logLevel : LogLevel
  positive : 0 < maxDepth
  deriving DecidableEq

inductive SettingsFault where
  | depthNotPositive (depth : Int)
  | depthNotInteger (text : String)
  | unknownLevel (text : String)
  deriving DecidableEq, Repr

def SettingsFault.message : SettingsFault → String
  | depthNotPositive depth => "max_depth must be positive, got " ++ toString depth
  | depthNotInteger text =>
      "LUMEN_MAX_DEPTH must be an integer, got " ++ Text.quoted text
  | unknownLevel text => "Unknown log level: " ++ Text.quoted text

namespace Settings

def defaultDepth : Nat := 100

/-- The settings in effect when nothing is said. -/
def standard : Settings where
  maxDepth := defaultDepth
  logLevel := .warning
  positive := by decide

instance : Inhabited Settings := ⟨standard⟩

/-- Settings from a depth limit and the name of a level.  The depth limit is
checked first. -/
def make (depth : Int) (level : String) : Except SettingsFault Settings :=
  if hpositive : 0 < depth.toNat then
    match LogLevel.ofText? level with
    | some logLevel => .ok ⟨depth.toNat, logLevel, hpositive⟩
    | none => .error (.unknownLevel level)
  else .error (.depthNotPositive depth)

/-- The text of an environment variable that is set to something. -/
def given (setting : Option String) : Option String :=
  setting.filter fun text => !text.isEmpty

/-- Settings from the environment variables for the depth limit and the level. -/
def fromEnvironment (depth level : Option String) : Except SettingsFault Settings :=
  let level := (given level).getD standard.logLevel.name
  match given depth with
  | none => make standard.maxDepth level
  | some text =>
      match Text.readInteger text with
      | some depth => make depth level
      | none => .error (.depthNotInteger text)

def replace (settings : Settings) (depth : Option Int) (level : Option String) :
    Except SettingsFault Settings :=
  make (depth.getD settings.maxDepth) (level.getD settings.logLevel.name)

def verbose (settings : Settings) : Bool :=
  settings.logLevel == .debug

end Settings

end Lumen
