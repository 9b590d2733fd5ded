/-!
# Limits on nesting

Two limits bound how deeply an expression may nest.  The depth limit is a
setting and counts brackets and prefix operators.  The stack limit is fixed and
counts the frames that each level of nesting costs; what a level costs depends
on the activity.  A computation without stack limit is one whose limit is
absent.
-/

namespace Lumen

/-- What the levels of nesting above a point add up to. -/
structure Load where
  depth : Nat
  frames : Nat
  deriving DecidableEq, Repr, Inhabited

namespace Load

def empty : Load := ⟨0, 0⟩

/-- One more level that counts for the depth. -/
def deeper (load : Load) (frames : Nat) : Load :=
  ⟨load.depth + 1, load.frames + frames⟩

/-- A level that costs frames only. -/
def sideways (load : Load) (frames : Nat) : Load :=
  ⟨load.depth, load.frames + frames⟩

end Load

structure Limits where
  depth : Int
  stack : Option Nat
  deriving DecidableEq, Repr, Inhabited

def stackHolds (stack : Option Nat) (frames : Nat) : Bool :=
  match stack with
  | none => true
  | some limit => frames ≤ limit

namespace Limits

def stackFrames : Nat := 1000

/-- The limits of a run with the given depth limit. -/
def standard (depth : Int) : Limits := ⟨depth, some stackFrames⟩

/-- The same depth limit without a stack limit. -/
def withoutStack (depth : Int) : Limits := ⟨depth, none⟩

def holdsDepth (limits : Limits) (load : Load) : Bool :=
  (load.depth : Int) ≤ limits.depth

def holdsFrames (limits : Limits) (load : Load) : Bool :=
  stackHolds limits.stack load.frames

/-- Whether a point under the given load is within both limits. -/
def admits (limits : Limits) (load : Load) : Bool :=
  limits.holdsDepth load && limits.holdsFrames load

end Limits

end Lumen
