import BehavioralAutomata.Render

/-!
# Configurations

A configuration is a stack of frames, one for every active procedure, or one of three special ones:
before anything was read, after the initial procedure has ended, and after a symbol that can not be
read.
-/

namespace BehavioralAutomata

/-- An active procedure and the state that it is in. -/
structure Frame (α : Type u) where
  procedure : α
  state : Nat
deriving DecidableEq

def Frame.describe [Render α] (f : Frame α) : String := render f.procedure ++ ":" ++ render f.state

inductive Configuration (α : Type u) where
  /-- Nothing has been read. -/
  | initial
  /-- The initial procedure has ended. -/
  | finished
  /-- The run has died. -/
  | dead
  /-- The frame `top` is active, on top of the frames that wait for it, the nearest one first. -/
  | active (top : Frame α) (below : List (Frame α))
deriving DecidableEq

namespace Configuration

variable {α : Type u}

/-- The frames, top first. -/
def frames : Configuration α → List (Frame α)
  | .active top below => top :: below
  | _ => []

def depth (c : Configuration α) : Nat := c.frames.length

def isDead : Configuration α → Bool
  | .dead => true
  | _ => false

def describe [Render α] : Configuration α → String
  | .initial => "INIT"
  | .finished => "TERM"
  | .dead => "SINK"
  | .active top below => "[" ++ " | ".intercalate ((top :: below).map Frame.describe) ++ "]"

end Configuration

end BehavioralAutomata
