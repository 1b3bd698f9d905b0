import NumericEngine.Fault

/-!
# Call chains

A chain is one invocation from outside with every call it makes, whichever
executor runs them. It bounds the depth of calls and of switches between
executors, and carries the request to abort.
-/

namespace NumericEngine

structure Chain where
  maxDepth : Nat
  depth : Nat := 0
  switches : Nat := 0
  aborted : Bool := false
  deriving DecidableEq, Repr, Inhabited

namespace Chain

def defaultMaxDepth : Nat := 256

def maxSwitches : Nat := 32

def checkAbort (c : Chain) : Except Fault Unit :=
  if c.aborted then .error (.aborted c.depth) else .ok ()

def enter (c : Chain) : Except Fault Chain :=
  if c.maxDepth ≤ c.depth then .error (.callDepth c.maxDepth)
  else .ok { c with depth := c.depth + 1 }

def leave (c : Chain) : Chain := { c with depth := c.depth - 1 }

def enterExecutor (c : Chain) : Except Fault Chain :=
  if maxSwitches ≤ c.switches then .error (.modeSwitches maxSwitches)
  else .ok { c with switches := c.switches + 1 }

def leaveExecutor (c : Chain) : Chain := { c with switches := c.switches - 1 }

def abort (c : Chain) : Chain := { c with aborted := true }

end Chain

end NumericEngine
