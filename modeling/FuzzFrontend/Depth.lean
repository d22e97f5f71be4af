import FuzzFrontend.Diagnostic.Problem

/-!
Depth limits. A limit that is asked for is cut to what the call stack holds, and a guard counts how
deep a traversal stands. A guard that is left more often than it was entered stands below zero.
-/
namespace FuzzFrontend

/-- The nesting that readers, writers and traversals allow unless told otherwise. -/
def defaultDepth : Int := 100

/-- The frames that the call stack holds. -/
def stackFrames : Int := 1000

/-- A depth that is asked for, cut to the levels that fit on the call stack beside some reserved
frames. A partial level does not count. -/
def clampDepth (requested : Int) (reserve : Int := 50) (framesPerLevel : Int := 1) : Int :=
  let safe := Int.fdiv (stackFrames - reserve) framesPerLevel
  if safe < requested then safe else requested

/-- Said of levels that take no frames, of which no number is the most that fit. -/
structure FramelessLevels where
  deriving DecidableEq

def FramelessLevels.message (_ : FramelessLevels) : String :=
  "integer division or modulo by zero"

/-- `clampDepth` for any levels that are asked about. -/
def clampDepth? (requested reserve framesPerLevel : Int) : Except FramelessLevels Int :=
  if framesPerLevel = 0 then .error {} else .ok (clampDepth requested reserve framesPerLevel)

/-- Said when a guard is entered at its limit. -/
structure DepthExceeded where
  limit : Int
  deriving DecidableEq

def DepthExceeded.problem (e : DepthExceeded) : Problem :=
  .traversalTooDeep e.limit

/-- How deep a traversal stands and how deep it may go. -/
structure DepthGuard where
  limit : Int
  depth : Int := 0
  deriving DecidableEq

namespace DepthGuard

/-- A guard at depth zero for the limit that is asked for. -/
def ofRequest (requested : Option Int) : DepthGuard :=
  { limit := clampDepth (requested.getD defaultDepth) }

/-- No further level may be entered. -/
def isExceeded (g : DepthGuard) : Bool :=
  g.limit ≤ g.depth

/-- One level deeper, unless the limit is reached. -/
def enter (g : DepthGuard) : Except DepthExceeded DepthGuard :=
  if g.isExceeded then .error ⟨g.limit⟩ else .ok { g with depth := g.depth + 1 }

def exit (g : DepthGuard) : DepthGuard :=
  { g with depth := g.depth - 1 }

def reset (g : DepthGuard) : DepthGuard :=
  { g with depth := 0 }

end DepthGuard

end FuzzFrontend
