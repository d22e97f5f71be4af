import FuzzFrontend.Scan.Rule

/-!
How deep a rule stands in blocks, calls and bounds. The depth grows as a rule goes in and is
forgotten as it comes out.
-/
namespace FuzzFrontend.Scan

/-- The greatest depth allowed and the depth reached. -/
structure Nesting where
  limit : Int := 100
  depth : Int := 0
  deriving DecidableEq

/-- One level deeper, for what is at the head of the input. -/
def Nesting.enter (n : Nesting) (s : Input) : Except Fault Nesting :=
  if n.limit ≤ n.depth then .error (.problem s.skipBlanks (.nestingTooDeep n.limit) [])
  else .ok { n with depth := n.depth + 1 }

end FuzzFrontend.Scan
