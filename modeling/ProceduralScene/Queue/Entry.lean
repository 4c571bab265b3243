import ProceduralScene.Program.Transformation
import ProceduralScene.Value

/-! One computation of a run: its value, its seed, and the nodes still to be run on it, the
next one first. -/
namespace ProceduralScene

structure Entry where
  id : String
  value : Value
  seed : String
  pending : List Transformation
  deriving Inhabited

namespace Entry

def payload (e : Entry) : Payload := e.value.payload

def isTerminal (e : Entry) : Bool := e.pending.isEmpty

def next? (e : Entry) : Option Transformation := e.pending.head?

def prepend (e : Entry) (nodes : List Transformation) : Entry :=
  { e with pending := nodes ++ e.pending }

/-- One part of a split entry. Its id is the parent's followed by its ordinal, and the
remaining nodes are the parent's. -/
def branch (e : Entry) (ordinal : Nat) (payload : Payload) : Entry :=
  { e with id := e.id ++ toString ordinal, value := e.value.branch payload ordinal }

end Entry
end ProceduralScene
