import ProceduralScene.Progress
import ProceduralScene.Queue.Entry

/-! Entries in flight wait in the order of their progress, and those of equal progress in the
order in which they came. An entry without remaining nodes retires to the results at once. -/
namespace ProceduralScene

/-- A place in the queue. Sequence numbers keep equal progress in order of arrival. -/
structure Slot where
  progress : Progress
  sequence : Nat
  entry : Entry

/-- What the queue remembers about an artifact derived from the results: how many results it
has looked at, how many there were when the artifact was built, and the artifact, if the
results sufficed for one. -/
structure Cached (α : Type) where
  scanned : Nat
  builtAt : Nat
  artifact : Option α

structure Queue (α : Type) where
  slots : List Slot := []
  results : Array Entry := #[]
  version : Nat := 0
  furthest : Option Progress := none
  sequence : Nat := 0
  cache : Sorted (Cached α) := .empty

inductive Whereabouts where
  | inFlight
  | finished
  deriving DecidableEq

def Slot.before (a b : Slot) : Bool :=
  a.progress < b.progress || (a.progress ≤ b.progress && a.sequence < b.sequence)

def insertSlot (slot : Slot) : List Slot → List Slot
  | [] => [slot]
  | other :: rest =>
    if slot.before other then slot :: other :: rest else other :: insertSlot slot rest

theorem perm_insertSlot (slot : Slot) (slots : List Slot) :
    (insertSlot slot slots).Perm (slot :: slots) := by
  induction slots with
  | nil => exact List.Perm.refl _
  | cons other rest ih =>
    simp only [insertSlot]
    split
    · exact List.Perm.refl _
    · exact (ih.cons other).trans (List.Perm.swap slot other rest)

namespace Queue

instance : Inhabited (Queue α) := ⟨{}⟩

def empty : Queue α := {}

def retire (q : Queue α) (entry : Entry) (progress : Progress) : Queue α :=
  { q with
    results := q.results.push entry
    version := q.version + 1
    furthest := some (match q.furthest with
      | some furthest => furthest.furthest progress
      | none => progress) }

def push (q : Queue α) (entry : Entry) (progress : Progress) : Queue α :=
  if entry.isTerminal then q.retire entry progress
  else
    { q with
      slots := insertSlot ⟨progress, q.sequence, entry⟩ q.slots
      sequence := q.sequence + 1 }

def pop (q : Queue α) : Option (Entry × Queue α) :=
  match q.slots with
  | [] => none
  | slot :: rest => some (slot.entry, { q with slots := rest })

def peek? (q : Queue α) : Option Entry := q.slots.head?.map (·.entry)

def hasWork (q : Queue α) : Bool := !q.slots.isEmpty

def size (q : Queue α) : Nat := q.slots.length

def inFlight (q : Queue α) : List Entry := q.slots.map (·.entry)

def retired (q : Queue α) : List Entry := q.results.toList

def entries (q : Queue α) : List Entry := q.inFlight ++ q.retired

def find? (q : Queue α) (id : String) : Option (Entry × Whereabouts) :=
  match q.slots.find? (·.entry.id == id) with
  | some slot => some (slot.entry, .inFlight)
  | none => (q.results.find? (·.id == id)).map fun entry => (entry, .finished)

/-- The progress that every entry in flight has reached; without one, the furthest progress
of a result. -/
def progress? (q : Queue α) : Option Progress :=
  match q.slots with
  | slot :: _ => some slot.progress
  | [] => q.furthest

end Queue
end ProceduralScene
