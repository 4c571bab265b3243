import ProceduralScene.Interpreter.Engine

/-! Runs that stop and go on. A slice ends with a report; when more work is wanted the report
carries a token, and only the newest token continues the run. Every token has a number of its
own, so a stale one is told from the valid one. -/
namespace ProceduralScene

structure Token where
  number : Nat
  deriving DecidableEq

structure Report (β : Type) where
  published : β
  start : Option Progress
  current : Option Progress
  isFinal : Bool
  steps : Nat
  token : Option Token

/-- The clock as an interpreter will read it: for each slice to come, counted from the next one,
the milliseconds that it has taken by each of its steps. Nothing else is known of it, and no reading
bears on another. -/
abbrev Clock := Nat → Nat → Nat

/-- A clock that stands still, so that no budget ever runs out. -/
def Clock.still : Clock := fun _ _ => 0

structure Interpreter (α β : Type) where
  engine : Engine α β
  clock : Clock := .still
  program : Option Program := none
  world : World α := {}
  requested : Progress := .static
  issued : Nat := 0
  pending : Option Nat := none
  halted : Bool := false

namespace Interpreter

variable {α β : Type} (i : Interpreter α β)

abbrev Outcome (α β : Type) := Except Fault (Report β) × Interpreter α β

def queue : Queue α := i.world.queue

def isRunning : Bool := i.pending.isSome

def observed : Interpreter α β := { i with world := { i.world with trace := some #[] } }

def events : List Event := ((i.world.trace.map Array.toList).getD [])

def halt (w : World α) : Interpreter α β :=
  { i with world := w, halted := true, pending := none }

def wantsMore (w : World α) : Bool :=
  w.queue.hasWork && w.queue.progress?.all (· < i.requested)

def report (start : Option Progress) (steps : Nat) (w : World α) : Outcome α β :=
  let (published, queue) := i.engine.domain.publish w.queue
  let w := { w with queue }
  let more := i.wantsMore w
  let number := i.issued + 1
  (.ok {
      published, start, steps
      current := queue.progress?
      isFinal := !queue.hasWork
      token := if more then some ⟨number⟩ else none },
    { i with
      world := w
      issued := if more then number else i.issued
      pending := if more then some number else none })

def span : Span := ⟨i.queue.progress?, i.clock 0⟩

/-- The interpreter once the next slice is over, but for what that has done. -/
def elapsed : Interpreter α β := { i with clock := fun slice => i.clock (slice + 1) }

/-- Runs one slice. An error of the program halts the run; running out of fuel is no answer
and changes nothing. -/
def run (fuel : Nat) (program : Program) : Outcome α β :=
  match i.engine.slice fuel program i.span fuel 0 i.world with
  | (.ok steps, w) => i.elapsed.report i.span.start steps w
  | (.error (.error error), w) => (.error (.error error), i.elapsed.halt w)
  | (.error .outOfFuel, _) => (.error .outOfFuel, i)

def begin (fuel : Nat) (program : Program) (requested : Progress) : Outcome α β :=
  if i.isRunning then (.error (.error .alreadyRunning), i)
  else
    let (seeded, queue) := i.engine.seed 0 program.entries .empty
    let i := { i with
      program := some program
      requested := requested
      world := { i.world with queue }
      halted := false }
    match seeded with
    | .error error => (.error (.error error), i.halt i.world)
    | .ok () => i.run fuel program

def resume (fuel : Nat) (token : Token) : Outcome α β :=
  if i.halted then (.error (.error .halted), i)
  else if i.pending ≠ some token.number then (.error (.error .staleResumption), i)
  else match i.program with
    | none => (.error (.error .notStarted), i)
    | some program => i.run fuel program

/-- Moves the target and runs a slice at once. The valid token is valid no longer. -/
def requestProgress (fuel : Nat) (requested : Progress) : Outcome α β :=
  match i.program with
  | none => (.error (.error .notStarted), i)
  | some program =>
    if i.halted then (.error (.error .halted), i)
    else { i with requested, pending := none }.run fuel program

/-- Makes the valid token invalid, and tells whether there was one. -/
def cancel : Bool × Interpreter α β := (i.isRunning, { i with pending := none })

end Interpreter
end ProceduralScene
