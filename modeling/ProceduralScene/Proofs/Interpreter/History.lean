import ProceduralScene.Interpreter.Basic

/-! What a run shows over all its calls: the queue after every evaluation, also in the middle of
a slice, and the reports. A history is computed from the calls themselves; an evaluation that
fails is its last outcome. -/
namespace ProceduralScene

variable {α β : Type}

def Engine.outcome? (g : Engine α β) (depth : Nat) (program : Program) (w : World α) :
    Option (Except EvalError (Queue α)) :=
  match g.advance depth program w with
  | (.error (.error error), _) => some (.error error)
  | (.error .outOfFuel, _) => none
  | (.ok (), after) => some (.ok after.queue)

def Engine.evaluations (g : Engine α β) (depth : Nat) (program : Program)
    (span : Span) : Nat → Nat → World α → List (Except EvalError (Queue α))
  | 0, _, _ => []
  | fuel + 1, steps, w =>
    if g.pauses span steps w.queue then []
    else
      match g.advance depth program w with
      | (.error (.error error), _) => [.error error]
      | (.error .outOfFuel, _) => []
      | (.ok (), w) => .ok w.queue :: evaluations g depth program span fuel (steps + 1) w

theorem Engine.evaluations_slice (g : Engine α β) (depth : Nat) (program : Program)
    (span : Span) (fuel steps : Nat) (w : World α) :
    match g.slice depth program span fuel steps w with
    | (.ok k, after) =>
      k = steps + (g.evaluations depth program span fuel steps w).length ∧
        (g.evaluations depth program span fuel steps w).getLast?.getD (.ok w.queue) =
          .ok after.queue
    | (.error (.error error), _) =>
      (g.evaluations depth program span fuel steps w).getLast? = some (.error error)
    | (.error .outOfFuel, _) => True := by
  induction fuel generalizing steps w with
  | zero => trivial
  | succ fuel ih =>
    unfold slice evaluations
    by_cases paused : g.pauses span steps w.queue = true
    · rw [if_pos paused, if_pos paused]
      exact ⟨rfl, rfl⟩
    · rw [if_neg paused, if_neg paused]
      rcases g.advance depth program w with ⟨(error | _) | _, after⟩
      · rfl
      · trivial
      · have later := ih (steps + 1) after
        dsimp only
        rcases ran : g.slice depth program span fuel (steps + 1) after with
          ⟨(error | _) | k, final⟩
        · rw [ran] at later
          dsimp only at later ⊢
          rw [List.getLast?_cons, later]
          rfl
        · trivial
        · rw [ran] at later
          dsimp only at later ⊢
          rw [List.getLast?_cons, List.length_cons]
          exact ⟨by omega, later.2⟩

inductive Control where
  | resume (token : Token)
  | request (requested : Progress)
  | cancel

/-- The queue after 0, 1, 2, … evaluations of a run, with an error last, and the reports. -/
structure History (α β : Type) where
  outcomes : List (Except EvalError (Queue α)) := []
  reports : List (Report β) := []

/-- The number of evaluations that the reports account for. -/
def History.steps (h : History α β) : Nat :=
  h.reports.foldr (fun report total => report.steps + total) 0

namespace Interpreter

def evaluations (fuel : Nat) (program : Program) (i : Interpreter α β) :
    List (Except EvalError (Queue α)) :=
  i.engine.evaluations fuel program i.span fuel 0 i.world

/-- The interpreter whose slice a call runs, with its program. A refused call runs none. -/
def enter? (i : Interpreter α β) : Control → Option (Interpreter α β × Program)
  | .resume token =>
    if i.halted || i.pending != some token.number then none else i.program.map (i, ·)
  | .request requested =>
    if i.halted then none else i.program.map ({ i with requested, pending := none }, ·)
  | .cancel => none

def control (fuel : Nat) (i : Interpreter α β) :
    Control → Option (Except Fault (Report β)) × Interpreter α β
  | .resume token => let (answer, i) := i.resume fuel token; (some answer, i)
  | .request requested => let (answer, i) := i.requestProgress fuel requested; (some answer, i)
  | .cancel => (none, i.cancel.2)

/-- Puts a slice in front of what follows it. A run ends with the first slice that fails. -/
def precede (outcomes : List (Except EvalError (Queue α)))
    (answer : Option (Except Fault (Report β)) × Interpreter α β)
    (later : Interpreter α β → History α β) : History α β :=
  match answer with
  | (some (.ok report), i) =>
    ⟨outcomes ++ (later i).outcomes, report :: (later i).reports⟩
  | _ => ⟨outcomes, []⟩

def continued (fuel : Nat) : Interpreter α β → List Control → History α β
  | _, [] => {}
  | i, call :: calls =>
    match i.enter? call with
    | none => continued fuel (i.control fuel call).2 calls
    | some (entered, program) =>
      precede (entered.evaluations fuel program) (i.control fuel call)
        fun i => continued fuel i calls

def seeded (i : Interpreter α β) (program : Program) (requested : Progress) :
    Except EvalError Unit × Interpreter α β :=
  let (outcome, queue) := i.engine.seed 0 program.entries .empty
  (outcome, { i with
    program := some program
    requested := requested
    world := { i.world with queue }
    halted := false })

/-- The history of a run from its `begin` on. The first outcome is that of the seeding. A refused
`begin` begins no run. -/
def history (fuel : Nat) (i : Interpreter α β) (program : Program) (requested : Progress)
    (calls : List Control) : History α β :=
  if i.isRunning then {}
  else
    match i.seeded program requested with
    | (.error error, _) => ⟨[.error error], []⟩
    | (.ok (), entered) =>
      let (answer, next) := i.begin fuel program requested
      precede (.ok entered.queue :: entered.evaluations fuel program) (some answer, next)
        fun i => continued fuel i calls

theorem precede_cons (outcome : Except EvalError (Queue α))
    (outcomes : List (Except EvalError (Queue α)))
    (answer : Option (Except Fault (Report β)) × Interpreter α β)
    (later : Interpreter α β → History α β) :
    precede (outcome :: outcomes) answer later =
      ⟨outcome :: (precede outcomes answer later).outcomes,
        (precede outcomes answer later).reports⟩ := by
  unfold precede
  split <;> rfl

theorem control_of_enter? {i entered : Interpreter α β} {program : Program} {call : Control}
    (accepted : i.enter? call = some (entered, program)) (fuel : Nat) :
    i.control fuel call =
      (some (entered.run fuel program).1, (entered.run fuel program).2) := by
  cases call with
  | resume token =>
    simp only [enter?] at accepted
    split at accepted
    · cases accepted
    next admitted =>
      obtain ⟨_, known, same⟩ := Option.map_eq_some_iff.mp accepted
      cases same
      simp only [Bool.or_eq_true, not_or, Bool.not_eq_true, bne_eq_false_iff_eq] at admitted
      simp [control, resume, admitted, known]
  | request requested =>
    simp only [enter?] at accepted
    split at accepted
    · cases accepted
    next admitted =>
      obtain ⟨_, known, same⟩ := Option.map_eq_some_iff.mp accepted
      cases same
      simp [control, requestProgress, admitted, known]
  | cancel => cases accepted

theorem enter?_none {i : Interpreter α β} {call : Control} (refused : i.enter? call = none)
    (fuel : Nat) :
    (i.control fuel call).2.world = i.world ∧ (i.control fuel call).2.engine = i.engine ∧
      (i.control fuel call).2.program = i.program := by
  cases call with
  | resume token =>
    have kept : (i.resume fuel token).2 = i := by
      unfold resume
      simp only [enter?] at refused
      by_cases halted : i.halted = true
      · rw [if_pos halted]
      · by_cases stale : i.pending = some token.number
        · simp only [halted, stale, bne_self_eq_false, Bool.or_self, Bool.false_eq_true,
            if_false, Option.map_eq_none_iff] at refused
          simp only [halted, stale, refused, ne_eq, not_true_eq_false, if_false,
            Bool.false_eq_true]
        · rw [if_neg halted, if_pos stale]
    simp only [control, kept, and_self]
  | request requested =>
    have kept : (i.requestProgress fuel requested).2 = i := by
      unfold requestProgress
      simp only [enter?] at refused
      cases known : i.program with
      | none => rfl
      | some program =>
        by_cases halted : i.halted = true
        · simp only [halted, if_true]
        · simp [halted, known] at refused
    simp only [control, kept, and_self]
  | cancel => exact ⟨rfl, rfl, rfl⟩

theorem enter?_some {i entered : Interpreter α β} {program : Program} {call : Control}
    (accepted : i.enter? call = some (entered, program)) :
    entered.world = i.world ∧ entered.engine = i.engine ∧ entered.program = i.program ∧
      i.program = some program := by
  cases call with
  | resume token =>
    simp only [enter?] at accepted
    split at accepted
    · cases accepted
    · obtain ⟨_, known, same⟩ := Option.map_eq_some_iff.mp accepted
      cases same
      exact ⟨rfl, rfl, rfl, known⟩
  | request requested =>
    simp only [enter?] at accepted
    split at accepted
    · cases accepted
    · obtain ⟨_, known, same⟩ := Option.map_eq_some_iff.mp accepted
      cases same
      exact ⟨rfl, rfl, rfl, known⟩
  | cancel => cases accepted

theorem begin_of_seeded {i entered : Interpreter α β} {program : Program}
    {requested : Progress} (idle : i.isRunning = false)
    (ok : i.seeded program requested = (.ok (), entered)) (fuel : Nat) :
    i.begin fuel program requested = entered.run fuel program := by
  simp only [seeded, Prod.mk.injEq] at ok
  obtain ⟨outcome, rfl⟩ := ok
  simp [begin, idle, outcome]

theorem begin_of_unseeded {i entered : Interpreter α β} {program : Program}
    {requested : Progress} {error : EvalError} (idle : i.isRunning = false)
    (failed : i.seeded program requested = (.error error, entered)) (fuel : Nat) :
    i.begin fuel program requested = (.error (.error error), entered.halt entered.world) := by
  simp only [seeded, Prod.mk.injEq] at failed
  obtain ⟨outcome, rfl⟩ := failed
  simp [begin, idle, outcome]

end Interpreter
end ProceduralScene
