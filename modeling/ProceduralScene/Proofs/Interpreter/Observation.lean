import Mathlib.Data.List.Forall2
import ProceduralScene.Proofs.Interpreter.Tracing
import ProceduralScene.Proofs.Scene.Stopping

/-! What an observer sees of an interpreter, call by call. A slice shows one block for each of its
steps, whoever has asked for it; a slice that fails ends within a block, and nothing more is seen
until another run begins. All other calls show nothing. -/
namespace ProceduralScene

variable {α β : Type}

namespace Exchange

inductive Sees (x : Exchange α β) : List Event → Prop where
  | refused {error : EvalError} (why : x.before.refusal? x.command = some error)
    (left : x.after = x.before) : Sees x []
  | cancelled (called : x.command = .go .cancel) (left : x.after.world = x.before.world) : Sees x []
  | unseeded {program : Program} {requested : Progress} {error : EvalError} {queue : Queue α}
    (called : x.command = .begin program requested)
    (seeded : x.before.engine.seed 0 program.entries .empty = (.error error, queue))
    (answer : x.answer = some (.error (.error error)))
    (left : x.after.world = { x.before.world with queue }) : Sees x []
  | reported {program : Program} {first last : World α} {report : Report β} {events : List Event}
    (opening : x.before.opening? x.command = some (program, first))
    (shown : x.before.engine.Shows x.fuel program (.ok report.steps) events first last)
    (answer : x.answer = some (.ok report))
    (left : x.after.world = { last with
      queue := (x.before.engine.domain.publish last.queue).2 }) : Sees x events
  | failed {program : Program} {first : World α} {error : EvalError} {events : List Event}
    (opening : x.before.opening? x.command = some (program, first))
    (shown : x.before.engine.Shows x.fuel program (.error error) events first x.after.world)
    (answer : x.answer = some (.error (.error error))) : Sees x events

variable {x : Exchange α β}

theorem sees (tidy : x.before.engine.Tidy) (pending : x.before.queue.Pending)
    (answered : x.answer ≠ some (.error .outOfFuel)) :
    x.after.queue.Pending ∧ ∃ events, x.Sees events := by
  cases why : x.before.refusal? x.command with
  | some error =>
    have after : x.after = x.before :=
      congrArg Prod.snd (Interpreter.perform_of_refused why x.fuel)
    exact ⟨after ▸ pending, [], .refused why after⟩
  | none =>
    by_cases goes : x.command = .go .cancel
    · have after : x.after = { x.before with pending := none } := by
        simp only [Exchange.after, goes, Interpreter.perform, Interpreter.control,
          Interpreter.cancel]
      rw [after]
      exact ⟨pending, [], .cancelled goes (by rw [after])⟩
    obtain ⟨entered, program, enters, performed⟩ :=
      Interpreter.perform_of_accepted why goes x.fuel
    have engine := enters.takesUp.engine
    have opening := enters.opening
    have ready : entered.queue.Pending := by
      rcases (Interpreter.world_of_opening? opening).2 with seeded | ⟨_, same⟩
      · rw [Interpreter.queue, seeded]
        exact Engine.pending_seed Queue.pending_empty 0 program.entries
      · rw [Interpreter.queue, same]
        exact pending
    rcases performed with performed | ⟨requested, error, queue, called, seeded, performed⟩
    · have first : x.answer = some (entered.run x.fuel program).1 := congrArg Prod.fst performed
      have second : x.after = (entered.run x.fuel program).2 := congrArg Prod.snd performed
      have shown := Interpreter.run_shows (engine ▸ tidy) ready x.fuel program
      rcases ran : entered.run x.fuel program with ⟨(error | _) | report, after⟩ <;>
        rw [ran] at shown first second
      · obtain ⟨settled, events, shown⟩ := shown
        rw [engine, ← show x.after = after from second] at shown
        exact ⟨second ▸ settled, events, .failed opening shown first⟩
      · exact absurd first answered
      · obtain ⟨settled, events, last, shown, left⟩ := shown
        rw [engine] at shown left
        exact ⟨second ▸ settled, events, .reported opening shown first (second ▸ left)⟩
    · have answer : x.answer = some (.error (.error error)) := congrArg Prod.fst performed
      have second : x.after = entered.halt entered.world := congrArg Prod.snd performed
      have world : entered.world = { x.before.world with queue } := by
        rw [called] at opening
        have same := congrArg Prod.snd (Option.some.inj opening)
        rw [seeded] at same
        exact same.symm
      refine ⟨?_, [], .unseeded called seeded answer (by rw [second]; exact world)⟩
      rw [second]
      exact ready

theorem Sees.recorded {events : List Event} (sees : x.Sees events) :
    x.before.world.Extends x.after.world events := by
  cases sees with
  | refused why left =>
    rw [left]
    exact .refl _
  | cancelled called left =>
    rw [left]
    exact .refl _
  | unseeded called seeded answer left =>
    rw [left]
    exact World.Extends.refl x.before.world
  | reported opening shown answer left =>
    rw [left, World.Extends, ← (Interpreter.world_of_opening? opening).1]
    exact shown.recorded
  | failed opening shown answer =>
    rw [World.Extends, ← (Interpreter.world_of_opening? opening).1]
    exact shown.recorded

theorem Sees.countP {events : List Event} (sees : x.Sees events) {report : Report β}
    (answer : x.Reports report) : events.countP Event.isAfter = report.steps := by
  rw [Reports] at answer
  cases sees with
  | refused why left =>
    rw [Exchange.answer, Interpreter.perform_of_refused why] at answer
    cases answer
  | cancelled called left =>
    rw [Exchange.answer, called] at answer
    cases answer
  | unseeded called seeded answer' left => cases answer.symm.trans answer'
  | reported opening shown answer' left =>
    cases answer.symm.trans answer'
    exact shown.countP
  | failed opening shown answer' => cases answer.symm.trans answer'

end Exchange

section
variable {g : Engine α β} {past : List (Exchange α β)} {i : Interpreter α β}

theorem Conversation.pending (tidy : g.Tidy) (talk : Conversation g past i) : i.queue.Pending := by
  induction talk with
  | opened clock trace => exact Queue.pending_empty
  | called talk fuel command answered ih =>
    exact (Exchange.sees (x := ⟨_, fuel, command⟩) (talk.recalls.engine ▸ tidy) ih answered).1

theorem Conversation.sees (tidy : g.Tidy) (talk : Conversation g past i) :
    ∃ trace shown, (∀ x ∈ past.head?, x.before.world.trace = trace) ∧
      List.Forall₂ Exchange.Sees past shown ∧
      i.world.trace = trace.map (· ++ shown.flatten.toArray) := by
  induction talk with
  | opened clock trace => exact ⟨trace, [], nofun, .nil, by cases trace <;> simp⟩
  | @called past i talk fuel command answered ih =>
    obtain ⟨trace, shown, first, each, recorded⟩ := ih
    obtain ⟨_, events, sees⟩ := Exchange.sees (x := ⟨i, fuel, command⟩)
      (talk.recalls.engine ▸ tidy) (talk.pending tidy) answered
    refine ⟨trace, shown ++ [events], ?_, List.rel_append each (.cons sees .nil), ?_⟩
    · cases each with
      | nil =>
        intro x member
        cases member
        rw [recorded]
        cases trace <;> simp
      | cons => exact first
    · have extended : (i.perform fuel command).2.world.trace =
          i.world.trace.map (· ++ events.toArray) := sees.recorded
      rw [extended, recorded]
      cases trace <;> simp

/-- Since a report and until the next one or a failure, nothing is seen. -/
theorem Conversation.trace_of_standing (talk : Conversation g past i) {log : Option (Array Event)}
    {P : Exchange α β → Prop} (standing : Standing (fun x => P x ∧ x.after.world.trace = log)
      (fun x => x.Fails ∨ ∃ report, x.Reports report) past) : i.world.trace = log := by
  induction talk with
  | opened clock trace =>
    obtain ⟨earlier, x, later, split, _⟩ := standing
    simp at split
  | @called past i talk fuel command answered ih =>
    rcases standing_concat.mp standing with ⟨_, traced⟩ | ⟨standing, silent⟩
    · exact traced
    · have handled : Exchange.Handled ⟨i, fuel, command⟩ := Exchange.handled answered
      cases handled with
      | refused why answer after =>
        have same : (i.perform fuel command).2 = i := after
        rw [same]
        exact ih standing
      | cancelled called answer after =>
        have same : (i.perform fuel command).2 = { i with pending := none } := after
        rw [same]
        exact ih standing
      | stayed takenUp answer => exact absurd (.inr ⟨_, answer⟩) silent
      | handed takenUp answer => exact absurd (.inr ⟨_, answer⟩) silent
      | failed takenUp answer => exact absurd (.inl ⟨takenUp.accepted, _, answer⟩) silent

/-- What is seen of a conversation, if a trace is kept. -/
structure Watched (past : List (Exchange α β)) (i : Interpreter α β) : Prop where
  shown : ∃ trace shown, (∀ x ∈ past.head?, x.before.world.trace = trace) ∧
    List.Forall₂ Exchange.Sees past shown ∧ i.world.trace = trace.map (· ++ shown.flatten.toArray)
  between : ∀ old log,
    Standing (fun x => x.Reports old ∧ x.after.world.trace = some log)
      (fun x => x.Fails ∨ ∃ report, x.Reports report) past →
    ∀ fuel command report, (i.perform fuel command).1 = some (.ok report) →
      ∃ events : List Event,
        (i.perform fuel command).2.world.trace = some (log ++ events.toArray) ∧
          events.countP Event.isAfter = report.steps
  stopped : Stopped past → ∀ fuel control, (i.perform fuel (.go control)).2.world = i.world

/-- Whatever calls an interpreter has answered, and wherever its runs have failed. -/
theorem conversation_watched (tidy : g.Tidy) (talk : Conversation g past i) : Watched past i where
  shown := talk.sees tidy
  between old log standing fuel command report answer := by
    have answered : (i.perform fuel command).1 ≠ some (.error .outOfFuel) := by
      rw [answer]
      nofun
    obtain ⟨_, events, sees⟩ := Exchange.sees (x := ⟨i, fuel, command⟩)
      (talk.recalls.engine ▸ tidy) (talk.pending tidy) answered
    refine ⟨events, ?_, sees.countP answer⟩
    have extended : (i.perform fuel command).2.world.trace =
        i.world.trace.map (· ++ events.toArray) := sees.recorded
    rw [extended, talk.trace_of_standing standing, Option.map_some]
  stopped failed fuel control := by
    have halted : i.halted = true := talk.recalls.stopped.mpr failed
    cases why : i.refusal? (.go control) with
    | some error => rw [Interpreter.perform_of_refused why]
    | none =>
      cases control with
      | resume token => simp [Interpreter.refusal?, halted] at why
      | request requested =>
        simp only [Interpreter.refusal?, halted, if_true] at why
        split at why <;> cases why
      | cancel => rfl

end

namespace Scene

theorem answered_of_error {i : Interpreter Network Snapshot} {fuel : Nat} {command : Command}
    (failed : ((i.perform fuel command).1.any fun answer =>
      match answer with
      | .error (.error _) => true
      | _ => false) = true) : (i.perform fuel command).1 ≠ some (.error .outOfFuel) := by
  intro exhausted
  rw [exhausted] at failed
  cases failed

def undecided : Program :=
  let draw (astId : String) : Transformation := .stochasticSwitch astId [0.5, 0.5]
    [.literal "one" (.number 1), .literal "two" (.number 2)]
  .ofList [("undecided", {
    initialVariables := .empty
    nouns := .ofList [("act", ⟨"act", .sequential "all" [
      .operation "pause" "wait" [draw "long"], .operation "lost" "wander" [draw "far"]]⟩)]
    root := "act" })]

def undecidedPast : List (Exchange Network Snapshot) :=
  let opened := (Interpreter.scene { sliceProgress := 0.5 } {}).observed
  let begun := (opened.perform 10 (.begin undecided 10)).2
  [⟨opened, 10, .begin undecided 10⟩, ⟨begun, 10, .go (.resume ⟨1⟩)⟩]

def undecidedNow : Interpreter Network Snapshot :=
  let opened := (Interpreter.scene { sliceProgress := 0.5 } {}).observed
  ((opened.perform 10 (.begin undecided 10)).2.perform 10 (.go (.resume ⟨1⟩))).2

def told : Event → String
  | .before node _ => "before " ++ node.astId
  | .chose node _ branch => "chose " ++ node.astId ++ " " ++ toString branch
  | .after node values => "after " ++ node.astId ++ " " ++ toString values.length

theorem undecided_watched :
    (engine { sliceProgress := 0.5 } {}).Tidy ∧ Watched undecidedPast undecidedNow ∧
      undecidedPast.map (fun x => (x.answer.bind Except.toOption).map (·.steps)) =
        [some 2, none] ∧
      undecidedNow.events.map told = ["before all", "after all 1", "before pause",
        "chose long 0", "after pause 1", "before lost", "chose far 0"] := by
  have tidy := (engine_readsOnly { sliceProgress := 0.5 } {}).tidy
  refine ⟨tidy, conversation_watched tidy ?_, by decide +kernel, by decide +kernel⟩
  exact ((Conversation.opened .still (some #[])).called 10 (.begin undecided 10)
    (answered_of_reported (by decide +kernel))).called 10 (.go (.resume ⟨1⟩))
    (answered_of_error (by decide +kernel))

end Scene
end ProceduralScene
