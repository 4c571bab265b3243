import ProceduralScene.Proofs.Interpreter.Custody

/-! A run leaves no trace in the next one. All that a new run takes over from earlier ones is how
many tokens have been issued. So an interpreter whose tokens are all void begins and goes on like a
new one that reads the same clock, and its answers differ by nothing but the numbers of the tokens
in them. -/
namespace ProceduralScene

open Evaluation

variable {α β γ : Type}

structure Reply (β : Type) where
  answer : Option (Except Fault (Report β))
  running : Bool

/-- The report with the number that its token has after so many other tokens. -/
def Report.later (k : Nat) (report : Report β) : Report β :=
  { report with token := report.token.map fun token => ⟨k + token.number⟩ }

def Reply.later (k : Nat) (reply : Reply β) : Reply β :=
  { reply with answer := reply.answer.map (·.map (·.later k)) }

/-- The call with the number that its token has without so many other tokens. These themselves get
the number 0, which no token has. -/
def Command.earlier (k : Nat) : Command → Command
  | .go (.resume token) => .go (.resume ⟨token.number - k⟩)
  | command => command

def Interpreter.replies : Interpreter α β → List (Nat × Command) → List (Reply β)
  | _, [] => []
  | i, (fuel, command) :: calls =>
    let (answer, next) := i.perform fuel command
    ⟨answer, next.isRunning⟩ :: replies next calls

namespace Engine

structure Untraced (a b : Except Fault γ × World α) : Prop where
  outcome : a.1 = b.1
  queue : a.1 ≠ .error .outOfFuel → a.2.queue = b.2.queue

variable (g : Engine α β) (depth : Nat) (program : Program)

theorem evaluated_untraced {w w' : World α} (same : w.queue = w'.queue) (entry : Entry)
    (node : Transformation) :
    (g.evaluated depth program w entry node).1 = (g.evaluated depth program w' entry node).1 ∧
      ((g.evaluated depth program w entry node).1 ≠ .error .outOfFuel →
        (g.evaluated depth program w entry node).2.Related (· = ·)
          (g.evaluated depth program w' entry node).2) := by
  have respects := g.operations.respects_eq
  have agree := g.evaluated_agree respects same (Nat.le_refl depth) program entry node
  have agree' := g.evaluated_agree respects same.symm (Nat.le_refl depth) program entry node
  rcases agree with exhausted | ⟨outcome, related⟩
  · -- then the other evaluation is out of fuel as well
    refine ⟨?_, fun answered => absurd exhausted answered⟩
    rcases agree' with exhausted' | ⟨outcome', _⟩
    · rw [exhausted, exhausted']
    · exact outcome'.symm
  · exact ⟨outcome, fun _ => related⟩

theorem advance_untraced {w w' : World α} (same : w.queue = w'.queue) :
    Untraced (g.advance depth program w) (g.advance depth program w') := by
  cases popped : w.queue.pop with
  | none =>
    rw [g.advance_of_pop_none popped, g.advance_of_pop_none (same ▸ popped)]
    exact ⟨rfl, fun _ => same⟩
  | some taken =>
    obtain ⟨entry, queue⟩ := taken
    have popped' : w'.queue.pop = some (entry, queue) := same ▸ popped
    cases pending : entry.pending with
    | nil =>
      rw [g.advance_of_terminal popped pending, g.advance_of_terminal popped' pending]
      exact ⟨rfl, fun _ => rfl⟩
    | cons node rest =>
      rw [g.advance_of_pop popped pending, g.advance_of_pop popped' pending]
      have both := g.evaluated_untraced depth program
        (show ({ w with queue } : World α).queue = ({ w' with queue } : World α).queue from rfl)
        entry node
      rcases first : g.evaluated depth program { w with queue } entry node with ⟨outcome, s⟩
      rcases second : g.evaluated depth program { w' with queue } entry node with ⟨outcome', t⟩
      rw [first, second] at both
      obtain ⟨outcomes, related⟩ := both
      dsimp only at outcomes related
      subst outcomes
      cases outcome with
      | error fault => exact ⟨rfl, fun answered => (related fun exhausted => answered (by
          cases exhausted
          rfl)).queue⟩
      | ok step =>
        have after := related fun exhausted => by cases exhausted
        refine ⟨rfl, fun _ => ?_⟩
        simp only [settled, followers, after.value, after.queue]

theorem slice_untraced (span : Span) (fuel steps : Nat) {w w' : World α}
    (same : w.queue = w'.queue) :
    Untraced (g.slice depth program span fuel steps w)
      (g.slice depth program span fuel steps w') := by
  induction fuel generalizing steps w w' with
  | zero => exact ⟨rfl, fun answered => absurd rfl answered⟩
  | succ fuel ih =>
    rw [slice, slice, ← same]
    split
    · exact ⟨rfl, fun _ => same⟩
    · have advanced := g.advance_untraced depth program same
      rcases first : g.advance depth program w with ⟨outcome, next⟩
      rcases second : g.advance depth program w' with ⟨outcome', next'⟩
      rw [first, second] at advanced
      obtain ⟨outcomes, queues⟩ := advanced
      dsimp only at outcomes queues
      subst outcomes
      cases outcome with
      | error fault => exact ⟨rfl, fun answered => queues fun exhausted => answered (by
          cases exhausted
          rfl)⟩
      | ok _ => exact ih (steps + 1) (queues fun exhausted => by cases exhausted)

end Engine

namespace Interpreter

theorem requestProgress_of_known {i : Interpreter α β} {program : Program}
    (known : i.program = some program) (going : i.halted = false) (fuel : Nat)
    (requested : Progress) :
    i.requestProgress fuel requested =
      { i with requested, pending := none }.run fuel program := by
  simp only [requestProgress, known, going, Bool.false_eq_true, if_false]

/-- An interpreter is like another one that has issued fewer tokens. -/
structure Renews (k : Nat) (i j : Interpreter α β) : Prop where
  engine : i.engine = j.engine
  clock : i.clock = j.clock
  program : i.program = j.program
  queue : i.queue = j.queue
  requested : i.requested = j.requested
  issued : i.issued = k + j.issued
  pending : i.pending = j.pending.map (k + ·)
  numbered : j.pending ≠ some 0
  halted : i.halted = j.halted

variable {k : Nat} {i j : Interpreter α β} (renews : Renews k i j)

include renews

theorem Renews.isRunning : i.isRunning = j.isRunning := by
  rw [Interpreter.isRunning, Interpreter.isRunning, renews.pending, Option.isSome_map]

theorem Renews.pending_iff (n : Nat) : i.pending = some n ↔ j.pending = some (n - k) := by
  rw [renews.pending]
  cases pending : j.pending with
  | none => simp
  | some m =>
    have numbered := renews.numbered
    rw [pending] at numbered
    simp only [Option.map_some, Option.some.injEq, ne_eq] at numbered ⊢
    omega

theorem Renews.span : i.span = j.span := by
  rw [Interpreter.span, Interpreter.span, renews.queue, renews.clock]

theorem Renews.elapsed : Renews k i.elapsed j.elapsed :=
  { renews with clock := by rw [Interpreter.elapsed, Interpreter.elapsed, renews.clock] }

theorem Renews.halt {w w' : World α} (same : w.queue = w'.queue) :
    Renews k (i.halt w) (j.halt w') where
  engine := renews.engine
  clock := renews.clock
  program := renews.program
  queue := same
  requested := renews.requested
  issued := renews.issued
  pending := rfl
  numbered := nofun
  halted := rfl

theorem Renews.unpended : Renews k { i with pending := none } { j with pending := none } :=
  { renews with pending := rfl, numbered := nofun }

theorem Renews.report (start : Option Progress) (steps : Nat) {w w' : World α}
    (same : w.queue = w'.queue) :
    (i.report start steps w).1 = (j.report start steps w').1.map (·.later k) ∧
      Renews k (i.report start steps w).2 (j.report start steps w').2 := by
  rcases published : j.engine.domain.publish w'.queue with ⟨shown, queue⟩
  have published' : i.engine.domain.publish w.queue = (shown, queue) := by
    rw [renews.engine, same, published]
  have wants : i.wantsMore { w with queue } = j.wantsMore { w' with queue } := by
    simp only [wantsMore, renews.requested]
  have next : i.issued + 1 = k + (j.issued + 1) := by
    rw [renews.issued, Nat.add_assoc]
  simp only [Interpreter.report, published, published', wants, next]
  split
  · refine ⟨rfl, { renews with queue := rfl, issued := rfl, pending := rfl, numbered := ?_ }⟩
    exact fun zeroth => by cases zeroth
  · refine ⟨rfl, { renews with queue := rfl, issued := ?_, pending := rfl, numbered := ?_ }⟩
    · exact renews.issued
    · exact (Option.some_ne_none 0).symm

theorem Renews.run (fuel : Nat) (program : Program) :
    (i.run fuel program).1 = (j.run fuel program).1.map (·.later k) ∧
      Renews k (i.run fuel program).2 (j.run fuel program).2 := by
  have sliced := i.engine.slice_untraced fuel program i.span fuel 0 renews.queue
  simp only [Interpreter.run, ← renews.engine, ← renews.span]
  rcases first : i.engine.slice fuel program i.span fuel 0 i.world with ⟨outcome, w⟩
  rcases second : i.engine.slice fuel program i.span fuel 0 j.world with ⟨outcome', w'⟩
  rw [first, second] at sliced
  obtain ⟨outcomes, queues⟩ := sliced
  dsimp only at outcomes queues
  subst outcomes
  rcases outcome with (error | _) | steps
  · exact ⟨rfl, renews.elapsed.halt (queues fun exhausted => by cases exhausted)⟩
  · exact ⟨rfl, renews⟩
  · exact renews.elapsed.report _ steps (queues fun exhausted => by cases exhausted)

omit renews in
theorem renews_begin (engine : i.engine = j.engine) (clock : i.clock = j.clock)
    (issued : i.issued = k + j.issued) (idle : i.isRunning = false) (idle' : j.isRunning = false)
    (fuel : Nat) (program : Program) (requested : Progress) :
    (i.begin fuel program requested).1 =
        (j.begin fuel program requested).1.map (·.later k) ∧
      Renews k (i.begin fuel program requested).2 (j.begin fuel program requested).2 := by
  have entered (queue : Queue α) : Renews k
      { i with
        program := some program
        requested
        world := { i.world with queue }
        halted := false }
      { j with
        program := some program
        requested
        world := { j.world with queue }
        halted := false } := by
    rw [Interpreter.isRunning, Option.isSome_eq_false_iff, Option.isNone_iff_eq_none] at idle idle'
    refine ⟨engine, clock, rfl, rfl, rfl, issued, ?_, ?_, rfl⟩
    · simp only [idle, idle', Option.map_none]
    · simp only [idle']
      exact (Option.some_ne_none 0).symm
  rcases seeded : j.engine.seed 0 program.entries .empty with ⟨error | _, queue⟩
  · simp only [Interpreter.begin, idle, idle', engine ▸ seeded, seeded, Bool.false_eq_true,
      if_false]
    exact ⟨rfl, (entered queue).halt rfl⟩
  · simp only [Interpreter.begin, idle, idle', engine ▸ seeded, seeded, Bool.false_eq_true,
      if_false]
    exact (entered queue).run fuel program

theorem Renews.begin (fuel : Nat) (program : Program) (requested : Progress) :
    (i.begin fuel program requested).1 =
        (j.begin fuel program requested).1.map (·.later k) ∧
      Renews k (i.begin fuel program requested).2 (j.begin fuel program requested).2 := by
  cases running : j.isRunning with
  | true =>
    simp only [Interpreter.begin, renews.isRunning, running, if_true]
    exact ⟨rfl, renews⟩
  | false =>
    exact renews_begin renews.engine renews.clock renews.issued (renews.isRunning.trans running)
      running fuel program requested

theorem Renews.resume (fuel : Nat) (token : Token) :
    (i.resume fuel token).1 =
        (j.resume fuel ⟨token.number - k⟩).1.map (·.later k) ∧
      Renews k (i.resume fuel token).2 (j.resume fuel ⟨token.number - k⟩).2 := by
  simp only [Interpreter.resume, renews.halted, ne_eq, renews.pending_iff, renews.program]
  split
  · exact ⟨rfl, renews⟩
  · split
    · exact ⟨rfl, renews⟩
    · cases j.program with
      | none => exact ⟨rfl, renews⟩
      | some program => exact renews.run fuel program

theorem Renews.requestProgress (fuel : Nat) (requested : Progress) :
    (i.requestProgress fuel requested).1 =
        (j.requestProgress fuel requested).1.map (·.later k) ∧
      Renews k (i.requestProgress fuel requested).2 (j.requestProgress fuel requested).2 := by
  have moved : Renews k { i with requested, pending := none }
      { j with requested, pending := none } :=
    { renews with requested := rfl, pending := rfl, numbered := nofun }
  cases known : j.program with
  | none =>
    simp only [Interpreter.requestProgress, renews.program, known]
    exact ⟨rfl, renews⟩
  | some program =>
    have known' : i.program = some program := renews.program.trans known
    cases halted : j.halted with
    | true =>
      simp only [Interpreter.requestProgress, known, known', renews.halted, halted, if_true]
      exact ⟨rfl, renews⟩
    | false =>
      rw [requestProgress_of_known known' (renews.halted.trans halted),
        requestProgress_of_known known halted]
      exact moved.run fuel program

/-- One call: the same answer up to the numbers of tokens, and interpreters that are alike again. -/
theorem Renews.perform (fuel : Nat) (command : Command) :
    (i.perform fuel command).1 =
        (j.perform fuel (command.earlier k)).1.map (·.map (·.later k)) ∧
      Renews k (i.perform fuel command).2 (j.perform fuel (command.earlier k)).2 := by
  cases command with
  | begin program requested =>
    obtain ⟨answer, next⟩ := renews.begin fuel program requested
    exact ⟨congrArg some answer, next⟩
  | go control =>
    cases control with
    | resume token =>
      obtain ⟨answer, next⟩ := renews.resume fuel token
      exact ⟨congrArg some answer, next⟩
    | request requested =>
      obtain ⟨answer, next⟩ := renews.requestProgress fuel requested
      exact ⟨congrArg some answer, next⟩
    | cancel => exact ⟨rfl, renews.unpended⟩

theorem Renews.replies (calls : List (Nat × Command)) :
    i.replies calls =
      (j.replies (calls.map fun call => (call.1, call.2.earlier k))).map (·.later k) := by
  induction calls generalizing i j with
  | nil => rfl
  | cons call calls ih =>
    obtain ⟨fuel, command⟩ := call
    obtain ⟨answer, next⟩ := renews.perform fuel command
    simp only [Interpreter.replies, List.map_cons]
    rw [ih next, answer, next.isRunning]
    rfl

end Interpreter

/-- Whatever an interpreter has answered so far, once all its tokens are void it replies to a new
run as if there had been none before, as the clock goes on. -/
theorem conversation_renewed {g : Engine α β} {past : List (Exchange α β)} {i : Interpreter α β}
    (talk : Conversation g past i) (void : ∀ token, ¬Valid past token) (fuel : Nat)
    (program : Program) (requested : Progress) (calls : List (Nat × Command)) :
    i.replies ((fuel, .begin program requested) :: calls) =
      (({ engine := g, clock := i.clock } : Interpreter α β).replies
        ((fuel, .begin program requested) ::
          calls.map fun call => (call.1, call.2.earlier i.issued))).map (·.later i.issued) := by
  have idle : i.isRunning = false := by
    rw [← Bool.not_eq_true, talk.recalls.running]
    exact fun ⟨token, valid⟩ => void token valid
  obtain ⟨answer, next⟩ := Interpreter.renews_begin (k := i.issued)
    (j := { engine := g, clock := i.clock }) talk.recalls.engine rfl rfl idle rfl fuel program
    requested
  simp only [Interpreter.replies, Interpreter.perform, List.map_cons]
  rw [next.replies, answer, next.isRunning]
  rfl

def abandoned : Interpreter Network Snapshot :=
  let begun := ((Interpreter.scene {} ⟨0⟩).perform 10 (.begin Scene.waiting 10)).2
  (begun.perform 10 (.go .cancel)).2

def abandonedPast : List (Exchange Network Snapshot) :=
  let opened := Interpreter.scene {} ⟨0⟩
  let begun := (opened.perform 10 (.begin Scene.waiting 10)).2
  [⟨opened, 10, .begin Scene.waiting 10⟩, ⟨begun, 10, .go .cancel⟩]

theorem abandoned_renewed :
    Conversation (Scene.engine {} ⟨0⟩) abandonedPast abandoned ∧
      (∀ token, ¬Valid abandonedPast token) ∧
      abandoned.replies [(10, .begin Scene.waiting 10), (10, .go (.resume ⟨1⟩)),
          (10, .go (.resume ⟨2⟩))] =
        (({ Interpreter.scene {} ⟨0⟩ with clock := abandoned.clock } :
            Interpreter Network Snapshot).replies [(10, .begin Scene.waiting 10),
          (10, .go (.resume ⟨0⟩)), (10, .go (.resume ⟨1⟩))]).map (·.later 1) := by
  have talk : Conversation (Scene.engine {} ⟨0⟩) abandonedPast abandoned :=
    ((Conversation.opened .still none).called 10 (.begin Scene.waiting 10)
      (answered_of_reported (by decide +kernel))).called 10 (.go .cancel) nofun
  have void : ∀ token, ¬Valid abandonedPast token := by
    have idle : ¬abandoned.isRunning = true := by decide +kernel
    rw [talk.recalls.running] at idle
    exact fun token valid => idle ⟨token, valid⟩
  have issued : abandoned.issued = 1 := by decide +kernel
  have renewed := conversation_renewed talk void 10 Scene.waiting 10
    [(10, .go (.resume ⟨1⟩)), (10, .go (.resume ⟨2⟩))]
  rw [issued] at renewed
  exact ⟨talk, void, renewed⟩

end ProceduralScene
