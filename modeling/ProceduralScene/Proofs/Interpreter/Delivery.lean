import ProceduralScene.Proofs.Interpreter.Custody
import ProceduralScene.Proofs.Interpreter.Publication

/-! Where a slice leaves a run. Every entry in flight waits at its own progress, and the first one
has come no further than the others. So a slice that ends with work left, and without a token for
more, has brought every entry in flight to the target. -/
namespace ProceduralScene

variable {α β : Type}

theorem Queue.inFlight_eq_nil_iff {q : Queue α} : q.inFlight = [] ↔ q.hasWork = false := by
  rw [inFlight, hasWork, List.map_eq_nil_iff, Bool.not_eq_false', List.isEmpty_iff]

namespace Engine

def Timed (g : Engine α β) (q : Queue α) : Prop :=
  ∀ slot ∈ q.slots, slot.progress = g.domain.progress slot.entry.payload

variable {g : Engine α β} {q r : Queue α}

theorem Timed.of_uncached (timed : g.Timed q) (same : r.uncached = q.uncached) : g.Timed r := by
  rw [Timed, Queue.slots_of_uncached same]
  exact timed

theorem Timed.schedule (timed : g.Timed q) (entry : Entry) : g.Timed (g.schedule q entry) := by
  unfold Engine.schedule Queue.push
  split
  · exact timed
  · intro slot member
    rcases List.mem_cons.mp ((perm_insertSlot _ _).mem_iff.mp member) with rfl | member
    · rfl
    · exact timed slot member

theorem Timed.scheduleAll (timed : g.Timed q) (entries : List Entry) :
    g.Timed (g.scheduleAll q entries) := by
  induction entries generalizing q with
  | nil => exact timed
  | cons entry rest ih => exact ih (timed.schedule entry)

theorem Turns.timed {program : Program} (turns : g.Turns program q r) (timed : g.Timed q) :
    g.Timed r := by
  obtain ⟨slots, pending, evaluated, content⟩ := turns
  rename_i slot behind node rest depth w step after
  have left : g.Timed ({ q with slots := behind } : Queue α) := fun other member =>
    timed other (by rw [slots]; exact List.mem_cons_of_mem _ member)
  exact (left.scheduleAll _).of_uncached content

theorem timed_seed {ordinal : Nat} {descriptions : List (String × Description)}
    (timed : g.Timed q) : g.Timed (g.seed ordinal descriptions q).2 := by
  induction descriptions generalizing ordinal q with
  | nil => exact timed
  | cons description rest ih =>
    unfold seed
    split
    · exact timed
    · exact ih timed
    · exact ih (timed.schedule _)

structure Scheduled (g : Engine α β) (q : Queue α) : Prop where
  kept : q.Kept
  timed : g.Timed q

theorem scheduled_seed (program : Program) :
    g.Scheduled (g.seed 0 program.entries .empty).2 where
  kept := kept_seed ⟨_, _, Queue.keeps_empty⟩
  timed := timed_seed fun slot member => by cases member

theorem Scheduled.reached (scheduled : g.Scheduled q) {p : Progress}
    (first : q.progress? = some p) {entry : Entry} (waits : entry ∈ q.inFlight) :
    p ≤ g.domain.progress entry.payload := by
  obtain ⟨slot, member, rfl⟩ := List.mem_map.mp waits
  rw [← scheduled.timed slot member]
  exact (scheduled.kept.above first).slots slot member

theorem slice_scheduled (steady : g.operations.Steady) {depth : Nat} {program : Program}
    {span : Span} {fuel steps k : Nat} {w after : World α}
    (scheduled : g.Scheduled w.queue)
    (sliced : g.slice depth program span fuel steps w = (.ok k, after)) :
    g.Scheduled after.queue := by
  induction fuel generalizing steps w with
  | zero => cases sliced
  | succ fuel ih =>
    rw [slice] at sliced
    split at sliced
    · cases sliced
      exact scheduled
    next running =>
      have work : w.queue.hasWork = true := hasWork_of_running running
      rcases advanced : g.advance depth program w with ⟨fault | _, next⟩
      · rw [advanced] at sliced
        cases sliced
      · rw [advanced] at sliced
        have turns := advance_turns steady scheduled.kept rfl work advanced
        exact ih ⟨turns.kept scheduled.kept, turns.timed scheduled.timed⟩ sliced

end Engine

namespace Interpreter

structure Reported (i : Interpreter α β) (requested : Progress) (report : Report β) : Prop where
  requested : i.requested = requested
  isFinal : report.isFinal = !i.queue.hasWork
  token : report.token.isSome = i.wantsMore i.world

section
variable {g : Engine α β} {i next : Interpreter α β} {fuel : Nat} {program : Program}
  {report : Report β}

theorem run_reported (ran : i.run fuel program = (.ok report, next)) :
    next.Reported i.requested report := by
  dsimp only [run] at ran
  rcases sliced : i.engine.slice fuel program i.span fuel 0 i.world with
    ⟨(error | _) | steps, w⟩
  · rw [sliced] at ran
    cases ran
  · rw [sliced] at ran
    cases ran
  · rw [sliced] at ran
    cases ran
    refine ⟨rfl, rfl, ?_⟩
    dsimp only [Interpreter.report]
    split
    next more => exact more.symm
    next enough => exact (Bool.not_eq_true _ ▸ enough).symm

theorem run_scheduled (steady : i.engine.operations.Steady)
    (publishes : ∀ q, (i.engine.domain.publish q).2.uncached = q.uncached)
    (scheduled : i.engine.Scheduled i.queue) (ran : i.run fuel program = (.ok report, next)) :
    next.engine.Scheduled next.queue := by
  dsimp only [run] at ran
  rcases sliced : i.engine.slice fuel program i.span fuel 0 i.world with
    ⟨(error | _) | steps, w⟩
  · rw [sliced] at ran
    cases ran
  · rw [sliced] at ran
    cases ran
  · rw [sliced] at ran
    have settled := Engine.slice_scheduled steady scheduled sliced
    cases ran
    exact ⟨settled.kept.of_uncached (publishes w.queue),
      settled.timed.of_uncached (publishes w.queue)⟩

/-- An interpreter that wants no more has brought all entries in flight to its target. -/
theorem reached_of_enough (scheduled : i.engine.Scheduled i.queue)
    (enough : i.wantsMore i.world = false) {entry : Entry} (waits : entry ∈ i.queue.inFlight) :
    i.requested ≤ i.engine.domain.progress entry.payload := by
  cases slots : i.queue.slots with
  | nil =>
    rw [Queue.inFlight, slots] at waits
    cases waits
  | cons first rest =>
    have current : i.queue.progress? = some first.progress := by rw [Queue.progress?, slots]
    have work : i.queue.hasWork = true := by rw [Queue.hasWork, slots]; rfl
    have far : ¬first.progress < i.requested := by
      change (i.queue.hasWork && i.queue.progress?.all (· < i.requested)) = false at enough
      rw [work, current] at enough
      simpa using enough
    rw [← Progress.not_le, Classical.not_not] at far
    exact Progress.le_trans far (scheduled.reached current waits)

end
end Interpreter

namespace Exchange

/-- A call that has run a slice: the first one of a program, or the next one of the program that was
running. -/
structure Runs (x : Exchange α β) (entered : Interpreter α β) (program : Program)
    (report : Report β) : Prop where
  ran : entered.run x.fuel program = (.ok report, x.after)
  engine : entered.engine = x.before.engine
  clock : entered.clock = x.before.clock
  requested : entered.requested = x.command.target?.getD x.before.requested
  opening : x.before.opening? x.command = some (program, entered.world)
  running : ∀ control, x.command = .go control → x.before.halted = false

variable {x : Exchange α β} {report : Report β}

theorem runs_of_report (answered : x.answer = some (.ok report)) :
    ∃ entered program, x.Runs entered program report := by
  have accepted : x.before.refusal? x.command = none := by
    cases why : x.before.refusal? x.command with
    | none => rfl
    | some error =>
      rw [answer, Interpreter.perform_of_refused why] at answered
      cases answered
  have goes : x.command ≠ .go .cancel := by
    intro called
    rw [answer, called] at answered
    cases answered
  obtain ⟨entered, program, enters, performed | ⟨_, error, _, _, _, performed⟩⟩ :=
    Interpreter.perform_of_accepted accepted goes x.fuel
  · have first : some (entered.run x.fuel program).1 = some (.ok report) := by
      rw [← answered, answer, performed]
    have second : (entered.run x.fuel program).2 = x.after := by rw [after, performed]
    exact ⟨entered, program, Prod.ext (Option.some.inj first) second,
      enters.takesUp.engine, enters.takesUp.clock, enters.requested, enters.opening, enters.alive⟩
  · rw [answer, performed] at answered
    cases answered

theorem Runs.queue {P : Queue α → Prop} {entered : Interpreter α β} {program : Program}
    (runs : x.Runs entered program report)
    (seeded : ∀ program : Program, P (x.before.engine.seed 0 program.entries .empty).2)
    (before : x.before.halted = false → P x.before.queue) : P entered.queue := by
  rcases (Interpreter.world_of_opening? runs.opening).2 with first | ⟨⟨control, called⟩, same⟩
  · rw [Interpreter.queue, first]
    exact seeded program
  · rw [Interpreter.queue, same]
    exact before (runs.running control called)

theorem scheduled_of_report (steady : x.before.engine.operations.Steady)
    (publishes : ∀ q, (x.before.engine.domain.publish q).2.uncached = q.uncached)
    (before : x.before.halted = false → x.before.engine.Scheduled x.before.queue)
    (answered : x.answer = some (.ok report)) :
    x.after.engine.Scheduled x.after.queue ∧
      x.after.Reported (x.command.target?.getD x.before.requested) report := by
  obtain ⟨entered, program, runs⟩ := runs_of_report answered
  have engine := runs.engine
  have scheduled : entered.engine.Scheduled entered.queue := by
    rw [engine]
    exact runs.queue Engine.scheduled_seed before
  refine ⟨Interpreter.run_scheduled ?_ ?_ scheduled runs.ran, ?_⟩
  · rw [engine]
    exact steady
  · rw [engine]
    exact publishes
  · rw [← runs.requested]
    exact Interpreter.run_reported runs.ran

end Exchange

theorem Conversation.scheduled {g : Engine α β} (steady : g.operations.Steady)
    (publishes : ∀ q, (g.domain.publish q).2.uncached = q.uncached)
    {past : List (Exchange α β)} {i : Interpreter α β} (talk : Conversation g past i)
    (running : i.halted = false) : g.Scheduled i.queue := by
  induction talk with
  | opened clock trace => exact ⟨⟨_, _, Queue.keeps_empty⟩, fun slot member => by cases member⟩
  | @called past i talk fuel command answered ih =>
    have own := talk.recalls.engine
    have handled : Exchange.Handled ⟨i, fuel, command⟩ := Exchange.handled answered
    have after {report : Report β}
        (reported : Exchange.answer ⟨i, fuel, command⟩ = some (.ok report)) :
        g.Scheduled (i.perform fuel command).2.queue := by
      subst own
      have settled := (Exchange.scheduled_of_report steady publishes ih reported).1
      rwa [handled.engine] at settled
    cases handled with
    | refused why answer same =>
      have kept : (i.perform fuel command).2 = i := same
      rw [kept] at running ⊢
      exact ih running
    | cancelled called answer same =>
      have kept : (i.perform fuel command).2 = { i with pending := none } := same
      rw [kept] at running ⊢
      exact ih running
    | stayed takenUp answer => exact after answer
    | handed takenUp answer => exact after answer
    | failed takenUp answer candid halted => cases running.symm.trans halted

end ProceduralScene
