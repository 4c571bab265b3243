import ProceduralScene.Proofs.Interpreter.Slice
import ProceduralScene.Proofs.Scene.Identity

/-! Where the slices of a scene stop, and what they report. Between two reports of a run nothing but
the cache can change, so each slice starts where the last one has stopped; and once a report is
final there is nothing left to change at all. -/
namespace ProceduralScene

open Queue

def Exchange.Reports {α β : Type} (x : Exchange α β) (report : Report β) : Prop :=
  x.answer = some (.ok report)

namespace Scene

variable {scene : SceneConfig} {config : EngineConfig}

/-- A slice that started at some progress needs no further evaluation. -/
def Over (scene : SceneConfig) (start : Option Progress) (q : Queue Network) : Prop :=
  q.hasWork = false ∨ ∃ p c, start = some p ∧ q.progress? = some c ∧
    c.value - p.value > scene.sliceProgress

theorem pauses_iff {span : Span} {steps : Nat} {q : Queue Network} :
    (engine scene config).pauses span steps q = true ↔
      q.hasWork = false ∨ steps ≠ 0 ∧
        (config.computeDurationMs ≤ span.elapsed steps ∨ Over scene span.start q) := by
  cases work : q.hasWork with
  | false => simp [Engine.pauses, work]
  | true =>
    cases start : span.start <;> cases progress : q.progress? <;>
      simp [Engine.pauses, Over, work, start, progress] <;> simp [engine, domain, interrupts]

theorem progress?_of_hasWork {q : Queue Network} (work : q.hasWork = true) :
    ∃ p, q.progress? = some p := by
  cases slots : q.slots with
  | nil =>
    rw [hasWork, slots] at work
    cases work
  | cons slot behind => exact ⟨slot.progress, by rw [progress?, slots]⟩

/-- What a slice of a program does from one world to another, and what its report says. The clock
tells how many milliseconds the slice has taken by each of its steps. With work it takes the first
evaluation, and then no more than it needs and has time for. -/
structure Slice (scene : SceneConfig) (config : EngineConfig) (elapsed : Nat → Nat) (fuel : Nat)
    (program : Program) (requested : Progress) (first last : World Network)
    (report : Report Snapshot) : Prop where
  evaluates : (engine scene config).Evaluates fuel program report.steps first last
  idle : first.queue.hasWork = false → report.steps = 0
  timed : first.queue.hasWork = true →
    1 ≤ report.steps ∧
      (config.computeDurationMs ≤ elapsed report.steps ∨
        Over scene first.queue.progress? last.queue) ∧
      ∀ j mid, 1 ≤ j → j < report.steps →
        (engine scene config).Evaluates fuel program j first mid →
          elapsed j < config.computeDurationMs ∧ ¬Over scene first.queue.progress? mid.queue
  single : first.queue.hasWork = true → config.computeDurationMs = 0 → report.steps = 1
  unlimited : first.queue.hasWork = true → (∀ j, elapsed j < config.computeDurationMs) →
    1 ≤ report.steps ∧ Over scene first.queue.progress? last.queue ∧
      ∀ j mid, 1 ≤ j → j < report.steps →
        (engine scene config).Evaluates fuel program j first mid →
          ¬Over scene first.queue.progress? mid.queue
  published : report.published = (publish last.queue).1
  start : report.start = first.queue.progress?
  current : report.current = last.queue.progress?
  isFinal : report.isFinal = !last.queue.hasWork
  token : report.token.isSome = true ↔
    last.queue.hasWork = true ∧ ∃ p, report.current = some p ∧ p < requested

section
variable {i : Interpreter Network Snapshot} {fuel : Nat} {program : Program}
  {report : Report Snapshot} {last : World Network} (scenic : i.engine = engine scene config)
  (sliced : i.Sliced fuel program report last)

include scenic sliced

theorem steps_pos_of_sliced (work : i.world.queue.hasWork = true) : 1 ≤ report.steps := by
  obtain ⟨evaluates, stops, -⟩ := sliced
  rw [scenic] at stops
  refine Nat.pos_of_ne_zero fun none => ?_
  rw [none] at evaluates stops
  -- before its first evaluation a slice is only over without work
  cases evaluates
  rcases pauses_iff.mp stops with idle | ⟨some, _⟩
  · cases work.symm.trans idle
  · exact some rfl

theorem over_of_sliced :
    config.computeDurationMs ≤ i.clock 0 report.steps ∨
      Over scene i.world.queue.progress? last.queue := by
  have stops := sliced.stops
  rw [scenic] at stops
  rcases pauses_iff.mp stops with idle | ⟨_, stops⟩
  · exact .inr (.inl idle)
  · exact stops

theorem goesOn_of_sliced {j : Nat} {mid : World Network} (before : j < report.steps)
    (reached : (engine scene config).Evaluates fuel program j i.world mid) :
    mid.queue.hasWork = true ∧ (1 ≤ j →
      i.clock 0 j < config.computeDurationMs ∧ ¬Over scene i.world.queue.progress? mid.queue) := by
  have goesOn := sliced.early j mid before (scenic ▸ reached)
  rw [scenic, ← Bool.not_eq_true, pauses_iff, not_or, Bool.not_eq_false] at goesOn
  refine ⟨goesOn.1, fun later => ?_⟩
  have runs := not_or.mp fun stops => goesOn.2 ⟨by omega, stops⟩
  exact ⟨Nat.lt_of_not_le runs.1, runs.2⟩

theorem slice_of_sliced :
    Slice scene config (i.clock 0) fuel program i.requested i.world last report := by
  have evaluates := sliced.evaluates
  have published := sliced.published
  rw [scenic] at evaluates published
  refine ⟨evaluates, fun idle => ?_, fun work => ?_, fun work short => ?_, fun work long => ?_,
    published, sliced.start, sliced.current, sliced.isFinal, ?_⟩
  · rcases Nat.eq_zero_or_pos report.steps with none | some
    · exact none
    · cases idle.symm.trans (goesOn_of_sliced scenic sliced some (.none i.world)).1
  · exact ⟨steps_pos_of_sliced scenic sliced work, over_of_sliced scenic sliced,
      fun j mid later before reached => (goesOn_of_sliced scenic sliced before reached).2 later⟩
  · have some := steps_pos_of_sliced scenic sliced work
    rcases Nat.lt_or_ge 1 report.steps with several | one
    · obtain ⟨mid, reached⟩ := evaluates.take (Nat.le_of_lt several)
      have time := ((goesOn_of_sliced scenic sliced several reached).2 (Nat.le_refl 1)).1
      omega
    · omega
  · refine ⟨steps_pos_of_sliced scenic sliced work,
      (over_of_sliced scenic sliced).resolve_left (Nat.not_le.mpr (long _)), ?_⟩
    exact fun j mid later before reached =>
      ((goesOn_of_sliced scenic sliced before reached).2 later).2
  · rw [sliced.token, Interpreter.wantsMore, Bool.and_eq_true, sliced.current]
    cases work : last.queue.hasWork with
    | false => simp
    | true =>
      obtain ⟨p, reached⟩ := progress?_of_hasWork work
      simp [reached]

end

theorem run_slice {i next : Interpreter Network Snapshot} (scenic : i.engine = engine scene config)
    (kept : i.queue.Kept) (coherent : i.queue.Coherent) {fuel : Nat} {program : Program}
    {report : Report Snapshot} (ran : i.run fuel program = (.ok report, next)) :
    ∃ last, Slice scene config (i.clock 0) fuel program i.requested i.world last report ∧
      next.queue.uncached = last.queue.uncached ∧ next.queue.Coherent ∧
      ∀ q, Shows next.queue.uncached q → (publish q).1 = report.published := by
  have steady : i.engine.operations.Steady := by
    rw [scenic]
    exact engine_steady scene config
  have publishes (q : Queue Network) : (i.engine.domain.publish q).2.uncached = q.uncached := by
    rw [scenic]
    exact uncached_publish scene config q
  obtain ⟨last, sliced, same⟩ := Interpreter.run_sliced steady publishes kept ran
  obtain ⟨_, _, answers⟩ := run_trail program scenic
    (⟨rfl, coherent⟩ : Shows i.world.queue.uncached i.world.queue) fuel
  obtain ⟨_, _, content, _, shown, ⟨q, shown', published⟩, _, _⟩ := answers report next ran
  refine ⟨last, slice_of_sliced scenic sliced, same, shown.coherent, fun r seen => ?_⟩
  have own : Shows content r := ⟨seen.content.trans shown.content, seen.coherent⟩
  rw [published]
  exact publish_alike ⟨own, shown'⟩

section
variable {past : List (Exchange Network Snapshot)} {i : Interpreter Network Snapshot} {fuel : Nat}
  {command : Command} {report : Report Snapshot}

theorem report_slice (talk : Conversation (engine scene config) past i)
    (coherent : i.halted = false → i.queue.Coherent)
    (reported : (i.perform fuel command).1 = some (.ok report)) :
    ∃ program first last, i.opening? command = some (program, first) ∧
      Slice scene config (i.clock 0) fuel program (command.target?.getD i.requested) first last
        report ∧
      (i.perform fuel command).2.queue.uncached = last.queue.uncached ∧
      (i.perform fuel command).2.queue.Coherent ∧
      ∀ q, Shows (i.perform fuel command).2.queue.uncached q →
        (publish q).1 = report.published := by
  obtain ⟨entered, program, runs⟩ := Exchange.runs_of_report (x := ⟨i, fuel, command⟩) reported
  have own := talk.recalls.engine
  have ready : entered.queue.Kept ∧ entered.queue.Coherent := by
    refine runs.queue (P := fun q => q.Kept ∧ q.Coherent) (fun program => ?_) fun running => ?_
    · exact ⟨(Engine.scheduled_seed program).kept, seed_coherent _ 0 _ coherent_empty⟩
    · exact ⟨(talk.scheduled (engine_steady scene config) (uncached_publish scene config)
        running).kept, coherent running⟩
  obtain ⟨last, slice, after⟩ := run_slice (runs.engine.trans own) ready.1 ready.2 runs.ran
  rw [runs.requested, runs.clock] at slice
  exact ⟨program, entered.world, last, runs.opening, slice, after⟩

structure Finished (i : Interpreter Network Snapshot) (report : Report Snapshot) : Prop where
  running : i.halted = false
  known : i.program.isSome = true
  idle : i.queue.hasWork = false
  current : i.queue.progress? = report.current
  published : ∀ q, Shows i.queue.uncached q → (publish q).1 = report.published

theorem Finished.of_uncached {j : Interpreter Network Snapshot} (finished : Finished i report)
    (running : j.halted = false) (known : j.program.isSome = true)
    (same : j.queue.uncached = i.queue.uncached) : Finished j report where
  running := running
  known := known
  idle := (hasWork_of_uncached same).trans finished.idle
  current := (progress?_of_uncached same).trans finished.current
  published q shown := finished.published q (same ▸ shown)

structure Repeats (old report : Report Snapshot) : Prop where
  steps : report.steps = 0
  published : report.published = old.published
  start : report.start = old.current
  current : report.current = old.current
  isFinal : report.isFinal = true
  token : report.token = none

theorem Finished.repeats {old : Report Snapshot} (talk : Conversation (engine scene config) past i)
    (coherent : i.halted = false → i.queue.Coherent) (finished : Finished i old)
    {control : Control} (reported : (i.perform fuel (.go control)).1 = some (.ok report)) :
    Repeats old report ∧ (i.perform fuel (.go control)).2.queue.uncached = i.queue.uncached := by
  obtain ⟨program, first, last, opening, slice, same, _, settles⟩ :=
    report_slice talk coherent reported
  obtain ⟨_, _, opened⟩ := Option.map_eq_some_iff.mp opening
  have world : first = i.world := (congrArg Prod.snd opened).symm
  have idle : first.queue.hasWork = false := world ▸ finished.idle
  have steps := slice.idle idle
  have evaluates := slice.evaluates
  rw [steps] at evaluates
  cases evaluates
  subst world
  have current : report.current = old.current := slice.current.trans finished.current
  have shown : Shows i.queue.uncached i.queue := ⟨rfl, coherent finished.running⟩
  refine ⟨⟨steps, ?_, slice.start.trans finished.current, current, ?_, ?_⟩, same⟩
  · rw [← finished.published i.queue shown]
    exact slice.published
  · rw [slice.isFinal, idle]
    rfl
  · cases token : report.token with
    | none => rfl
    | some number =>
      have more := slice.token.mp (by rw [token]; rfl)
      cases idle.symm.trans more.1

theorem Finished.step {old : Report Snapshot} (talk : Conversation (engine scene config) past i)
    (coherent : i.halted = false → i.queue.Coherent) (finished : Finished i old)
    (handled : Exchange.Handled ⟨i, fuel, command⟩)
    (same : ¬Exchange.Begins ⟨i, fuel, command⟩) : Finished (i.perform fuel command).2 old := by
  have goes (takenUp : Exchange.TakenUp ⟨i, fuel, command⟩) :
      ∃ control, command = .go control ∧ control ≠ .cancel := by
    cases command with
    | begin program requested => exact absurd ⟨takenUp.accepted, program, requested, rfl⟩ same
    | go control => exact ⟨control, rfl, fun cancels => takenUp.goes (congrArg _ cancels)⟩
  have goesOn (takenUp : Exchange.TakenUp ⟨i, fuel, command⟩) {report : Report Snapshot}
      (answer : Exchange.answer ⟨i, fuel, command⟩ = some (.ok report))
      (running : (i.perform fuel command).2.halted = false) :
      Finished (i.perform fuel command).2 old := by
    obtain ⟨control, rfl, _⟩ := goes takenUp
    exact finished.of_uncached running takenUp.known (finished.repeats talk coherent answer).2
  cases handled with
  | refused why answer after =>
    have kept : (i.perform fuel command).2 = i := after
    rwa [kept]
  | cancelled called answer after =>
    have kept : (i.perform fuel command).2 = { i with pending := none } := after
    rw [kept]
    exact finished.of_uncached finished.running finished.known rfl
  | stayed takenUp answer token running => exact goesOn takenUp answer running
  | handed takenUp answer token running => exact goesOn takenUp answer running
  | failed takenUp answer =>
    obtain ⟨control, rfl, free⟩ := goes takenUp
    have accepted : i.refusal? (.go control) = none := takenUp.accepted
    have answer' : (i.control fuel control).1 = some (.error (.error _)) := answer
    cases fuel with
    | zero =>
      have exhausted := (Interpreter.control_of_idle accepted free finished.idle 0).1
      cases answer'.symm.trans exhausted
    | succ fuel =>
      obtain ⟨report, reported⟩ :=
        (Interpreter.control_of_idle accepted free finished.idle fuel).2
      cases answer'.symm.trans reported

structure Follows (past : List (Exchange Network Snapshot)) (i : Interpreter Network Snapshot) :
    Prop where
  coherent : i.halted = false → i.queue.Coherent
  last : ∀ report,
    Standing (·.Reports report) (fun x => x.Begins ∨ ∃ later, x.Reports later) past →
      i.halted = false → i.queue.progress? = report.current
  final : ∀ report, report.isFinal = true → Standing (·.Reports report) Exchange.Begins past →
    Finished i report

theorem Follows.reported (talk : Conversation (engine scene config) past i)
    (follows : Follows past i) (handled : Exchange.Handled ⟨i, fuel, command⟩)
    (takenUp : Exchange.TakenUp ⟨i, fuel, command⟩)
    (answer : Exchange.Reports ⟨i, fuel, command⟩ report)
    (running : (i.perform fuel command).2.halted = false) :
    Follows (past ++ [⟨i, fuel, command⟩]) (i.perform fuel command).2 := by
  obtain ⟨program, first, last, _, slice, same, coherent, settles⟩ :=
    report_slice talk follows.coherent answer
  have current : (i.perform fuel command).2.queue.progress? = report.current :=
    (progress?_of_uncached same).trans slice.current.symm
  have only {other : Report Snapshot} (reports : Exchange.Reports ⟨i, fuel, command⟩ other) :
      other = report := by
    cases reports.symm.trans answer
    rfl
  refine ⟨fun _ => coherent, fun other standing _ => ?_, fun other isFinal standing => ?_⟩
  · rcases standing_concat.mp standing with reports | ⟨_, silent⟩
    · rw [only reports]
      exact current
    · exact absurd (.inr ⟨report, answer⟩) silent
  · rcases standing_concat.mp standing with reports | ⟨standing, later⟩
    · have own := only reports
      subst own
      have idle : (i.perform fuel command).2.queue.hasWork = false := by
        rw [hasWork_of_uncached same]
        simpa [slice.isFinal] using isFinal
      exact ⟨running, takenUp.known, idle, current, settles⟩
    · exact (follows.final other isFinal standing).step talk follows.coherent handled later

theorem Follows.step (talk : Conversation (engine scene config) past i) (follows : Follows past i)
    (answered : (i.perform fuel command).1 ≠ some (.error .outOfFuel)) :
    Follows (past ++ [⟨i, fuel, command⟩]) (i.perform fuel command).2 := by
  have handled : Exchange.Handled ⟨i, fuel, command⟩ := Exchange.handled answered
  -- a call without a report leaves the others standing, unless its failure has stopped the run
  have silent (unreported : ∀ report, ¬Exchange.Reports ⟨i, fuel, command⟩ report)
      (kept : (i.perform fuel command).2.halted = true ∨
        (i.perform fuel command).2.halted = i.halted ∧
          (i.perform fuel command).2.queue = i.queue) :
      Follows (past ++ [⟨i, fuel, command⟩]) (i.perform fuel command).2 := by
    refine ⟨fun running => ?_, fun report standing running => ?_,
      fun report isFinal standing => ?_⟩
    · rcases kept with halted | ⟨halted, queue⟩
      · cases running.symm.trans halted
      · rw [queue]
        exact follows.coherent (halted ▸ running)
    · rcases standing_concat.mp standing with reports | ⟨standing, _⟩
      · exact absurd reports (unreported report)
      · rcases kept with halted | ⟨halted, queue⟩
        · cases running.symm.trans halted
        · rw [queue]
          exact follows.last report standing (halted ▸ running)
    · rcases standing_concat.mp standing with reports | ⟨standing, same⟩
      · exact absurd reports (unreported report)
      · exact (follows.final report isFinal standing).step talk follows.coherent handled same
  cases handled with
  | refused why answer after =>
    have same : (i.perform fuel command).2 = i := after
    refine silent (fun report reports => ?_) (.inr ⟨by rw [same], by rw [same]⟩)
    cases answer.symm.trans reports
  | cancelled called answer after =>
    have same : (i.perform fuel command).2 = { i with pending := none } := after
    refine silent (fun report reports => ?_) (.inr ⟨by rw [same], by rw [same]; rfl⟩)
    cases answer.symm.trans reports
  | stayed takenUp answer token running =>
    exact follows.reported talk (Exchange.handled answered) takenUp answer running
  | handed takenUp answer token running =>
    exact follows.reported talk (Exchange.handled answered) takenUp answer running
  | failed takenUp answer candid halted =>
    refine silent (fun report reports => ?_) (.inl halted)
    cases answer.symm.trans reports

theorem conversation_follows (talk : Conversation (engine scene config) past i) :
    Follows past i := by
  induction talk with
  | opened clock trace =>
    have none {P Q : Exchange Network Snapshot → Prop} : ¬Standing P Q [] :=
      fun ⟨earlier, x, later, split, _⟩ => by simp at split
    exact ⟨fun _ => coherent_empty, fun _ standing => absurd standing none,
      fun _ _ standing => absurd standing none⟩
  | called talk fuel command answered ih => exact ih.step talk answered

/-- The slices of a conversation and its reports. -/
structure Truthful (scene : SceneConfig) (config : EngineConfig)
    (past : List (Exchange Network Snapshot)) (i : Interpreter Network Snapshot) : Prop where
  slices : ∀ fuel command report, (i.perform fuel command).1 = some (.ok report) →
    ∃ program first last, i.opening? command = some (program, first) ∧
      Slice scene config (i.clock 0) fuel program (command.target?.getD i.requested) first last
        report
  continues : ∀ old,
    Standing (·.Reports old) (fun x => x.Begins ∨ ∃ later, x.Reports later) past →
      ∀ fuel control report, (i.perform fuel (.go control)).1 = some (.ok report) →
        report.start = old.current
  finished : ∀ old, old.isFinal = true → Standing (·.Reports old) Exchange.Begins past →
    ∀ fuel requested, ∃ report,
      (i.requestProgress (fuel + 1) requested).1 = .ok report ∧ Repeats old report

/-- Whatever calls an interpreter of a scene has answered. -/
theorem conversation_truthful (talk : Conversation (engine scene config) past i) :
    Truthful scene config past i where
  slices fuel command report reported := by
    obtain ⟨program, first, last, opening, slice, _⟩ :=
      report_slice talk (conversation_follows talk).coherent reported
    exact ⟨program, first, last, opening, slice⟩
  continues old standing fuel control report reported := by
    have follows := conversation_follows talk
    obtain ⟨entered, _, runs⟩ :=
      Exchange.runs_of_report (x := ⟨i, fuel, .go control⟩) reported
    obtain ⟨program, first, last, opening, slice, _⟩ :=
      report_slice talk follows.coherent reported
    obtain ⟨_, _, opened⟩ := Option.map_eq_some_iff.mp opening
    have world : first = i.world := (congrArg Prod.snd opened).symm
    rw [slice.start, world]
    exact follows.last old standing (runs.running control rfl)
  finished old isFinal standing fuel requested := by
    have follows := conversation_follows talk
    have finished := follows.final old isFinal standing
    have accepted : i.refusal? (.go (.request requested)) = none := by
      obtain ⟨program, known⟩ := Option.isSome_iff_exists.mp finished.known
      simp [Interpreter.refusal?, finished.running, known]
    have goes : Control.request requested ≠ .cancel := by
      intro same
      cases same
    obtain ⟨report, reported⟩ :=
      (Interpreter.control_of_idle accepted goes finished.idle fuel).2
    exact ⟨report, Option.some.inj reported, (finished.repeats talk follows.coherent reported).1⟩

end

def waitedPast : List (Exchange Network Snapshot) :=
  let opened := Interpreter.scene { sliceProgress := 0.5 } {}
  let begun := (opened.perform 10 (.begin waiting 10)).2
  [⟨opened, 10, .begin waiting 10⟩, ⟨begun, 10, .go (.resume ⟨1⟩)⟩]

def waitedNow : Interpreter Network Snapshot :=
  let opened := Interpreter.scene { sliceProgress := 0.5 } {}
  ((opened.perform 10 (.begin waiting 10)).2.perform 10 (.go (.resume ⟨1⟩))).2

theorem waited_truthful :
    Truthful { sliceProgress := 0.5 } {} waitedPast waitedNow ∧
      waitedPast.map (fun x => (x.answer.bind Except.toOption).map fun report =>
        (report.steps, report.isFinal)) = [some (2, false), some (1, true)] := by
  refine ⟨conversation_truthful ?_, by decide +kernel⟩
  exact ((Conversation.opened .still none).called 10 (.begin waiting 10)
    (answered_of_reported (by decide +kernel))).called 10 (.go (.resume ⟨1⟩))
    (answered_of_reported (by decide +kernel))

end Scene
end ProceduralScene
