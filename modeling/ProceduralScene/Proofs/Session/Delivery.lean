import ProceduralScene.CommandLine
import ProceduralScene.Proofs.Interpreter.Delivery
import ProceduralScene.Proofs.Json.Line
import ProceduralScene.Proofs.Session.Custody

/-! What a session delivers. A message with a target is followed by emissions until nothing is left
to do: all entries have retired, or those in flight have reached the target. -/
namespace ProceduralScene

def ControlMessage.target? : ControlMessage → Option Progress
  | interprete _ requested | updateRequestedProgress requested => some requested
  | cancel => none

namespace Session

structure Emitted (config : HostConfig) (requested : Progress) (emission : Emission)
    (s : Session) : Prop where
  inStep : s.InStep config
  scheduled : s.interpreter.engine.Scheduled s.interpreter.queue
  requested : s.interpreter.requested = requested
  isFinal : emission.isFinal = !s.interpreter.queue.hasWork
  pending : s.pending.isSome = s.interpreter.wantsMore s.interpreter.world

/-- What has been delivered on the way to a target. -/
structure Delivered (requested : Progress) (emissions : List Emission) (s : Session) : Prop where
  emitted : ∃ earlier last, emissions = earlier ++ [last] ∧
    (∀ emission ∈ earlier, emission.isFinal = false) ∧
    (last.isFinal = true ∧ s.interpreter.queue.inFlight = [] ∨
      last.isFinal = false ∧ s.interpreter.queue.inFlight ≠ [] ∧
        ∀ entry ∈ s.interpreter.queue.inFlight, requested ≤ Scene.progress entry.payload)
  idle : s.isIdle = true

section
variable {config : HostConfig} {s after : Session} {emission : Emission} {requested : Progress}

theorem InStep.emitted (inStep : s.InStep config) {fuel : Nat} {command : Command}
    {kept : Option Token}
    (settled : Session.settle kept (s.interpreter.perform fuel command) =
      (.ok (some emission), after)) (inStep' : after.InStep config) :
    Emitted config (command.target?.getD s.interpreter.requested) emission after := by
  obtain ⟨past, talk⟩ := inStep.talk
  have own := talk.recalls.engine
  rcases performed : s.interpreter.perform fuel command with ⟨_ | (_ | report), i⟩
  · rw [performed] at settled
    cases settled
  · rw [performed] at settled
    cases settled
  · rw [performed] at settled
    cases settled
    have answered : Exchange.answer ⟨s.interpreter, fuel, command⟩ = some (.ok report) := by
      rw [Exchange.answer, performed]
    have same : Exchange.after ⟨s.interpreter, fuel, command⟩ = i := by
      rw [Exchange.after, performed]
    obtain ⟨scheduled, reported⟩ := Exchange.scheduled_of_report
      (own ▸ Scene.engine_steady config.scene config.engine)
      (own ▸ Scene.uncached_publish config.scene config.engine)
      (fun running => own ▸ talk.scheduled (Scene.engine_steady config.scene config.engine)
        (Scene.uncached_publish config.scene config.engine) running) answered
    rw [same] at scheduled reported
    exact ⟨inStep', scheduled, reported.requested, reported.isFinal, reported.token⟩

theorem InStep.handle_emitted (inStep : s.InStep config) {fuel : Nat} {message : ControlMessage}
    {target : Progress} (sets : message.target? = some target)
    (handled : s.handle fuel message = (.ok (some emission), after)) :
    Emitted config target emission after := by
  have inStep' : after.InStep config := inStep.handle handled nofun
  rw [handle_eq] at handled
  cases message with
  | interprete program requested =>
    cases sets
    exact inStep.emitted handled inStep'
  | updateRequestedProgress requested =>
    cases sets
    exact inStep.emitted handled inStep'
  | cancel => cases sets

theorem Emitted.poll (emitted : Emitted config requested emission s) {fuel : Nat}
    {next : Emission} (polled : s.poll fuel = (.ok (some next), after)) :
    Emitted config requested next after ∧ emission.isFinal = false := by
  have inStep' : after.InStep config := emitted.inStep.poll polled nofun
  cases pending : s.pending with
  | none =>
    rw [poll_of_idle pending] at polled
    cases polled
  | some token =>
    rw [poll_of_pending pending] at polled
    have more : s.interpreter.wantsMore s.interpreter.world = true := by
      rw [← emitted.pending, pending]
      rfl
    have work : s.interpreter.queue.hasWork = true := (Bool.and_eq_true_iff.mp more).1
    refine ⟨emitted.requested ▸ emitted.inStep.emitted polled inStep', ?_⟩
    rw [emitted.isFinal, work]
    rfl

theorem handle_ne_none {fuel : Nat} {message : ControlMessage} {target : Progress}
    (sets : message.target? = some target) : (s.handle fuel message).1 ≠ .ok none := by
  intro nothing
  cases message with
  | interprete program requested =>
    dsimp only [handle] at nothing
    rcases begun : s.interpreter.begin fuel program requested with ⟨fault | report, i⟩ <;>
      rw [begun] at nothing <;> cases nothing
  | updateRequestedProgress requested =>
    dsimp only [handle] at nothing
    rcases moved : s.interpreter.requestProgress fuel requested with ⟨fault | report, i⟩ <;>
      rw [moved] at nothing <;> cases nothing
  | cancel => cases sets

theorem Emitted.delivered (emitted : Emitted config requested emission s)
    (idle : s.pending = none) : Delivered requested [emission] s where
  emitted := by
    refine ⟨[], emission, rfl, List.forall_mem_nil _, ?_⟩
    rw [emitted.isFinal, Bool.not_eq_true', Bool.not_eq_false', Queue.inFlight_eq_nil_iff,
      ne_eq, Queue.inFlight_eq_nil_iff]
    cases work : s.interpreter.queue.hasWork with
    | false => exact .inl ⟨rfl, rfl⟩
    | true =>
      refine .inr ⟨rfl, nofun, fun entry waits => ?_⟩
      have enough : s.interpreter.wantsMore s.interpreter.world = false := by
        rw [← emitted.pending, idle]
        rfl
      obtain ⟨past, talk⟩ := emitted.inStep.talk
      have reached := Interpreter.reached_of_enough emitted.scheduled enough waits
      rw [emitted.requested, talk.recalls.engine] at reached
      exact reached
  idle := by
    rw [isIdle, idle]
    rfl

theorem Delivered.cons {emissions : List Emission} (delivered : Delivered requested emissions s)
    (goesOn : emission.isFinal = false) : Delivered requested (emission :: emissions) s where
  emitted := by
    obtain ⟨earlier, last, rfl, all, ends⟩ := delivered.emitted
    exact ⟨emission :: earlier, last, rfl, List.forall_mem_cons.mpr ⟨goesOn, all⟩, ends⟩
  idle := delivered.idle

theorem Streams.delivered {depth : Nat} {answer : Answer} {emissions : List Emission}
    (streams : Streams depth answer emissions (.ok ()) after)
    (answered : answer = (.ok (some emission), s))
    (emitted : Emitted config requested emission s) : Delivered requested emissions after := by
  generalize well : Except.ok () = ending at streams
  induction streams generalizing emission s with
  | failed => cases well
  | ended => cases answered
  | @emitted s after emission emissions ending later ih =>
    cases answered
    rcases polled : s.poll depth with ⟨fault | _ | next, t⟩
    · rw [polled] at later
      cases later
      cases well
    · rw [polled] at later
      cases later
      obtain ⟨idle, rfl⟩ := pending_of_poll polled
      exact emitted.delivered idle
    · obtain ⟨emitted', goesOn⟩ := emitted.poll polled
      exact (ih polled emitted' well).cons goesOn

theorem Held.delivered (held : Held config s) {fuel : Nat} {message : ControlMessage}
    {target : Progress} (sets : message.target? = some target) {emissions : List Emission}
    (drained : (s.drain fuel message).1 = .ok emissions) :
    Delivered target emissions (s.drain fuel message).2 := by
  have answered : (s.drain fuel message).1 ≠ .error .outOfFuel := by
    rw [drained]
    nofun
  obtain ⟨emissions', ending, same, streams⟩ := streams_of_drain answered
  cases ending with
  | error fault => cases same.symm.trans drained
  | ok =>
    cases same.symm.trans drained
    rcases handled : s.handle fuel message with ⟨fault | _ | emission, t⟩
    · rw [handled] at streams
      cases streams
    · exact absurd (congrArg Prod.fst handled) (handle_ne_none sets)
    · exact streams.delivered handled (held.inStep.handle_emitted sets handled)

end

end Session

namespace CommandLine

open Session

theorem printing_eq (digest : Bool) (depth fuel : Nat) (answer : Answer) :
    printing digest depth fuel answer =
      ⟨(stream depth fuel answer).1.map (line digest),
        if (stream depth fuel answer).2.1.isOk then 0 else 1⟩ := by
  induction fuel generalizing answer with
  | zero => rfl
  | succ fuel ih =>
    rcases answer with ⟨fault | _ | emission, s⟩
    · rfl
    · rfl
    · simp only [printing, stream, ih]
      rfl

theorem printing_of_drain {fuel : Nat} {s : Session} {message : ControlMessage}
    {emissions : List Emission} (drained : (s.drain fuel message).1 = .ok emissions)
    (digest : Bool) :
    printing digest fuel fuel (s.handle fuel message) = ⟨emissions.map (line digest), 0⟩ := by
  have collected : (stream fuel fuel (s.handle fuel message)).2.1.map
      (fun _ => (stream fuel fuel (s.handle fuel message)).1) = .ok emissions := drained
  rw [printing_eq]
  cases ending : (stream fuel fuel (s.handle fuel message)).2.1 with
  | error fault =>
    rw [ending] at collected
    cases collected
  | ok =>
    rw [ending] at collected
    cases collected
    rfl

theorem oneLine_line (digest : Bool) (emission : Emission) : OneLine (line digest emission) := by
  unfold line
  split
  · exact Sha256.oneLine_digest _
  · exact Json.oneLine_compact _

structure Names (document : Json.Document) (settings : Option Json.Document) (program : Program)
    (config : HostConfig) : Prop where
  program : document.toOption.bind Program.ofJson = some program
  config : (settings.mapM (Settings.ofDocument HostConfig.ofJson)).map (·.getD {}) = .ok config

theorem run_of_names {document : Json.Document} {settings : Option Json.Document}
    {program : Program} {config : HostConfig} (names : Names document settings program config)
    (fuel : Nat) (clock : Clock) (options : Options) :
    run fuel clock options document settings =
      printing options.digest fuel fuel
        ((scene config clock).handle fuel (.interprete program options.progress)) := by
  obtain ⟨known, configured⟩ := names
  unfold run
  rw [known]
  dsimp only
  cases read : settings.mapM (Settings.ofDocument HostConfig.ofJson) with
  | error complaint =>
    rw [read] at configured
    cases configured
  | ok found =>
    rw [read] at configured
    cases configured
    rfl

end CommandLine

namespace Session

/-- A message with a target, drained to its end from wherever a session has come to. All is
delivered that was asked for, and the command line prints it line by line. -/
theorem drain_delivers {config : HostConfig} {s : Session} (held : Held config s) {fuel : Nat}
    {message : ControlMessage} {target : Progress} (sets : message.target? = some target)
    {emissions : List Emission} (drained : (s.drain fuel message).1 = .ok emissions) :
    Delivered target emissions (s.drain fuel message).2 ∧
      (∀ digest, CommandLine.printing digest fuel fuel (s.handle fuel message) =
        ⟨emissions.map (CommandLine.line digest), 0⟩) ∧
      (∀ digest, ∀ emission ∈ emissions, OneLine (CommandLine.line digest emission)) ∧
      ∀ clock options document settings program, s = scene config clock →
        message = .interprete program options.progress →
          CommandLine.Names document settings program config →
            CommandLine.run fuel clock options document settings =
              ⟨emissions.map (CommandLine.line options.digest), 0⟩ := by
  have printed := CommandLine.printing_of_drain drained
  refine ⟨held.delivered sets drained, printed,
    fun digest emission _ => CommandLine.oneLine_line digest emission, ?_⟩
  rintro clock options document settings program rfl rfl names
  rw [CommandLine.run_of_names names, printed]

/-- A pedestrian's waiting up to its first second, in slices of a single step. -/
theorem waiting_delivers :
    ∃ emissions, emissions.length = 2 ∧
      Delivered 1 emissions
        ((scene ⟨⟨0⟩, {}⟩ .still).drain 20 (.interprete Scene.waiting 1)).2 ∧
      CommandLine.run 20 .still ⟨"waiting.json", 1, some "slow.json", false⟩
        (.ok (Program.toJson Scene.waiting)) (some (.ok (HostConfig.toJson ⟨⟨0⟩, {}⟩))) =
          ⟨emissions.map (CommandLine.line false), 0⟩ := by
  have two : ((scene ⟨⟨0⟩, {}⟩ .still).drain 20 (.interprete Scene.waiting 1)).1.toOption.map
      List.length = some 2 := by decide +kernel
  cases drained : ((scene ⟨⟨0⟩, {}⟩ .still).drain 20 (.interprete Scene.waiting 1)).1 with
  | error fault =>
    rw [drained] at two
    cases two
  | ok emissions =>
    rw [drained] at two
    have held : Held ⟨⟨0⟩, {}⟩ (scene ⟨⟨0⟩, {}⟩ .still) := .opened .still
    have sets : (ControlMessage.interprete Scene.waiting 1).target? = some 1 := rfl
    obtain ⟨delivered, _, _, printed⟩ := drain_delivers held sets drained
    refine ⟨emissions, Option.some.inj two, delivered, ?_⟩
    exact printed .still ⟨"waiting.json", 1, some "slow.json", false⟩ _ _ Scene.waiting rfl rfl
      ⟨rfl, rfl⟩

end Session
end ProceduralScene
