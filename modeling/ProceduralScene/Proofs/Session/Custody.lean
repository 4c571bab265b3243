import ProceduralScene.Proofs.Interpreter.Custody
import ProceduralScene.Session.Basic

/-! Sessions in step with their interpreters. Both remember whether a slice is waiting: the session
holds a token, and the interpreter its number. They change it in different places and at different
times, and a call can end early in either of them; yet after every call they agree. -/
namespace ProceduralScene

def ControlMessage.command : ControlMessage → Command
  | interprete program requested => .begin program requested
  | updateRequestedProgress requested => .go (.request requested)
  | cancel => .go .cancel

namespace Session

inductive Request where
  | handle (message : ControlMessage)
  | poll
  | drain (message : ControlMessage)

def perform (fuel : Nat) (s : Session) : Request → Except Fault (List Emission) × Session
  | .handle message => let (answer, s) := s.handle fuel message; (answer.map Option.toList, s)
  | .poll => let (answer, s) := s.poll fuel; (answer.map Option.toList, s)
  | .drain message => s.drain fuel message

def answers : Session → List (Nat × Request) → List (Except Fault (List Emission))
  | _, [] => []
  | s, (fuel, request) :: later =>
    (s.perform fuel request).1 :: answers (s.perform fuel request).2 later

/-- The sessions that come about by calls on a new one, failed calls included. A call that has run
out of fuel has not come to an end. -/
inductive Held (config : HostConfig) : Session → Prop where
  | opened (clock : Clock) : Held config (scene config clock)
  | called {s : Session} (held : Held config s) (fuel : Nat) (request : Request)
    (answered : (s.perform fuel request).1 ≠ .error .outOfFuel) :
    Held config (s.perform fuel request).2

/-- A session that has kept its token, or let go of it, takes over what its interpreter did. -/
def settle (kept : Option Token)
    (performed : Option (Except Fault (Report Snapshot)) × Interpreter Network Snapshot) :
    Answer :=
  match performed with
  | (none, interpreter) => (.ok none, ⟨interpreter, none⟩)
  | (some answer, interpreter) => accept ⟨interpreter, kept⟩ (answer, interpreter)

/-- Only a new program leaves the session its token until the interpreter has answered. -/
def keptFor (s : Session) : ControlMessage → Option Token
  | .interprete .. => s.pending
  | _ => none

theorem handle_eq (fuel : Nat) (s : Session) (message : ControlMessage) :
    s.handle fuel message =
      settle (s.keptFor message) (s.interpreter.perform fuel message.command) := by
  cases message with
  | interprete program requested =>
    dsimp only [handle, ControlMessage.command, Interpreter.perform, settle, keptFor]
    rcases s.interpreter.begin fuel program requested with ⟨fault | report, after⟩ <;> rfl
  | updateRequestedProgress requested =>
    dsimp only [handle, ControlMessage.command, Interpreter.perform, Interpreter.control, settle,
      keptFor]
    rcases s.interpreter.requestProgress fuel requested with ⟨fault | report, after⟩ <;> rfl
  | cancel => rfl

theorem poll_of_idle {s : Session} (idle : s.pending = none) (fuel : Nat) :
    s.poll fuel = (.ok none, s) := by
  rw [poll, idle]

theorem poll_of_pending {s : Session} {token : Token} (pending : s.pending = some token)
    (fuel : Nat) :
    s.poll fuel = settle none (s.interpreter.perform fuel (.go (.resume token))) := by
  rw [poll, pending]
  dsimp only [Interpreter.perform, Interpreter.control, settle]
  rcases s.interpreter.resume fuel token with ⟨fault | report, after⟩ <;> rfl

theorem pending_of_poll {fuel : Nat} {s after : Session}
    (polled : s.poll fuel = (.ok none, after)) : s.pending = none ∧ after = s := by
  cases pending : s.pending with
  | none =>
    rw [poll_of_idle pending] at polled
    cases polled
    exact ⟨rfl, rfl⟩
  | some token =>
    rw [poll, pending] at polled
    dsimp only at polled
    rcases resumed : s.interpreter.resume fuel token with ⟨fault | report, i⟩ <;>
      rw [resumed] at polled <;> cases polled

theorem settle_error {kept : Option Token}
    {performed : Option (Except Fault (Report Snapshot)) × Interpreter Network Snapshot}
    {fault : Fault} :
    (settle kept performed).1 = .error fault ↔ performed.1 = some (.error fault) := by
  rcases performed with ⟨_ | (_ | _), after⟩ <;> simp [settle, accept]

theorem settle_interpreter (kept : Option Token)
    (performed : Option (Except Fault (Report Snapshot)) × Interpreter Network Snapshot) :
    (settle kept performed).2.interpreter = performed.2 := by
  rcases performed with ⟨_ | (_ | _), after⟩ <;> rfl

/-- How a session goes on from an answer: emission by emission, until a poll finds nothing to run
or fails. -/
inductive Streams (depth : Nat) : Answer → List Emission → Except Fault Unit → Session → Prop where
  | failed (s : Session) {fault : Fault} (answered : fault ≠ .outOfFuel) :
    Streams depth (.error fault, s) [] (.error fault) s
  | ended (s : Session) : Streams depth (.ok none, s) [] (.ok ()) s
  | emitted {s after : Session} (emission : Emission) {emissions : List Emission}
    {ending : Except Fault Unit} (later : Streams depth (s.poll depth) emissions ending after) :
    Streams depth (.ok (some emission), s) (emission :: emissions) ending after

theorem streams_of_stream {depth fuel : Nat} {answer : Answer}
    (answered : (stream depth fuel answer).2.1 ≠ .error .outOfFuel) :
    Streams depth answer (stream depth fuel answer).1 (stream depth fuel answer).2.1
      (stream depth fuel answer).2.2 := by
  induction fuel generalizing answer with
  | zero => exact absurd rfl answered
  | succ fuel ih =>
    rcases answer with ⟨fault | _ | emission, s⟩
    · exact .failed s fun exhausted => answered (congrArg Except.error exhausted)
    · exact .ended s
    · exact .emitted emission (ih answered)

theorem streams_of_drain {fuel : Nat} {s : Session} {message : ControlMessage}
    (answered : (s.drain fuel message).1 ≠ .error .outOfFuel) :
    ∃ emissions ending, (s.drain fuel message).1 = ending.map (fun _ => emissions) ∧
      Streams fuel (s.handle fuel message) emissions ending (s.drain fuel message).2 := by
  refine ⟨_, _, rfl, streams_of_stream fun exhausted => answered ?_⟩
  exact congrArg (Except.map _) exhausted

inductive Refuses (i : Interpreter Network Snapshot) : ControlMessage → EvalError → Prop where
  | running (program : Program) (requested : Progress) (busy : i.isRunning = true) :
    Refuses i (.interprete program requested) .alreadyRunning
  | notStarted (requested : Progress) (unknown : i.program = none) :
    Refuses i (.updateRequestedProgress requested) .notStarted
  | halted (requested : Progress) (failed : i.halted = true) :
    Refuses i (.updateRequestedProgress requested) .halted

theorem refuses_of_refusal? {i : Interpreter Network Snapshot} {message : ControlMessage}
    {error : EvalError} (refused : i.refusal? message.command = some error) :
    Refuses i message error := by
  cases message with
  | interprete program requested =>
    simp only [ControlMessage.command, Interpreter.refusal?] at refused
    split at refused
    next busy =>
      cases refused
      exact .running program requested busy
    · cases refused
  | updateRequestedProgress requested =>
    simp only [ControlMessage.command, Interpreter.refusal?] at refused
    split at refused
    next unknown =>
      cases refused
      exact .notStarted requested (Option.isNone_iff_eq_none.mp unknown)
    · split at refused
      next failed =>
        cases refused
        exact .halted requested failed
      · cases refused
  | cancel => cases refused

theorem handle_of_running {s : Session} (running : s.interpreter.isRunning = true) (fuel : Nat)
    (program : Program) (requested : Progress) :
    s.handle fuel (.interprete program requested) = (.error (.error .alreadyRunning), s) := by
  have refused : s.interpreter.refusal? (.begin program requested) = some .alreadyRunning :=
    if_pos running
  rw [handle_eq, ControlMessage.command, Interpreter.perform_of_refused refused]
  rfl

structure InStep (config : HostConfig) (s : Session) : Prop where
  talk : ∃ past, Conversation (Scene.engine config.scene config.engine) past s.interpreter
  agree : s.interpreter.pending = s.pending.map Token.number

theorem agree_settle {x : Exchange Network Snapshot} (handled : x.Handled) {kept : Option Token}
    (refused : ∀ error, x.before.refusal? x.command = some error →
      x.before.pending = kept.map Token.number)
    (accepted : x.Accepted → kept = none) :
    x.after.pending = (settle kept (x.answer, x.after)).2.pending.map Token.number := by
  cases handled with
  | refused why answer after =>
    rw [answer, settle, accept, after]
    exact refused _ why
  | cancelled called answer after =>
    rw [answer, settle, after]
    rfl
  | stayed takenUp answer token running pending issued =>
    rw [answer, settle, accept, pending, token]
    rfl
  | handed takenUp answer token running pending issued =>
    rw [answer, settle, accept, pending, token]
    rfl
  | failed takenUp answer candid halted pending issued =>
    rw [answer, settle, accept, pending, accepted takenUp.accepted]
    rfl

section
variable {config : HostConfig} {s : Session} (inStep : s.InStep config)

include inStep

theorem InStep.recalls :
    ∃ past, Recalls (Scene.engine config.scene config.engine) past s.interpreter := by
  obtain ⟨past, talk⟩ := inStep.talk
  exact ⟨past, talk.recalls⟩

theorem InStep.candid : s.interpreter.engine.Candid := by
  obtain ⟨past, recalls⟩ := inStep.recalls
  rw [recalls.engine]
  exact Scene.engine_candid config.scene config.engine

theorem InStep.pending_iff (token : Token) :
    s.pending = some token ↔ s.interpreter.pending = some token.number := by
  rw [inStep.agree]
  cases s.pending with
  | none => simp
  | some other => cases token; cases other; simp

theorem InStep.pending_iff_accepted (token : Token) :
    s.pending = some token ↔ s.interpreter.refusal? (.go (.resume token)) = none := by
  obtain ⟨past, recalls⟩ := inStep.recalls
  rw [inStep.pending_iff]
  constructor
  · intro valid
    have running : s.interpreter.halted ≠ true := fun halted => by
      cases (recalls.quiet halted).symm.trans valid
    have known : s.interpreter.program.isNone ≠ true := fun unknown => by
      rw [Option.isNone_iff_eq_none] at unknown
      cases (recalls.idle unknown).1.symm.trans valid
    simp only [Interpreter.refusal?, if_neg running, valid, ne_eq, not_true_eq_false, if_false,
      if_neg known]
  · intro accepted
    have uses : Exchange.Uses ⟨s.interpreter, 0, .go (.resume token)⟩ token := ⟨accepted, rfl⟩
    exact uses.pending

/-- One call of the session on its interpreter. -/
theorem InStep.settle {fuel : Nat} {command : Command} {kept : Option Token}
    {answer : Except Fault (Option Emission)} {after : Session}
    (settled : Session.settle kept (s.interpreter.perform fuel command) = (answer, after))
    (answered : answer ≠ .error .outOfFuel)
    (refused : ∀ error, s.interpreter.refusal? command = some error →
      s.interpreter.pending = kept.map Token.number)
    (accepted : s.interpreter.refusal? command = none → kept = none) : after.InStep config := by
  have first : (Session.settle kept (s.interpreter.perform fuel command)).1 = answer :=
    congrArg Prod.fst settled
  have second : (Session.settle kept (s.interpreter.perform fuel command)).2 = after :=
    congrArg Prod.snd settled
  rw [← first, ne_eq, settle_error] at answered
  subst second
  obtain ⟨past, talk⟩ := inStep.talk
  constructor
  · rw [settle_interpreter]
    exact ⟨_, talk.called fuel command answered⟩
  · have handled : Exchange.Handled ⟨s.interpreter, fuel, command⟩ := Exchange.handled answered
    rw [settle_interpreter]
    exact agree_settle handled refused accepted

theorem InStep.handle {fuel : Nat} {message : ControlMessage}
    {answer : Except Fault (Option Emission)} {after : Session}
    (handled : s.handle fuel message = (answer, after)) (answered : answer ≠ .error .outOfFuel) :
    after.InStep config := by
  rw [handle_eq] at handled
  obtain ⟨past, recalls⟩ := inStep.recalls
  cases message with
  | interprete program requested =>
    refine inStep.settle handled answered (fun _ _ => inStep.agree) fun accepted => ?_
    have begins : Exchange.Begins ⟨s.interpreter, fuel, .begin program requested⟩ :=
      ⟨accepted, _, _, rfl⟩
    have free := begins.pending
    rw [inStep.agree, Option.map_eq_none_iff] at free
    exact free
  | updateRequestedProgress requested =>
    refine inStep.settle handled answered (fun error refused => ?_) fun _ => rfl
    -- the session has let go of its token, but a call that is refused here finds none valid
    cases refuses_of_refusal? refused with
    | notStarted _ unknown => exact (recalls.idle unknown).1
    | halted _ failed => exact recalls.quiet failed
  | cancel =>
    refine inStep.settle handled answered (fun error refused => ?_) fun _ => rfl
    cases refuses_of_refusal? refused

theorem InStep.poll {fuel : Nat} {answer : Except Fault (Option Emission)} {after : Session}
    (polled : s.poll fuel = (answer, after)) (answered : answer ≠ .error .outOfFuel) :
    after.InStep config := by
  cases pending : s.pending with
  | none =>
    rw [poll_of_idle pending] at polled
    cases polled
    exact inStep
  | some token =>
    rw [poll_of_pending pending] at polled
    refine inStep.settle polled answered (fun error refused => ?_) fun _ => rfl
    cases refused.symm.trans ((inStep.pending_iff_accepted token).mp pending)

theorem InStep.poll_error {fuel : Nat} {error : EvalError}
    (failed : (s.poll fuel).1 = .error (.error error)) : error.isRefusal = false := by
  cases pending : s.pending with
  | none =>
    rw [poll_of_idle pending] at failed
    cases failed
  | some token =>
    rw [poll_of_pending pending, settle_error] at failed
    have accepted := (inStep.pending_iff_accepted token).mp pending
    have handled : Exchange.Handled ⟨s.interpreter, fuel, .go (.resume token)⟩ :=
      Exchange.handled fun exhausted => by cases failed.symm.trans exhausted
    exact (handled.accepted_iff inStep.candid).mp accepted error failed

theorem InStep.refused_of_handle {fuel : Nat} {message : ControlMessage} {error : EvalError}
    (failed : (s.handle fuel message).1 = .error (.error error))
    (refusal : error.isRefusal = true) :
    s.interpreter.refusal? message.command = some error := by
  rw [handle_eq, settle_error] at failed
  cases why : s.interpreter.refusal? message.command with
  | some reason =>
    have same := Interpreter.perform_of_refused why fuel
    rw [same] at failed
    cases failed
    rfl
  | none =>
    have handled : Exchange.Handled ⟨s.interpreter, fuel, message.command⟩ :=
      Exchange.handled fun exhausted => by cases failed.symm.trans exhausted
    rw [(handled.accepted_iff inStep.candid).mp why error failed] at refusal
    cases refusal

end

theorem Streams.answered {depth : Nat} {answer : Answer} {emissions : List Emission}
    {ending : Except Fault Unit} {after : Session}
    (streams : Streams depth answer emissions ending after) : answer.1 ≠ .error .outOfFuel := by
  intro exhausted
  cases streams with
  | failed s answered =>
    cases exhausted
    exact answered rfl
  | ended s => cases exhausted
  | emitted emission later => cases exhausted

section
variable {config : HostConfig}

/-- Along a stream the session stays in step, and an error is that of the first answer or comes
from the program. -/
theorem Streams.inStep {depth : Nat} {answer : Answer} {emissions : List Emission}
    {ending : Except Fault Unit} {after : Session}
    (streams : Streams depth answer emissions ending after) (inStep : answer.2.InStep config) :
    after.InStep config ∧ ∀ error, ending = .error (.error error) →
      answer.1 = .error (.error error) ∧ after = answer.2 ∨ error.isRefusal = false := by
  induction streams with
  | failed s answered =>
    refine ⟨inStep, fun error ends => .inl ⟨?_, rfl⟩⟩
    cases ends
    rfl
  | ended s => exact ⟨inStep, fun error ends => by cases ends⟩
  | @emitted s after emission emissions ending later ih =>
    obtain ⟨inStep', ends⟩ := ih (inStep.poll rfl later.answered)
    refine ⟨inStep', fun error ending => .inr ?_⟩
    exact (ends error ending).elim (fun polled => inStep.poll_error polled.1) id

theorem map_error {γ δ : Type} {f : γ → δ} {outcome : Except Fault γ} {fault : Fault} :
    outcome.map f = .error fault ↔ outcome = .error fault := by
  cases outcome <;> simp [Except.map]

theorem InStep.perform {s : Session} (inStep : s.InStep config) {fuel : Nat} {request : Request}
    (answered : (s.perform fuel request).1 ≠ .error .outOfFuel) :
    (s.perform fuel request).2.InStep config := by
  cases request with
  | handle message =>
    exact inStep.handle rfl fun exhausted => answered (map_error.mpr exhausted)
  | poll => exact inStep.poll rfl fun exhausted => answered (map_error.mpr exhausted)
  | drain message =>
    obtain ⟨emissions, ending, _, streams⟩ := streams_of_drain answered
    exact (streams.inStep (inStep.handle rfl streams.answered)).1

theorem InStep.perform_refusal {s : Session} (inStep : s.InStep config) {fuel : Nat}
    {request : Request} {error : EvalError}
    (failed : (s.perform fuel request).1 = .error (.error error))
    (refusal : error.isRefusal = true) :
    ∃ message, (request = .handle message ∨ request = .drain message) ∧
      s.interpreter.refusal? message.command = some error ∧
      (s.perform fuel request).2 = (s.handle fuel message).2 := by
  cases request with
  | handle message =>
    exact ⟨message, .inl rfl, inStep.refused_of_handle (map_error.mp failed) refusal, rfl⟩
  | poll =>
    cases (inStep.poll_error (map_error.mp failed)).symm.trans refusal
  | drain message =>
    have answered : (s.drain fuel message).1 ≠ .error .outOfFuel := fun exhausted => by
      cases failed.symm.trans exhausted
    obtain ⟨emissions, ending, drained, streams⟩ := streams_of_drain answered
    have ends : ending = .error (.error error) := map_error.mp (drained.symm.trans failed)
    have handled : (s.handle fuel message).2.InStep config := inStep.handle rfl streams.answered
    rcases (streams.inStep handled).2 error ends with ⟨first, same⟩ | program
    · exact ⟨message, .inr rfl, inStep.refused_of_handle first refusal, same⟩
    · cases program.symm.trans refusal

theorem InStep.isIdle_eq {s : Session} (inStep : s.InStep config) :
    s.isIdle = !s.interpreter.isRunning := by
  rw [isIdle, Interpreter.isRunning, inStep.agree, Option.isSome_map, Option.not_isSome]

theorem Held.inStep {s : Session} (held : Held config s) : s.InStep config := by
  induction held with
  | opened clock => exact ⟨⟨[], .opened clock none⟩, rfl⟩
  | called held fuel request answered ih => exact ih.perform answered

end

/-- What holds of a session after any calls. -/
structure Custody (config : HostConfig) (s : Session) : Prop where
  valid : ∃ past, Conversation (Scene.engine config.scene config.engine) past s.interpreter ∧
    ∀ token, s.pending = some token ↔ Valid past token
  agree : s.interpreter.pending = s.pending.map Token.number
  accepted : ∀ token, s.pending = some token ↔
    s.interpreter.refusal? (.go (.resume token)) = none
  polls : ∀ fuel error, (s.poll fuel).1 = .error (.error error) → error.isRefusal = false
  neverStale : ∀ fuel request, (s.perform fuel request).1 ≠ .error (.error .staleResumption)
  idle_iff : ∀ fuel program requested, s.isIdle = true ↔
    (s.handle fuel (.interprete program requested)).1 ≠ .error (.error .alreadyRunning)
  turnedAway : ∀ fuel request, (s.perform fuel request).1 = .error (.error .alreadyRunning) →
    (s.perform fuel request).2 = s ∧
      ∀ later, (s.perform fuel request).2.answers later = s.answers later

theorem held_custody {config : HostConfig} {s : Session} (held : Held config s) :
    Custody config s where
  valid := by
    obtain ⟨past, talk⟩ := held.inStep.talk
    exact ⟨past, talk,
      fun token => (held.inStep.pending_iff token).trans (talk.recalls.valid token)⟩
  agree := held.inStep.agree
  accepted := held.inStep.pending_iff_accepted
  polls fuel error := held.inStep.poll_error
  neverStale fuel request failed := by
    obtain ⟨message, _, refused, _⟩ := held.inStep.perform_refusal failed rfl
    cases refuses_of_refusal? refused
  idle_iff fuel program requested := by
    rw [held.inStep.isIdle_eq, Bool.not_eq_true']
    constructor
    · intro free failed
      cases refuses_of_refusal? (held.inStep.refused_of_handle failed rfl) with
      | running _ _ busy => cases free.symm.trans busy
    · intro admitted
      rw [← Bool.not_eq_true]
      intro running
      rw [handle_of_running running] at admitted
      exact admitted rfl
  turnedAway fuel request failed := by
    have same : (s.perform fuel request).2 = s := by
      obtain ⟨message, _, refused, first⟩ := held.inStep.perform_refusal failed rfl
      cases refuses_of_refusal? refused with
      | running program requested busy => rw [first, handle_of_running busy]
    exact ⟨same, fun later => by rw [same]⟩

def begun : Session :=
  ((scene ⟨⟨0⟩, {}⟩ .still).perform 10 (.handle (.interprete Scene.waiting 10))).2

theorem begun_custody :
    Custody ⟨⟨0⟩, {}⟩ begun ∧ begun.pending = some ⟨1⟩ ∧ (begun.poll 10).2.pending = some ⟨2⟩ ∧
      (begun.handle 10 (.interprete Scene.waiting 5)).1 = .error (.error .alreadyRunning) := by
  have answered :
      ((scene ⟨⟨0⟩, {}⟩ .still).perform 10 (.handle (.interprete Scene.waiting 10))).1.isOk = true := by
    decide +kernel
  have held : Held ⟨⟨0⟩, {}⟩ begun := by
    refine .called (.opened .still) 10 (.handle (.interprete Scene.waiting 10)) fun exhausted => ?_
    rw [exhausted] at answered
    cases answered
  have running : begun.interpreter.isRunning = true := by decide +kernel
  refine ⟨held_custody held, by decide +kernel, by decide +kernel, ?_⟩
  rw [handle_of_running running]

end Session
end ProceduralScene
