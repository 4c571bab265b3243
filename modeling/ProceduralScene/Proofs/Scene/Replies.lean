import ProceduralScene.Proofs.Interpreter.Refusal
import ProceduralScene.Proofs.Scene.Operations

/-! What the operations of a scene answer. An operation that fails names the node that called it.
One that goes on with further nodes and does not read the queue goes on with the calling node itself
or with a wait. -/
namespace ProceduralScene

variable {α : Type}

def Call.Sited (call : Call α) (error : EvalError) : Prop := error.site? = some call.astId

def Call.Waits (call : Call α) (step : Step) : Prop :=
  ∀ next ∈ step.nodes, next = call.node ∨ ∃ delay, next = .precomputed call.astId "wait" [delay]

/-- A call that rests, runs its node once more, or waits for the delay and tries again with the
motion as it is. -/
def Call.Awaits (call : Call α) (delay : Float) (step : Step) : Prop :=
  step.Rests ∨ step.nodes = [call.node] ∨
    ∃ m, call.this = some (.motion m) ∧ step = Movement.retry call m delay

namespace Call

structure Tolerates (call : Call α) (E : EvalError → Prop) : Prop where
  parameter : ∀ index message, E (call.parameterError index message)
  payload : ∀ expected, E (call.payloadMismatch expected)
  queue : E (.invalidProgram call.astId
    ("operation " ++ EvalError.quoted call.identifier ++ " did not request the queue"))

theorem sited (call : Call α) : call.Tolerates call.Sited where
  parameter _ _ := rfl
  payload _ := rfl
  queue := rfl

namespace Tolerates

variable {call : Call α} {E : EvalError → Prop} (tolerates : call.Tolerates E)

include tolerates

theorem number (index : Nat) : Fulfils (fun _ => True) E (call.number index) := by
  unfold Call.number
  split
  · trivial
  · exact tolerates.parameter _ _
  · exact tolerates.parameter _ _

theorem optionalNumber (index : Nat) : Fulfils (fun _ => True) E (call.optionalNumber index) := by
  unfold Call.optionalNumber
  split
  · trivial
  · exact (tolerates.number index).bind fun _ _ => trivial

theorem numberOr (index : Nat) (default : Float) :
    Fulfils (fun _ => True) E (call.numberOr index default) :=
  (tolerates.optionalNumber index).bind fun _ _ => trivial

theorem text (index : Nat) : Fulfils (fun _ => True) E (call.text index) := by
  unfold Call.text
  split
  · trivial
  · trivial
  · exact tolerates.parameter _ _
  · exact tolerates.parameter _ _

theorem textOr (index : Nat) (default : String) :
    Fulfils (fun _ => True) E (call.textOr index default) := by
  unfold Call.textOr
  split
  · trivial
  · exact tolerates.text index

theorem motion : Fulfils (fun m => call.this = some (.motion m)) E call.motion := by
  unfold Call.motion
  split
  next m given => exact given
  · exact tolerates.payload _

theorem pathway : Fulfils (fun p => call.this = some (.pathway p)) E call.pathway := by
  unfold Call.pathway
  split
  next p given => exact given
  · exact tolerates.payload _

theorem theQueue : Fulfils (fun _ => True) E call.theQueue := by
  unfold Call.theQueue
  split
  · trivial
  · exact tolerates.queue

theorem threeNumbers : Fulfils (fun _ => True) E (Movement.threeNumbers call) :=
  (tolerates.number 0).bind fun _ _ => (tolerates.number 1).bind fun _ _ =>
    (tolerates.number 2).bind fun _ _ => trivial

theorem fissionCount (index : Nat) (amount : Float) :
    Fulfils (fun _ => True) E (Movement.fissionCount call index amount) := by
  unfold Movement.fissionCount
  split
  · trivial
  · exact tolerates.parameter _ _

theorem point : Fulfils (fun _ => True) E (Paving.point call) :=
  (tolerates.number 0).bind fun _ _ => (tolerates.number 1).bind fun _ _ =>
    (tolerates.number 2).bind fun _ _ => trivial

end Tolerates

theorem waits_of_rests (call : Call α) {step : Step} (rests : step.Rests) : call.Waits step := by
  rw [Waits, show step.nodes = [] from rests]
  exact nofun

end Call

namespace Movement

variable (call : Call α)

theorem fulfils_lastKeyframe (m : Motion) :
    Fulfils (fun _ => True) call.Sited (lastKeyframe call m) := by
  unfold lastKeyframe
  split <;> trivial

theorem waits_of_awaits {delay : Float} {step : Step} (awaits : call.Awaits delay step) :
    call.Waits step := by
  intro next member
  rcases awaits with rests | again | ⟨m, -, rfl⟩
  · exact call.waits_of_rests rests next member
  · rw [again] at member
    exact .inl (List.mem_singleton.mp member)
  · rcases List.mem_cons.mp member with rfl | member
    · exact .inr ⟨_, rfl⟩
    · exact .inl (List.mem_singleton.mp member)

theorem awaits_moveTo (retryDelay : Float) :
    Fulfils (call.Awaits retryDelay) call.Sited (moveTo retryDelay call) := by
  refine call.sited.motion.bind fun m moving => ?_
  have go (target : Point) (duration : Option Float) :
      Fulfils (call.Awaits retryDelay) call.Sited (do
        let last ← lastKeyframe call m
        let duration := duration.getD (travelTime (last.position.distance target) last.speed)
        return .replace (.motion (arrive m last target (last.time + duration) call.astId))) :=
    (fulfils_lastKeyframe call m).bind fun _ _ => .inl rfl
  dsimp only
  split
  · exact (call.sited.optionalNumber 1).bind fun duration _ => go _ duration
  · exact call.sited.threeNumbers.bind fun target _ =>
      (call.sited.optionalNumber 3).bind fun duration _ => go target duration
  · exact .inr (.inr ⟨m, moving, rfl⟩)
  · exact .inr (.inr ⟨m, moving, rfl⟩)
  · rfl

theorem fulfils_moveBy : Fulfils Step.Rests call.Sited (moveBy call) :=
  call.sited.motion.bind fun m _ => call.sited.threeNumbers.bind fun _ _ =>
    (fulfils_lastKeyframe call m).bind fun _ _ => rfl

theorem fulfils_oneNumber (moved : Motion → Float → Keyframe → Payload) :
    Fulfils Step.Rests call.Sited (do
      let m ← call.motion
      let x ← call.number 0
      let last ← lastKeyframe call m
      return .replace (moved m x last)) :=
  call.sited.motion.bind fun m _ => (call.sited.number 0).bind fun _ _ =>
    (fulfils_lastKeyframe call m).bind fun _ _ => rfl

theorem fulfils_clone : Fulfils Step.Rests call.Sited (clone call) :=
  call.sited.motion.bind fun _ _ => (call.sited.number 0).bind fun amount _ =>
    (call.sited.fissionCount 0 amount).bind fun _ _ => rfl

end Movement

namespace Surroundings

open Movement

variable (call : Call α)

theorem takeOver_empty (m : Motion) (last : Keyframe) {copied : Array Keyframe}
    (nothing : copied.isEmpty = true) : takeOver m last copied = m := by
  obtain rfl : copied = #[] := Array.isEmpty_iff.mp nothing
  simp [takeOver]

theorem awaits_follow (retryDelay : Float) :
    Fulfils (call.Awaits retryDelay) call.Sited (follow retryDelay call) := by
  refine call.sited.motion.bind fun m moving => (call.sited.text 0).bind fun id _ => ?_
  refine (call.sited.numberOr 1 0).bind fun _ _ => (call.sited.numberOr 2 0).bind fun _ _ => ?_
  refine (call.sited.numberOr 3 0).bind fun _ _ => ?_
  refine (fulfils_lastKeyframe call m).bind fun last _ => ?_
  refine call.sited.theQueue.bind fun queue _ => ?_
  split
  · split
    · exact .inl rfl
    · dsimp only
      split
      · exact .inr (.inl rfl)
      next gains =>
        refine .inr (.inr ⟨m, moving, ?_⟩)
        rw [takeOver_empty m last (by simpa using gains)]
  · exact .inr (.inr ⟨m, moving, rfl⟩)

theorem awaits_spawnOn [Holds α Network] (retryDelay : Float) :
    Fulfils (call.Awaits retryDelay) call.Sited (spawnOn retryDelay call).1 := by
  have prepared : Fulfils (fun plan => call.this = some (.motion plan.1)) call.Sited (do
      let m ← call.motion
      let kind ← call.textOr 0 "street"
      let amount ← fissionCount call 1 (← call.numberOr 1 1)
      return (m, kind, amount, ← call.theQueue)) :=
    call.sited.motion.bind fun _ moving => (call.sited.textOr 0 "street").bind fun _ _ =>
      (call.sited.numberOr 1 1).bind fun amount _ =>
        (call.sited.fissionCount 1 amount).bind fun _ _ =>
          call.sited.theQueue.bind fun _ _ => moving
  unfold spawnOn
  dsimp only
  split
  next error failed =>
    rw [failed] at prepared
    exact prepared
  next m kind amount queue planned =>
    rw [planned] at prepared
    cases (Network.cached queue kind).1.artifact with
    | none => exact .inr (.inr ⟨m, prepared, rfl⟩)
    | some network => exact (fulfils_lastKeyframe call m).bind fun _ _ => .inl rfl

theorem fulfils_randomPointOn [Holds α Network] :
    Fulfils Step.Rests call.Sited (randomPointOn call).1 := by
  have prepared : Fulfils (fun _ => True) call.Sited (do
      let kind ← call.text 0
      return (kind, ← call.theQueue)) :=
    (call.sited.text 0).bind fun _ _ => call.sited.theQueue.bind fun _ _ => trivial
  unfold randomPointOn
  dsimp only
  split
  next error failed =>
    rw [failed] at prepared
    exact prepared
  · rfl

theorem fulfils_moveToAndDodge : Fulfils (fun _ => True) call.Sited (moveToAndDodge call) := by
  refine call.sited.motion.bind fun m _ => call.sited.threeNumbers.bind fun _ _ => ?_
  refine (fulfils_lastKeyframe call m).bind fun last _ => ?_
  dsimp only
  split
  · rfl
  · refine call.sited.theQueue.bind fun queue _ => ?_
    split <;> trivial

end Surroundings

namespace Paving

variable (call : Call α)

theorem fulfils_pathwayFrom : Fulfils Step.Rests call.Sited (pathwayFrom call) :=
  call.sited.pathway.bind fun _ _ => call.sited.point.bind fun _ _ => rfl

theorem fulfils_pathwayTo : Fulfils Step.Rests call.Sited (pathwayTo call) :=
  call.sited.pathway.bind fun _ _ => call.sited.point.bind fun _ _ => rfl

end Paving

/-- An operation that fails only at its node, and only waits unless it reads the queue. -/
def Operation.Settles (operation : Operation α) : Prop :=
  ∀ call, Fulfils (fun step => operation.receivesQueue = false → call.Waits step) call.Sited
    (operation.execute call).1

theorem Operation.Settles.ofStep {step : Call α → Except EvalError Step}
    (fulfils : ∀ call, Fulfils call.Waits call.Sited (step call)) :
    (Operation.ofStep step).withThis.Settles :=
  fun call => (fulfils call).imp (fun _ waits _ => waits) fun _ sited => sited

theorem Operation.Settles.ofResting {step : Call α → Except EvalError Step}
    (fulfils : ∀ call, Fulfils Step.Rests call.Sited (step call)) :
    (Operation.ofStep step).withThis.Settles :=
  .ofStep fun call => (fulfils call).imp (fun _ => call.waits_of_rests) fun _ sited => sited

theorem Operation.Settles.ofReader {operation : Operation α}
    (reads : operation.receivesQueue = true)
    (fulfils : ∀ call, Fulfils (fun _ => True) call.Sited (operation.execute call).1) :
    operation.Settles :=
  fun call => (fulfils call).imp (fun _ _ blind => by cases reads.symm.trans blind)
    fun _ sited => sited

namespace Scene

open Movement Surroundings Paving

theorem operations_settle (config : SceneConfig) {name : String} {operation : Operation Network}
    (found : (operations config).get? name = some operation) : operation.Settles := by
  have motions : ∀ entry ∈ (motionOperations config.retryDelay).entries, entry.2.Settles := by
    refine Sorted.forall_mem_ofList ?_
    simp only [List.forall_mem_cons]
    exact ⟨.ofStep fun call =>
        (awaits_moveTo call config.retryDelay).imp (fun _ => waits_of_awaits call) fun _ sited => sited,
      .ofResting fulfils_moveBy, .ofResting fun call => fulfils_oneNumber call _,
      .ofResting fun call => fulfils_oneNumber call _,
      .ofResting fun call => fulfils_oneNumber call _, .ofResting fulfils_clone,
      .ofReader rfl fun call =>
        (awaits_follow call config.retryDelay).imp (fun _ _ => trivial) fun _ sited => sited,
      .ofReader rfl fun call =>
        (awaits_spawnOn call config.retryDelay).imp (fun _ _ => trivial) fun _ sited => sited,
      .ofReader rfl fulfils_moveToAndDodge,
      .ofReader rfl fun call =>
        (fulfils_randomPointOn call).imp (fun _ _ => trivial) fun _ sited => sited, by simp⟩
  have pathways : ∀ entry ∈ pathwayOperations.entries, entry.2.Settles := by
    refine Sorted.forall_mem_ofList ?_
    simp only [List.forall_mem_cons]
    exact ⟨.ofResting fulfils_pathwayFrom, .ofResting fulfils_pathwayTo, by simp⟩
  exact operation_of_get? config (P := fun entry => entry.2.Settles) motions pathways found

theorem fulfils_create (vars : Variables) (astId : String) :
    Fulfils (fun _ => True) (fun error => error.isRefusal = false)
      (Payload.create vars astId) := by
  have motion (kind : String) :
      Fulfils (fun _ => True) (fun error => error.isRefusal = false)
        (Motion.create kind vars astId) := by
    unfold Motion.create
    split <;> trivial
  have made (kind : String) :
      Fulfils (fun _ => True) (fun error => error.isRefusal = false) (do
        if kind = "street" ∨ kind = "footwalk" then
          return Payload.pathway (Pathway.create kind vars astId)
        else return .motion (← Motion.create kind vars astId)) := by
    split
    · trivial
    · exact (motion kind).bind fun _ _ => trivial
  unfold Payload.create
  split
  · exact made "pedestrian"
  · exact made "pedestrian"
  · exact made _
  · rfl

theorem engine_candid (scene : SceneConfig) (config : EngineConfig) :
    (engine scene config).Candid where
  creates vars astId error failed := by
    have created := fulfils_create vars astId
    change Payload.create vars astId = .error error at failed
    rw [failed] at created
    exact created
  calls name operation found call error failed := by
    have settles := operations_settle scene found call
    rw [failed] at settles
    exact EvalError.not_refusal_of_site (by rw [settles]; rfl)

end Scene
end ProceduralScene
