import ProceduralScene.Proofs.Evaluation.Related
import ProceduralScene.Proofs.Queue.Freshness
import ProceduralScene.Scene.Basic

/-! What the operations of a scene read of a queue: the entries, and the networks that the cache
gives out. Whether two queues differ in anything else, such as sequence numbers or the cache
itself, no operation can tell. -/
namespace ProceduralScene

variable {α : Type}

theorem Queue.find?_eq (q : Queue α) (id : String) :
    q.find? id =
      match q.inFlight.find? (·.id == id) with
      | some entry => some (entry, .inFlight)
      | none => (q.results.find? (·.id == id)).map fun entry => (entry, .finished) := by
  simp only [Queue.find?, Queue.inFlight, List.find?_map, Function.comp_def]
  cases q.slots.find? (·.entry.id == id) <;> rfl

theorem Call.theQueue_some (call : Call α) (queue : Queue α) :
    { call with queue := some queue }.theQueue = pure queue := rfl

namespace Operation

variable {R : Queue α → Queue α → Prop}

theorem respects_ofStep (step : Call α → Except EvalError Step) :
    (ofStep step).withThis.Respects R :=
  fun _ _ _ related => ⟨rfl, related⟩

theorem respects_ofStep_withQueue {step : Call α → Except EvalError Step}
    (alike : ∀ (call : Call α) {q r : Queue α}, R q r →
      step { call with queue := some q } = step { call with queue := some r }) :
    (ofStep step).withThis.withQueue.Respects R :=
  fun call _ _ related => ⟨alike call related, related⟩

end Operation

variable [Holds α Network]

structure Scene.Indistinct (R : Queue α → Queue α → Prop) : Prop where
  inFlight : ∀ {q r}, R q r → q.inFlight = r.inFlight
  results : ∀ {q r}, R q r → q.results = r.results
  artifact : ∀ {q r}, R q r → ∀ kind,
    (Network.cached q kind).1.artifact = (Network.cached r kind).1.artifact
  cached : ∀ {q r}, R q r → ∀ kind, R (Network.cached q kind).2 (Network.cached r kind).2

namespace Surroundings

open Movement

/-- What `spawnOn` needs before it looks at the queue. -/
def spawnPlan (call : Call α) : Except EvalError (Motion × String × Nat) := do
  let m ← call.motion
  let kind ← call.textOr 0 "street"
  let amount ← fissionCount call 1 (← call.numberOr 1 1)
  return (m, kind, amount)

theorem spawnOn_some (retryDelay : Float) (call : Call α) (queue : Queue α) :
    spawnOn retryDelay { call with queue := some queue } =
      match spawnPlan call with
      | .error error => (.error error, some queue)
      | .ok (m, kind, amount) =>
        (spawnFrom retryDelay call m amount (Network.cached queue kind).1.artifact,
          some (Network.cached queue kind).2) := by
  have motion : { call with queue := some queue }.motion = call.motion := rfl
  have kind : { call with queue := some queue }.textOr 0 "street" = call.textOr 0 "street" := rfl
  have count : { call with queue := some queue }.numberOr 1 1 = call.numberOr 1 1 := rfl
  have limit (x : Float) :
      fissionCount { call with queue := some queue } 1 x = fissionCount call 1 x := rfl
  simp only [spawnOn, spawnPlan, motion, kind, count, limit, Call.theQueue_some]
  cases call.motion with
  | error error => rfl
  | ok m =>
    cases call.textOr 0 "street" with
    | error error => rfl
    | ok kind =>
      cases call.numberOr 1 1 with
      | error error => rfl
      | ok x =>
        cases h : fissionCount call 1 x with
        | error error => simp [h, bind, Except.bind]
        | ok amount => simp [h, bind, Except.bind]; rfl

theorem randomPointOn_some (call : Call α) (queue : Queue α) :
    randomPointOn { call with queue := some queue } =
      match call.text 0 with
      | .error error => (.error error, some queue)
      | .ok kind =>
        let point := (Network.cached queue kind).1.artifact.bind fun network =>
          (network.sample (pointKey call) 1).head?
        (.ok (.replace ((point.map Payload.point).getD .nil)),
          some (Network.cached queue kind).2) := by
  have kind : { call with queue := some queue }.text 0 = call.text 0 := rfl
  simp only [randomPointOn, kind, Call.theQueue_some]
  cases call.text 0 <;> rfl

variable {R : Queue α → Queue α → Prop} (indistinct : Scene.Indistinct R)

include indistinct

theorem follow_congr (retryDelay : Float) (call : Call α) {q r : Queue α} (related : R q r) :
    follow retryDelay { call with queue := some q } =
      follow retryDelay { call with queue := some r } := by
  have found (id : String) : q.find? id = r.find? id := by
    rw [q.find?_eq, r.find?_eq, indistinct.inFlight related, indistinct.results related]
  simp only [follow, Call.theQueue_some, pure_bind, found]
  rfl

theorem blocked_congr {q r : Queue α} (related : R q r) (radius time : Float) (place : Point) :
    blocked q radius time place = blocked r radius time place := by
  have slots (p : Entry → Bool) :
      (q.slots.any fun slot => p slot.entry) = r.slots.any fun slot => p slot.entry := by
    have same := congrArg (fun entries => entries.any p) (indistinct.inFlight related)
    simpa only [Queue.inFlight, List.any_map, Function.comp_def] using same
  simp only [blocked, indistinct.results related]
  congr 1
  exact slots fun entry => entry.payload.motion?.any fun other =>
    (other.positionAt time (timeStep + 0.001)).any fun at_ =>
      at_.distance place < other.radius + radius

theorem moveToAndDodge_congr (call : Call α) {q r : Queue α} (related : R q r) :
    moveToAndDodge { call with queue := some q } =
      moveToAndDodge { call with queue := some r } := by
  have same := blocked_congr indistinct related
  simp only [moveToAndDodge, Call.theQueue_some, pure_bind, same]
  rfl

theorem spawnOn_respects (retryDelay : Float) :
    Operation.Respects R {
      execute := spawnOn retryDelay, receivesThis := true, receivesQueue := true } := by
  intro call q r related
  simp only [Operation.answer, if_true, spawnOn_some]
  cases spawnPlan call with
  | error error => exact ⟨rfl, related⟩
  | ok plan =>
    refine ⟨?_, indistinct.cached related _⟩
    simp only [indistinct.artifact related]

theorem randomPointOn_respects :
    Operation.Respects R {
      execute := randomPointOn, receivesThis := true, receivesQueue := true } := by
  intro call q r related
  simp only [Operation.answer, if_true, randomPointOn_some]
  cases call.text 0 with
  | error error => exact ⟨rfl, related⟩
  | ok kind =>
    refine ⟨?_, indistinct.cached related kind⟩
    simp only [indistinct.artifact related]

end Surroundings

namespace Scene

theorem operation_of_get? (config : SceneConfig) {P : String × Operation Network → Prop}
    (motions : ∀ entry ∈ (motionOperations config.retryDelay).entries, P entry)
    (pathways : ∀ entry ∈ pathwayOperations.entries, P entry) {name : String}
    {operation : Operation Network} (found : (operations config).get? name = some operation) :
    P (name, operation) := by
  rcases Sorted.mem_of_mem_merge (Sorted.mem_of_get? found) with member | member
  · exact motions _ member
  · exact pathways _ member

theorem entries_pathwayOperations : pathwayOperations.entries = [
    ("pathwayFrom", (Operation.ofStep Paving.pathwayFrom).withThis),
    ("pathwayTo", (Operation.ofStep Paving.pathwayTo).withThis)] :=
  Sorted.entries_foldl (m := .empty) (by
    simp only [Sorted.empty, List.nil_append, List.pairwise_cons]
    decide)

theorem get?_operations (scene : SceneConfig) {name : String}
    (other : name ∉ ["pathwayFrom", "pathwayTo"]) :
    (operations scene).get? name = (motionOperations scene.retryDelay).get? name := by
  simp only [List.mem_cons, List.not_mem_nil, or_false, not_or] at other
  simp only [operations, Sorted.merge, entries_pathwayOperations, List.foldl_cons, List.foldl_nil,
    Sorted.get?_insert, other, if_false]

variable {R : Queue Network → Queue Network → Prop}

/-- No operation of a scene can tell indistinct queues apart. -/
theorem operations_respects (indistinct : Indistinct R) (config : SceneConfig) :
    (operations config).Respects R := by
  have motions : ∀ entry ∈ (motionOperations config.retryDelay).entries, entry.2.Respects R := by
    refine Sorted.forall_mem_ofList ?_
    simp only [List.forall_mem_cons]
    exact ⟨Operation.respects_ofStep _, Operation.respects_ofStep _, Operation.respects_ofStep _,
      Operation.respects_ofStep _, Operation.respects_ofStep _, Operation.respects_ofStep _,
      Operation.respects_ofStep_withQueue (Surroundings.follow_congr indistinct config.retryDelay),
      Surroundings.spawnOn_respects indistinct config.retryDelay,
      Operation.respects_ofStep_withQueue (Surroundings.moveToAndDodge_congr indistinct),
      Surroundings.randomPointOn_respects indistinct, by simp⟩
  have pathways : ∀ entry ∈ pathwayOperations.entries, entry.2.Respects R := by
    refine Sorted.forall_mem_ofList ?_
    simp only [List.forall_mem_cons]
    exact ⟨Operation.respects_ofStep _, Operation.respects_ofStep _, by simp⟩
  exact fun name operation found =>
    operation_of_get? config (P := fun entry => entry.2.Respects R) motions pathways found

theorem engine_progress (scene : SceneConfig) (config : EngineConfig) :
    (engine scene config).domain.progress = progress := by
  simp only [engine, domain]

theorem engine_operations (scene : SceneConfig) (config : EngineConfig) :
    (engine scene config).operations = operations scene := by
  simp only [engine]

end Scene
end ProceduralScene
