import ProceduralScene.Proofs.Evaluation.Termination
import ProceduralScene.Proofs.Scene.Replies

/-! Which nested expressions of a scene are evaluated to the end. An operation that waits for
something runs its own node again a little later. Inside an expression nothing else goes on in the
meantime, so what it waits for does not come, and it waits for ever. Only four operations run again,
and each of them can. -/
namespace ProceduralScene

open Evaluation

theorem Operation.Quiet.of_fulfils {α : Type} {operation : Operation α}
    {E : Call α → EvalError → Prop}
    (fulfils : ∀ call, Fulfils Step.Rests (E call) (operation.execute call).1) :
    operation.Quiet :=
  fun call => (fulfils call).imp (fun _ => id) fun _ _ => trivial

namespace Movement

variable {α : Type} {call : Call α} {m : Motion} {last : Keyframe}

theorem motion_of_this (moving : call.this = some (.motion m)) : call.motion = .ok m := by
  rw [Call.motion, moving]

theorem number_of_given {index : Nat} {x : Float}
    (given : call.parameters[index]? = some (.number x)) : call.number index = .ok x := by
  unfold Call.number Call.parameter?
  rw [given]
  rfl

theorem lastKeyframe_of_last? (reached : m.last? = some last) :
    lastKeyframe call m = .ok last := by
  rw [lastKeyframe, reached]

theorem last?_arrive (m : Motion) (last : Keyframe) (at_ : Point) (time : Float) (astId : String) :
    (arrive m last at_ time astId).last? =
      some ⟨at_.x, at_.y, at_.z, time, astId, last.speed⟩ := by
  simp only [arrive, Motion.last?, Array.back?_push]

theorem wait_ok (call : Call α) (moving : call.this = some (.motion m))
    (reached : m.last? = some last) {delay : Float}
    (given : call.parameters[0]? = some (.number delay)) :
    wait call = .ok (.replace (.motion
      (arrive m last last.position (last.time + delay) call.astId))) := by
  rw [wait, motion_of_this moving, number_of_given given]
  simp only [lastKeyframe_of_last? reached, bind, Except.bind]
  rfl

theorem moveTo_of_nothing {retryDelay : Float} (moving : call.this = some (.motion m))
    (nothing : call.parameters = []) : moveTo retryDelay call = .ok (retry call m retryDelay) := by
  simp only [moveTo, motion_of_this moving, nothing]
  rfl

end Movement

namespace Surroundings

open Movement

variable {α : Type} {call : Call α} {m : Motion} {last : Keyframe} {queue : Queue α}
  {retryDelay : Float}

theorem follow_of_absent (moving : call.this = some (.motion m))
    (reads : call.queue = some queue) {id : String} (given : call.parameters = [.text id])
    (reached : m.last? = some last) (absent : queue.find? id = none) :
    follow retryDelay call = .ok (retry call m retryDelay) := by
  have text : call.text 0 = .ok id := by
    simp only [Call.text, Call.parameter?, given]
    rfl
  have none (index : Nat) : call.numberOr (index + 1) 0 = .ok 0 := by
    simp only [Call.numberOr, Call.optionalNumber, Call.parameter?, given, List.getElem?_cons_succ,
      List.getElem?_nil]
    rfl
  simp only [follow, motion_of_this moving, text, none, bind, Except.bind,
    lastKeyframe_of_last? reached, Call.theQueue, reads, absent]
  rfl

theorem spawnOn_of_unpaved [Holds α Network] (moving : call.this = some (.motion m))
    (reads : call.queue = some queue) (given : call.parameters = [])
    (unpaved : (Network.cached queue "street").1.artifact = none) :
    spawnOn retryDelay call =
      (.ok (retry call m retryDelay), some (Network.cached queue "street").2) := by
  have kind : call.textOr 0 "street" = .ok "street" := by
    simp only [Call.textOr, Call.parameter?, given]
    rfl
  have amount : call.numberOr 1 1 = .ok 1 := by
    simp only [Call.numberOr, Call.optionalNumber, Call.parameter?, given]
    rfl
  have one : fissionCount call 1 1 = .ok (Binary64.truncate 1).toNat :=
    if_pos (by decide +kernel)
  simp only [spawnOn, motion_of_this moving, kind, amount, one, Call.theQueue, reads, bind,
    Except.bind, pure, Except.pure, unpaved]
  rfl

/-- So far from the origin that a time step towards it is lost to rounding. -/
def far : Point := ⟨1e100, 0, 0⟩

theorem stuck_far :
    let distance := far.distance ⟨0, 0, 0⟩
    let step := Binary64.lesser (timeStep * 1.5) distance
    (distance == 0) = false ∧ ¬distance ≤ step ∧ far.lerp ⟨0, 0, 0⟩ (step / distance) = far := by
  refine ⟨by decide +kernel, by decide +kernel, ?_⟩
  rw [Point.mk.injEq]
  decide +kernel

theorem moveToAndDodge_of_far (call : Call α) (moving : call.this = some (.motion m))
    (reads : call.queue = some queue)
    (given : call.parameters = [.number 0, .number 0, .number 0])
    (reached : m.last? = some last) (position : last.position = far) (speed : last.speed = 1.5) :
    ∃ time, moveToAndDodge call = .ok (.replaceThen (.motion (arrive m last far time call.astId))
      [.precomputed call.astId "moveToAndDodge" [.number 0, .number 0, .number 0]]) := by
  have target : threeNumbers call = .ok ⟨0, 0, 0⟩ := by
    have zero {index : Nat} (inside : index < 3) : call.number index = .ok 0 := by
      refine number_of_given ?_
      rw [given]
      match index, inside with
      | 0, _ | 1, _ | 2, _ => rfl
    rw [threeNumbers, zero (by decide), zero (by decide), zero (by decide)]
    rfl
  have positive : ¬(1.5 : Float) ≤ 0 := by decide +kernel
  obtain ⟨apart, beyond, stays⟩ := stuck_far
  refine ⟨last.time + Binary64.lesser (timeStep * 1.5) (far.distance ⟨0, 0, 0⟩) / 1.5, ?_⟩
  simp only [moveToAndDodge, motion_of_this moving, target, lastKeyframe_of_last? reached,
    Call.theQueue, reads, position, speed, positive, apart, beyond, stays, bind, Except.bind,
    if_false, ite_self, Bool.false_eq_true]
  rfl

end Surroundings

namespace Scene

open Movement Surroundings Paving

/-- The operations that run again what they cannot do yet, or not in one step. -/
def recurring : List String := ["moveTo", "follow", "spawnOn", "moveToAndDodge"]

theorem operations_quiet (scene : SceneConfig) {name : String} {operation : Operation Network}
    (once : name ∉ recurring) (found : (operations scene).get? name = some operation) :
    operation.Quiet := by
  have motions : ∀ entry ∈ (motionOperations scene.retryDelay).entries,
      entry.1 ∉ recurring → entry.2.Quiet := by
    refine Sorted.forall_mem_ofList ?_
    simp only [List.forall_mem_cons]
    have excluded {operation : Operation Network} {name : String} (recurs : name ∈ recurring) :
        name ∉ recurring → operation.Quiet := fun once => absurd recurs once
    exact ⟨excluded (by decide), fun _ => .of_fulfils fulfils_moveBy,
      fun _ => .of_fulfils fun call => fulfils_oneNumber call _,
      fun _ => .of_fulfils fun call => fulfils_oneNumber call _,
      fun _ => .of_fulfils fun call => fulfils_oneNumber call _,
      fun _ => .of_fulfils fulfils_clone, excluded (by decide), excluded (by decide),
      excluded (by decide), fun _ => .of_fulfils fun call => fulfils_randomPointOn call, by simp⟩
  have pathways : ∀ entry ∈ pathwayOperations.entries,
      entry.1 ∉ recurring → entry.2.Quiet := by
    refine Sorted.forall_mem_ofList ?_
    simp only [List.forall_mem_cons]
    exact ⟨fun _ => .of_fulfils fulfils_pathwayFrom,
      fun _ => .of_fulfils fulfils_pathwayTo, by simp⟩
  exact operation_of_get? scene (P := fun entry => entry.1 ∉ recurring → entry.2.Quiet) motions
    pathways found once

def Situated (Inv : Queue Network → Prop) (s : Scope Network) : Prop :=
  Inv s.queue ∧ ∃ m last, s.value.payload = .motion m ∧ m.last? = some last

section
variable {scene : SceneConfig} {ev : Evaluator Network} (own : ev.operations = operations scene)

include own

theorem on_motionOperation {name : String} {operation : Operation Network}
    (other : name ∉ ["pathwayFrom", "pathwayTo"])
    (found : (motionOperations scene.retryDelay).get? name = some operation)
    (node : Transformation) (parameters : List Payload) (s : Scope Network) :
    on (ev.invoke node name parameters) s =
      ((operation.execute (ev.call node name operation parameters s)).1.mapError Fault.error,
        { s with queue := (operation.execute
          (ev.call node name operation parameters s)).2.getD s.queue }) := by
  rw [Evaluator.on_invoke, own, get?_operations scene other, found]

theorem step_wait (resolve : Transformation → Evaluation Network Payload) (astId : String)
    (delay : Float) {s : Scope Network} {m : Motion} {last : Keyframe}
    (moving : s.value.payload = .motion m) (reached : m.last? = some last) :
    on (ev.step resolve (.precomputed astId "wait" [.number delay])) s =
      (.ok (.replace (.motion (arrive m last last.position (last.time + delay) astId))), s) := by
  have found : (motionOperations scene.retryDelay).get? "wait" =
      some (Operation.ofStep wait).withThis := by
    simp [motionOperations, Sorted.ofList, Sorted.get?_insert]
  have answered := wait_ok (ev.call (.precomputed astId "wait" [.number delay]) "wait"
    (Operation.ofStep wait).withThis [.number delay] s) (congrArg some moving) reached rfl
  have invoked := on_motionOperation own (by decide) found
    (.precomputed astId "wait" [.number delay]) [.number delay] s
  simp only [Operation.ofStep, Operation.withThis] at answered invoked
  rw [answered] at invoked
  exact invoked

theorem on_wait (fuel : Nat) (astId : String) (delay : Float) {s : Scope Network} {m : Motion}
    {last : Keyframe} (moving : s.value.payload = .motion m) (reached : m.last? = some last) :
    on (ev.evaluate (fuel + 1) (.precomputed astId "wait" [.number delay])) s =
      (.ok (), { s with value := { s.value with
        payload := .motion (arrive m last last.position (last.time + delay) astId) } }) := by
  rw [Evaluator.on_evaluate_succ, step_wait own _ astId delay moving reached]
  rfl

theorem exhausted_of_retry {node : Transformation} {Inv : Queue Network → Prop}
    (retries : ∀ depth (s : Scope Network) m last, Inv s.queue → s.value.payload = .motion m →
      m.last? = some last → ∃ queue astId delay, Inv queue ∧
        on (ev.step (ev.resolve depth) node) s =
          (.ok (.replaceThen (.motion m) [.precomputed astId "wait" [.number delay], node]),
            { s with queue }))
    (fuel : Nat) {s : Scope Network} (situated : Situated Inv s) :
    (on (ev.evaluate fuel node) s).1 = .error .outOfFuel := by
  refine Evaluator.exhausted_of_again (fun fuel s ⟨inv, m, last, moving, reached⟩ => ?_) fuel
    situated
  obtain ⟨queue, astId, delay, inv', stepped⟩ := retries fuel s m last inv moving reached
  rw [Evaluator.on_evaluate_succ, stepped]
  cases fuel with
  | zero => exact .inl rfl
  | succ fuel =>
    have waited := on_wait own fuel astId delay
      (s := { s with queue, value := { s.value with payload := .motion m } }) rfl reached
    refine .inr ⟨{ s with
      queue
      value := { s.value with
        payload := .motion (arrive m last last.position (last.time + delay) astId) } },
      ⟨inv', _, _, rfl, last?_arrive m last last.position (last.time + delay) astId⟩, ?_⟩
    dsimp only [Step.replaceThen, Option.getD]
    rw [on_forM_cons, waited]
    exact Evaluator.on_forM_last _ _ _

theorem exhausted_of_call {node : Transformation} {name : String} {operation : Operation Network}
    (parameters : List Payload) {Inv : Queue Network → Prop}
    (other : name ∉ ["pathwayFrom", "pathwayTo"])
    (found : (motionOperations scene.retryDelay).get? name = some operation)
    (called : ∀ depth s, on (ev.step (ev.resolve depth) node) s =
      on (ev.invoke node name parameters) s)
    (retries : ∀ (s : Scope Network) m last, Inv s.queue → s.value.payload = .motion m →
      m.last? = some last → ∃ queue, Inv (queue.getD s.queue) ∧
        operation.execute (ev.call node name operation parameters s) =
          (.ok (retry (ev.call node name operation parameters s) m scene.retryDelay), queue))
    (fuel : Nat) {s : Scope Network} (situated : Situated Inv s) :
    (on (ev.evaluate fuel node) s).1 = .error .outOfFuel := by
  refine exhausted_of_retry own (fun depth s m last inv moving reached => ?_) fuel situated
  obtain ⟨queue, inv', answered⟩ := retries s m last inv moving reached
  refine ⟨queue.getD s.queue, node.astId, scene.retryDelay, inv', ?_⟩
  rw [called, on_motionOperation own other found, answered]
  rfl

theorem exhausted_moveTo (fuel : Nat) {s : Scope Network} (situated : Situated (fun _ => True) s) :
    (on (ev.evaluate fuel (.operation "go" "moveTo" [])) s).1 = .error .outOfFuel := by
  have found : (motionOperations scene.retryDelay).get? "moveTo" =
      some (Operation.ofStep (moveTo scene.retryDelay)).withThis := by
    simp [motionOperations, Sorted.ofList, Sorted.get?_insert]
  refine exhausted_of_call own [] (by decide) found (fun _ _ => rfl)
    (fun s m last _ moving _ => ⟨none, trivial, ?_⟩) fuel situated
  refine Prod.ext ?_ rfl
  exact moveTo_of_nothing (congrArg some moving) rfl

theorem exhausted_follow (fuel : Nat) {s : Scope Network}
    (situated : Situated (fun queue => queue.find? "nobody" = none) s) :
    (on (ev.evaluate fuel (.precomputed "after" "follow" [.text "nobody"])) s).1 =
      .error .outOfFuel := by
  have found : (motionOperations scene.retryDelay).get? "follow" =
      some (Operation.ofStep (follow scene.retryDelay)).withThis.withQueue := by
    simp [motionOperations, Sorted.ofList, Sorted.get?_insert]
  refine exhausted_of_call own [.text "nobody"] (by decide) found (fun _ _ => rfl)
    (fun s m last absent moving reached => ⟨some s.queue, absent, ?_⟩) fuel situated
  refine Prod.ext ?_ rfl
  exact follow_of_absent (congrArg some moving) rfl rfl reached absent

theorem exhausted_spawnOn (fuel : Nat) {s : Scope Network}
    (situated : Situated (fun queue => queue.results = #[] ∧
      queue.Fresh (Network.cacheKey "street") (Network.isSource "street")
        (Network.build "street")) s) :
    (on (ev.evaluate fuel (.precomputed "place" "spawnOn" [])) s).1 = .error .outOfFuel := by
  have found : (motionOperations scene.retryDelay).get? "spawnOn" = some {
      execute := spawnOn scene.retryDelay, receivesThis := true, receivesQueue := true } := by
    simp [motionOperations, Sorted.ofList, Sorted.get?_insert]
  refine exhausted_of_call own [] (by decide) found (fun _ _ => rfl)
    (fun s m last unpaved moving reached => ?_) fuel situated
  have fresh := unpaved.2
  have nothing : (Network.cached s.queue "street").1.artifact = none := by
    rw [Network.cached, Queue.cached_artifact fresh, unpaved.1]
    rfl
  refine ⟨some (Network.cached s.queue "street").2, ⟨?_, Queue.fresh_cached fresh⟩, ?_⟩
  · exact (Queue.results_cached _ _ _ _).trans unpaved.1
  · exact spawnOn_of_unpaved (congrArg some moving) rfl rfl nothing

theorem exhausted_moveToAndDodge (fuel : Nat) {s : Scope Network} {m : Motion} {last : Keyframe}
    (moving : s.value.payload = .motion m) (reached : m.last? = some last)
    (position : last.position = far) (speed : last.speed = 1.5) :
    (on (ev.evaluate fuel (.precomputed "on" "moveToAndDodge"
      [.number 0, .number 0, .number 0])) s).1 = .error .outOfFuel := by
  have found : (motionOperations scene.retryDelay).get? "moveToAndDodge" =
      some (Operation.ofStep moveToAndDodge).withThis.withQueue := by
    simp [motionOperations, Sorted.ofList, Sorted.get?_insert]
  let node : Transformation := .precomputed "on" "moveToAndDodge" [.number 0, .number 0, .number 0]
  let Stuck (s : Scope Network) : Prop := ∃ m last, s.value.payload = .motion m ∧
    m.last? = some last ∧ last.position = far ∧ last.speed = 1.5
  have stuck : Stuck s := ⟨m, last, moving, reached, position, speed⟩
  refine Evaluator.exhausted_of_again
    (fun fuel s ⟨m, last, moving, reached, position, speed⟩ => .inr ?_) fuel stuck
  have stepped := on_motionOperation own (by decide) found node
    [.number 0, .number 0, .number 0] s
  obtain ⟨time, answered⟩ := moveToAndDodge_of_far (ev.call node "moveToAndDodge"
    (Operation.ofStep moveToAndDodge).withThis.withQueue [.number 0, .number 0, .number 0] s)
    (congrArg some moving) rfl rfl reached position speed
  rw [show (Operation.ofStep moveToAndDodge).withThis.withQueue.execute _ = (_, _) from
    Prod.ext answered rfl] at stepped
  refine ⟨{ s with value := { s.value with payload := .motion (arrive m last far time "on") } },
    ⟨_, _, rfl, last?_arrive m last far time "on", rfl, speed⟩, ?_⟩
  rw [Evaluator.on_evaluate_succ, show on (ev.step (ev.resolve fuel) node) s = _ from stepped]
  exact Evaluator.on_forM_last _ _ _

end

def outpost : Motion := ⟨#[⟨far.x, far.y, far.z, 0, "", 1.5⟩], none, 1, "pedestrian"⟩

def stranded : Scope Network where
  value := ⟨.motion outpost, .empty⟩

theorem last?_outpost : outpost.last? = some ⟨far.x, far.y, far.z, 0, "", 1.5⟩ := rfl

theorem situated_stranded {Inv : Queue Network → Prop} (fits : Inv .empty) :
    Situated Inv stranded :=
  ⟨fits, outpost, _, rfl, last?_outpost⟩

theorem exists_exhausted (scene : SceneConfig) (program : Program) (id seed : String)
    {name : String} (recurs : name ∈ recurring) :
    ∃ node : Transformation, node.Names (· = name) ∧
      ∀ fuel, (on (Evaluator.evaluate ⟨program, operations scene, id, seed⟩ fuel node) stranded).1 =
        .error .outOfFuel := by
  have alone {node : Transformation} (leaf : node.nodes = [node])
      (named : node.identifier? = some name) : node.Names (· = name) := by
    intro inner below name' named'
    rw [leaf, List.mem_singleton] at below
    rw [below, named] at named'
    exact (Option.some.inj named').symm
  have own : (Evaluator.mk program (operations scene) id seed).operations = operations scene := rfl
  simp only [recurring, List.mem_cons, List.not_mem_nil, or_false] at recurs
  rcases recurs with rfl | rfl | rfl | rfl
  · exact ⟨_, alone rfl rfl, fun fuel => exhausted_moveTo own fuel (situated_stranded trivial)⟩
  · exact ⟨_, alone rfl rfl, fun fuel => exhausted_follow own fuel (situated_stranded rfl)⟩
  · exact ⟨_, alone rfl rfl, fun fuel => exhausted_spawnOn own fuel
      (situated_stranded ⟨rfl, fun _ found => nomatch found⟩)⟩
  · exact ⟨_, alone rfl rfl, fun fuel =>
      exhausted_moveToAndDodge own fuel rfl last?_outpost rfl rfl⟩

/-- Nested expressions are all evaluated to the end exactly where they name none of the operations
that run again. -/
theorem resolve_finishes_iff (allowed : String → Prop) :
    (∀ (scene : SceneConfig) (program : Program), program.Acyclic → program.Names allowed →
      ∀ node : Transformation, node.Names allowed → ∀ id seed (s : Scope Network),
        ∃ fuel, (on (Evaluator.resolve ⟨program, operations scene, id, seed⟩ fuel node) s).1 ≠
          .error .outOfFuel) ↔
      ∀ name ∈ recurring, ¬allowed name := by
  constructor
  · intro finishes name recurs named
    obtain ⟨node, names, exhausted⟩ := exists_exhausted {} .empty "0" "" recurs
    have allows : node.Names allowed := fun inner below name' named' =>
      names inner below name' named' ▸ named
    obtain ⟨fuel, finished⟩ := finishes {} .empty Program.acyclic_empty
      (fun _ _ _ known => nomatch known) node allows "0" "" stranded
    exact finished (exhausted_scratch.mpr (exhausted fuel))
  · intro once scene program acyclic program_names node names id seed s
    let ev : Evaluator Network := ⟨program, operations scene, id, seed⟩
    have quiet (name : String) (operation : Operation Network) (named : allowed name)
        (found : ev.operations.get? name = some operation) : operation.Quiet :=
      operations_quiet scene (fun recurs => once name recurs named) found
    obtain ⟨fuel, answers⟩ := Evaluator.finishes_of_acyclic quiet acyclic program_names names
    exact ⟨fuel, answers.scratch s⟩

/-- A motion that is told to move but not where to: the program refers to nothing, and yet no fuel
suffices. -/
theorem moveTo_nothing_exhausts :
    Program.Acyclic .empty ∧ ∀ fuel,
      (on (Evaluator.resolve ⟨.empty, operations {}, "0", ""⟩ fuel (.operation "go" "moveTo" []))
        stranded).1 = .error .outOfFuel := by
  have own : (Evaluator.mk .empty (operations {}) "0" "").operations = operations {} := rfl
  refine ⟨Program.acyclic_empty, fun fuel => exhausted_scratch.mpr ?_⟩
  exact exhausted_moveTo own fuel (situated_stranded trivial)

end Scene
end ProceduralScene
