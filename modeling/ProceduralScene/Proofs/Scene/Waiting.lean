import ProceduralScene.Proofs.Binary64.Arithmetic
import ProceduralScene.Proofs.Evaluation.Assignment
import ProceduralScene.Proofs.Interpreter.Turn
import ProceduralScene.Proofs.Json.Inverse
import ProceduralScene.Proofs.Json.Settings
import ProceduralScene.Proofs.Scene.Retrying

/-! What waiting brings. An operation that lacks something waits for the delay of the settings and
runs again. The settings see to it that the delay is positive. But a positive delay may be lost when
it is added to a time, and then the entry waits for ever at that time. -/
namespace ProceduralScene

namespace SceneConfig

def Delays (scene : SceneConfig) : Prop :=
  scene.retryDelay.isFinite = true ∧ 0 < Binary64.units scene.retryDelay

theorem delays_of_accepted {json : Json} {scene : SceneConfig}
    (accepted : ofJson json = .ok scene) : scene.Delays := by
  refine Settings.keeps_ofJson (fun field known s value changed delays change => ?_)
    ⟨by decide +kernel, by decide +kernel⟩ accepted
  simp only [fields, List.mem_cons, List.not_mem_nil, or_false] at known
  rcases known with rfl | rfl <;>
    rcases read : value.number? with _ | x <;>
    simp only [positiveSeconds, read, Settings.required, bind, Except.bind] at change
  · cases change
  · cases change
    exact delays
  · cases change
  · split_ifs at change with positive
    cases change
    have above := (Binary64.lt_iff.mp positive).1
    rw [Binary64.units_zero] at above
    exact ⟨Json.isFinite_of_number? read, above⟩

end SceneConfig

/-- An operation that runs on only by waiting, or by running its own node again. -/
def Operation.Awaits {α : Type} (operation : Operation α) (delay : Float) : Prop :=
  ∀ call, Fulfils (call.Awaits delay) call.Sited (operation.execute call).1

namespace Scene

open Evaluation Engine Movement Surroundings

def awaiting : List String := ["moveTo", "follow", "spawnOn"]

theorem operation_awaits (scene : SceneConfig) {name : String} (waits : name ∈ awaiting)
    {operation : Operation Network} (found : (operations scene).get? name = some operation) :
    operation.Awaits scene.retryDelay := by
  have excluded {operation : Operation Network} {name : String} (other : name ∉ awaiting) :
      name ∈ awaiting → operation.Awaits scene.retryDelay := fun waits => absurd waits other
  have motions : ∀ entry ∈ (motionOperations scene.retryDelay).entries,
      entry.1 ∈ awaiting → entry.2.Awaits scene.retryDelay := by
    refine Sorted.forall_mem_ofList ?_
    simp only [List.forall_mem_cons]
    exact ⟨fun _ call => awaits_moveTo call scene.retryDelay, excluded (by decide),
      excluded (by decide), excluded (by decide), excluded (by decide), excluded (by decide),
      fun _ call => awaits_follow call scene.retryDelay,
      fun _ call => awaits_spawnOn call scene.retryDelay, excluded (by decide),
      excluded (by decide), by simp⟩
  have pathways : ∀ entry ∈ pathwayOperations.entries,
      entry.1 ∈ awaiting → entry.2.Awaits scene.retryDelay := by
    refine Sorted.forall_mem_ofList ?_
    simp only [List.forall_mem_cons]
    exact ⟨excluded (by decide), excluded (by decide), by simp⟩
  exact operation_of_get? scene
    (P := fun entry => entry.1 ∈ awaiting → entry.2.Awaits scene.retryDelay) motions pathways
    found waits

end Scene

namespace Engine

/-- In whatever world its turn comes, an entry is followed by that one alone. -/
def Becomes {α β : Type} (g : Engine α β) (program : Program) (entry next : Entry) : Prop :=
  ∃ node rest, entry.pending = node :: rest ∧ ∀ depth w, ∃ step after,
    g.evaluated depth program w entry node = (.ok step, after) ∧
      followers entry rest step after = [next]

def Alone {α β : Type} (g : Engine α β) (w : World α) (entry : Entry) : Prop :=
  ∃ sequence, w.queue.slots = [⟨g.domain.progress entry.payload, sequence, entry⟩]

theorem Alone.advance {α β : Type} {g : Engine α β} {w : World α} {entry next : Entry}
    {node : Transformation} {rest : List Transformation} {program : Program} {step : Step}
    {after : Scope α} (alone : g.Alone w entry) (depth : Nat)
    (pending : entry.pending = node :: rest)
    (evaluated : g.evaluated depth program { w with queue := { w.queue with slots := [] } } entry
      node = (.ok step, after))
    (behind : after.queue.slots = []) (followed : followers entry rest step after = [next])
    (unfinished : next.pending ≠ []) : g.Alone (g.advance depth program w).2 next := by
  obtain ⟨sequence, slots⟩ := alone
  have popped : w.queue.pop = some (entry, { w.queue with slots := [] }) := by
    rw [Queue.pop, slots]
  have waits : ¬next.isTerminal = true := by
    rwa [Entry.isTerminal, List.isEmpty_iff]
  refine ⟨after.queue.sequence, ?_⟩
  rw [advance_of_pop _ popped pending, evaluated]
  simp only [settled, followed, scheduleAll, List.foldl_cons, List.foldl_nil, schedule, Queue.push,
    waits, if_false, behind, insertSlot, Bool.false_eq_true]

end Engine

namespace Evaluator

open Evaluation

theorem invoked_of_step {α : Type} (ev : Evaluator α)
    {resolve : Transformation → Evaluation α Payload} (nested : ∀ child, Private (resolve child))
    {node : Transformation} {name : String} (named : node.identifier? = some name)
    {s after : Scope α} {answer : Step} (answered : on (ev.step resolve node) s = (.ok answer, after)) :
    ∃ parameters called, called.value = s.value ∧
      on (ev.invoke node name parameters) called = (.ok answer, after) := by
  cases node with
  | operation astId identifier children =>
    obtain rfl : identifier = name := Option.some.inj named
    rw [Evaluator.step, on_bind] at answered
    have kept := compositional_private.mapM (fun child (_ : child ∈ children) => nested child) s
    rcases resolved : on (children.mapM resolve) s with ⟨fault | parameters, called⟩ <;>
      rw [resolved] at answered kept
    · cases answered
    · exact ⟨parameters, called, kept, answered⟩
  | precomputed astId identifier parameters =>
    obtain rfl : identifier = name := Option.some.inj named
    exact ⟨parameters, s, rfl, answered⟩
  | _ => cases named

end Evaluator

namespace Scene

open Evaluation Engine Movement Surroundings

def Retries (node : Transformation) (step : Step) : Prop :=
  ∃ delay, step.nodes = [.precomputed node.astId "wait" [delay], node]

def pause (scene : SceneConfig) (node : Transformation) : Transformation :=
  .precomputed node.astId "wait" [.number scene.retryDelay]

variable {scene : SceneConfig} {config : EngineConfig} {program : Program} {entry : Entry}
  {node : Transformation} {rest : List Transformation} {m : Motion} {last : Keyframe}

theorem evaluator_operations (scene : SceneConfig) (config : EngineConfig) (program : Program)
    (entry : Entry) : ((engine scene config).evaluator program entry).operations =
      operations scene :=
  engine_operations scene config

theorem followers_of_retries {name : String} (named : node.identifier? = some name)
    (waits : name ∈ awaiting) {depth : Nat} {w : World Network} {step : Step}
    {after : Scope Network}
    (evaluated : (engine scene config).evaluated depth program w entry node = (.ok step, after))
    (retries : Retries node step) :
    followers entry rest step after =
      [{ entry with pending := pause scene node :: node :: rest }] := by
  have value := ((engine scene config).evaluator program entry).value_step
    (fun child => private_scratch _) evaluated
  have sets : node.assigned? = none := by
    cases node <;> first | rfl | cases named
  rw [sets] at value
  obtain ⟨parameters, called, kept, invoked⟩ :=
    ((engine scene config).evaluator program entry).invoked_of_step
      (fun child => private_scratch _) named evaluated
  rw [Evaluator.on_invoke, evaluator_operations] at invoked
  rcases found : (operations scene).get? name with _ | operation <;> rw [found] at invoked
  · cases invoked
  obtain ⟨answered, rfl⟩ := Prod.mk.inj invoked
  set call := ((engine scene config).evaluator program entry).call node name operation parameters
    called
  have awaits := operation_awaits scene waits found call
  rcases executed : (operation.execute call).1 with error | step' <;>
    rw [executed] at answered awaits <;> cases answered
  obtain ⟨delay, nodes⟩ := retries
  rcases awaits with rests | again | ⟨m, moving, rfl⟩
  · exact absurd (nodes.symm.trans rests) (by simp)
  · exact absurd (nodes.symm.trans again) (by simp)
  · have stays : entry.value = ⟨.motion m, entry.value.vars⟩ := by
      have payload : called.value.payload = .motion m := by
        change (if operation.receivesThis then some called.value.payload else none) = _ at moving
        split_ifs at moving
        exact Option.some.inj moving
      rw [← payload, kept]
      rfl
    rw [followers, show _ = entry.value from value, stays]
    rfl

theorem step_moveTo_nothing {ev : Evaluator Network} (own : ev.operations = operations scene)
    (resolve : Transformation → Evaluation Network Payload) (astId : String) {s : Scope Network}
    (moving : s.value.payload = .motion m) :
    on (ev.step resolve (.operation astId "moveTo" [])) s =
      (.ok (.replaceThen (.motion m) [pause scene (.operation astId "moveTo" []),
        .operation astId "moveTo" []]), s) := by
  have found : (motionOperations scene.retryDelay).get? "moveTo" =
      some (Operation.ofStep (moveTo scene.retryDelay)).withThis := by
    simp [motionOperations, Sorted.ofList, Sorted.get?_insert]
  have executed : (Operation.ofStep (moveTo scene.retryDelay)).withThis.execute
      (ev.call (.operation astId "moveTo" []) "moveTo"
        (Operation.ofStep (moveTo scene.retryDelay)).withThis [] s) =
      (.ok (.replaceThen (.motion m) [pause scene (.operation astId "moveTo" []),
        .operation astId "moveTo" []]), none) :=
    Prod.ext (moveTo_of_nothing (congrArg some moving) rfl) rfl
  have invoked := on_motionOperation own (by decide) found (.operation astId "moveTo" []) [] s
  rw [executed] at invoked
  exact invoked

def waited (scene : SceneConfig) (node : Transformation) (rest : List Transformation)
    (entry : Entry) (m : Motion) (last : Keyframe) : Entry :=
  { entry with
    value := { entry.value with
      payload := .motion (arrive m last last.position (last.time + scene.retryDelay) node.astId) }
    pending := rest }

theorem evaluated_pause (moving : entry.payload = .motion m) (reached : m.last? = some last)
    (depth : Nat) (w : World Network) :
    (engine scene config).evaluated depth program w entry (pause scene node) =
      (.ok (.replace (.motion
        (arrive m last last.position (last.time + scene.retryDelay) node.astId))),
        turnScope w entry (pause scene node)) := by
  rw [evaluated, pause]
  exact step_wait (evaluator_operations scene config program entry) _ node.astId scene.retryDelay
    moving reached

theorem becomes_waited (moving : entry.payload = .motion m) (reached : m.last? = some last)
    (pending : entry.pending = pause scene node :: rest) :
    (engine scene config).Becomes program entry (waited scene node rest entry m last) :=
  ⟨pause scene node, rest, pending, fun depth w =>
    ⟨_, _, evaluated_pause moving reached depth w, rfl⟩⟩

theorem progress_of_last? {payload : Payload} (moving : payload = .motion m)
    (reached : m.last? = some last) : progress payload = .ofFloat last.time := by
  rw [moving, progress, Motion.currentTime, reached]
  rfl

theorem progress_waited : progress (waited scene node rest entry m last).payload =
    .ofFloat (last.time + scene.retryDelay) :=
  progress_of_last? rfl (last?_arrive m last last.position (last.time + scene.retryDelay) _)

theorem progress_lt_iff (delays : scene.Delays) {time : Float} (finite : time.isFinite = true) :
    Progress.ofFloat time < .ofFloat (time + scene.retryDelay) ↔
      time + scene.retryDelay ≠ time := by
  constructor
  · intro rises same
    rw [same] at rises
    exact UInt64.lt_irrefl _ rises
  · intro differs
    exact Binary64.rank_lt_of_units_lt
      ((Binary64.units_lt_add_iff finite delays.1 delays.2).mpr differs)

/-- An entry that retries waits once and is then back before the same node. It has advanced by then
exactly if the delay is not lost when it is added to the time. -/
theorem retry_advances_iff {json : Json} (accepted : SceneConfig.ofJson json = .ok scene)
    (moving : entry.payload = .motion m) (reached : m.last? = some last)
    (finite : last.time.isFinite = true) {name : String} (named : node.identifier? = some name)
    (waits : name ∈ awaiting) {depth : Nat} {w : World Network} {step : Step}
    {after : Scope Network}
    (evaluated : (engine scene config).evaluated depth program w entry node = (.ok step, after))
    (retries : Retries node step) :
    ∃ waiting again, followers entry rest step after = [waiting] ∧
      (engine scene config).Becomes program waiting again ∧
      again.id = entry.id ∧ again.pending = node :: rest ∧
      (progress entry.payload < progress again.payload ↔
        last.time + scene.retryDelay ≠ last.time) := by
  refine ⟨_, _, followers_of_retries named waits evaluated retries,
    becomes_waited moving reached rfl, rfl, rfl, ?_⟩
  rw [progress_of_last? moving reached, progress_waited]
  exact progress_lt_iff (SceneConfig.delays_of_accepted accepted) finite

def idler : Entry :=
  ⟨"0", ⟨.motion ⟨#[⟨0, 0, 0, 1, "idle", 1.5⟩], none, 1, "pedestrian"⟩, .empty⟩, "",
    [.operation "go" "moveTo" []]⟩

theorem retry_advances_idler :
    ∃ step after, (engine { retryDelay := 0.5 } {}).evaluated 0 .empty {} idler
        (.operation "go" "moveTo" []) = (.ok step, after) ∧
      ∃ waiting again, followers idler [] step after = [waiting] ∧
        (engine { retryDelay := 0.5 } {}).Becomes .empty waiting again ∧
        progress idler.payload < progress again.payload := by
  have moving : idler.payload =
    .motion ⟨#[⟨0, 0, 0, 1, "idle", 1.5⟩], none, 1, "pedestrian"⟩ := rfl
  have evaluated := step_moveTo_nothing (evaluator_operations { retryDelay := 0.5 } {} .empty idler)
    (((engine { retryDelay := 0.5 } {}).evaluator .empty idler).resolve 0) "go"
    (s := turnScope {} idler (.operation "go" "moveTo" [])) moving
  refine ⟨_, _, evaluated, ?_⟩
  have accepted : SceneConfig.ofJson (.obj [("retryDelay", .float 0.5)]) =
      .ok { retryDelay := 0.5 } := rfl
  have named : (Transformation.operation "go" "moveTo" []).identifier? = some "moveTo" := rfl
  obtain ⟨waiting, again, followed, becomes, -, -, advances⟩ :=
    retry_advances_iff accepted moving rfl (by decide +kernel) named (by decide) evaluated ⟨_, rfl⟩
  exact ⟨waiting, again, followed, becomes, advances.mpr (by decide +kernel)⟩

theorem progress_lt_of_enough (delays : scene.Delays) {time : Float}
    (finite : time.isFinite = true)
    (enough : |Binary64.units time| < 2 ^ 53 * Binary64.units scene.retryDelay) :
    Progress.ofFloat time < .ofFloat (time + scene.retryDelay) :=
  Binary64.rank_lt_of_units_lt (Binary64.units_lt_add finite delays.1 enough)

/-- An entry that is alone in flight, at that time, and about to be told to move, but not where
to. -/
def Lingers (scene : SceneConfig) (config : EngineConfig) (astId : String) (time : Float)
    (w : World Network) : Prop :=
  ∃ entry m last, (engine scene config).Alone w entry ∧ entry.payload = .motion m ∧
    m.last? = some last ∧ last.time = time ∧ entry.pending = [.operation astId "moveTo" []]

def turn (scene : SceneConfig) (config : EngineConfig) (program : Program) (depth : Nat)
    (w : World Network) : World Network :=
  ((engine scene config).advance depth program w).2

theorem lingers_round {astId : String} {time : Float} {w : World Network}
    (lingers : Lingers scene config astId time w) (depth : Nat) :
    Lingers scene config astId (time + scene.retryDelay)
      ((turn scene config program depth)^[2] w) := by
  obtain ⟨entry, m, last, alone, moving, reached, rfl, pending⟩ := lingers
  have own := evaluator_operations scene config program
  have paused := alone.advance depth pending (step_moveTo_nothing (own entry) _ astId moving) rfl rfl
    nofun
  have back := paused.advance depth rfl
    (step_wait (own _) _ astId scene.retryDelay rfl reached) rfl rfl nofun
  exact ⟨_, _, _, back, rfl, last?_arrive m last _ _ astId, rfl, rfl⟩

theorem lingers_rounds (program : Program) {astId : String} {time : Float} {w : World Network}
    (lingers : Lingers scene config astId time w) (depth rounds : Nat) :
    Lingers scene config astId ((· + scene.retryDelay)^[rounds] time)
      ((turn scene config program depth)^[2 * rounds] w) := by
  induction rounds with
  | zero => exact lingers
  | succ rounds ih =>
    rw [Function.iterate_succ_apply', Nat.mul_succ, Nat.add_comm, Function.iterate_add_apply]
    exact lingers_round ih depth

theorem Lingers.progress? {astId : String} {time : Float} {w : World Network}
    (lingers : Lingers scene config astId time w) : w.queue.progress? = some (.ofFloat time) := by
  obtain ⟨entry, m, last, ⟨sequence, slots⟩, moving, reached, rfl, -⟩ := lingers
  rw [Queue.progress?, slots, engine_progress]
  exact congrArg some (progress_of_last? moving reached)

def idling : Program := .ofList [("only", {
  initialVariables := .ofList [("time", .number 1)]
  nouns := .ofList [("idle", ⟨"idle", .operation "go" "moveTo" []⟩)]
  root := "idle" })]

def begun : World Network where
  queue := ((engine { retryDelay := 1e-17 } {}).seed 0 idling.entries .empty).2

/-- The settings accept a delay that is lost when it is added to one, and the run waits for ever. -/
theorem idling_stalls :
    SceneConfig.ofJson (.obj [("retryDelay", .float 1e-17)]) = .ok { retryDelay := 1e-17 } ∧
      ∀ depth rounds, let w := (turn { retryDelay := 1e-17 } {} idling depth)^[2 * rounds] begun
        Lingers { retryDelay := 1e-17 } {} "go" 1 w ∧ w.queue.progress? = some 1 := by
  refine ⟨by rfl, fun depth rounds => ?_⟩
  have starts : Lingers { retryDelay := 1e-17 } {} "go" 1 begun :=
    ⟨_, _, _, ⟨_, by rfl⟩, rfl, rfl, rfl, rfl⟩
  have lost : (1 : Float) + 1e-17 = 1 := by decide +kernel
  have lingers := lingers_rounds idling starts depth rounds
  rw [Function.iterate_fixed lost] at lingers
  exact ⟨lingers, lingers.progress?⟩

end Scene
end ProceduralScene
