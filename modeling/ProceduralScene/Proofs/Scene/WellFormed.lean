import ProceduralScene.Proofs.Interpreter.Upkeep
import ProceduralScene.Proofs.Scene.Identity
import ProceduralScene.Proofs.Scene.Replies

/-! Motions and pathways come from the roots of a run alone, unless a program brings its own. They
stay as they have been made: no operation empties the keyframes of a motion or the points of a
pathway, or makes one kind of entity look like another. So no operation ever finds a motion without
keyframes. -/
namespace ProceduralScene

variable {α : Type}

structure Motion.WellFormed (m : Motion) : Prop where
  keyframes : m.keyframes ≠ #[]
  defaults : ∃ defaults, entityDefaults m.kind = some defaults ∧ m.url = defaults.url ∧
    m.radius = defaults.radius

structure Pathway.WellFormed (p : Pathway) : Prop where
  points : p.points ≠ []
  kind : p.kind = "street" ∨ p.kind = "footwalk"

namespace Payload

mutual

def isPlain : Payload → Bool
  | motion _ | pathway _ => false
  | list items => arePlain items
  | nil | bool _ | number _ | text _ | point _ => true

def arePlain : List Payload → Bool
  | [] => true
  | item :: rest => isPlain item && arePlain rest

end

/-- A well-formed motion or pathway, or a payload with neither inside. -/
def WellFormed : Payload → Prop
  | motion m => m.WellFormed
  | pathway p => p.WellFormed
  | other => other.isPlain = true

theorem wellFormed_of_isPlain {payload : Payload} (plain : payload.isPlain = true) :
    payload.WellFormed := by
  cases payload with
  | motion m => cases plain
  | pathway p => cases plain
  | _ => exact plain

end Payload

namespace Transformation

def isPlain (node : Transformation) : Bool :=
  node.nodes.all fun inner => inner.given.all Payload.isPlain

theorem isPlain_iff {node : Transformation} :
    node.isPlain = true ↔
      ∀ inner ∈ node.nodes, ∀ payload ∈ inner.given, payload.isPlain = true := by
  simp only [isPlain, List.all_eq_true]

theorem isPlain_of_child {node child : Transformation} (plain : node.isPlain = true)
    (member : child ∈ node.children) : child.isPlain = true := by
  rw [isPlain_iff] at plain ⊢
  exact fun inner below => plain inner (mem_nodes_of_child member below)

theorem isPlain_precomputed {astId name : String} {parameters : List Payload}
    (plain : ∀ payload ∈ parameters, payload.isPlain = true) :
    (precomputed astId name parameters).isPlain = true := by
  rw [isPlain_iff]
  intro inner member
  simp only [nodes, List.mem_singleton] at member
  subst member
  exact plain

end Transformation

/-- Whether the program brings no motion and no pathway of its own. -/
def Program.isPlain (p : Program) : Bool :=
  p.entries.all fun description =>
    description.2.initialVariables.entries.all (·.2.isPlain) &&
      description.2.nouns.entries.all fun noun => noun.2.transformation.isPlain

section
variable {p : Program} (plain : p.isPlain = true) {name : String} {d : Description}
  (member : (name, d) ∈ p.entries)

include plain member

theorem Program.variable_isPlain :
    ∀ entry ∈ d.initialVariables.entries, entry.2.isPlain = true := by
  have own := List.all_eq_true.mp plain _ member
  rw [Bool.and_eq_true] at own
  exact List.all_eq_true.mp own.1

theorem Program.noun_isPlain {key : String} {noun : Noun}
    (found : d.nouns.get? key = some noun) : noun.transformation.isPlain = true := by
  have own := List.all_eq_true.mp plain _ member
  rw [Bool.and_eq_true] at own
  exact List.all_eq_true.mp own.2 _ (mem_of_lookupKey found)

end

def EvalError.LacksKeyframes (error : EvalError) : Prop :=
  ∃ astId name, error =
    .invalidProgram astId (EvalError.quoted name ++ " on a motion entity without keyframes")

namespace EvalError

theorem not_lacksKeyframes (astId : String) {text : String}
    (start : text.toList.head? ≠ "\"".toList.head?) :
    ¬(invalidProgram astId text).LacksKeyframes := by
  rintro ⟨_, name, same⟩
  cases same
  exact start (by simp [quoted])

theorem Raised.not_lacksKeyframes {error : EvalError} (raised : error.Raised) :
    ¬error.LacksKeyframes := by
  cases raised with
  | noSelector astId => exact EvalError.not_lacksKeyframes astId (by decide)
  | noProbabilities astId => exact EvalError.not_lacksKeyframes astId (by decide)
  | missingBranch node index =>
    refine EvalError.not_lacksKeyframes node.astId ?_
    cases node <;> simp [Transformation.typeName]
  | _ =>
    rintro ⟨_, _, same⟩
    cases same

end EvalError

def Step.Sound (step : Step) : Prop :=
  step.Within (fun node => node.isPlain = true) Payload.WellFormed

abbrev Answers (answer : Except EvalError Step) : Prop :=
  Fulfils Step.Sound (fun error => ¬error.LacksKeyframes) answer

namespace Step

theorem sound_replaceThen {payload : Payload} (good : payload.WellFormed)
    {push : List Transformation} (plain : ∀ node ∈ push, node.isPlain = true) :
    (replaceThen payload push).Sound where
  payloads other member := by
    rw [List.mem_singleton.mp member]
    exact good
  nodes := plain

theorem sound_moveThen {m : Motion} (good : m.WellFormed) {push : List Transformation}
    (plain : ∀ node ∈ push, node.isPlain = true) : (replaceThen (.motion m) push).Sound :=
  sound_replaceThen (show (Payload.motion m).WellFormed from good) plain

theorem sound_replace {payload : Payload} (good : payload.WellFormed) : (replace payload).Sound :=
  sound_replaceThen good nofun

theorem sound_fork {payloads : List Payload} (good : ∀ payload ∈ payloads, payload.WellFormed) :
    (fork payloads []).Sound where
  payloads := good
  nodes := nofun

end Step

structure Call.Sound (call : Call α) : Prop where
  node : call.node.isPlain = true
  this : ∀ payload, call.this = some payload → payload.WellFormed

namespace Call

theorem tolerates_lacking (call : Call α) :
    call.Tolerates fun error => ¬error.LacksKeyframes where
  parameter index text := by
    rintro ⟨_, _, same⟩
    cases same
  payload expected := by
    rintro ⟨_, _, same⟩
    cases same
  queue := EvalError.not_lacksKeyframes _ (by simp)

namespace Sound

variable {call : Call α} (sound : call.Sound)

include sound

theorem motion : Fulfils Motion.WellFormed (fun error => ¬error.LacksKeyframes) call.motion :=
  call.tolerates_lacking.motion.imp (fun m given => sound.this (.motion m) given) fun _ => id

theorem pathway : Fulfils Pathway.WellFormed (fun error => ¬error.LacksKeyframes) call.pathway :=
  call.tolerates_lacking.pathway.imp (fun p given => sound.this (.pathway p) given) fun _ => id

end Sound
end Call

namespace Motion.WellFormed

variable {m : Motion} (good : m.WellFormed)

include good

theorem withKeyframes {keyframes : Array Keyframe} (some : keyframes ≠ #[]) :
    ({ m with keyframes } : Motion).WellFormed := ⟨some, good.defaults⟩

theorem arrive (last : Keyframe) (at_ : Point) (time : Float) (astId : String) :
    (Movement.arrive m last at_ time astId).WellFormed :=
  good.withKeyframes Array.push_ne_empty

theorem replaceLast (last : Keyframe) : (Movement.replaceLast m last).WellFormed :=
  good.withKeyframes Array.push_ne_empty

theorem takeOver (last : Keyframe) (copied : Array Keyframe) :
    (Surroundings.takeOver m last copied).WellFormed := by
  unfold Surroundings.takeOver
  split
  next fresh =>
    refine good.withKeyframes fun none => ?_
    rw [none] at fresh
    cases fresh
  · exact good.withKeyframes fun none => good.keyframes (Array.append_eq_empty_iff.mp none).1

theorem lastKeyframe (call : Call α) {E : EvalError → Prop} :
    Fulfils (fun _ => True) E (Movement.lastKeyframe call m) := by
  unfold Movement.lastKeyframe
  split
  · trivial
  next none =>
    exact absurd (Array.back?_eq_none_iff.mp none) good.keyframes

end Motion.WellFormed

namespace Movement

variable {call : Call α} (sound : call.Sound)

include sound

theorem sound_retry {m : Motion} (good : m.WellFormed) (delay : Float) :
    (retry call m delay).Sound := by
  refine Step.sound_moveThen good fun node member => ?_
  rcases List.mem_cons.mp member with rfl | member
  · exact Transformation.isPlain_precomputed (by simp [Payload.isPlain])
  · rw [List.mem_singleton.mp member]
    exact sound.node

theorem answers_moveTo (retryDelay : Float) : Answers (moveTo retryDelay call) := by
  have reads := call.tolerates_lacking
  refine sound.motion.bind fun m good => ?_
  have go (target : Point) (duration : Option Float) : Answers (do
      let last ← lastKeyframe call m
      let duration := duration.getD (travelTime (last.position.distance target) last.speed)
      return .replace (.motion (arrive m last target (last.time + duration) call.astId))) :=
    (good.lastKeyframe call).bind fun _ _ => Step.sound_replace (good.arrive _ _ _ _)
  dsimp only
  split
  · exact (reads.optionalNumber 1).bind fun duration _ => go _ duration
  · exact reads.threeNumbers.bind fun target _ =>
      (reads.optionalNumber 3).bind fun duration _ => go target duration
  · exact sound_retry sound good retryDelay
  · exact sound_retry sound good retryDelay
  · exact reads.parameter _ _

theorem answers_moveBy : Answers (moveBy call) :=
  sound.motion.bind fun _ good => call.tolerates_lacking.threeNumbers.bind fun _ _ =>
    (good.lastKeyframe call).bind fun _ _ => Step.sound_replace (good.arrive _ _ _ _)

theorem answers_oneNumber {moved : Motion → Float → Keyframe → Motion}
    (keeps : ∀ {m}, m.WellFormed → ∀ x last, (moved m x last).WellFormed) : Answers (do
      let m ← call.motion
      let x ← call.number 0
      let last ← lastKeyframe call m
      return .replace (.motion (moved m x last))) :=
  sound.motion.bind fun _ good => (call.tolerates_lacking.number 0).bind fun _ _ =>
    (good.lastKeyframe call).bind fun _ _ => Step.sound_replace (keeps good _ _)

theorem answers_clone : Answers (clone call) := by
  have reads := call.tolerates_lacking
  refine sound.motion.bind fun m good => (reads.number 0).bind fun amount _ => ?_
  refine (reads.fissionCount 0 amount).bind fun amount _ => Step.sound_fork ?_
  intro payload member
  rw [(List.mem_replicate.mp member).2]
  exact good

end Movement

namespace Surroundings

open Movement

variable {call : Call α} (sound : call.Sound)

include sound

theorem answers_follow (retryDelay : Float) : Answers (follow retryDelay call) := by
  have reads := call.tolerates_lacking
  refine sound.motion.bind fun m good => (reads.text 0).bind fun id _ => ?_
  refine (reads.numberOr 1 0).bind fun _ _ => (reads.numberOr 2 0).bind fun _ _ => ?_
  refine (reads.numberOr 3 0).bind fun _ _ => (good.lastKeyframe call).bind fun last _ => ?_
  refine reads.theQueue.bind fun queue _ => ?_
  split
  · split
    · exact Step.sound_replace (good.takeOver _ _)
    · dsimp only
      split
      · refine Step.sound_moveThen (good.takeOver _ _) fun node member => ?_
        rw [List.mem_singleton.mp member]
        exact sound.node
      · exact sound_retry sound (good.takeOver _ _) retryDelay
  · exact sound_retry sound good retryDelay

theorem answers_spawnFrom (retryDelay : Float) {m : Motion} (good : m.WellFormed) (amount : Nat)
    (network : Option Network) : Answers (spawnFrom retryDelay call m amount network) := by
  cases network with
  | none => exact sound_retry sound good retryDelay
  | some network =>
    refine (good.lastKeyframe call).bind fun last _ => Step.sound_fork ?_
    intro payload member
    obtain ⟨point, _, rfl⟩ := List.mem_map.mp member
    exact good.withKeyframes (by simp)

theorem answers_spawnOn [Holds α Network] (retryDelay : Float) :
    Answers (spawnOn retryDelay call).1 := by
  have reads := call.tolerates_lacking
  have prepared : Fulfils (fun found : Motion × String × Nat × Queue α => found.1.WellFormed)
      (fun error => ¬error.LacksKeyframes) (do
        let m ← call.motion
        let kind ← call.textOr 0 "street"
        let amount ← fissionCount call 1 (← call.numberOr 1 1)
        return (m, kind, amount, ← call.theQueue)) :=
    sound.motion.bind fun _ good => (reads.textOr 0 "street").bind fun _ _ =>
      (reads.numberOr 1 1).bind fun amount _ => (reads.fissionCount 1 amount).bind fun _ _ =>
        reads.theQueue.bind fun _ _ => good
  unfold spawnOn
  dsimp only
  split
  next error failed =>
    rw [failed] at prepared
    exact prepared
  next m kind amount queue read =>
    rw [read] at prepared
    exact answers_spawnFrom sound retryDelay prepared amount _

omit sound in
theorem answers_randomPointOn [Holds α Network] : Answers (randomPointOn call).1 := by
  have reads := call.tolerates_lacking
  have prepared : Fulfils (fun _ => True) (fun error => ¬error.LacksKeyframes) (do
      let kind ← call.text 0
      return (kind, ← call.theQueue)) :=
    (reads.text 0).bind fun _ _ => reads.theQueue.bind fun _ _ => trivial
  unfold randomPointOn
  dsimp only
  split
  next error failed =>
    rw [failed] at prepared
    exact prepared
  · refine Step.sound_replace (Payload.wellFormed_of_isPlain ?_)
    generalize Option.bind _ _ = point
    cases point <;> rfl

theorem answers_moveToAndDodge : Answers (moveToAndDodge call) := by
  have reads := call.tolerates_lacking
  refine sound.motion.bind fun m good => reads.threeNumbers.bind fun _ _ => ?_
  refine (good.lastKeyframe call).bind fun last _ => ?_
  dsimp only
  split
  · exact EvalError.not_lacksKeyframes _ (by simp)
  · refine reads.theQueue.bind fun queue _ => ?_
    split
    · exact Step.sound_replace (good.arrive _ _ _ _)
    · refine Step.sound_moveThen (good.arrive _ _ _ _) fun node member => ?_
      rw [List.mem_singleton.mp member]
      exact Transformation.isPlain_precomputed (by simp [Payload.isPlain])

end Surroundings

namespace Paving

variable {call : Call α} (sound : call.Sound)

include sound

theorem answers_pathwayFrom : Answers (pathwayFrom call) :=
  sound.pathway.bind fun _ good => call.tolerates_lacking.point.bind fun _ _ =>
    Step.sound_replace ⟨by simp, good.kind⟩

theorem answers_pathwayTo : Answers (pathwayTo call) :=
  sound.pathway.bind fun _ good => call.tolerates_lacking.point.bind fun _ _ =>
    Step.sound_replace ⟨by simp, good.kind⟩

end Paving

namespace Scene

open Movement Surroundings Paving

theorem operations_answer (config : SceneConfig) {name : String} {operation : Operation Network}
    (found : (operations config).get? name = some operation) {call : Call Network}
    (sound : call.Sound) : Answers (operation.execute call).1 := by
  have motions : ∀ entry ∈ (motionOperations config.retryDelay).entries,
      Answers (entry.2.execute call).1 := by
    refine Sorted.forall_mem_ofList ?_
    simp only [List.forall_mem_cons]
    exact ⟨answers_moveTo sound config.retryDelay, answers_moveBy sound,
      answers_oneNumber sound fun good _ _ => good.arrive _ _ _ _,
      answers_oneNumber sound fun good _ _ => good.replaceLast _,
      answers_oneNumber sound fun good _ _ => good.replaceLast _, answers_clone sound,
      answers_follow sound config.retryDelay, answers_spawnOn sound config.retryDelay,
      answers_moveToAndDodge sound, answers_randomPointOn, by simp⟩
  have pathways : ∀ entry ∈ pathwayOperations.entries, Answers (entry.2.execute call).1 := by
    refine Sorted.forall_mem_ofList ?_
    simp only [List.forall_mem_cons]
    exact ⟨answers_pathwayFrom sound, answers_pathwayTo sound, by simp⟩
  exact operation_of_get? config (P := fun entry => Answers (entry.2.execute call).1) motions
    pathways found

theorem create_wellFormed (vars : Variables) (astId : String) :
    Fulfils Payload.WellFormed (fun error => ¬error.LacksKeyframes)
      (Payload.create vars astId) := by
  have unknown (kind : String) : ¬(EvalError.unknownEntityType kind).LacksKeyframes := by
    rintro ⟨_, _, same⟩
    cases same
  have made (kind : String) :
      Fulfils Payload.WellFormed (fun error => ¬error.LacksKeyframes) (do
        if kind = "street" ∨ kind = "footwalk" then
          return Payload.pathway (Pathway.create kind vars astId)
        else return .motion (← Motion.create kind vars astId)) := by
    split
    next paved => exact ⟨by simp [Pathway.create], paved⟩
    · unfold Motion.create
      split
      · exact unknown kind
      next defaults known => exact ⟨by simp, defaults, known, rfl, rfl⟩
  unfold Payload.create
  split
  · exact made "pedestrian"
  · exact made "pedestrian"
  · exact made _
  · exact unknown _

theorem engine_upkeep (scene : SceneConfig) (config : EngineConfig) {program : Program}
    (plain : program.isPlain = true) :
    (engine scene config).Upkeep program (fun node => node.isPlain = true) Payload.WellFormed
      fun error => ¬error.LacksKeyframes where
  sustained entry := {
    below := fun _ plain _ member => Transformation.isPlain_of_child plain member
    nouns := fun description noun found known => by
      obtain ⟨d, described, named⟩ := Option.bind_eq_some_iff.mp known
      exact Program.noun_isPlain plain (mem_of_lookupKey described) named
    given := fun node plain payload member => Payload.wellFormed_of_isPlain
      (Transformation.isPlain_iff.mp plain node node.mem_nodes payload member)
    scalars := fun payload scalar => by
      refine Payload.wellFormed_of_isPlain ?_
      cases payload <;> first | rfl | cases scalar
    raised := fun _ raised => raised.not_lacksKeyframes
    calls := fun node name operation plain named found parameters scope _ all => by
      have known : (engine scene config).operations.get? name = some operation := found
      rw [engine_operations] at known
      refine operations_answer scene known ⟨plain, ?_⟩
      intro payload given
      simp only [Evaluator.call] at given
      split at given
      · cases given
        exact all.payload
      · cases given }
  roots d member noun known := Program.noun_isPlain plain member known
  initial d member entry among :=
    Payload.wellFormed_of_isPlain (Program.variable_isPlain plain member entry among)
  created := create_wellFormed
  rootless name noun := by
    rintro ⟨_, _, same⟩
    cases same

/-- In a run of a program that brings no motion and no pathway of its own, every payload and every
variable is well formed in every world that the run comes to, and no operation complains about a
motion without keyframes. -/
theorem visits_wellFormed (scene : SceneConfig) (config : EngineConfig) {program : Program}
    (plain : program.isPlain = true) :
    (∀ w, (engine scene config).Visits program w →
      ∀ entry ∈ w.queue.entries, entry.value.All Payload.WellFormed) ∧
    ∀ i : Interpreter Network Snapshot, i.engine = engine scene config →
      ∀ fuel requested calls error,
        .error error ∈ (i.history fuel program requested calls).outcomes →
          ¬error.LacksKeyframes := by
  have upkeep := engine_upkeep scene config plain
  have steady := engine_steady scene config
  have publishes := uncached_publish scene config
  refine ⟨fun w visited entry member => ?_, fun i own fuel requested calls error ended => ?_⟩
  · exact (upkeep.visits steady publishes visited entry member).value
  · exact upkeep.shown steady publishes
      (Interpreter.history_visits own fuel program requested calls _ ended)

theorem visits_advances {program : Program} {turns : Nat}
    (each : ∀ turn < turns, ((engine {} {}).advance 2 program (advances program turn)).1.isOk = true) :
    (engine {} {}).Visits program (advances program turns) := by
  induction turns with
  | zero => exact .seeded none
  | succ turns ih =>
    exact .advanced (ih fun turn early => each turn (Nat.lt_succ_of_lt early))
      (ne_error_of_isOk (each turns (Nat.lt_succ_self _)) _)

def parade : Program := .ofList [
  ("road", {
    initialVariables := .ofList [("type", .text "street")]
    nouns := .ofList [("lay", ⟨"lay", .sequential "all" [
      .operation "start" "pathwayFrom" [.literal "x" (.number 0), .literal "y" (.number 0),
        .literal "size" (.number 4)],
      .operation "stop" "pathwayTo" [.literal "x" (.number 9), .literal "y" (.number 0),
        .literal "size" (.number 4)]]⟩)]
    root := "lay" }),
  ("car", {
    initialVariables := .ofList [("type", .text "car")]
    nouns := .ofList [("drive", ⟨"drive", .sequential "all" [
      .setVariable "keep" "kept" (.this "now"),
      .operation "go" "moveBy" [.literal "x" (.number 34), .literal "y" (.number 0),
        .literal "z" (.number 0)],
      .operation "double" "clone" [.literal "two" (.number 2)]]⟩)]
    root := "drive" }),
  ("cyclist", {
    initialVariables := .ofList [("type", .text "cyclist")]
    nouns := .ofList [("ride", ⟨"ride", .operation "behind" "follow" [
      .literal "whom" (.number 1)]⟩)]
    root := "ride" })]

/-- The cyclist has caught up with two keyframes, and both cars still know where they started. -/
theorem parade_wellFormed :
    parade.isPlain = true ∧ (engine {} {}).Visits parade (advances parade 9) ∧
      (advances parade 9).queue.entries.map (fun entry =>
          (entry.id, entry.payload.motion?.map (·.keyframes.size),
            ((entry.value.get? "kept").bind Payload.motion?).map (·.keyframes.size))) =
        [("2", some 2, none), ("0", none, none), ("10", some 2, some 1), ("11", some 2, some 1)] ∧
      (∀ entry ∈ (advances parade 9).queue.entries, entry.value.All Payload.WellFormed) ∧
      ∀ error, .error error ∈
          ((Interpreter.scene {} {}).history 20 parade 10 [.resume ⟨1⟩]).outcomes →
        ¬error.LacksKeyframes := by
  have plain : parade.isPlain = true := by decide +kernel
  have visited : (engine {} {}).Visits parade (advances parade 9) :=
    visits_advances (by decide +kernel)
  obtain ⟨wellFormed, errors⟩ := visits_wellFormed {} {} plain
  exact ⟨plain, visited, by decide +kernel, wellFormed _ visited,
    errors (Interpreter.scene {} {}) rfl 20 10 [.resume ⟨1⟩]⟩

end Scene
end ProceduralScene
