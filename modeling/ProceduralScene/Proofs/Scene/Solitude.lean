import ProceduralScene.Proofs.Interpreter.Separation
import ProceduralScene.Proofs.Scene.Identity
import ProceduralScene.Proofs.Scene.Replies

/-! Scenes without operations that look around. Where no node names an operation that receives the
queue, the descriptions of a scene do not see one another, and each of them comes to what it would
come to alone. -/
namespace ProceduralScene

variable {α : Type}

namespace Transformation

/-- Whether the node, or one below it, names an operation that receives the queue. -/
def readsQueue (operations : Registry α) (node : Transformation) : Bool :=
  node.nodes.any fun inner => inner.identifier?.any fun name =>
    (operations.get? name).any (·.receivesQueue)

theorem readsQueue_iff {operations : Registry α} {node : Transformation} :
    node.readsQueue operations = false ↔ ∀ inner ∈ node.nodes, ∀ name operation,
      inner.identifier? = some name → operations.get? name = some operation →
        operation.receivesQueue = false := by
  constructor
  · intro blind inner member name operation named found
    rw [readsQueue, List.any_eq_false] at blind
    have silent := blind inner member
    simpa [named, found] using silent
  · intro blind
    rw [readsQueue, List.any_eq_false]
    intro inner member
    cases named : inner.identifier? with
    | none => simp
    | some name =>
      cases found : operations.get? name with
      | none => simp [found]
      | some operation => simp [found, blind inner member name operation named found]

theorem readsQueue_iff_children {operations : Registry α} {node : Transformation} :
    node.readsQueue operations = false ↔
      (∀ name operation, node.identifier? = some name → operations.get? name = some operation →
          operation.receivesQueue = false) ∧
        ∀ child ∈ node.children, child.readsQueue operations = false := by
  constructor
  · intro blind
    rw [readsQueue_iff] at blind
    exact ⟨blind node node.mem_nodes, fun child member =>
      readsQueue_iff.mpr fun inner below => blind inner (mem_nodes_of_child member below)⟩
  · rintro ⟨own, rest⟩
    rw [readsQueue_iff]
    intro inner below
    rcases mem_nodes_iff.mp below with rfl | ⟨child, member, below⟩
    · exact own
    · exact readsQueue_iff.mp (rest child member) inner below

end Transformation

def Program.readsQueue (operations : Registry α) (p : Program) : Bool :=
  p.entries.any fun description => description.2.nouns.entries.any fun noun =>
    noun.2.transformation.readsQueue operations

theorem Program.readsQueue_iff {operations : Registry α} {p : Program} :
    p.readsQueue operations = false ↔ ∀ entry ∈ p.entries, ∀ noun ∈ entry.2.nouns.entries,
      noun.2.transformation.readsQueue operations = false := by
  simp only [readsQueue, List.any_eq_false, Bool.not_eq_true]

theorem Program.noun_readsQueue {operations : Registry α} {p : Program}
    (blind : p.readsQueue operations = false) {name : String} {d : Description}
    (member : (name, d) ∈ p.entries) {key : String} {noun : Noun}
    (found : d.nouns.get? key = some noun) : noun.transformation.readsQueue operations = false :=
  readsQueue_iff.mp blind _ member (key, noun) (mem_of_lookupKey found)

namespace Scene

/-- Only four names stand for operations that receive the queue, and all others leave it alone. -/
def QueueUse (name : String) (operation : Operation Network) : Prop :=
  (operation.receivesQueue = true →
      name ∈ ["follow", "spawnOn", "moveToAndDodge", "randomPointOn"]) ∧
    (operation.receivesQueue = false → ∀ call, (operation.execute call).2 = call.queue)

theorem operations_queueUse (config : SceneConfig) {name : String} {operation : Operation Network}
    (found : (operations config).get? name = some operation) : QueueUse name operation := by
  have motions : ∀ entry ∈ (motionOperations config.retryDelay).entries,
      QueueUse entry.1 entry.2 := by
    refine Sorted.forall_mem_ofList ?_
    simp [QueueUse, Operation.ofStep, Operation.withThis, Operation.withQueue]
  have pathways : ∀ entry ∈ pathwayOperations.entries, QueueUse entry.1 entry.2 := by
    refine Sorted.forall_mem_ofList ?_
    simp [QueueUse, Operation.ofStep, Operation.withThis]
  exact operation_of_get? config (P := fun entry => QueueUse entry.1 entry.2) motions pathways found

theorem wait_not_readsQueue (scene : SceneConfig) (astId : String) (parameters : List Payload) :
    (Transformation.precomputed astId "wait" parameters).readsQueue (operations scene) = false := by
  rw [Transformation.readsQueue_iff]
  intro inner member name operation named found
  simp only [Transformation.nodes, List.mem_singleton] at member
  subst member
  cases named
  rw [← Bool.not_eq_true]
  intro reads
  exact absurd ((operations_queueUse scene found).1 reads) (by decide)

theorem called_of_kind (scene : SceneConfig) (config : EngineConfig) {node : Transformation}
    (kind : node.readsQueue (operations scene) = false) {name : String}
    {operation : Operation Network} (named : node.identifier? = some name)
    (found : (engine scene config).operations.get? name = some operation) :
    (operations scene).get? name = some operation ∧ operation.receivesQueue = false := by
  rw [engine_operations] at found
  exact ⟨found, Transformation.readsQueue_iff.mp kind node node.mem_nodes name operation named
    found⟩

theorem engine_blind (scene : SceneConfig) (config : EngineConfig) {program : Program}
    (blind : program.readsQueue (operations scene) = false) :
    (engine scene config).Blind program fun node => node.readsQueue (operations scene) = false where
  roots d member noun known := Program.noun_readsQueue blind member known
  confined entry := {
    below := fun node kind child member =>
      (Transformation.readsQueue_iff_children.mp kind).2 child member
    nouns := fun description noun found known => by
      obtain ⟨d, described, named⟩ := Option.bind_eq_some_iff.mp known
      exact Program.noun_readsQueue blind (mem_of_lookupKey described) named
    located := fun _ _ => trivial
    calls := fun node name operation kind named found parameters scope => by
      obtain ⟨known, reads⟩ := called_of_kind scene config kind named found
      refine (operations_settle scene known _).imp (fun step waits next member => ?_)
        fun _ _ => trivial
      rcases waits reads next member with rfl | ⟨delay, rfl⟩
      · exact kind
      · exact wait_not_readsQueue scene _ _ }
  respects entry R node name operation kind named found := by
    obtain ⟨known, reads⟩ := called_of_kind scene config kind named found
    have leaves := (operations_queueUse scene known).2 reads
    intro call q r related
    simp only [Operation.answer, reads, Bool.false_eq_true, if_false, leaves]
    exact ⟨trivial, related⟩

/-- Where no node names an operation that receives the queue, a run to a final report retires what
the descriptions retire when each of them runs alone, which they do to a final report, too. -/
theorem runsTo_separate (scene : SceneConfig) (config : EngineConfig) {program : Program}
    (blind : program.readsQueue (operations scene) = false) {retired : List Entry}
    (runs : (engine scene config).RunsTo program retired) :
    (∀ name ∈ program.interpreted, ∃ own, (engine scene config).RunsTo (program.only name) own) ∧
      ∀ alone : String → List Entry,
        (∀ name ∈ program.interpreted,
          (engine scene config).RunsTo (program.only name) (alone name)) →
          retired.Perm (program.interpreted.flatMap alone) :=
  runs.separate (engine_blind scene config blind) (engine_steady scene config)
    (uncached_publish scene config)

def crowd : Program := .ofList [
  ("waiting", {
    initialVariables := .empty
    nouns := .ofList [("pause", ⟨"pause", .sequential "all" [
      .operation "short" "wait" [.literal "one" (.number 1)],
      .operation "long" "wait" [.literal "two" (.number 2)]]⟩)]
    root := "pause" }),
  ("twins", {
    initialVariables := .empty
    nouns := .ofList [("split", ⟨"split", .operation "double" "clone" [
      .literal "two" (.number 2)]⟩)]
    root := "split" }),
  ("absent", {
    initialVariables := .ofList [("interprete", .bool false)]
    nouns := .ofList [("stay", ⟨"stay", .this "here"⟩)]
    root := "stay" })]

def gathered (program : Program) : History Network Snapshot :=
  (Interpreter.scene {} {}).history 10 program 1000 ((List.range 10).map fun n => .resume ⟨n⟩)

theorem runsTo_gathered {program : Program}
    (final : (gathered program).reports.any (·.isFinal) = true)
    (ended : (gathered program).last?.isSome = true) :
    (engine {} {}).RunsTo program (gathered program).retired :=
  Engine.runsTo_of_history rfl final ended

theorem gathered_separate :
    crowd.readsQueue (operations {}) = false ∧
      (engine {} {}).RunsTo crowd (gathered crowd).retired ∧
        (gathered crowd).retired.length = 3 ∧
          (gathered crowd).retired.Perm
            (crowd.interpreted.flatMap fun name => (gathered (crowd.only name)).retired) := by
  have blind : crowd.readsQueue (operations {}) = false := by decide +kernel
  have runs : (engine {} {}).RunsTo crowd (gathered crowd).retired :=
    runsTo_gathered (by decide +kernel) (by decide +kernel)
  refine ⟨blind, runs, by decide +kernel, (runsTo_separate {} {} blind runs).2 _ ?_⟩
  intro name interpreted
  have names : crowd.interpreted = ["waiting", "twins"] := by decide +kernel
  rw [names] at interpreted
  simp only [List.mem_cons, List.not_mem_nil, or_false] at interpreted
  rcases interpreted with rfl | rfl
  · exact runsTo_gathered (by decide +kernel) (by decide +kernel)
  · exact runsTo_gathered (by decide +kernel) (by decide +kernel)

end Scene
end ProceduralScene
