import ProceduralScene.Proofs.Interpreter.Ancestry

/-! The ancestry of the entries of a scene. Ids may repeat, yet every entry in flight and every
result has one lineage, and id, seed and index follow from it. -/
namespace ProceduralScene.Scene

/-- Whatever roll has been kept along with a run, it has exactly one lineage for every entry of the
world that the run has come to, from an interpreted description that accounts for the entry. -/
theorem visits_accounted (scene : SceneConfig) (config : EngineConfig) {program : Program}
    {w : World Network} (visited : (engine scene config).Visits program w) :
    (∃ roll, (engine scene config).Records program w roll) ∧
      ∀ roll, (engine scene config).Records program w roll →
        Engine.Accounted program w.queue roll :=
  ⟨visited.recorded, fun _ recorded =>
    recorded.accounted (engine_steady scene config) (uncached_publish scene config)⟩

/-- A description that is left out, one with an index of its own that splits twice, and one that
sets its index. -/
def family : Program := .ofList [
  ("absent", {
    initialVariables := .ofList [("interprete", .bool false)]
    nouns := .ofList [("stay", ⟨"stay", .this "here"⟩)]
    root := "stay" }),
  ("parent", {
    initialVariables := .ofList [("index", .number 7), ("seed", .number 3)]
    nouns := .ofList [("split", ⟨"split", .parallel "two" [
      .this "first",
      .operation "second" "clone" [.literal "two" (.number 2)]]⟩)]
    root := "split" }),
  ("loner", {
    initialVariables := .empty
    nouns := .ofList [("name", ⟨"name", .setVariable "own" "index" (.literal "nine" (.number 9))⟩)]
    root := "name" })]

def rolls (program : Program) : Nat → Roll
  | 0 => (engine {} {}).seedRoll 0 program.entries .empty {}
  | turns + 1 =>
    (engine {} {}).advanceRoll 2 program (advances program turns) (rolls program turns)

theorem records_rolls {program : Program} {turns : Nat}
    (each : ∀ turn < turns, ((engine {} {}).advance 2 program (advances program turn)).1.isOk = true) :
    (engine {} {}).Records program (advances program turns) (rolls program turns) := by
  induction turns with
  | zero => exact .seeded none
  | succ turns ih =>
    exact .advanced (ih fun turn early => each turn (Nat.lt_succ_of_lt early))
      (ne_error_of_isOk (each turns (Nat.lt_succ_self _)) _)

/-- The grandchildren of the second description bear their own ordinals, and not the index that it
has declared. -/
theorem family_accounted :
    (engine {} {}).Visits family (advances family 4) ∧
      (engine {} {}).Records family (advances family 4) (rolls family 4) ∧
        Engine.Accounted family (advances family 4).queue (rolls family 4) ∧
          (rolls family 4).members.map (fun member =>
              (member.1.id, member.2.path, (member.1.value.get? "index").map Payload.display)) =
            [("2", [2], some "9"), ("10", [1, 0], some "0"), ("110", [1, 1, 0], some "0"),
              ("111", [1, 1, 1], some "1")] := by
  have recorded : (engine {} {}).Records family (advances family 4) (rolls family 4) :=
    records_rolls (by decide +kernel)
  have visited := recorded.visits
  exact ⟨visited, recorded, (visits_accounted {} {} visited).2 _ recorded, by decide +kernel⟩

end ProceduralScene.Scene
