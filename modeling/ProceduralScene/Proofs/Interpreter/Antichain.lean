import ProceduralScene.Counting
import ProceduralScene.Proofs.Scene.Identity

/-! Ids of which none starts with another one. Where no ordinal has a second digit, an id starts
with another one only if its entry descends from the other, and an entry is gone as soon as it
has parts. So entries that are there at the same time never have such ids. -/
namespace ProceduralScene

variable {α β : Type}

/-- No id of an entry is, or starts with, the id of another one. -/
def Queue.IdsApart (q : Queue α) : Prop :=
  (q.entries.map (·.id)).Pairwise fun a b => ¬a.toList <+: b.toList ∧ ¬b.toList <+: a.toList

/-- With at most ten descriptions, and if nothing splits into more than ten parts, the ids are apart
from seeding on, which may also have failed, through every state of the run. -/
theorem Engine.ids_apart {g : Engine α β} (reads : g.ReadsOnly) {program : Program}
    (few : program.size ≤ 10) :
    (g.seed 0 program.entries .empty).2.IdsApart ∧
      ∀ w, g.Reaches program 10 w → w.queue.IdsApart := by
  constructor
  · obtain ⟨_, chart⟩ := g.seeded_chart program 10
    exact chart.unrelated few (Nat.le_refl 10)
  · intro w reached
    obtain ⟨_, chart⟩ := reached.chart reads.steady reads.publishes
    exact chart.unrelated few (Nat.le_refl 10)

theorem Counting.engine_readsOnly (config : EngineConfig) : (engine config).ReadsOnly where
  steady content := by
    have each : ∀ entry ∈ operations.entries,
        entry.2.Respects fun q r => q = r ∧ q.uncached = content := by
      refine Sorted.forall_mem_ofList ?_
      simp only [List.forall_mem_cons]
      have blind (step : Call Nat → Except EvalError Step) :
          (Operation.ofStep step).Respects fun q r => q = r ∧ q.uncached = content :=
        fun _ _ _ related => ⟨rfl, related⟩
      refine ⟨blind add, blind split, ?_, by simp⟩
      rintro call q _ ⟨rfl, same⟩
      exact ⟨rfl, rfl, (q.uncached_cached _ _ _).trans same⟩
    exact fun name operation found => each _ (Sorted.mem_of_get? found)
  publishes _ := rfl

namespace Scene

def fan : Program := .ofList [
  ("splits", {
    initialVariables := .empty
    nouns := .ofList [("split", ⟨"split", .parallel "ten" [
      .this "0", .parallel "two" [.this "1", .this "1"], .this "2", .this "3", .this "4", .this "5",
      .this "6", .this "7", .this "8", .this "9"]⟩)]
    root := "split" }),
  ("stays", {
    initialVariables := .empty
    nouns := .ofList [("stay", ⟨"stay", .this "here"⟩)]
    root := "stay" })]

theorem fan_ids_apart :
    (advances fan 4).queue.entries.map (·.id) =
        ["02", "03", "04", "05", "06", "07", "08", "09", "010", "011", "1", "00"] ∧
      (advances fan 4).queue.IdsApart ∧
      ∀ config w, (Counting.engine config).Reaches fan 10 w → w.queue.IdsApart := by
  have few : fan.size ≤ 10 := by decide +kernel
  have reached : (engine {} {}).Reaches fan 10 (advances fan 4) :=
    reaches_advances (by decide +kernel) (by decide +kernel)
  refine ⟨by decide +kernel, ?_, ?_⟩
  · exact (Engine.ids_apart (engine_readsOnly {} {}) few).2 _ reached
  · exact fun config => (Engine.ids_apart (Counting.engine_readsOnly config) few).2

end Scene
end ProceduralScene
