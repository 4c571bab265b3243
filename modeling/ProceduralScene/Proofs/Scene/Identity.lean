import ProceduralScene.Proofs.Interpreter.Descent
import ProceduralScene.Proofs.Scene.Operations

/-! When the ids of a scene are unique. Ordinals are spelled without a mark between them, so ids
can be read back as long as every ordinal is a single digit; with an eleventh description or an
eleventh part there are runs in which two entries have one id. -/
namespace ProceduralScene.Scene

theorem indistinct_steady (content : Queue Network) :
    Indistinct fun q r : Queue Network => q = r ∧ q.uncached = content where
  inFlight := by
    rintro q _ ⟨rfl, _⟩
    rfl
  results := by
    rintro q _ ⟨rfl, _⟩
    rfl
  artifact := by
    rintro q _ ⟨rfl, _⟩ kind
    rfl
  cached := by
    rintro q _ ⟨rfl, same⟩ kind
    exact ⟨rfl, (q.uncached_cached _ _ _).trans same⟩

theorem engine_steady (scene : SceneConfig) (config : EngineConfig) :
    (engine scene config).operations.Steady := by
  intro content
  rw [engine_operations]
  exact operations_respects (indistinct_steady content) scene

theorem uncached_publish (scene : SceneConfig) (config : EngineConfig) (q : Queue Network) :
    ((engine scene config).domain.publish q).2.uncached = q.uncached := by
  have twice : (publish q).2.uncached = q.uncached :=
    (Queue.uncached_cached _ _ _ _).trans (Queue.uncached_cached _ _ _ _)
  exact twice

theorem engine_readsOnly (scene : SceneConfig) (config : EngineConfig) :
    (engine scene config).ReadsOnly :=
  ⟨engine_steady scene config, uncached_publish scene config⟩

/-- Splits in two levels: into eleven parts, the second of which splits once more. -/
def wide : Program := .ofList [("only", {
  initialVariables := .empty
  nouns := .ofList [("split", ⟨"split", .parallel "eleven" [
    .this "0", .parallel "one" [.this "1"], .this "2", .this "3", .this "4", .this "5",
    .this "6", .this "7", .this "8", .this "9", .this "10"]⟩)]
  root := "split" })]

/-- Eleven descriptions that each split off a single part. -/
def many : Program := .ofList (["0", "1", "2", "3", "4", "5", "6", "7", "8", "9", "10"].map
  fun name => (name, {
    initialVariables := .empty
    nouns := .ofList [("split", ⟨"split", .parallel "one" [.this "part"]⟩)]
    root := "split" }))

def advances (program : Program) : Nat → World Network
  | 0 => { queue := ((engine {} {}).seed 0 program.entries .empty).2 }
  | turns + 1 => ((engine {} {}).advance 2 program (advances program turns)).2

theorem ne_error_of_isOk {ε β : Type} {outcome : Except ε β} (ok : outcome.isOk = true) (error : ε) :
    outcome ≠ .error error := by
  rintro rfl
  cases ok

theorem reaches_advances {program : Program} {limit : Nat}
    (seeded : ((engine {} {}).seed 0 program.entries .empty).1.isOk = true) {turns : Nat}
    (each : ∀ turn < turns, (engine {} {}).width 2 program (advances program turn) ≤ limit ∧
      ((engine {} {}).advance 2 program (advances program turn)).1.isOk = true) :
    (engine {} {}).Reaches program limit (advances program turns) := by
  induction turns with
  | zero =>
    refine .begun ?_ none
    rcases seed : (engine {} {}).seed 0 program.entries .empty with ⟨_ | _, q⟩
    · rw [seed] at seeded
      cases seeded
    · rfl
  | succ turns ih =>
    obtain ⟨narrow, ok⟩ := each turns (Nat.lt_succ_self _)
    exact .advanced (ih fun turn early => each turn (Nat.lt_succ_of_lt early)) narrow
      (ne_error_of_isOk ok _)

theorem reaches_mono {scene : SceneConfig} {config : EngineConfig} {program : Program}
    {limit limit' : Nat} (wider : limit ≤ limit') {w : World Network}
    (reached : (engine scene config).Reaches program limit w) :
    (engine scene config).Reaches program limit' w := by
  induction reached with
  | begun seeded trace => exact .begun seeded trace
  | advanced _ narrow answered ih => exact .advanced ih (Nat.le_trans narrow wider) answered
  | published _ ih => exact .published ih

theorem reaches_wide : (engine {} {}).Reaches wide 11 (advances wide 3) :=
  reaches_advances (by decide +kernel) (by decide +kernel)

theorem reaches_many : (engine {} {}).Reaches many 1 (advances many 2) :=
  reaches_advances (by decide +kernel) (by decide +kernel)

/-- Ids are unique in all runs with at most so many descriptions and at most so many parts of an
entry, exactly if there is nothing to split or if every ordinal is a single digit. -/
theorem ids_nodup_iff (descriptions width : Nat) :
    (∀ (scene : SceneConfig) (config : EngineConfig) (program : Program),
      program.size ≤ descriptions →
        ∀ w, (engine scene config).Reaches program width w →
          (w.queue.entries.map (·.id)).Nodup) ↔
      descriptions = 0 ∨ width = 0 ∨ descriptions ≤ 10 ∧ width ≤ 10 := by
  constructor
  · intro unique
    rcases Nat.eq_zero_or_pos descriptions with none | some
    · exact .inl none
    rcases Nat.eq_zero_or_pos width with none | splits
    · exact .inr (.inl none)
    refine .inr (.inr ⟨?_, ?_⟩)
    · rw [← Nat.not_lt]
      intro eleven
      -- eleven roots: the part of root 1 and root 10 share an id
      have size : many.size = 11 := by decide +kernel
      have distinct := unique {} {} many (by omega) _ (reaches_mono splits reaches_many)
      exact absurd distinct (by decide +kernel)
    · rw [← Nat.not_lt]
      intro eleven
      -- eleven parts: the part of part 1 and part 10 share an id
      have size : wide.size = 1 := by decide +kernel
      have distinct := unique {} {} wide (by omega) _ (reaches_mono eleven reaches_wide)
      exact absurd distinct (by decide +kernel)
  · intro limits scene config program few w reached
    obtain ⟨paths, chart⟩ := reached.chart (engine_steady scene config)
      (uncached_publish scene config)
    have readable : Path.Readable program.size width := by
      unfold Path.Readable
      omega
    exact chart.nodup readable

/-- One description that splits into eleven parts comes to two results of one id. -/
theorem wide_repeats_id :
    ¬((((Interpreter.scene {} {}).begin 20 wide 1000).2.queue.entries.map (·.id)).Nodup) := by
  decide +kernel

end ProceduralScene.Scene
