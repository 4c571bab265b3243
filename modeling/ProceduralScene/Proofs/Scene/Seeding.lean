import ProceduralScene.Proofs.Interpreter.Refusal
import ProceduralScene.Proofs.Queue.Ledger
import ProceduralScene.Proofs.Scene.Operations

/-! How a run of a scene is seeded. The descriptions are gone through in the order of declaration,
and each of them either has its root put in the queue or is passed over, up to the first one that
is faulty. Roots are numbered by their descriptions, so those of equal progress are served in the
order of declaration, too. -/
namespace ProceduralScene

def entityKinds : List String :=
  ["street", "footwalk", "pedestrian", "car", "bus", "train", "cyclist", "camera"]

theorem entityDefaults_eq_none {kind : String} (lane : ¬(kind = "street" ∨ kind = "footwalk")) :
    entityDefaults kind = none ↔ kind ∉ entityKinds := by
  rw [entityKinds, List.mem_cons, List.mem_cons, ← or_assoc, or_iff_right lane]
  unfold entityDefaults
  split <;> simp_all

structure Variables.Strange (vars : Variables) (type : Payload) : Prop where
  typed : vars.get? "type" = some type
  given : type ≠ .nil
  unknown : ∀ kind ∈ entityKinds, type ≠ .text kind

theorem made_error_iff {kind : String} {vars : Variables} {astId : String} {error : EvalError} :
    (if kind = "street" ∨ kind = "footwalk" then
        (return .pathway (Pathway.create kind vars astId) : Except EvalError Payload)
      else return .motion (← Motion.create kind vars astId)) = .error error ↔
      kind ∉ entityKinds ∧ error = .unknownEntityType kind := by
  by_cases lane : kind = "street" ∨ kind = "footwalk"
  · rw [if_pos lane]
    refine iff_of_false nofun fun unknown => ?_
    rcases lane with rfl | rfl <;> exact unknown.1 (by decide)
  · rw [if_neg lane, ← entityDefaults_eq_none lane, Motion.create]
    cases entityDefaults kind with
    | none =>
      constructor
      · rintro ⟨⟩
        exact ⟨rfl, rfl⟩
      · rintro ⟨_, rfl⟩
        rfl
    | some defaults => exact iff_of_false nofun nofun

theorem Payload.create_error_iff {vars : Variables} {astId : String} {error : EvalError} :
    Payload.create vars astId = .error error ↔
      ∃ type, vars.Strange type ∧ error = .unknownEntityType type.display := by
  have pedestrian : ¬("pedestrian" ∉ entityKinds ∧ error = .unknownEntityType "pedestrian") :=
    fun failed => failed.1 (by decide)
  unfold Payload.create
  cases typed : vars.get? "type" with
  | none =>
    dsimp only
    rw [pure_bind, made_error_iff]
    refine iff_of_false pedestrian ?_
    rintro ⟨type, strange, _⟩
    cases typed.symm.trans strange.typed
  | some payload =>
    have own {type : Payload} (strange : vars.Strange type) : payload = type :=
      Option.some.inj (typed.symm.trans strange.typed)
    cases payload with
    | nil =>
      dsimp only
      rw [pure_bind, made_error_iff]
      refine iff_of_false pedestrian ?_
      rintro ⟨type, strange, _⟩
      exact strange.given (own strange).symm
    | text kind =>
      dsimp only
      rw [pure_bind, made_error_iff]
      constructor
      · rintro ⟨unknown, rfl⟩
        refine ⟨.text kind, ⟨typed, nofun, fun other known same => ?_⟩, rfl⟩
        cases same
        exact unknown known
      · rintro ⟨type, strange, rfl⟩
        cases own strange
        exact ⟨fun known => strange.unknown kind known rfl, rfl⟩
    | _ =>
      constructor
      · rintro ⟨⟩
        exact ⟨_, ⟨typed, nofun, nofun⟩, rfl⟩
      · rintro ⟨type, strange, rfl⟩
        cases own strange
        rfl

namespace Scene

/-- What is wrong with a description: it lacks its root rule, run or not, or it is to be run and
asks for an entity that there is not. -/
inductive Faulty (name : String) (d : Description) : EvalError → Prop where
  | rootless (missing : d.rootNoun? = none) : Faulty name d (.unknownRootNoun name d.root)
  | strange {noun : Noun} {type : Payload} (rooted : d.rootNoun? = some noun)
    (runs : d.isInterpreted = true) (strange : d.initialVariables.Strange type) :
    Faulty name d (.unknownEntityType type.display)

def Sound (descriptions : List (String × Description)) : Prop :=
  ∀ named ∈ descriptions, ∀ error, ¬Faulty named.1 named.2 error

theorem Sound.concat {descriptions : List (String × Description)} (sound : Sound descriptions)
    {name : String} {d : Description} (fine : ∀ error, ¬Faulty name d error) :
    Sound (descriptions ++ [(name, d)]) := by
  intro named member
  rcases List.mem_append.mp member with member | member
  · exact sound named member
  · rw [List.mem_singleton.mp member]
    exact fine

inductive Root (ordinal : Nat) (d : Description) : Entry → Prop where
  | root {noun : Noun} {payload : Payload} (rooted : d.rootNoun? = some noun)
    (created : Payload.create d.initialVariables noun.astId = .ok payload) :
    Root ordinal d {
      id := toString ordinal
      value := ⟨payload, d.initialVariables.insert "index" (.number 0)⟩
      seed := d.seed
      pending := [noun.transformation] }

variable {scene : SceneConfig} {config : EngineConfig} {ordinal : Nat} {name : String}
  {d : Description}

theorem root_of_skipped {noun : Noun} (rooted : d.rootNoun? = some noun)
    (skips : d.isInterpreted = false) :
    (engine scene config).root ordinal name d = .ok none := by
  simp only [Engine.root, rooted, skips]
  rfl

theorem root_of_interpreted {noun : Noun} (rooted : d.rootNoun? = some noun)
    (runs : d.isInterpreted = true) :
    (engine scene config).root ordinal name d =
      (Payload.create d.initialVariables noun.astId).map fun payload => some {
        id := toString ordinal
        value := ⟨payload, d.initialVariables.insert "index" (.number 0)⟩
        seed := d.seed
        pending := [noun.transformation] } := by
  simp only [Engine.root, rooted, runs, engine, domain]
  cases Payload.create d.initialVariables noun.astId <;> rfl

inductive Rooted (ordinal : Nat) (name : String) (d : Description) :
    Except EvalError (Option Entry) → Prop where
  | faulty {error : EvalError} (faulty : Faulty name d error) : Rooted ordinal name d (.error error)
  | skipped (sound : ∀ error, ¬Faulty name d error) (skips : d.isInterpreted = false) :
    Rooted ordinal name d (.ok none)
  | planted {entry : Entry} (sound : ∀ error, ¬Faulty name d error)
    (runs : d.isInterpreted = true) (root : Root ordinal d entry) :
    Rooted ordinal name d (.ok (some entry))

theorem root_rooted (scene : SceneConfig) (config : EngineConfig) (ordinal : Nat) (name : String)
    (d : Description) :
    Rooted ordinal name d ((engine scene config).root ordinal name d) := by
  cases rooted : d.rootNoun? with
  | none =>
    have failed : (engine scene config).root ordinal name d =
        .error (.unknownRootNoun name d.root) := by
      simp only [Engine.root, rooted]
      rfl
    rw [failed]
    exact .faulty (.rootless rooted)
  | some noun =>
    cases runs : d.isInterpreted with
    | false =>
      rw [root_of_skipped rooted runs]
      refine .skipped (fun error faulty => ?_) runs
      cases faulty with
      | rootless missing => cases rooted.symm.trans missing
      | strange _ runs' => cases runs.symm.trans runs'
    | true =>
      rw [root_of_interpreted rooted runs]
      cases created : Payload.create d.initialVariables noun.astId with
      | error error =>
        obtain ⟨type, strange, rfl⟩ := Payload.create_error_iff.mp created
        exact .faulty (.strange rooted runs strange)
      | ok payload =>
        refine .planted (fun error faulty => ?_) runs (.root rooted created)
        cases faulty with
        | rootless missing => cases rooted.symm.trans missing
        | strange _ _ strange =>
          cases created.symm.trans (Payload.create_error_iff.mpr ⟨_, strange, rfl⟩)

structure Planted (descriptions : List (String × Description)) (roots : List (Nat × Entry)) :
    Prop where
  increasing : roots.Pairwise fun a b => a.1 < b.1
  complete : ∀ ordinal name d, descriptions[ordinal]? = some (name, d) → d.isInterpreted = true →
    ∃ entry, (ordinal, entry) ∈ roots
  root : ∀ root ∈ roots, ∃ name d, descriptions[root.1]? = some (name, d) ∧
    d.isInterpreted = true ∧ Root root.1 d root.2

theorem planted_nil : Planted [] [] where
  increasing := .nil
  complete ordinal name d here := by cases here
  root root member := by cases member

variable {descriptions : List (String × Description)} {roots : List (Nat × Entry)}

theorem Planted.lt (planted : Planted descriptions roots) {root : Nat × Entry}
    (member : root ∈ roots) : root.1 < descriptions.length := by
  obtain ⟨name, d, here, _⟩ := planted.root root member
  exact (List.getElem?_eq_some_iff.mp here).1

theorem eq_of_getElem?_concat {x y : String × Description} {n : Nat}
    (here : (descriptions ++ [x])[n]? = some y) :
    descriptions[n]? = some y ∨ n = descriptions.length ∧ x = y := by
  rw [List.getElem?_append] at here
  split at here
  · exact .inl here
  · obtain ⟨last, same⟩ := List.getElem?_eq_some_iff.mp here
    rw [List.length_singleton] at last
    rw [List.getElem_singleton] at same
    exact .inr ⟨by omega, same⟩

theorem Planted.skip (planted : Planted descriptions roots) (name : String)
    (skips : d.isInterpreted = false) : Planted (descriptions ++ [(name, d)]) roots where
  increasing := planted.increasing
  complete ordinal name' d' here runs := by
    rcases eq_of_getElem?_concat here with here | ⟨_, same⟩
    · exact planted.complete ordinal name' d' here runs
    · cases same
      cases skips.symm.trans runs
  root root member := by
    obtain ⟨name', d', here, own⟩ := planted.root root member
    exact ⟨name', d', by rw [List.getElem?_append_left (planted.lt member), here], own⟩

theorem Planted.plant (planted : Planted descriptions roots) (name : String) {entry : Entry}
    (runs : d.isInterpreted = true) (root : Root descriptions.length d entry) :
    Planted (descriptions ++ [(name, d)]) (roots ++ [(descriptions.length, entry)]) where
  increasing := by
    refine List.pairwise_append.mpr ⟨planted.increasing, List.pairwise_singleton _ _, ?_⟩
    intro other member last same
    rw [List.mem_singleton.mp same]
    exact planted.lt member
  complete ordinal name' d' here runs' := by
    rcases eq_of_getElem?_concat here with here | ⟨last, _⟩
    · obtain ⟨entry', member⟩ := planted.complete ordinal name' d' here runs'
      exact ⟨entry', List.mem_append_left _ member⟩
    · rw [last]
      exact ⟨entry, List.mem_append_right _ List.mem_cons_self⟩
  root other member := by
    rcases List.mem_append.mp member with member | member
    · obtain ⟨name', d', here, own⟩ := planted.root other member
      exact ⟨name', d', by rw [List.getElem?_append_left (planted.lt member), here], own⟩
    · rw [List.mem_singleton.mp member]
      exact ⟨name, d, List.getElem?_concat_length, runs, root⟩

def arrival (root : Nat × Entry) : Arrival := ⟨progress root.2.payload, root.2⟩

def Holding (roots : List (Nat × Entry)) (q : Queue Network) : Prop :=
  ∃ numbered, q.Keeps { waiting := roots.map arrival } numbered

theorem Holding.plant {q : Queue Network} (holding : Holding roots q) {entry : Entry}
    (root : Root ordinal d entry) :
    Holding (roots ++ [(ordinal, entry)]) (q.push entry (progress entry.payload)) := by
  obtain ⟨numbered, keeps⟩ := holding
  have working : entry.pending ≠ [] := by
    cases root
    exact List.cons_ne_nil _ _
  have entered := keeps.enter working (progress entry.payload)
  rw [Ledger.push, if_neg working] at entered
  rw [Holding, List.map_append]
  exact ⟨_, entered⟩

/-- Whether one root is served before another: by progress, and at equal progress by ordinal. -/
def sooner (a b : Nat × Entry) : Bool :=
  progress a.2.payload < progress b.2.payload ||
    (progress a.2.payload ≤ progress b.2.payload && a.1 ≤ b.1)

theorem sooner_iff {a b : Nat × Entry} :
    sooner a b = true ↔ progress a.2.payload < progress b.2.payload ∨
      progress a.2.payload ≤ progress b.2.payload ∧ a.1 ≤ b.1 := by
  simp [sooner]

theorem sooner_trans (a b c : Nat × Entry) (ab : sooner a b = true) (bc : sooner b c = true) :
    sooner a c = true := by
  rw [sooner_iff, Progress.lt_iff, Progress.le_iff] at ab bc ⊢
  omega

theorem sooner_total (a b : Nat × Entry) : (sooner a b || sooner b a) = true := by
  rw [Bool.or_eq_true, sooner_iff, sooner_iff]
  simp only [Progress.lt_iff, Progress.le_iff]
  omega

theorem stable_sooner (increasing : roots.Pairwise fun a b => a.1 < b.1) :
    Arrival.Stable (roots.map arrival) ((roots.mergeSort sooner).map arrival) := by
  have sorted := List.pairwise_mergeSort sooner_trans sooner_total roots
  refine ⟨List.pairwise_map.mpr (sorted.imp fun {a b} ahead => ?_), fun rank => ?_⟩
  · rw [sooner_iff, Progress.lt_iff, Progress.le_iff] at ahead
    rw [Arrival.notAfter_iff, Progress.le_iff]
    change (progress a.2.payload).rank.toNat ≤ (progress b.2.payload).rank.toNat
    omega
  · rw [List.filter_map, List.filter_map]
    congr 1
    refine filter_mergeSort sooner_trans sooner_total ?_
    refine (increasing.filter _).imp_of_mem fun {a b} ha hb before => ?_
    have same := Arrival.ranks_iff.mp (List.mem_filter.mp ha).2
    have same' := Arrival.ranks_iff.mp (List.mem_filter.mp hb).2
    refine sooner_iff.mpr (.inr ⟨?_, Nat.le_of_lt before⟩)
    exact UInt64.le_of_eq (same.trans same'.symm)

structure Lined (roots : List (Nat × Entry)) (q : Queue Network) : Prop where
  inFlight : q.inFlight = (roots.mergeSort sooner).map (·.2)
  retired : q.retired = []

theorem Holding.lined {q : Queue Network} (holding : Holding roots q)
    (increasing : roots.Pairwise fun a b => a.1 < b.1) : Lined roots q := by
  obtain ⟨numbered, keeps⟩ := holding
  refine ⟨?_, keeps.retired⟩
  rw [keeps.inFlight, (Arrival.stable_mergeSort _).unique (stable_sooner increasing),
    List.map_map]
  rfl

inductive Sown (descriptions : List (String × Description)) :
    Except EvalError Unit × Queue Network → Prop where
  | planted {roots : List (Nat × Entry)} {q : Queue Network}
    (sound : Sound descriptions) (planted : Planted descriptions roots)
    (holding : Holding roots q) : Sown descriptions (.ok (), q)
  | failed {earlier later : List (String × Description)} {name : String} {d : Description}
    {error : EvalError} {roots : List (Nat × Entry)} {q : Queue Network}
    (split : descriptions = earlier ++ (name, d) :: later) (sound : Sound earlier)
    (faulty : Faulty name d error) (planted : Planted earlier roots) (holding : Holding roots q) :
    Sown descriptions (.error error, q)

theorem seed_sown (scene : SceneConfig) (config : EngineConfig)
    {earlier rest : List (String × Description)} {q : Queue Network} (sound : Sound earlier)
    (planted : Planted earlier roots) (holding : Holding roots q) :
    Sown (earlier ++ rest) ((engine scene config).seed earlier.length rest q) := by
  induction rest generalizing earlier roots q with
  | nil =>
    rw [List.append_nil]
    exact .planted sound planted holding
  | cons description rest ih =>
    obtain ⟨name, d⟩ := description
    have split : earlier ++ (name, d) :: rest = (earlier ++ [(name, d)]) ++ rest := by
      rw [List.append_assoc, List.singleton_append]
    have length : (earlier ++ [(name, d)]).length = earlier.length + 1 := List.length_append
    rw [Engine.seed]
    have rooted := root_rooted scene config earlier.length name d
    generalize (engine scene config).root earlier.length name d = outcome at rooted
    cases rooted with
    | faulty faulty => exact .failed rfl sound faulty planted holding
    | skipped fine skips =>
      rw [split, ← length]
      exact ih (sound.concat fine) (planted.skip name skips) holding
    | planted fine runs root =>
      rw [split, ← length]
      refine ih (sound.concat fine) (planted.plant name runs root) ?_
      rw [Engine.schedule, engine_progress]
      exact holding.plant root

/-- A `begin` that failed before anything was evaluated, with what it had put in the queue. After it
the interpreter takes up no call but the next `begin`. -/
structure Barren (fuel : Nat) (i : Interpreter Network Snapshot) (program : Program)
    (requested : Progress) (error : EvalError) (q : Queue Network)
    (after : Interpreter Network Snapshot) : Prop where
  answer : i.begin fuel program requested = (.error (.error error), after)
  engine : after.engine = i.engine
  queue : after.queue = q
  trace : after.world.trace = i.world.trace
  history : ∀ calls, i.history fuel program requested calls = ⟨[.error error], []⟩
  pending : after.pending = none
  issued : after.issued = i.issued
  resume : ∀ fuel token, after.resume fuel token = (.error (.error .halted), after)
  request : ∀ fuel target, after.requestProgress fuel target = (.error (.error .halted), after)
  cancel : after.cancel = (false, after)

/-- An accepted `begin` puts all roots in the queue and goes on with the first slice, or fails with
the first faulty description. -/
inductive Begins (fuel : Nat) (i : Interpreter Network Snapshot) (program : Program)
    (requested : Progress) : Prop where
  | seeded {roots : List (Nat × Entry)} {q : Queue Network}
    (sound : Sound program.entries) (planted : Planted program.entries roots)
    (lined : Lined roots q)
    (runs : i.begin fuel program requested =
      { i with
        program := some program
        requested := requested
        world := { i.world with queue := q }
        halted := false }.run fuel program) : Begins fuel i program requested
  | failed {earlier later : List (String × Description)} {name : String} {d : Description}
    {error : EvalError} {roots : List (Nat × Entry)} {q : Queue Network}
    {after : Interpreter Network Snapshot}
    (split : program.entries = earlier ++ (name, d) :: later) (sound : Sound earlier)
    (faulty : Faulty name d error) (planted : Planted earlier roots) (lined : Lined roots q)
    (barren : Barren fuel i program requested error q after) : Begins fuel i program requested

variable {i : Interpreter Network Snapshot} {program : Program} {requested : Progress}

theorem barren_of_seed (idle : i.isRunning = false) {error : EvalError} {q : Queue Network}
    (failed : i.engine.seed 0 program.entries .empty = (.error error, q)) (fuel : Nat) :
    ∃ after, Barren fuel i program requested error q after := by
  have seeded : i.seeded program requested = (.error error, { i with
      program := some program
      requested := requested
      world := { i.world with queue := q }
      halted := false }) := by
    simp only [Interpreter.seeded, failed]
  refine ⟨_, {
    answer := Interpreter.begin_of_unseeded idle seeded fuel
    engine := rfl, queue := rfl, trace := rfl, pending := rfl, issued := rfl, cancel := rfl
    history := fun calls => ?_
    resume := fun fuel token => Interpreter.resume_of_refused rfl fuel
    request := fun fuel target => Interpreter.requestProgress_of_refused rfl fuel }⟩
  rw [Interpreter.history, idle, if_neg Bool.false_ne_true, seeded]

def planned (root : String) (vars : List (String × Payload)) : Description where
  initialVariables := .ofList vars
  nouns := .ofList [("plan", ⟨"plan", .operation "short" "wait" [.literal "one" (.number 1)]⟩)]
  root := root

/-- A street is behind a pedestrian and a car that is not to be run. -/
def market : List (String × Description) :=
  [("walker", planned "plan" []),
    ("car", planned "plan" [("type", .text "car"), ("interprete", .bool false)]),
    ("street", planned "plan" [("type", .text "street")])]

/-- What is not to be run lacks its root, in front of an entity that there is not. -/
def faultyMarket : List (String × Description) :=
  market ++ [("bus", planned "missing" [("type", .text "bus"), ("interprete", .bool false)]),
    ("boat", planned "plan" [("type", .text "boat")])]

end Scene
end ProceduralScene
