import ProceduralScene.Proofs.Interpreter.Causality
import ProceduralScene.Proofs.Interpreter.Reporting

/-! The agents that a scene publishes. They are the entries that hold a motion, those in flight in
the order in which they will be served, then the finished ones as they have retired. A finished
agent never changes, nor do the agents that have finished before it. -/
namespace ProceduralScene

namespace Agent

structure Shows (a : Agent) (id : String) (m : Motion) : Prop where
  id : a.id = id
  keyframes : a.motion.keyframes = m.keyframes
  url : a.motion.url = m.url
  radius : a.motion.radius = m.radius
  kind : a.motion.kind = m.kind

theorem Shows.eq {a : Agent} {id : String} {m : Motion} (shows_ : a.Shows id m) : a = ⟨id, m⟩ := by
  obtain ⟨_, ⟨_, _, _, _⟩⟩ := a
  obtain ⟨rfl, rfl, rfl, rfl, rfl⟩ := shows_
  rfl

theorem some_of_motion {entry : Entry} {m : Motion} (holds : entry.payload = .motion m) :
    ofEntry? entry = some ⟨entry.id, m⟩ := by
  unfold ofEntry?
  rw [holds]
  rfl

theorem none_of_other {entry : Entry} (other : ∀ m, entry.payload ≠ .motion m) :
    ofEntry? entry = none := by
  unfold ofEntry?
  cases kind : entry.payload with
  | motion m => exact absurd kind (other m)
  | _ => rfl

end Agent

namespace Scene

/-- Some agents are those of some entries: of the ones that hold a motion, each once and in their
order. -/
inductive Enlists : List Entry → List Agent → Prop where
  | none : Enlists [] []
  | moving {entry : Entry} {entries : List Entry} {a : Agent} {agents : List Agent} {m : Motion}
    (holds : entry.payload = .motion m) (shown : a.Shows entry.id m)
    (later : Enlists entries agents) : Enlists (entry :: entries) (a :: agents)
  | other {entry : Entry} {entries : List Entry} {agents : List Agent}
    (other : ∀ m, entry.payload ≠ .motion m) (later : Enlists entries agents) :
    Enlists (entry :: entries) agents

theorem Enlists.eq {entries : List Entry} {agents : List Agent} (enlists : Enlists entries agents) :
    agents = entries.filterMap Agent.ofEntry? := by
  induction enlists with
  | none => rfl
  | moving holds shown later ih =>
    rw [List.filterMap_cons_some (Agent.some_of_motion holds), shown.eq, ih]
  | other other later ih => rw [List.filterMap_cons_none (Agent.none_of_other other), ih]

theorem enlists_filterMap (entries : List Entry) :
    Enlists entries (entries.filterMap Agent.ofEntry?) := by
  induction entries with
  | nil => exact .none
  | cons entry entries ih =>
    by_cases moves : ∃ m, entry.payload = .motion m
    · obtain ⟨m, holds⟩ := moves
      rw [List.filterMap_cons_some (Agent.some_of_motion holds)]
      exact .moving holds ⟨rfl, rfl, rfl, rfl, rfl⟩ ih
    · have other : ∀ m, entry.payload ≠ .motion m := not_exists.mp moves
      rw [List.filterMap_cons_none (Agent.none_of_other other)]
      exact .other other ih

/-- Some agents are those of a queue: the ones in flight by progress and, where that is equal, by
arrival, and behind them the finished ones as they have retired. -/
structure Enrols (q : Queue Network) (agents finished : List Agent) : Prop where
  inFlight : ∃ moving, agents = moving ++ finished ∧ Enlists q.inFlight moving
  retired : Enlists q.retired finished
  ordered : Ordered q.slots
  timed : ∀ slot ∈ q.slots, slot.progress = progress slot.entry.payload

theorem agents_publish (q : Queue Network) :
    (publish q).1.agents = q.entries.filterMap Agent.ofEntry? := by
  have read : (publish q).1.agents =
      (Network.cached (Network.cached q "street").2 "footwalk").2.entries.filterMap
        Agent.ofEntry? := rfl
  have same : (Network.cached (Network.cached q "street").2 "footwalk").2.uncached = q.uncached :=
    (Queue.uncached_cached _ _ _ _).trans (Queue.uncached_cached _ _ _ _)
  rw [read, Queue.entries_of_uncached same]

theorem enrols_publish {scene : SceneConfig} {config : EngineConfig} {q r : Queue Network}
    (scheduled : (engine scene config).Scheduled q) (same : r.uncached = q.uncached) :
    Enrols q (publish r).1.agents (q.retired.filterMap Agent.ofEntry?) where
  inFlight := by
    refine ⟨_, ?_, enlists_filterMap q.inFlight⟩
    rw [agents_publish, Queue.entries_of_uncached same, Queue.entries, List.filterMap_append]
  retired := enlists_filterMap q.retired
  ordered := by
    obtain ⟨_, _, keeps⟩ := scheduled.kept
    exact keeps.ordered
  timed := scheduled.timed

/-- Every report of a run publishes the agents of the queue that it is about, and those of them that
have finished stand first among the finished agents of every later report. -/
theorem history_agents (scene : SceneConfig) (config : EngineConfig)
    {i : Interpreter Network Snapshot} (own : i.engine = engine scene config) (fuel : Nat)
    (program : Program) (requested : Progress) (calls : List Control) :
    (∀ k report, (i.history fuel program requested calls).reports[k]? = some report →
      ∃ q finished, (i.history fuel program requested calls).shown? k = some q ∧
        Enrols q report.published.agents finished) ∧
    ∀ k l q r, k ≤ l → (i.history fuel program requested calls).shown? k = some q →
      (i.history fuel program requested calls).shown? l = some r →
        ∀ early late, Enlists q.retired early → Enlists r.retired late → early <+: late := by
  have publishes := uncached_publish scene config
  obtain ⟨grows, scheduled⟩ := Interpreter.history_grows (engine_steady scene config) publishes own
    fuel program requested calls
  refine ⟨fun k report reported => ?_, fun k l q r le first second early late first' second' => ?_⟩
  · obtain ⟨q, shown, r, same, published⟩ :=
      Interpreter.history_tells publishes own fuel program requested calls reported
    obtain ⟨outcome, at_, ok⟩ := Option.bind_eq_some_iff.mp shown
    have among : .ok q ∈ (i.history fuel program requested calls).outcomes := by
      cases outcome with
      | error error => cases ok
      | ok q' =>
        cases ok
        exact List.mem_of_getElem? at_
    rw [published]
    exact ⟨q, _, shown, enrols_publish (scheduled q among) same⟩
  · rw [first'.eq, second'.eq]
    exact (Interpreter.shown?_grows grows le first second).filterMap _

/-- In the fifth report of the run one pedestrian has finished, in the sixth both have. -/
theorem parted_agents :
    (Interpreter.scene {} ⟨0⟩).engine = engine {} ⟨0⟩ ∧
      ∃ early late q r finished finished', parted.reports[4]? = some early ∧
        parted.reports[5]? = some late ∧ parted.shown? 4 = some q ∧ parted.shown? 5 = some r ∧
        Enrols q early.published.agents finished ∧ Enrols r late.published.agents finished' ∧
        finished.map (·.id) = ["00"] ∧ finished'.map (·.id) = ["00", "01"] ∧
        finished <+: finished' := by
  have own : (Interpreter.scene {} ⟨0⟩).engine = engine {} ⟨0⟩ := rfl
  obtain ⟨published, frozen⟩ := history_agents {} ⟨0⟩ own 10 parting 10
    [.resume ⟨1⟩, .resume ⟨2⟩, .cancel, .request 20, .request 20, .request 20]
  have reports : parted.reports.length = 6 := by decide +kernel
  have early := List.getElem?_eq_getElem (l := parted.reports) (i := 4) (by omega)
  have late := List.getElem?_eq_getElem (l := parted.reports) (i := 5) (by omega)
  obtain ⟨q, finished, first, enrols⟩ := published 4 _ early
  obtain ⟨r, finished', second, enrols'⟩ := published 5 _ late
  have known (k : Nat) {q : Queue Network} (shown : parted.shown? k = some q)
      {finished : List Agent} (enlists : Enlists q.retired finished) :
      finished.map (·.id) = ((parted.shown? k).map fun q =>
        (q.retired.filterMap Agent.ofEntry?).map (·.id)).getD [] := by
    rw [shown, enlists.eq]
    rfl
  refine ⟨own, _, _, q, r, finished, finished', early, late, first, second, enrols, enrols', ?_, ?_,
    frozen 4 5 q r (by decide) first second _ _ enrols.retired enrols'.retired⟩
  · rw [known 4 first enrols.retired]
    decide +kernel
  · rw [known 5 second enrols'.retired]
    decide +kernel

end Scene
end ProceduralScene
