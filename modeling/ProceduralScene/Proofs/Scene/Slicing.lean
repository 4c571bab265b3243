import ProceduralScene.Proofs.Interpreter.History
import ProceduralScene.Proofs.Scene.Lockstep

/-! A run of a scene does not depend on how it is cut into slices. Every call that goes on with a
run continues one trail of contents, and a final report says that the trail is at its end. Two
histories of a program thus pass through the same contents, fail at the same evaluation, and
publish the same after the same number of steps. -/
namespace ProceduralScene

open Queue

namespace Scene

variable {scene : SceneConfig} {config : EngineConfig} {content : Queue Network}
  {program : Program}

theorem slice_trail (scene : SceneConfig) (config : EngineConfig) (program : Program)
    (depth : Nat) (span : Span) (fuel : Nat) {w : World Network}
    (shown : Shows content w.queue) (steps : Nat) :
    ∃ last, Trail (engine scene config) program content
        ((engine scene config).evaluations depth program span fuel steps w) last ∧
      ∀ k after, (engine scene config).slice depth program span fuel steps w = (.ok k, after) →
        ∃ d, last = some d ∧ Shows d after.queue := by
  induction fuel generalizing content w steps with
  | zero =>
    refine ⟨_, .nil content, fun k after answered => ?_⟩
    cases answered
  | succ fuel ih =>
    unfold Engine.evaluations Engine.slice
    split
    · refine ⟨_, .nil content, fun k after answered => ?_⟩
      cases answered
      exact ⟨content, rfl, shown⟩
    next running =>
      have work : content.hasWork = true := by
        rw [← shown.hasWork]
        exact Engine.hasWork_of_running running
      rcases advanced : (engine scene config).advance depth program w with ⟨outcome, after⟩
      rcases outcome with (error | _) | _
      · refine ⟨_, .failed ⟨work, depth, w, shown, ?_⟩, fun k after answered => ?_⟩
        · simp only [Engine.outcome?, advanced]
        · cases answered
      · refine ⟨_, .nil content, fun k after answered => ?_⟩
        cases answered
      · have yields : Yields (engine scene config) program content (.ok after.queue) := by
          refine ⟨work, depth, w, shown, ?_⟩
          simp only [Engine.outcome?, advanced]
        -- the rest of the slice starts at the content that this outcome shows
        obtain ⟨content', shown'⟩ := yields.shows
        obtain ⟨last, trail, answers⟩ := ih shown' (steps + 1)
        exact ⟨last, .cons yields shown' trail, answers⟩

structure Reports (content : Queue Network) (steps : Nat) (report : Report Snapshot) : Prop where
  published : ∃ q, Shows content q ∧ report.published = (publish q).1
  isFinal : report.isFinal = !content.hasWork
  steps : report.steps = steps

theorem run_trail (program : Program) {i : Interpreter Network Snapshot}
    (scenic : i.engine = engine scene config) (shown : Shows content i.world.queue) (fuel : Nat) :
    ∃ last, Trail (engine scene config) program content (i.evaluations fuel program) last ∧
      ∀ report next, i.run fuel program = (.ok report, next) →
        next.engine = engine scene config ∧ next.program = i.program ∧
          ∃ d, last = some d ∧ Shows d next.world.queue ∧
            Reports d (i.evaluations fuel program).length report := by
  unfold Interpreter.evaluations
  rw [scenic]
  obtain ⟨last, trail, answers⟩ := slice_trail scene config program fuel i.span fuel
    shown 0
  refine ⟨last, trail, fun report next ran => ?_⟩
  unfold Interpreter.run at ran
  rw [scenic] at ran
  rcases sliced : (engine scene config).slice fuel program i.span fuel 0 i.world with
    ⟨(error | _) | steps, after⟩
  · simp only [sliced] at ran
    cases ran
  · simp only [sliced] at ran
    cases ran
  · simp only [sliced] at ran
    obtain ⟨d, ended, shown'⟩ := answers steps after sliced
    have count := (engine scene config).evaluations_slice fuel program i.span fuel 0
      i.world
    rw [sliced] at count
    unfold Interpreter.report at ran
    cases ran
    have own : i.elapsed.engine = engine scene config := scenic
    refine ⟨scenic, rfl, d, ended, ?_, ?_, ?_, ?_⟩
    · rw [own]
      exact publish_shows shown'
    · exact ⟨after.queue, shown', by rw [own]; rfl⟩
    · have published : Shows d (publish after.queue).2 := publish_shows shown'
      rw [own]
      exact congrArg (!·) published.hasWork
    · dsimp only at count ⊢
      omega

structure Accounts (g : Engine Network Snapshot) (program : Program) (content : Queue Network)
    (h : History Network Snapshot) (last : Option (Queue Network)) : Prop where
  trail : Trail g program content h.outcomes last
  steps : h.steps ≤ h.outcomes.length
  final : ∀ report ∈ h.reports, report.isFinal = true →
    h.steps = h.outcomes.length ∧
      ∃ d q, last = some d ∧ d.hasWork = false ∧ Shows d q ∧ report.published = (publish q).1

theorem accounts_nil (g : Engine Network Snapshot) (program : Program)
    (content : Queue Network) : Accounts g program content {} (some content) where
  trail := .nil content
  steps := Nat.le_refl _
  final report member := by cases member

theorem accounts_failed {g : Engine Network Snapshot}
    {outcomes : List (Except EvalError (Queue Network))} {last : Option (Queue Network)}
    (trail : Trail g program content outcomes last) :
    Accounts g program content ⟨outcomes, []⟩ last where
  trail := trail
  steps := Nat.zero_le _
  final report member := by cases member

theorem Accounts.cons {g : Engine Network Snapshot} {middle : Queue Network}
    {outcomes : List (Except EvalError (Queue Network))} {last : Option (Queue Network)}
    {report : Report Snapshot} {h : History Network Snapshot}
    (trail : Trail g program content outcomes (some middle))
    (reports : Reports middle outcomes.length report) (later : Accounts g program middle h last) :
    Accounts g program content ⟨outcomes ++ h.outcomes, report :: h.reports⟩ last := by
  have total : History.steps ⟨outcomes ++ h.outcomes, report :: h.reports⟩ =
      outcomes.length + h.steps := by
    rw [History.steps, List.foldr_cons, reports.steps]
    rfl
  have fewer := later.steps
  refine ⟨trail.append later.trail, ?_, ?_⟩
  · rw [total, List.length_append]
    omega
  · intro other member isFinal
    rw [total, List.length_append]
    rcases List.mem_cons.mp member with rfl | member
    · have done : middle.hasWork = false := by
        have := reports.isFinal.symm.trans isFinal
        simpa using this
      -- at a final report no work is left, so nothing follows on the trail
      obtain ⟨none, ended⟩ := later.trail.of_finished done
      obtain ⟨q, shown, published⟩ := reports.published
      rw [none] at fewer ⊢
      simp only [List.length_nil] at fewer ⊢
      exact ⟨by omega, middle, q, ended, done, shown, published⟩
    · obtain ⟨all, found⟩ := later.final other member isFinal
      exact ⟨by omega, found⟩

theorem precede_accounts {i : Interpreter Network Snapshot}
    (scenic : i.engine = engine scene config) (shown : Shows content i.world.queue)
    (fuel : Nat) {later : Interpreter Network Snapshot → History Network Snapshot}
    (follows : ∀ next d, next.engine = engine scene config → next.program = i.program →
      Shows d next.world.queue →
        ∃ last, Accounts (engine scene config) program d (later next) last) :
    ∃ last, Accounts (engine scene config) program content
      (Interpreter.precede (i.evaluations fuel program)
        (some (i.run fuel program).1, (i.run fuel program).2) later) last := by
  obtain ⟨last, trail, answers⟩ := run_trail program scenic shown fuel
  rcases ran : i.run fuel program with ⟨fault | report, next⟩
  · exact ⟨last, accounts_failed trail⟩
  · obtain ⟨same, known, d, rfl, shown', reports⟩ := answers report next ran
    obtain ⟨last', accounts⟩ := follows next d same known shown'
    exact ⟨last', accounts.cons trail reports⟩

theorem continued_accounts (fuel : Nat) (calls : List Control)
    {i : Interpreter Network Snapshot} (scenic : i.engine = engine scene config)
    (known : i.program = some program) (shown : Shows content i.world.queue) :
    ∃ last, Accounts (engine scene config) program content (i.continued fuel calls) last := by
  induction calls generalizing content i with
  | nil => exact ⟨_, accounts_nil _ _ _⟩
  | cons call calls ih =>
    unfold Interpreter.continued
    cases entering : i.enter? call with
    | none =>
      obtain ⟨world, same, program⟩ := Interpreter.enter?_none entering fuel
      exact ih (same.trans scenic) (program.trans known) (by rwa [world])
    | some entered =>
      obtain ⟨entered, program'⟩ := entered
      obtain ⟨world, same, own, known'⟩ := Interpreter.enter?_some entering
      cases known'.symm.trans known
      dsimp only
      rw [Interpreter.control_of_enter? entering]
      refine precede_accounts (same.trans scenic) (by rwa [world]) fuel ?_
      intro next d scenic' known'' shown'
      exact ih scenic' (known''.trans (own.trans known)) shown'

theorem seed_coherent {β : Type} (g : Engine Network β) (ordinal : Nat)
    (descriptions : List (String × Description)) {q : Queue Network} (coherent : q.Coherent) :
    (g.seed ordinal descriptions q).2.Coherent := by
  induction descriptions generalizing ordinal q with
  | nil => exact coherent
  | cons description rest ih =>
    obtain ⟨name, d⟩ := description
    unfold Engine.seed
    split
    · exact coherent
    · exact ih (ordinal + 1) coherent
    · exact ih (ordinal + 1) (coherent.push _ _)

theorem seed_engine (scene scene' : SceneConfig) (config config' : EngineConfig)
    (descriptions : List (String × Description)) (q : Queue Network) :
    (engine scene config).seed 0 descriptions q =
      (engine scene' config').seed 0 descriptions q := by
  refine Engine.seed_congr ?_ ?_ 0 descriptions q
  · simp only [engine, domain]
  · rw [engine_progress, engine_progress]

inductive Recounts (g : Engine Network Snapshot) (program : Program) :
    Except EvalError Unit × Queue Network → History Network Snapshot → Prop where
  | failed (error : EvalError) (q : Queue Network) :
    Recounts g program (.error error, q) ⟨[.error error], []⟩
  | begun {q : Queue Network} {h : History Network Snapshot} {last : Option (Queue Network)}
    (shown : Shows q.uncached q) (accounts : Accounts g program q.uncached h last) :
    Recounts g program (.ok (), q) ⟨.ok q :: h.outcomes, h.reports⟩

theorem history_recounts {i : Interpreter Network Snapshot}
    (scenic : i.engine = engine scene config) (fuel : Nat) (program : Program)
    (requested : Progress) (calls : List Control) :
    i.history fuel program requested calls = {} ∨
      Recounts (engine scene config) program
        ((engine scene config).seed 0 program.entries .empty)
        (i.history fuel program requested calls) := by
  have coherent := seed_coherent (engine scene config) 0 program.entries coherent_empty
  unfold Interpreter.history
  split
  · exact .inl rfl
  next idle =>
    refine .inr ?_
    rcases seeding : (engine scene config).seed 0 program.entries .empty with ⟨error | _, q⟩
    · simp only [Interpreter.seeded, scenic, seeding]
      exact .failed error q
    · rw [seeding] at coherent
      have ok : ∃ entered, i.seeded program requested = (.ok (), entered) ∧
          entered.engine = engine scene config ∧ entered.program = some program ∧
            entered.world.queue = q := by
        simp only [Interpreter.seeded, scenic, seeding]
        exact ⟨_, rfl, rfl, rfl, rfl⟩
      obtain ⟨entered, ok, scenic', known, start⟩ := ok
      have shown : Shows q.uncached entered.world.queue := ⟨by rw [start], start ▸ coherent⟩
      obtain ⟨last, accounts⟩ := precede_accounts scenic' shown fuel
        fun next d same known' shown' => continued_accounts fuel calls same (known'.trans known)
          shown'
      rw [ok]
      dsimp only
      rw [Interpreter.begin_of_seeded (Bool.not_eq_true _ ▸ idle) ok, Interpreter.precede_cons,
        show entered.queue = q from start]
      exact .begun ⟨rfl, coherent⟩ accounts

def Fails (g : Engine Network Snapshot) (program : Program) (q : Queue Network)
    (error : EvalError) : Prop :=
  ∃ depth w, w.queue = q ∧ g.outcome? depth program w = some (.error error)

theorem fails_of_alike {scene₁ scene₂ : SceneConfig} {engine₁ engine₂ : EngineConfig}
    (same : scene₁.retryDelay = scene₂.retryDelay) {q r : Queue Network}
    (alike : Alike content q r) {error : EvalError}
    (fails : Fails (engine scene₁ engine₁) program q error) :
    Fails (engine scene₂ engine₂) program r error := by
  obtain ⟨depth, w, rfl, failed⟩ := fails
  have alike' : Alike content w.queue { w with queue := r }.queue := alike
  obtain ⟨outcome, found, matching⟩ := outcome?_alike engine₁ engine₂ same alike'
    (Nat.le_refl depth) failed
  cases matching
  exact ⟨depth, _, rfl, found⟩

/-- Two histories of one run, each with its own engine. -/
structure SameRun (g₁ g₂ : Engine Network Snapshot) (program : Program)
    (h₁ h₂ : History Network Snapshot) : Prop where
  outcome : ∀ (n : Nat) (a b : Except EvalError (Queue Network)), h₁.outcomes[n]? = some a →
    h₂.outcomes[n]? = some b → a.map Queue.uncached = b.map Queue.uncached
  failure : ∀ (n : Nat) (q r : Queue Network), h₁.outcomes[n]? = some (.ok q) →
    h₂.outcomes[n]? = some (.ok r) → ∀ error, Fails g₁ program q error ↔ Fails g₂ program r error
  final : ∀ a ∈ h₁.reports, ∀ b ∈ h₂.reports, a.isFinal = true → b.isFinal = true →
    a.published = b.published ∧ h₁.steps = h₂.steps

section
variable {scene₁ scene₂ : SceneConfig} {engine₁ engine₂ : EngineConfig}
  {h₁ h₂ : History Network Snapshot} (same : scene₁.retryDelay = scene₂.retryDelay)

include same

theorem sameRun_of_matches
    (matching : ∀ (n : Nat) a b, h₁.outcomes[n]? = some a → h₂.outcomes[n]? = some b → Matches a b)
    (final : ∀ a ∈ h₁.reports, ∀ b ∈ h₂.reports, a.isFinal = true → b.isFinal = true →
      a.published = b.published ∧ h₁.steps = h₂.steps) :
    SameRun (engine scene₁ engine₁) (engine scene₂ engine₂) program h₁ h₂ where
  outcome n a b here there := (matching n a b here there).uncached
  failure n q r here there error := by
    cases matching n _ _ here there with
    | ok alike => exact ⟨fails_of_alike same alike, fails_of_alike same.symm alike.symm⟩
  final := final

theorem Accounts.final_agree {last₁ last₂ : Option (Queue Network)}
    (first : Accounts (engine scene₁ engine₁) program content h₁ last₁)
    (second : Accounts (engine scene₂ engine₂) program content h₂ last₂)
    {a b : Report Snapshot} (here : a ∈ h₁.reports) (there : b ∈ h₂.reports)
    (done : a.isFinal = true) (done' : b.isFinal = true) :
    a.published = b.published ∧ h₁.steps = h₂.steps := by
  obtain ⟨steps, d, q, rfl, idle, shown, published⟩ := first.final a here done
  obtain ⟨steps', d', q', rfl, idle', shown', published'⟩ := second.final b there done'
  obtain ⟨length, rfl⟩ := first.trail.agree_finished same second.trail idle idle'
  refine ⟨?_, steps.trans (length.trans steps'.symm)⟩
  rw [published, published']
  exact publish_alike ⟨shown, shown'⟩

theorem Recounts.sameRun {start : Except EvalError Unit × Queue Network}
    (first : Recounts (engine scene₁ engine₁) program start h₁)
    (second : Recounts (engine scene₂ engine₂) program start h₂) :
    SameRun (engine scene₁ engine₁) (engine scene₂ engine₂) program h₁ h₂ := by
  cases first with
  | failed error q =>
    cases second
    refine sameRun_of_matches same (fun n a b here there => ?_) (fun a member => by cases member)
    cases n with
    | zero =>
      cases here
      cases there
      exact .error error
    | succ n => cases here
  | begun shown accounts =>
    cases second with
    | begun _ accounts' =>
      refine sameRun_of_matches same (fun n a b here there => ?_)
        (fun a here b there done done' => accounts.final_agree same accounts' here there done done')
      cases n with
      | zero =>
        cases here
        cases there
        exact .ok ⟨shown, shown⟩
      | succ n => exact accounts.trail.agree same accounts'.trail n here there

end

/-- How a run is cut into slices, and by which calls, never changes it. -/
theorem history_sameRun {scene₁ scene₂ : SceneConfig} {engine₁ engine₂ : EngineConfig}
    (same : scene₁.retryDelay = scene₂.retryDelay) {i₁ i₂ : Interpreter Network Snapshot}
    (scenic₁ : i₁.engine = engine scene₁ engine₁) (scenic₂ : i₂.engine = engine scene₂ engine₂)
    (program : Program) (fuel₁ fuel₂ : Nat) (requested₁ requested₂ : Progress)
    (calls₁ calls₂ : List Control) :
    SameRun (engine scene₁ engine₁) (engine scene₂ engine₂) program
      (i₁.history fuel₁ program requested₁ calls₁)
      (i₂.history fuel₂ program requested₂ calls₂) := by
  rcases history_recounts scenic₁ fuel₁ program requested₁ calls₁ with refused | first
  · rw [refused]
    exact sameRun_of_matches same (fun n a b here => by cases here)
      (fun a member => by cases member)
  rcases history_recounts scenic₂ fuel₂ program requested₂ calls₂ with refused | second
  · rw [refused]
    exact sameRun_of_matches same (fun n a b here there => by cases there)
      (fun a _ b member => by cases member)
  rw [seed_engine scene₂ scene₁ engine₂ engine₁] at second
  exact first.sameRun same second

def waiting : Program := .ofList [("waiting", {
  initialVariables := .empty
  nouns := .ofList [("pause", ⟨"pause", .sequential "all" [
    .operation "short" "wait" [.literal "one" (.number 1)],
    .operation "long" "wait" [.literal "two" (.number 2)]]⟩)]
  root := "pause" })]

def stepwise : History Network Snapshot :=
  (Interpreter.scene {} ⟨0⟩).history 10 waiting 10
    [.request 20, .cancel, .request 20, .request 20]

def resumed : History Network Snapshot :=
  (Interpreter.scene { sliceProgress := 0.5 } {}).history 10 waiting 10 [.resume ⟨1⟩]

theorem waiting_sameRun :
    SameRun (engine {} ⟨0⟩) (engine { sliceProgress := 0.5 } {}) waiting stepwise resumed ∧
      stepwise.reports.map (fun report => (report.steps, report.isFinal)) =
        [(1, false), (1, false), (1, true), (0, true)] ∧
      resumed.reports.map (fun report => (report.steps, report.isFinal)) =
        [(2, false), (1, true)] := by
  refine ⟨?_, by decide +kernel, by decide +kernel⟩
  have same : ({} : SceneConfig).retryDelay = SceneConfig.retryDelay { sliceProgress := 0.5 } := rfl
  exact history_sameRun same (Eq.refl (Interpreter.scene {} ⟨0⟩).engine)
    (Eq.refl (Interpreter.scene { sliceProgress := 0.5 } {}).engine) waiting 10 10 10 10 _ _

end Scene
end ProceduralScene
