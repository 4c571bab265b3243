import ProceduralScene.Proofs.Interpreter.History
import ProceduralScene.Proofs.Interpreter.Turn
import ProceduralScene.Proofs.Scene.Coherence

/-! Runs of one scene in step. Two runs differ in their caches, since every slice publishes and
publishing reads networks; but an advance of worlds that show one content has one outcome. The
runs therefore leave one trail of contents, however far each of them goes. -/
namespace ProceduralScene

open Evaluation Queue

namespace Scene

variable {scene₁ scene₂ : SceneConfig} {engine₁ engine₂ : EngineConfig}
  {content : Queue Network}

theorem scheduleAll_shows {β : Type} (g : Engine Network β) {q : Queue Network}
    (shown : Shows content q) (entries : List Entry) :
    Shows (g.scheduleAll content entries) (g.scheduleAll q entries) := by
  induction entries generalizing content q with
  | nil => exact shown
  | cons entry rest ih => exact ih (shown.push entry _)

theorem evaluated_alike (same : scene₁.retryDelay = scene₂.retryDelay) {w₁ w₂ : World Network}
    (alike : Alike content w₁.queue w₂.queue) {depth₁ depth₂ : Nat} (more : depth₁ ≤ depth₂)
    (program : Program) (entry : Entry) (node : Transformation) :
    Agree (Alike content) ((engine scene₁ engine₁).evaluated depth₁ program w₁ entry node)
      ((engine scene₂ engine₂).evaluated depth₂ program w₂ entry node) := by
  have operations : (engine scene₂ engine₂).operations = (engine scene₁ engine₁).operations := by
    simp only [engine_operations, Scene.operations, same]
  have respects : (engine scene₁ engine₁).operations.Respects (Alike content) := by
    rw [engine_operations]
    exact operations_respects (indistinct_alike content) scene₁
  rw [Engine.evaluated_congr operations]
  exact (engine scene₁ engine₁).evaluated_agree respects alike more program entry node

theorem settled_alike {s t : Scope Network} (related : s.Related (Alike content) t)
    (entry : Entry) (node : Transformation) (rest : List Transformation) (step : Step) :
    ∃ content', Alike content' ((engine scene₁ engine₁).settled entry node rest step s).queue
      ((engine scene₂ engine₂).settled entry node rest step t).queue := by
  have followers : Engine.followers entry rest step s = Engine.followers entry rest step t := by
    simp only [Engine.followers, related.value]
  have progress : (engine scene₂ engine₂).domain.progress =
      (engine scene₁ engine₁).domain.progress := by
    rw [engine_progress, engine_progress]
  refine ⟨(engine scene₁ engine₁).scheduleAll content (Engine.followers entry rest step s), ?_, ?_⟩
  · exact scheduleAll_shows _ related.queue.1 _
  · simp only [Engine.settled, followers]
    rw [Engine.scheduleAll_congr progress]
    exact scheduleAll_shows _ related.queue.2 _

/-- On queues of one content an advance of one scene answers like that of another scene that
retries alike, unless it is out of fuel. -/
theorem advance_alike (engine₁ engine₂ : EngineConfig)
    (same : scene₁.retryDelay = scene₂.retryDelay) {w₁ w₂ : World Network}
    (alike : Alike content w₁.queue w₂.queue) {depth₁ depth₂ : Nat} (more : depth₁ ≤ depth₂)
    (program : Program) {a b : Except Fault Unit × World Network}
    (first : (engine scene₁ engine₁).advance depth₁ program w₁ = a)
    (second : (engine scene₂ engine₂).advance depth₂ program w₂ = b) :
    a.1 = .error .outOfFuel ∨ a.1 = b.1 ∧ ∃ content', Alike content' a.2.queue b.2.queue := by
  subst first second
  cases popped : content.pop with
  | none =>
    rw [Engine.advance_of_pop_none _ (alike.1.pop_none popped),
      Engine.advance_of_pop_none _ (alike.2.pop_none popped)]
    exact .inr ⟨rfl, content, alike⟩
  | some taken =>
    obtain ⟨entry, rest⟩ := taken
    obtain ⟨q₁, popped₁, shown₁⟩ := alike.1.pop_some popped
    obtain ⟨q₂, popped₂, shown₂⟩ := alike.2.pop_some popped
    cases pending : entry.pending with
    | nil =>
      rw [Engine.advance_of_terminal _ popped₁ pending,
        Engine.advance_of_terminal _ popped₂ pending]
      dsimp only
      refine .inr ⟨rfl, rest.push entry (progress entry.payload), ?_, ?_⟩
      · exact shown₁.push entry _
      · exact shown₂.push entry _
    | cons node nodes =>
      rw [Engine.advance_of_pop _ popped₁ pending, Engine.advance_of_pop _ popped₂ pending]
      have agree : Agree (Alike rest)
          ((engine scene₁ engine₁).evaluated depth₁ program { w₁ with queue := q₁ } entry node)
          ((engine scene₂ engine₂).evaluated depth₂ program { w₂ with queue := q₂ } entry node) :=
        evaluated_alike same ⟨shown₁, shown₂⟩ more program entry node
      rcases first : (engine scene₁ engine₁).evaluated depth₁ program
        { w₁ with queue := q₁ } entry node with ⟨outcome₁, s⟩
      rcases second : (engine scene₂ engine₂).evaluated depth₂ program
        { w₂ with queue := q₂ } entry node with ⟨outcome₂, t⟩
      rw [first, second] at agree
      rcases agree with exhausted | ⟨outcome, after⟩
      · dsimp only at exhausted
        subst exhausted
        exact .inl rfl
      · dsimp only at outcome after
        subst outcome
        cases outcome₁ with
        | error fault => exact .inr ⟨rfl, rest, after.queue⟩
        | ok step =>
          dsimp only
          exact .inr ⟨rfl, settled_alike after entry node nodes step⟩

inductive Matches : Except EvalError (Queue Network) → Except EvalError (Queue Network) → Prop where
  | ok {content q r : Queue Network} (alike : Alike content q r) : Matches (.ok q) (.ok r)
  | error (error : EvalError) : Matches (.error error) (.error error)

theorem Matches.symm {a b : Except EvalError (Queue Network)} (h : Matches a b) :
    Matches b a := by
  cases h with
  | ok alike => exact .ok alike.symm
  | error error => exact .error error

theorem Matches.uncached {a b : Except EvalError (Queue Network)} (h : Matches a b) :
    a.map Queue.uncached = b.map Queue.uncached := by
  cases h with
  | ok alike => simp only [Except.map, alike.1.content, alike.2.content]
  | error error => rfl

theorem Matches.content_eq {content' q r : Queue Network} (h : Matches (.ok q) (.ok r))
    (shown : Shows content q) (shown' : Shows content' r) : content = content' := by
  cases h with
  | ok alike =>
    rw [← shown.content, ← shown'.content, alike.1.content, alike.2.content]

theorem outcome?_alike (engine₁ engine₂ : EngineConfig)
    (same : scene₁.retryDelay = scene₂.retryDelay) {w₁ w₂ : World Network}
    (alike : Alike content w₁.queue w₂.queue) {depth₁ depth₂ : Nat} (more : depth₁ ≤ depth₂)
    {program : Program} {a : Except EvalError (Queue Network)}
    (first : (engine scene₁ engine₁).outcome? depth₁ program w₁ = some a) :
    ∃ b, (engine scene₂ engine₂).outcome? depth₂ program w₂ = some b ∧ Matches a b := by
  unfold Engine.outcome? at first ⊢
  have agree := advance_alike engine₁ engine₂ same alike more program rfl rfl
  rcases h₁ : (engine scene₁ engine₁).advance depth₁ program w₁ with ⟨outcome₁, after₁⟩
  rcases h₂ : (engine scene₂ engine₂).advance depth₂ program w₂ with ⟨outcome₂, after₂⟩
  rw [h₁, h₂] at agree
  rw [h₁] at first
  rcases agree with exhausted | ⟨equal, content', after⟩
  · dsimp only at exhausted
    subst exhausted
    cases first
  · dsimp only at equal after
    subst equal
    rcases outcome₁ with (error | _) | _
    · cases first
      exact ⟨.error error, rfl, .error error⟩
    · cases first
    · cases first
      exact ⟨.ok after₂.queue, rfl, .ok after⟩

def Yields (g : Engine Network Snapshot) (program : Program) (content : Queue Network)
    (outcome : Except EvalError (Queue Network)) : Prop :=
  content.hasWork = true ∧
    ∃ depth w, Shows content w.queue ∧ g.outcome? depth program w = some outcome

theorem Yields.unique (same : scene₁.retryDelay = scene₂.retryDelay) {program : Program}
    {a b : Except EvalError (Queue Network)}
    (first : Yields (engine scene₁ engine₁) program content a)
    (second : Yields (engine scene₂ engine₂) program content b) : Matches a b := by
  obtain ⟨_, depth₁, w₁, shown₁, found₁⟩ := first
  obtain ⟨_, depth₂, w₂, shown₂, found₂⟩ := second
  -- the evaluation of less fuel came to an outcome, so more fuel finds the same one
  rcases Nat.le_total depth₁ depth₂ with more | more
  · obtain ⟨b', found, matching⟩ := outcome?_alike engine₁ engine₂ same
      ⟨shown₁, shown₂⟩ more found₁
    rw [found₂] at found
    cases found
    exact matching
  · obtain ⟨a', found, matching⟩ := outcome?_alike engine₂ engine₁ same.symm
      ⟨shown₂, shown₁⟩ more found₂
    rw [found₁] at found
    cases found
    exact matching.symm

theorem Yields.shows {program : Program} {q : Queue Network}
    (yields : Yields (engine scene₁ engine₁) program content (.ok q)) :
    ∃ content', Shows content' q := by
  cases yields.unique rfl yields with
  | ok alike => exact ⟨_, alike.1⟩

inductive Trail (g : Engine Network Snapshot) (program : Program) :
    Queue Network → List (Except EvalError (Queue Network)) → Option (Queue Network) → Prop where
  | nil (content : Queue Network) : Trail g program content [] (some content)
  | failed {content : Queue Network} {error : EvalError}
    (yields : Yields g program content (.error error)) :
    Trail g program content [.error error] none
  | cons {content content' q : Queue Network}
    {rest : List (Except EvalError (Queue Network))} {last : Option (Queue Network)}
    (yields : Yields g program content (.ok q)) (shown : Shows content' q)
    (later : Trail g program content' rest last) :
    Trail g program content (.ok q :: rest) last

namespace Trail

variable {program : Program}

theorem append {g : Engine Network Snapshot} {middle : Queue Network}
    {outcomes later : List (Except EvalError (Queue Network))} {last : Option (Queue Network)}
    (first : Trail g program content outcomes (some middle))
    (second : Trail g program middle later last) :
    Trail g program content (outcomes ++ later) last := by
  generalize ended : some middle = reached at first
  induction first with
  | nil content =>
    cases ended
    exact second
  | failed yields => cases ended
  | cons yields shown _ ih => exact .cons yields shown (ih ended)

theorem of_finished {g : Engine Network Snapshot}
    {outcomes : List (Except EvalError (Queue Network))} {last : Option (Queue Network)}
    (trail : Trail g program content outcomes last) (done : content.hasWork = false) :
    outcomes = [] ∧ last = some content := by
  cases trail with
  | nil => exact ⟨rfl, rfl⟩
  | failed yields => cases yields.1.symm.trans done
  | cons yields _ _ => cases yields.1.symm.trans done

theorem agree (same : scene₁.retryDelay = scene₂.retryDelay)
    {outcomes₁ outcomes₂ : List (Except EvalError (Queue Network))}
    {last₁ last₂ : Option (Queue Network)}
    (first : Trail (engine scene₁ engine₁) program content outcomes₁ last₁)
    (second : Trail (engine scene₂ engine₂) program content outcomes₂ last₂) (n : Nat)
    {a b : Except EvalError (Queue Network)} (here : outcomes₁[n]? = some a)
    (there : outcomes₂[n]? = some b) : Matches a b := by
  -- along the first trail; equal contents after each outcome let the second one keep up
  induction first generalizing outcomes₂ n with
  | nil content => cases here
  | failed yields =>
    cases n with
    | succ n => cases here
    | zero =>
      cases here
      cases second with
      | nil => cases there
      | failed yields' =>
        cases there
        exact yields.unique same yields'
      | cons yields' _ _ =>
        cases there
        exact yields.unique same yields'
  | cons yields shown later ih =>
    cases second with
    | nil => cases there
    | failed yields' => cases yields.unique same yields'
    | cons yields' shown' later' =>
      have matching := yields.unique same yields'
      cases n with
      | zero =>
        cases here
        cases there
        exact matching
      | succ n =>
        cases matching with
        | ok alike =>
          have equal := (Matches.ok alike).content_eq shown shown'
          subst equal
          exact ih later' n here there

theorem agree_finished (same : scene₁.retryDelay = scene₂.retryDelay)
    {outcomes₁ outcomes₂ : List (Except EvalError (Queue Network))} {last₁ last₂ : Queue Network}
    (first : Trail (engine scene₁ engine₁) program content outcomes₁ (some last₁))
    (second : Trail (engine scene₂ engine₂) program content outcomes₂ (some last₂))
    (done₁ : last₁.hasWork = false) (done₂ : last₂.hasWork = false) :
    outcomes₁.length = outcomes₂.length ∧ last₁ = last₂ := by
  generalize ended : some last₁ = reached at first
  induction first generalizing outcomes₂ with
  | nil content =>
    cases ended
    obtain ⟨rfl, ended⟩ := second.of_finished done₁
    exact ⟨rfl, Option.some.inj ended.symm⟩
  | failed yields => cases ended
  | cons yields shown later ih =>
    cases second with
    | nil => cases yields.1.symm.trans done₂
    | cons yields' shown' later' =>
      cases yields.unique same yields' with
      | ok alike =>
        have equal := (Matches.ok alike).content_eq shown shown'
        subst equal
        obtain ⟨length, last⟩ := ih later' ended
        exact ⟨congrArg (· + 1) length, last⟩

end Trail
end Scene
end ProceduralScene
