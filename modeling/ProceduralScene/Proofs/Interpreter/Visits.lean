import ProceduralScene.Proofs.Interpreter.Descent
import ProceduralScene.Proofs.Interpreter.History

/-! The worlds that a run comes to: after its seeding, also where that has stopped at a description,
after every advance, also one that has failed, and after every report. Whatever calls continue a
run, its history is about such worlds only, and its last error came from one of them. -/
namespace ProceduralScene

variable {α β : Type}

namespace Engine

inductive Visits (g : Engine α β) (program : Program) : World α → Prop where
  | seeded (trace : Option (Array Event)) :
    Visits g program { queue := (g.seed 0 program.entries .empty).2, trace }
  | advanced {w : World α} (visited : Visits g program w) {depth : Nat}
    (answered : (g.advance depth program w).1 ≠ .error .outOfFuel) :
    Visits g program (g.advance depth program w).2
  | published {w : World α} (visited : Visits g program w) :
    Visits g program { w with queue := (g.domain.publish w.queue).2 }

inductive Shown (g : Engine α β) (program : Program) : Except EvalError (Queue α) → Prop where
  | visited {w : World α} (visited : g.Visits program w) : Shown g program (.ok w.queue)
  | unseeded {error : EvalError} (failed : (g.seed 0 program.entries .empty).1 = .error error) :
    Shown g program (.error error)
  | failed {w : World α} (visited : g.Visits program w) {depth : Nat} {error : EvalError}
    (failed : (g.advance depth program w).1 = .error (.error error)) :
    Shown g program (.error error)

variable {g : Engine α β} {program : Program}

/-- What every world that a run comes to has, if seeding and advancing lead to it and nothing but
the cache depends on publishing. -/
theorem Visits.invariant {P : Queue α → Prop}
    (seeded : P (g.seed 0 program.entries .empty).2)
    (advances : ∀ depth w, P w.queue → (g.advance depth program w).1 ≠ .error .outOfFuel →
      P (g.advance depth program w).2.queue)
    (publishes : ∀ q, P q → P (g.domain.publish q).2) {w : World α}
    (visited : g.Visits program w) : P w.queue := by
  induction visited with
  | seeded trace => exact seeded
  | advanced _ answered ih => exact advances _ _ ih answered
  | published _ ih => exact publishes _ ih

theorem slice_visits (depth : Nat) (span : Span) (fuel : Nat) {w : World α}
    (visited : g.Visits program w) (steps : Nat) :
    (∀ outcome ∈ g.evaluations depth program span fuel steps w, g.Shown program outcome) ∧
      ∀ k after, g.slice depth program span fuel steps w = (.ok k, after) →
        g.Visits program after := by
  induction fuel generalizing w steps with
  | zero =>
    refine ⟨fun outcome member => ?_, fun k after answered => ?_⟩
    · cases member
    · cases answered
  | succ fuel ih =>
    unfold evaluations slice
    split
    · refine ⟨fun outcome member => ?_, fun k after answered => ?_⟩
      · cases member
      · cases answered
        exact visited
    · rcases advanced : g.advance depth program w with ⟨(error | _) | _, next⟩
      · refine ⟨fun outcome member => ?_, fun k after answered => ?_⟩
        · rw [List.mem_singleton.mp member]
          exact .failed visited (congrArg Prod.fst advanced)
        · cases answered
      · refine ⟨fun outcome member => ?_, fun k after answered => ?_⟩
        · cases member
        · cases answered
      · have visited' : g.Visits program next := by
          have left : g.Visits program (g.advance depth program w).2 :=
            visited.advanced (by rw [advanced]; exact fun exhausted => by cases exhausted)
          rwa [advanced] at left
        obtain ⟨shown, ends⟩ := ih visited' (steps + 1)
        refine ⟨fun outcome member => ?_, ends⟩
        rcases List.mem_cons.mp member with rfl | member
        · exact .visited visited'
        · exact shown outcome member

end Engine

namespace Interpreter

variable {g : Engine α β} {program : Program} {i : Interpreter α β}

theorem run_visits (own : i.engine = g) (visited : g.Visits program i.world) (fuel : Nat) :
    (∀ outcome ∈ i.evaluations fuel program, g.Shown program outcome) ∧
      ∀ report next, i.run fuel program = (.ok report, next) →
        next.engine = g ∧ next.program = i.program ∧ g.Visits program next.world := by
  subst own
  obtain ⟨shown, ends⟩ := Engine.slice_visits fuel i.span fuel visited 0
  refine ⟨shown, fun report next ran => ?_⟩
  dsimp only [run] at ran
  rcases sliced : i.engine.slice fuel program i.span fuel 0 i.world with
    ⟨(error | _) | steps, after⟩
  · rw [sliced] at ran
    cases ran
  · rw [sliced] at ran
    cases ran
  · rw [sliced] at ran
    cases ran
    exact ⟨rfl, rfl, (ends steps after sliced).published⟩

theorem precede_visits (own : i.engine = g) (visited : g.Visits program i.world) (fuel : Nat)
    {later : Interpreter α β → History α β}
    (follows : ∀ next, next.engine = g → next.program = i.program → g.Visits program next.world →
      ∀ outcome ∈ (later next).outcomes, g.Shown program outcome) :
    ∀ outcome ∈ (precede (i.evaluations fuel program)
        (some (i.run fuel program).1, (i.run fuel program).2) later).outcomes,
      g.Shown program outcome := by
  obtain ⟨shown, answers⟩ := run_visits own visited fuel
  rcases ran : i.run fuel program with ⟨fault | report, next⟩
  · exact shown
  · obtain ⟨own', known, visited'⟩ := answers report next ran
    intro outcome member
    rcases List.mem_append.mp member with before | after
    · exact shown outcome before
    · exact follows next own' known visited' outcome after

theorem continued_visits (fuel : Nat) (calls : List Control) (own : i.engine = g)
    (known : i.program = some program) (visited : g.Visits program i.world) :
    ∀ outcome ∈ (i.continued fuel calls).outcomes, g.Shown program outcome := by
  induction calls generalizing i with
  | nil =>
    intro outcome member
    cases member
  | cons call calls ih =>
    unfold continued
    cases entering : i.enter? call with
    | none =>
      obtain ⟨world, engine, unchanged⟩ := enter?_none entering fuel
      exact ih (engine.trans own) (unchanged.trans known) (by rwa [world])
    | some entered =>
      obtain ⟨entered, program'⟩ := entered
      obtain ⟨world, engine, unchanged, known'⟩ := enter?_some entering
      cases known'.symm.trans known
      dsimp only
      rw [control_of_enter? entering]
      refine precede_visits (engine.trans own) (by rwa [world]) fuel ?_
      intro next own' known'' visited'
      exact ih own' (known''.trans (unchanged.trans known)) visited'

theorem history_visits (own : i.engine = g) (fuel : Nat) (program : Program)
    (requested : Progress) (calls : List Control) :
    ∀ outcome ∈ (i.history fuel program requested calls).outcomes, g.Shown program outcome := by
  subst own
  intro outcome member
  have visited : i.engine.Visits program
      { i.world with queue := (i.engine.seed 0 program.entries .empty).2 } :=
    .seeded i.world.trace
  unfold history at member
  split at member
  · cases member
  next idle =>
    rcases seeding : i.seeded program requested with ⟨error | _, entered⟩
    · have failed : (i.engine.seed 0 program.entries .empty).1 = .error error :=
        congrArg Prod.fst seeding
      rw [seeding] at member
      rw [List.mem_singleton.mp member]
      exact .unseeded failed
    · rw [seeding] at member
      dsimp only at member
      rw [begin_of_seeded (Bool.not_eq_true _ ▸ idle) seeding, precede_cons] at member
      have entered' : entered = (i.seeded program requested).2 := (congrArg Prod.snd seeding).symm
      subst entered'
      rcases List.mem_cons.mp member with rfl | member
      · exact .visited visited
      · exact precede_visits (show (i.seeded program requested).2.engine = i.engine from rfl)
          visited fuel
          (fun next own known visited' => continued_visits fuel calls own known visited') outcome
          member

end Interpreter
end ProceduralScene
