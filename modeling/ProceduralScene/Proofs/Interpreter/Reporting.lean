import ProceduralScene.Proofs.Interpreter.Delivery
import ProceduralScene.Proofs.Interpreter.Replacement

/-! What the reports of a run are about. A report publishes the queue as it is after all evaluations
that it and the earlier reports account for, and results are only ever added to. So what an earlier
report has shown of the results stands first in what every later one shows of them. -/
namespace ProceduralScene

variable {α β : Type}

namespace History

/-- The queue that a report of a history is about, the first report being number 0: the one after
all evaluations that it and the earlier reports account for. -/
def shown? (h : History α β) (k : Nat) : Option (Queue α) :=
  h.outcomes[{ h with reports := h.reports.take (k + 1) }.steps]?.bind Except.toOption

variable {h : History α β}

theorem steps_cons (outcomes : List (Except EvalError (Queue α))) (report : Report β)
    (reports : List (Report β)) :
    ({ outcomes, reports := report :: reports } : History α β).steps =
      report.steps + ({ outcomes, reports } : History α β).steps := rfl

theorem steps_take_le (outcomes : List (Except EvalError (Queue α))) (reports : List (Report β))
    {m n : Nat} (le : m ≤ n) :
    ({ outcomes, reports := reports.take m } : History α β).steps ≤
      ({ outcomes, reports := reports.take n } : History α β).steps := by
  induction reports generalizing m n with
  | nil => simp [steps]
  | cons report rest ih =>
    cases m with
    | zero => exact Nat.zero_le _
    | succ m =>
      obtain ⟨n, rfl⟩ : ∃ k, n = k + 1 := ⟨n - 1, by omega⟩
      simp only [List.take_succ_cons, steps_cons]
      exact Nat.add_le_add_left (ih (by omega)) report.steps

end History

namespace Engine

variable (g : Engine α β)

def Tells (q : Queue α) (h : History α β) : Prop :=
  ∀ k report, h.reports[k]? = some report →
    ∃ r, ({ h with outcomes := .ok q :: h.outcomes } : History α β).shown? k = some r ∧
      ∃ r', r'.uncached = r.uncached ∧ report.published = (g.domain.publish r').1

def Grows : Except EvalError (Queue α) → Except EvalError (Queue α) → Prop
  | .ok q, .ok r => q.retired <+: r.retired
  | _, _ => True

variable {g} {q r : Queue α}

theorem tells_of_no_reports {h : History α β} (none : h.reports = []) : g.Tells q h := by
  intro k report reported
  rw [none] at reported
  cases reported

theorem getElem?_after {outcomes later : List (Except EvalError (Queue α))}
    (last : outcomes.getLast?.getD (.ok q) = .ok r) (m : Nat) :
    (.ok q :: (outcomes ++ later))[outcomes.length + m]? = (.ok r :: later)[m]? := by
  cases m with
  | zero =>
    have inside : outcomes.length < (.ok q :: outcomes).length := by simp
    have final : (.ok q :: outcomes)[outcomes.length]? = some (.ok r) := by
      rw [← last, ← List.getLast?_cons, List.getLast?_eq_getElem?]
      rfl
    rw [← List.cons_append, Nat.add_zero, List.getElem?_append_left inside, final]
    rfl
  | succ m =>
    have same : outcomes.length + (m + 1) = (outcomes.length + m) + 1 := rfl
    rw [same, List.getElem?_cons_succ, List.getElem?_append_right (Nat.le_add_right _ _)]
    simp

theorem Tells.cons {outcomes : List (Except EvalError (Queue α))} {report : Report β}
    {h : History α β} (last : outcomes.getLast?.getD (.ok q) = .ok r)
    (count : report.steps = outcomes.length)
    (published : ∃ r', r'.uncached = r.uncached ∧ report.published = (g.domain.publish r').1)
    (later : g.Tells r h) : g.Tells q ⟨outcomes ++ h.outcomes, report :: h.reports⟩ := by
  intro k other reported
  have shown : ({ outcomes := .ok q :: (outcomes ++ h.outcomes), reports := report :: h.reports } :
      History α β).shown? k =
      ((.ok r :: h.outcomes)[
        ({ outcomes := h.outcomes, reports := h.reports.take k } : History α β).steps]?).bind
          Except.toOption := by
    rw [History.shown?, ← getElem?_after last, List.take_succ_cons, History.steps_cons, count]
    rfl
  rw [shown]
  cases k with
  | zero =>
    cases reported
    exact ⟨r, rfl, published⟩
  | succ k => exact later k other reported

variable (g) in
theorem run_tells {i next : Interpreter α β} (own : i.engine = g) {program : Program} {fuel : Nat}
    {report : Report β} (same : q.uncached = i.queue.uncached)
    (publishes : ∀ q, (g.domain.publish q).2.uncached = q.uncached)
    (ran : i.run fuel program = (.ok report, next)) :
    ∃ r, (i.evaluations fuel program).getLast?.getD (.ok q) = .ok r ∧
      report.steps = (i.evaluations fuel program).length ∧
      (∃ r', r'.uncached = r.uncached ∧ report.published = (g.domain.publish r').1) ∧
      r.uncached = next.queue.uncached ∧ next.engine = g := by
  subst own
  have slice := i.engine.evaluations_slice fuel program i.span fuel 0 i.world
  unfold Interpreter.evaluations
  dsimp only [Interpreter.run] at ran
  rcases sliced : i.engine.slice fuel program i.span fuel 0 i.world with
    ⟨(error | _) | steps, after⟩
  · rw [sliced] at ran
    cases ran
  · rw [sliced] at ran
    cases ran
  · rw [sliced] at ran slice
    obtain ⟨count, last⟩ := slice
    cases ran
    have left : (i.engine.domain.publish after.queue).2.uncached = after.queue.uncached :=
      publishes after.queue
    rw [Nat.zero_add] at count
    rcases taken : (i.engine.evaluations fuel program i.span fuel 0 i.world).getLast?
      with _ | outcome
    -- without an evaluation the slice leaves the queue that it came to
    · rw [taken] at last
      have stayed : i.queue = after.queue := Except.ok.inj last
      rw [stayed] at same
      exact ⟨q, rfl, count, ⟨after.queue, same.symm, rfl⟩, same.trans left.symm, rfl⟩
    · rw [taken] at last
      exact ⟨after.queue, last, count, ⟨after.queue, rfl, rfl⟩, left.symm, rfl⟩

end Engine

namespace Interpreter

variable {g : Engine α β} (publishes : ∀ q, (g.domain.publish q).2.uncached = q.uncached)
  {q : Queue α}

include publishes

theorem precede_tells {i : Interpreter α β} (own : i.engine = g)
    (same : q.uncached = i.queue.uncached) (fuel : Nat) (program : Program)
    {later : Interpreter α β → History α β}
    (follows : ∀ next r, next.engine = g → r.uncached = next.queue.uncached →
      g.Tells r (later next)) :
    g.Tells q (precede (i.evaluations fuel program)
      (some (i.run fuel program).1, (i.run fuel program).2) later) := by
  rcases ran : i.run fuel program with ⟨fault | report, next⟩
  · exact Engine.tells_of_no_reports rfl
  · obtain ⟨r, last, count, published, left, own'⟩ := g.run_tells own same publishes ran
    exact (follows next r own' left).cons last count published

theorem continued_tells (fuel : Nat) (calls : List Control) {i : Interpreter α β}
    (own : i.engine = g) (same : q.uncached = i.queue.uncached) :
    g.Tells q (i.continued fuel calls) := by
  induction calls generalizing i q with
  | nil => exact Engine.tells_of_no_reports rfl
  | cons call calls ih =>
    unfold continued
    cases entering : i.enter? call with
    | none =>
      obtain ⟨world, engine, _⟩ := enter?_none entering fuel
      refine ih (engine.trans own) ?_
      rw [queue, world]
      exact same
    | some entered =>
      obtain ⟨entered, program⟩ := entered
      obtain ⟨world, engine, _⟩ := enter?_some entering
      dsimp only
      rw [control_of_enter? entering]
      refine precede_tells publishes (engine.trans own) ?_ fuel program fun next r own' same' =>
        ih own' same'
      rw [queue, world]
      exact same

/-- Every report of a history publishes the queue that it is about. -/
theorem history_tells {i : Interpreter α β} (own : i.engine = g) (fuel : Nat) (program : Program)
    (requested : Progress) (calls : List Control) {k : Nat} {report : Report β}
    (reported : (i.history fuel program requested calls).reports[k]? = some report) :
    ∃ r, (i.history fuel program requested calls).shown? k = some r ∧
      ∃ r', r'.uncached = r.uncached ∧ report.published = (g.domain.publish r').1 := by
  revert reported
  unfold history
  split
  · intro reported
    cases reported
  next idle =>
    rcases ok : i.seeded program requested with ⟨error | _, entered⟩
    · intro reported
      cases reported
    · have own' : entered.engine = g := by
        have same : (i.seeded program requested).2 = entered := by rw [ok]
        rw [← same]
        exact own
      dsimp only
      rw [begin_of_seeded (Bool.not_eq_true _ ▸ idle) ok, precede_cons]
      intro reported
      exact precede_tells publishes own' rfl fuel program (fun next r own'' same =>
        continued_tells publishes fuel calls own'' same) k report reported

end Interpreter

namespace Engine

variable {g : Engine α β} {program : Program} {q r : Queue α}

theorem Turns.grows (turns : g.Turns program q r) (kept : q.Kept) : q.retired <+: r.retired := by
  obtain ⟨slots, pending, evaluated, content⟩ := turns
  rw [(exchanged_scheduleAll kept slots content).retired]
  exact List.prefix_append _ _

theorem Course.grows_after {outcomes : List (Except EvalError (Queue α))}
    {reports : List (Report β)} (course : g.Course program q outcomes reports) (kept : q.Kept) :
    ∀ outcome ∈ outcomes, Grows (.ok q) outcome := by
  induction course with
  | stop q =>
    intro outcome member
    cases member
  | failed work error =>
    intro outcome member
    cases List.mem_singleton.mp member
    trivial
  | turned turns later ih =>
    have first := turns.grows kept
    intro outcome member
    rcases List.mem_cons.mp member with rfl | member
    · exact first
    · cases outcome with
      | error error => trivial
      | ok last => exact first.trans (ih (turns.kept kept) (.ok last) member)
  | reported current isFinal later ih => exact ih kept

theorem Course.grows {outcomes : List (Except EvalError (Queue α))} {reports : List (Report β)}
    (course : g.Course program q outcomes reports) (scheduled : g.Scheduled q) :
    (.ok q :: outcomes).Pairwise Grows ∧
      ∀ r, .ok r ∈ (.ok q :: outcomes) → g.Scheduled r := by
  induction course with
  | stop q =>
    refine ⟨List.pairwise_singleton _ _, fun r member => ?_⟩
    cases List.mem_singleton.mp member
    exact scheduled
  | @failed q work error =>
    refine ⟨List.pairwise_pair.mpr trivial, fun r member => ?_⟩
    rcases List.mem_cons.mp member with same | member
    · cases same
      exact scheduled
    · cases List.mem_singleton.mp member
  | @turned q next outcomes reports turns later ih =>
    have after := (Course.turned turns later).grows_after scheduled.kept
    obtain ⟨pairwise, all⟩ := ih ⟨turns.kept scheduled.kept, turns.timed scheduled.timed⟩
    refine ⟨List.pairwise_cons.mpr ⟨after, pairwise⟩, fun r member => ?_⟩
    rcases List.mem_cons.mp member with same | member
    · cases same
      exact scheduled
    · exact all r member
  | reported current isFinal later ih => exact ih scheduled

end Engine

namespace Interpreter

theorem history_grows {g : Engine α β} (steady : g.operations.Steady)
    (publishes : ∀ q, (g.domain.publish q).2.uncached = q.uncached) {i : Interpreter α β}
    (own : i.engine = g) (fuel : Nat) (program : Program) (requested : Progress)
    (calls : List Control) :
    (i.history fuel program requested calls).outcomes.Pairwise Engine.Grows ∧
      ∀ r, .ok r ∈ (i.history fuel program requested calls).outcomes → g.Scheduled r := by
  rcases history_course steady publishes own fuel program requested calls with
    refused | ⟨error, failed⟩ | ⟨seeded, outcomes, reports, seeding, history, kept, course⟩
  · rw [refused]
    exact ⟨.nil, fun r member => by cases member⟩
  · rw [failed]
    refine ⟨List.pairwise_singleton _ _, fun r member => ?_⟩
    cases List.mem_singleton.mp member
  · rw [history]
    have scheduled := g.scheduled_seed program
    rw [seeding] at scheduled
    exact course.grows scheduled

theorem shown?_grows {h : History α β} (grows : h.outcomes.Pairwise Engine.Grows) {k l : Nat}
    (le : k ≤ l) {q r : Queue α} (first : h.shown? k = some q) (second : h.shown? l = some r) :
    q.retired <+: r.retired := by
  obtain ⟨a, here, ok⟩ := Option.bind_eq_some_iff.mp first
  obtain ⟨b, there, ok'⟩ := Option.bind_eq_some_iff.mp second
  cases a with
  | error error => cases ok
  | ok q' =>
    cases b with
    | error error => cases ok'
    | ok r' =>
      cases ok
      cases ok'
      have earlier := History.steps_take_le h.outcomes h.reports (Nat.succ_le_succ le)
      obtain ⟨m_lt, atM⟩ := List.getElem?_eq_some_iff.mp here
      obtain ⟨n_lt, atN⟩ := List.getElem?_eq_some_iff.mp there
      rcases Nat.lt_or_eq_of_le earlier with less | same
      · have grown := List.pairwise_iff_getElem.mp grows _ _ m_lt n_lt less
        rw [atM, atN] at grown
        exact grown
      · simp only [same] at atM
        cases atM.symm.trans atN
        exact List.prefix_refl _

end Interpreter
end ProceduralScene
