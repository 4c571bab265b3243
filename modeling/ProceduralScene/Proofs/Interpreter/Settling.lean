import ProceduralScene.Proofs.Interpreter.Course
import ProceduralScene.Proofs.Interpreter.Refusal

/-! Entries that settle. Where no evaluation depends on the queue, an entry comes to the same parts
and results wherever it is run. Some entries can then be worked off in any order, one after the
other or in turns, with the same number of evaluations and the same results up to their order. -/
namespace ProceduralScene

open Evaluation

variable {α β : Type}

def Entry.Of (K : Transformation → Prop) (entry : Entry) : Prop := ∀ node ∈ entry.pending, K node

namespace Engine

/-- On nodes of a kind no evaluation depends on the queue, or goes on with nodes of another kind. -/
structure Blind (g : Engine α β) (program : Program) (K : Transformation → Prop) : Prop where
  roots : ∀ d ∈ program.entries, ∀ noun, d.2.rootNoun? = some noun → K noun.transformation
  confined : ∀ entry, (g.evaluator program entry).Confined K fun _ => True
  respects : ∀ entry R, (g.evaluator program entry).Respects K R

/-- Some entries, worked off one after the other in so many evaluations, and what they retire as. -/
inductive Settles (g : Engine α β) (program : Program) (depth : Nat) :
    Nat → List Entry → List Entry → Prop where
  | nil : Settles g program depth 0 [] []
  | leaf {n : Nat} {entry : Entry} {entries retired : List Entry} (done : entry.pending = [])
    (later : Settles g program depth n entries retired) :
    Settles g program depth n (entry :: entries) (entry :: retired)
  | turn {n : Nat} {entry : Entry} {entries retired : List Entry} {node : Transformation}
    {rest : List Transformation} {step : Step} {after : Scope α}
    (pending : entry.pending = node :: rest)
    (evaluated : g.evaluated depth program {} entry node = (.ok step, after))
    (later : Settles g program depth n (followers entry rest step after ++ entries) retired) :
    Settles g program depth (n + 1) (entry :: entries) retired

variable {g : Engine α β} {program : Program} {depth : Nat}

namespace Settles

theorem append {n m : Nat} {entries others retired retired' : List Entry}
    (first : g.Settles program depth n entries retired)
    (second : g.Settles program depth m others retired') :
    g.Settles program depth (n + m) (entries ++ others) (retired ++ retired') := by
  induction first with
  | nil => rwa [Nat.zero_add]
  | leaf done _ ih => exact .leaf done ih
  | @turn n entry entries retired node rest step after pending evaluated _ ih =>
    rw [Nat.succ_add, List.cons_append]
    refine .turn pending evaluated ?_
    rwa [← List.append_assoc]

theorem split {n : Nat} {entries others retired : List Entry}
    (settles : g.Settles program depth n (entries ++ others) retired) :
    ∃ n₁ n₂ retired₁ retired₂, n = n₁ + n₂ ∧ retired = retired₁ ++ retired₂ ∧
      g.Settles program depth n₁ entries retired₁ ∧ g.Settles program depth n₂ others retired₂ := by
  generalize whole : entries ++ others = all at settles
  induction settles generalizing entries with
  | nil =>
    obtain ⟨rfl, rfl⟩ := List.append_eq_nil_iff.mp whole
    exact ⟨0, 0, [], [], rfl, rfl, .nil, .nil⟩
  | @leaf n entry rest retired done later ih =>
    cases entries with
    | nil =>
      subst whole
      exact ⟨0, n, [], _, (Nat.zero_add n).symm, rfl, .nil, .leaf done later⟩
    | cons first entries =>
      cases whole
      obtain ⟨n₁, n₂, retired₁, retired₂, rfl, rfl, here, there⟩ := ih rfl
      exact ⟨n₁, n₂, _, retired₂, rfl, rfl, .leaf done here, there⟩
  | @turn n entry rest retired node nodes step after pending evaluated later ih =>
    cases entries with
    | nil =>
      subst whole
      exact ⟨0, n + 1, [], _, (Nat.zero_add _).symm, rfl, .nil, .turn pending evaluated later⟩
    | cons first entries =>
      cases whole
      obtain ⟨n₁, n₂, retired₁, retired₂, rfl, rfl, here, there⟩ :=
        ih (List.append_assoc _ entries others)
      exact ⟨n₁ + 1, n₂, _, retired₂, (Nat.succ_add n₁ n₂).symm, rfl,
        .turn pending evaluated here, there⟩

theorem uncons {n : Nat} {entry : Entry} {entries retired : List Entry}
    (settles : g.Settles program depth n (entry :: entries) retired) :
    ∃ n₁ n₂ retired₁ retired₂, n = n₁ + n₂ ∧ retired = retired₁ ++ retired₂ ∧
      g.Settles program depth n₁ [entry] retired₁ ∧
        g.Settles program depth n₂ entries retired₂ := by
  rw [← List.singleton_append] at settles
  exact settles.split

theorem perm {n : Nat} {entries others retired : List Entry} (same : entries.Perm others)
    (settles : g.Settles program depth n entries retired) :
    ∃ retired', retired.Perm retired' ∧ g.Settles program depth n others retired' := by
  induction same generalizing n retired with
  | nil => exact ⟨retired, .refl _, settles⟩
  | @cons entry entries others _ ih =>
    obtain ⟨n₁, n₂, retired₁, retired₂, rfl, rfl, first, rest⟩ := settles.uncons
    obtain ⟨retired', same, rest'⟩ := ih rest
    exact ⟨retired₁ ++ retired', same.append_left _, first.append rest'⟩
  | swap a b entries =>
    obtain ⟨n₁, n₂, retired₁, retired₂, rfl, rfl, first, rest⟩ := settles.uncons
    obtain ⟨n₃, n₄, retired₃, retired₄, rfl, rfl, second, rest'⟩ := rest.uncons
    refine ⟨retired₃ ++ (retired₁ ++ retired₄), ?_, ?_⟩
    · rw [← List.append_assoc, ← List.append_assoc]
      exact List.perm_append_comm.append_right retired₄
    · rw [Nat.add_left_comm]
      exact second.append (first.append rest')
  | trans _ _ ih₁ ih₂ =>
    obtain ⟨retired₁, same₁, settles₁⟩ := ih₁ settles
    obtain ⟨retired₂, same₂, settles₂⟩ := ih₂ settles₁
    exact ⟨retired₂, same₁.trans same₂, settles₂⟩

theorem unique {n m : Nat} {entries retired retired' : List Entry}
    (first : g.Settles program depth n entries retired)
    (second : g.Settles program depth m entries retired') : n = m ∧ retired = retired' := by
  induction first generalizing m retired' with
  | nil =>
    cases second
    exact ⟨rfl, rfl⟩
  | leaf done _ ih =>
    cases second with
    | leaf _ later =>
      obtain ⟨rfl, rfl⟩ := ih later
      exact ⟨rfl, rfl⟩
    | turn pending => cases done.symm.trans pending
  | turn pending evaluated _ ih =>
    cases second with
    | leaf done => cases done.symm.trans pending
    | turn pending' evaluated' later =>
      cases pending.symm.trans pending'
      cases evaluated.symm.trans evaluated'
      obtain ⟨rfl, rfl⟩ := ih later
      exact ⟨rfl, rfl⟩

theorem of_finished {entries : List Entry} (finished : ∀ entry ∈ entries, entry.pending = []) :
    g.Settles program depth 0 entries entries := by
  induction entries with
  | nil => exact .nil
  | cons entry rest ih =>
    exact .leaf (finished entry List.mem_cons_self)
      (ih fun other member => finished other (List.mem_cons_of_mem _ member))

theorem mono {n : Nat} {entries retired : List Entry}
    (settles : g.Settles program depth n entries retired) {depth' : Nat} (more : depth ≤ depth') :
    g.Settles program depth' n entries retired := by
  induction settles with
  | nil => exact .nil
  | leaf done _ ih => exact .leaf done ih
  | @turn n entry entries retired node rest step after pending evaluated _ ih =>
    have equal : g.operations.Respects Eq := by
      rintro name operation _ call q _ rfl
      exact ⟨rfl, rfl⟩
    have same : ({} : World α).queue = ({} : World α).queue := rfl
    obtain ⟨after', again, related⟩ :=
      (g.evaluated_agree equal same more program entry node).of_ok evaluated
    refine .turn pending again ?_
    rwa [followers, ← related.value]

end Settles

theorem Blind.turn {K : Transformation → Prop} (blind : g.Blind program K) {entry : Entry}
    {node : Transformation} (kind : K node) {depth depth' : Nat} (more : depth ≤ depth')
    {w : World α} (w' : World α) {step : Step} {after : Scope α}
    (evaluated : g.evaluated depth program w entry node = (.ok step, after)) :
    ∃ after', g.evaluated depth' program w' entry node = (.ok step, after') ∧
      after'.value = after.value ∧ after'.queue = w'.queue := by
  have agree := evaluated_agree_of_kind
    (blind.respects entry fun q r => q = w.queue ∧ r = w'.queue) (blind.confined entry) kind
    ⟨rfl, rfl⟩ more
  obtain ⟨after', again, related⟩ := agree.of_ok evaluated
  exact ⟨after', again, related.value.symm, related.queue.2⟩

theorem of_followers {K : Transformation → Prop} (entry : Entry) {rest : List Transformation}
    {step : Step} (after : Scope α) (pushed : ∀ next ∈ step.nodes, K next)
    (others : ∀ next ∈ rest, K next) :
    ∀ follower ∈ followers entry rest step after, follower.Of K := by
  have joined {nodes : List Transformation} (all : ∀ next ∈ nodes, K next) :
      ∀ next ∈ nodes ++ rest, K next := fun next member =>
    (List.mem_append.mp member).elim (all next) (others next)
  intro follower member
  cases step with
  | proceed payload push =>
    rw [Engine.followers, Step.successors, List.mem_singleton] at member
    subst member
    exact joined pushed
  | fork payloads push =>
    rw [Engine.followers, Step.successors, List.mem_mapIdx] at member
    obtain ⟨i, inside, rfl⟩ := member
    exact joined pushed
  | parallel children =>
    rw [Engine.followers, Step.successors, List.mem_mapIdx] at member
    obtain ⟨i, inside, rfl⟩ := member
    exact joined fun next here => by
      rw [List.mem_singleton.mp here]
      exact pushed _ (List.getElem_mem inside)

theorem Blind.followers {K : Transformation → Prop} (blind : g.Blind program K) {entry : Entry}
    (kind : entry.Of K) {node : Transformation} {rest : List Transformation}
    (pending : entry.pending = node :: rest) {depth : Nat} {w : World α} {step : Step}
    {after : Scope α} (evaluated : g.evaluated depth program w entry node = (.ok step, after)) :
    ∀ follower ∈ followers entry rest step after, follower.Of K := by
  have first : K node := kind node (by rw [pending]; exact List.mem_cons_self)
  have met := evaluated_meets (blind.confined entry) node first depth w
  rw [evaluated] at met
  exact of_followers entry after met fun next member =>
    kind next (by rw [pending]; exact List.mem_cons_of_mem _ member)

structure Loaded (g : Engine α β) (program : Program) (K : Transformation → Prop) (depth n : Nat)
    (q : Queue α) : Prop where
  kept : q.Kept
  kind : ∀ entry ∈ q.entries, entry.Of K
  settles : ∃ retired, g.Settles program depth n q.entries retired

theorem kind_scheduleAll {K : Transformation → Prop} {q : Queue α} {entries : List Entry}
    (kind : ∀ entry ∈ q.entries, entry.Of K) (kind' : ∀ entry ∈ entries, entry.Of K) :
    ∀ entry ∈ (g.scheduleAll q entries).entries, entry.Of K := by
  intro entry member
  rcases List.mem_append.mp ((g.entries_scheduleAll q entries).mem_iff.mp member) with new | old
  · exact kind' entry new
  · exact kind entry old

theorem entries_of_slots {q : Queue α} {slot : Slot} {behind : List Slot}
    (slots : q.slots = slot :: behind) :
    q.entries = slot.entry :: ({ q with slots := behind } : Queue α).entries := by
  refine Queue.entries_of_pop ?_
  rw [Queue.pop, slots]

theorem Turns.settles {K : Transformation → Prop} (blind : g.Blind program K) {q r : Queue α}
    (turns : g.Turns program q r) (kind : ∀ entry ∈ q.entries, entry.Of K) :
    (∀ entry ∈ r.entries, entry.Of K) ∧ ∀ {depth n : Nat} {retired : List Entry},
      g.Settles program depth n r.entries retired →
        ∃ depth' retired', retired.Perm retired' ∧
          g.Settles program depth' (n + 1) q.entries retired' := by
  obtain ⟨slots, pending, evaluated, content⟩ := turns
  rename_i slot behind node rest used w step after
  rw [entries_of_slots slots] at kind ⊢
  have own : slot.entry.Of K := kind _ List.mem_cons_self
  have others := fun entry member => kind entry (List.mem_cons_of_mem slot.entry member)
  have followers := blind.followers own pending evaluated
  have placed := g.entries_scheduleAll { q with slots := behind }
    (Engine.followers slot.entry rest step after)
  rw [← Queue.entries_of_uncached content] at placed
  refine ⟨?_, fun {depth n retired} settles => ?_⟩
  · rw [Queue.entries_of_uncached content]
    exact kind_scheduleAll others followers
  · obtain ⟨retired', same, settles'⟩ := settles.perm placed
    have first : K node := own node (by rw [pending]; exact List.mem_cons_self)
    obtain ⟨after', again, value, _⟩ :=
      blind.turn first (Nat.le_max_right depth used) {} evaluated
    refine ⟨max depth used, retired', same, .turn pending again ?_⟩
    rw [Engine.followers, value]
    exact settles'.mono (Nat.le_max_left depth used)

/-- A course with a final report comes to an end that all entries have settled into. -/
theorem Course.settles {K : Transformation → Prop} (blind : g.Blind program K) {q : Queue α}
    {outcomes : List (Except EvalError (Queue α))} {reports : List (Report β)}
    (course : g.Course program q outcomes reports) (kept : q.Kept)
    (kind : ∀ entry ∈ q.entries, entry.Of K)
    (final : ∃ report ∈ reports, report.isFinal = true) :
    ∃ depth n retired last, g.Settles program depth n q.entries retired ∧
      (.ok q :: outcomes).getLast? = some (.ok last) ∧ last.retired.Perm retired := by
  induction course with
  | stop q =>
    obtain ⟨report, member, _⟩ := final
    cases member
  | failed work error =>
    obtain ⟨report, member, _⟩ := final
    cases member
  | turned turns later ih =>
    obtain ⟨kind', before⟩ := turns.settles blind kind
    obtain ⟨depth, n, retired, last, settles, ends, same⟩ := ih (turns.kept kept) kind' final
    obtain ⟨depth', retired', same', settles'⟩ := before settles
    refine ⟨depth', n + 1, retired', last, settles', ?_, same.trans same'⟩
    rw [List.getLast?_cons_cons]
    exact ends
  | @reported q outcomes report reports current isFinal later ih =>
    by_cases earlier : ∃ report ∈ reports, report.isFinal = true
    · exact ih kept kind earlier
    · -- the report is the final one, so nothing is in flight any more
      have drained : q.slots = [] := by
        obtain ⟨other, member, done⟩ := final
        rcases List.mem_cons.mp member with rfl | member
        · rw [isFinal, Queue.hasWork] at done
          simpa using done
        · exact absurd ⟨other, member, done⟩ earlier
      obtain ⟨rfl, _⟩ := later.of_drained drained
      have entries : q.entries = q.retired := by
        rw [Queue.entries, Queue.inFlight, drained]
        rfl
      refine ⟨0, 0, q.retired, q, ?_, rfl, .refl _⟩
      rw [entries]
      exact Settles.of_finished fun entry member => kept.finished member

section
variable {K : Transformation → Prop} (blind : g.Blind program K)

include blind

theorem Loaded.advance {n : Nat} {w : World α} (loaded : g.Loaded program K depth n w.queue)
    (work : w.queue.hasWork = true) :
    ∃ next m, n = m + 1 ∧ g.advance depth program w = (.ok (), next) ∧
      g.Loaded program K depth m next.queue := by
  obtain ⟨kept, kind, retired, settles⟩ := loaded
  cases slots : w.queue.slots with
  | nil =>
    rw [Queue.hasWork, slots] at work
    cases work
  | cons slot behind =>
    have unfinished : slot.entry.pending ≠ [] :=
      kept.unfinished (List.mem_map.mpr ⟨slot, by rw [slots]; exact List.mem_cons_self, rfl⟩)
    rw [entries_of_slots slots] at kind settles
    cases settles with
    | leaf done => exact absurd done unfinished
    | @turn m _ _ _ node rest step after pending evaluated later =>
      have own : slot.entry.Of K := kind _ List.mem_cons_self
      have first : K node := own node (by rw [pending]; exact List.mem_cons_self)
      obtain ⟨after', again, value, left⟩ := blind.turn first (Nat.le_refl depth)
        { w with queue := { w.queue with slots := behind } } evaluated
      have followers := blind.followers own pending again
      have popped : w.queue.pop = some (slot.entry, { w.queue with slots := behind }) := by
        rw [Queue.pop, slots]
      refine ⟨g.settled slot.entry node rest step after', m, rfl, ?_, ?_, ?_, ?_⟩
      · rw [advance_of_pop g popped pending, again]
      · simp only [settled, left]
        exact kept_scheduleAll (kept.behind slots) _
      · simp only [settled, left]
        exact kind_scheduleAll (fun entry member => kind entry (List.mem_cons_of_mem _ member))
          followers
      · simp only [settled, left]
        rw [Engine.followers, ← value] at later
        obtain ⟨retired', _, settles⟩ := later.perm (g.entries_scheduleAll _ _).symm
        exact ⟨retired', settles⟩

theorem Loaded.slice (span : Span) {fuel n : Nat} {w : World α} (enough : n < fuel)
    (loaded : g.Loaded program K depth n w.queue) (steps : Nat) :
    ∃ k after m, g.slice depth program span fuel steps w = (.ok k, after) ∧ m ≤ n ∧
      (steps = 0 → after.queue.hasWork = true → m < n) ∧
        g.Loaded program K depth m after.queue := by
  induction fuel generalizing n w steps with
  | zero => omega
  | succ fuel ih =>
    unfold Engine.slice
    split
    next paused =>
      refine ⟨steps, w, n, rfl, Nat.le_refl n, fun first work => ?_, loaded⟩
      subst first
      simp [pauses, work] at paused
    next running =>
      have work : w.queue.hasWork = true := hasWork_of_running running
      obtain ⟨next, m, rfl, advanced, loaded'⟩ := loaded.advance blind work
      obtain ⟨k, after, m', sliced, fewer, _, loaded''⟩ := ih (by omega) loaded' (steps + 1)
      rw [advanced]
      exact ⟨k, after, m', sliced, by omega, fun _ _ => by omega, loaded''⟩

end
end Engine

namespace Interpreter

variable {g : Engine α β} {program : Program} {K : Transformation → Prop}
  (blind : g.Blind program K) (publishes : ∀ q, (g.domain.publish q).2.uncached = q.uncached)

include blind publishes

theorem run_loaded {i : Interpreter α β} (own : i.engine = g) {fuel n : Nat} (enough : n < fuel)
    (loaded : g.Loaded program K fuel n i.queue) :
    ∃ report next m, i.run fuel program = (.ok report, next) ∧ next.engine = g ∧
      next.program = i.program ∧ next.halted = i.halted ∧
        report.isFinal = (!next.queue.hasWork) ∧ (next.queue.hasWork = true → m < n) ∧
          g.Loaded program K fuel m next.queue := by
  subst own
  obtain ⟨k, after, m, sliced, fewer, less, kept, kind, retired, settles⟩ :=
    Engine.Loaded.slice blind i.span enough loaded 0
  have same : (i.elapsed.engine.domain.publish after.queue).2.uncached = after.queue.uncached :=
    publishes after.queue
  dsimp only [run]
  rw [sliced]
  refine ⟨_, _, m, rfl, rfl, rfl, rfl, rfl, fun work => less rfl ?_, kept.of_uncached same, ?_,
    retired, ?_⟩
  · exact (Queue.hasWork_of_uncached same).symm.trans work
  · rw [queue, Queue.entries_of_uncached same]
    exact kind
  · rw [queue, Queue.entries_of_uncached same]
    exact settles

theorem continued_final {fuel n : Nat} {i : Interpreter α β} (own : i.engine = g)
    (known : i.program = some program) (going : i.halted = false) (enough : n < fuel)
    (loaded : g.Loaded program K fuel n i.queue) :
    ∃ calls, ∃ report ∈ (i.continued fuel calls).reports, report.isFinal = true := by
  induction n using Nat.strongRecOn generalizing i with
  | ind n ih =>
    let entered : Interpreter α β := { i with requested := .static, pending := none }
    have enters : i.enter? (.request .static) = some (entered, program) := by
      simp only [enter?, going, known, Bool.false_eq_true, if_false, Option.map_some, entered]
    have own' : entered.engine = g := own
    have loaded' : g.Loaded program K fuel n entered.queue := loaded
    obtain ⟨report, next, m, ran, engine, unchanged, halted, isFinal, less, left⟩ :=
      run_loaded blind publishes own' enough loaded'
    have first (calls : List Control) :
        (i.continued fuel (.request .static :: calls)).reports =
          report :: (next.continued fuel calls).reports := by
      simp only [continued, enters, control_of_enter? enters, ran, precede]
    cases work : next.queue.hasWork with
    | false =>
      refine ⟨[.request .static], report, ?_, by rw [isFinal, work]; rfl⟩
      rw [first]
      exact List.mem_cons_self
    | true =>
      have fewer := less work
      obtain ⟨calls, final, member, done⟩ := ih m fewer engine (unchanged.trans known)
        (halted.trans going) (by omega) left
      refine ⟨.request .static :: calls, final, ?_, done⟩
      rw [first]
      exact List.mem_cons_of_mem report member

theorem history_final {fuel n : Nat} {i entered : Interpreter α β} (own : i.engine = g)
    (idle : i.isRunning = false) {requested : Progress}
    (ok : i.seeded program requested = (.ok (), entered)) (enough : n < fuel)
    (loaded : g.Loaded program K fuel n entered.queue) :
    ∃ calls, ∃ report ∈ (i.history fuel program requested calls).reports,
      report.isFinal = true := by
  have same : entered = (i.seeded program requested).2 := by rw [ok]
  have own' : entered.engine = g := by rw [same]; exact own
  have known' : entered.program = some program := by rw [same]; rfl
  have going' : entered.halted = false := by rw [same]; rfl
  obtain ⟨report, next, m, ran, engine, known, going, isFinal, less, left⟩ :=
    run_loaded blind publishes own' enough loaded
  have first (calls : List Control) :
      (i.history fuel program requested calls).reports =
        report :: (next.continued fuel calls).reports := by
    simp only [history, idle, ok, begin_of_seeded idle ok, ran, precede, Bool.false_eq_true,
      if_false]
  cases work : next.queue.hasWork with
  | false =>
    refine ⟨[], report, ?_, by rw [isFinal, work]; rfl⟩
    rw [first]
    exact List.mem_cons_self
  | true =>
    have fewer := less work
    obtain ⟨calls, final, member, done⟩ := continued_final blind publishes engine
      (known.trans known') (going.trans going') (by omega) left
    refine ⟨calls, final, ?_, done⟩
    rw [first]
    exact List.mem_cons_of_mem report member

end Interpreter
end ProceduralScene
