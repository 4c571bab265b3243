import ProceduralScene.Proofs.Interpreter.Settling

/-! Descriptions on their own. A program whose nodes do not depend on the queue runs each of its
descriptions as if the others were not there: what a run retires is what the descriptions retire in
runs in which all others have opted out. -/
namespace ProceduralScene

open Evaluation

variable {α β : Type}

def Description.silenced (d : Description) : Description :=
  { d with initialVariables := d.initialVariables.insert "interprete" (.bool false) }

@[simp] theorem Description.isInterpreted_silenced (d : Description) :
    d.silenced.isInterpreted = false := by
  simp only [isInterpreted, silenced, Sorted.get?_insert, if_true]

@[simp] theorem Description.rootNoun?_silenced (d : Description) :
    d.silenced.rootNoun? = d.rootNoun? := rfl

namespace Program

def interpreted (p : Program) : List String :=
  (p.entries.filter fun entry => entry.2.isInterpreted).map (·.1)

/-- The program in which all descriptions but one have opted out. -/
def only (p : Program) (name : String) : Program :=
  p.mapWithKey fun other d => if other = name then d else d.silenced

theorem noun?_only (p : Program) (name description noun : String) :
    (p.only name).noun? description noun = p.noun? description noun := by
  simp only [noun?, only, Keyed.get?_mapWithKey]
  cases p.get? description with
  | none => rfl
  | some d =>
    by_cases own : description = name
    · simp only [own, Option.map_some, if_true]
    · simp only [own, Option.map_some, if_false]
      rfl

end Program

namespace Evaluator

variable {ev : Evaluator α} {program : Program}
  (nouns : ∀ description noun, program.noun? description noun = ev.program.noun? description noun)

include nouns

theorem step_of_nouns (resolve : Transformation → Evaluation α Payload) (node : Transformation) :
    { ev with program }.step resolve node = ev.step resolve node := by
  cases node with
  | reference astId description noun => simp only [step, nouns]
  | _ => rfl

theorem evaluate_of_nouns (fuel : Nat) (node : Transformation) :
    { ev with program }.evaluate fuel node = ev.evaluate fuel node := by
  induction fuel generalizing node with
  | zero => rfl
  | succ fuel ih =>
    have nested : evaluate { ev with program } fuel = ev.evaluate fuel := funext ih
    simp only [evaluate, step_of_nouns nouns, nested]

end Evaluator

def History.last? (h : History α β) : Option (Queue α) :=
  h.outcomes.getLast?.bind Except.toOption

def History.retired (h : History α β) : List Entry :=
  (h.last?.map Queue.retired).getD []

namespace Engine

variable (g : Engine α β)

theorem evaluated_of_nouns {program program' : Program}
    (nouns : ∀ description noun, program'.noun? description noun = program.noun? description noun)
    (depth : Nat) (w : World α) (entry : Entry) (node : Transformation) :
    g.evaluated depth program' w entry node = g.evaluated depth program w entry node := by
  have same : ∀ description noun, program'.noun? description noun =
    (g.evaluator program entry).program.noun? description noun := nouns
  have resolve : (g.evaluator program' entry).resolve depth =
      (g.evaluator program entry).resolve depth := by
    funext child
    exact congrArg scratch (Evaluator.evaluate_of_nouns same depth child)
  unfold evaluated
  rw [resolve]
  exact congrArg (on · _) (Evaluator.step_of_nouns same _ node)

def sprouts : Nat → List (String × Description) → List (String × Entry)
  | _, [] => []
  | ordinal, (name, d) :: rest =>
    match g.root ordinal name d with
    | .ok (some entry) => (name, entry) :: sprouts (ordinal + 1) rest
    | _ => sprouts (ordinal + 1) rest

/-- The program comes to a final report, with some entries retired. -/
def RunsTo (program : Program) (retired : List Entry) : Prop :=
  ∃ (i : Interpreter α β) (fuel : Nat) (requested : Progress) (calls : List Control),
    i.engine = g ∧
      (∃ report ∈ (i.history fuel program requested calls).reports, report.isFinal = true) ∧
      ∃ last, (i.history fuel program requested calls).outcomes.getLast? = some (.ok last) ∧
        last.retired = retired

variable {g}

theorem runsTo_of_history {i : Interpreter α β} (own : i.engine = g) {fuel : Nat}
    {program : Program} {requested : Progress} {calls : List Control}
    (final : (i.history fuel program requested calls).reports.any (·.isFinal) = true)
    (ended : (i.history fuel program requested calls).last?.isSome = true) :
    g.RunsTo program (i.history fuel program requested calls).retired := by
  obtain ⟨last, ends⟩ := Option.isSome_iff_exists.mp ended
  obtain ⟨outcome, answers, ok⟩ := Option.bind_eq_some_iff.mp ends
  cases outcome with
  | error error => cases ok
  | ok queue =>
    cases ok
    refine ⟨i, fuel, requested, calls, own, List.any_eq_true.mp final, last, answers, ?_⟩
    rw [History.retired, ends]
    rfl

theorem root_ok {ordinal : Nat} {name : String} {d : Description} {entry : Option Entry}
    (made : g.root ordinal name d = .ok entry) :
    ∃ noun, d.rootNoun? = some noun ∧ entry.isSome = d.isInterpreted ∧
      ∀ e, entry = some e → e.pending = [noun.transformation] := by
  unfold root at made
  split at made
  · cases made
  next noun known =>
    refine ⟨noun, known, ?_⟩
    split at made
    next interpreted =>
      cases created : g.domain.createValue d.initialVariables noun.astId with
      | error error =>
        rw [created] at made
        cases made
      | ok payload =>
        rw [created] at made
        cases made
        refine ⟨interpreted.symm, fun e same => ?_⟩
        cases same
        rfl
    next silent =>
      cases made
      exact ⟨by simpa using silent, nofun⟩

theorem root_silenced {ordinal : Nat} {name : String} {d : Description} {entry : Option Entry}
    (made : g.root ordinal name d = .ok entry) : g.root ordinal name d.silenced = .ok none := by
  obtain ⟨noun, known, _⟩ := root_ok made
  simp only [root, Description.rootNoun?_silenced, known, Description.isInterpreted_silenced,
    Bool.false_eq_true, if_false]
  rfl

theorem seed_sprouts {ordinal : Nat} {descriptions : List (String × Description)} {q q' : Queue α}
    (seeded : g.seed ordinal descriptions q = (.ok (), q')) :
    q'.entries.Perm ((g.sprouts ordinal descriptions).map (·.2) ++ q.entries) ∧
      (g.sprouts ordinal descriptions).map (·.1) =
        (descriptions.filter fun d => d.2.isInterpreted).map (·.1) := by
  induction descriptions generalizing ordinal q with
  | nil =>
    cases seeded
    exact ⟨.refl _, rfl⟩
  | cons description rest ih =>
    obtain ⟨name, d⟩ := description
    rw [seed] at seeded
    cases made : g.root ordinal name d with
    | error error =>
      rw [made] at seeded
      cases seeded
    | ok entry =>
      rw [made] at seeded
      obtain ⟨noun, _, interpreted, _⟩ := root_ok made
      cases entry with
      | none =>
        obtain ⟨entries, names⟩ := ih seeded
        simp only [sprouts, made]
        rw [List.filter_cons_of_neg (by rw [← interpreted]; exact Bool.false_ne_true)]
        exact ⟨entries, names⟩
      | some entry =>
        obtain ⟨entries, names⟩ := ih seeded
        simp only [sprouts, made, List.map_cons]
        rw [List.filter_cons_of_pos (by rw [← interpreted]; rfl), List.map_cons, names]
        refine ⟨entries.trans ?_, rfl⟩
        exact ((q.entries_push entry _).append_left _).trans List.perm_middle

theorem seed_only {ordinal : Nat} {descriptions : List (String × Description)} {q q' : Queue α}
    (seeded : g.seed ordinal descriptions q = (.ok (), q')) (name : String) (q₀ : Queue α) :
    let others := descriptions.map fun d => (d.1, if d.1 = name then d.2 else d.2.silenced)
    (∃ q₁, g.seed ordinal others q₀ = (.ok (), q₁)) ∧
      g.sprouts ordinal others =
        (g.sprouts ordinal descriptions).filter fun sprout => sprout.1 = name := by
  induction descriptions generalizing ordinal q q₀ with
  | nil => exact ⟨⟨q₀, rfl⟩, rfl⟩
  | cons description rest ih =>
    obtain ⟨other, d⟩ := description
    rw [seed] at seeded
    cases made : g.root ordinal other d with
    | error error =>
      rw [made] at seeded
      cases seeded
    | ok entry =>
      rw [made] at seeded
      by_cases own : other = name
      · -- the description keeps its root, if it has one
        simp only [List.map_cons, own, if_true]
        subst own
        cases entry with
        | none =>
          simp only [seed, sprouts, made]
          exact ih seeded q₀
        | some entry =>
          obtain ⟨answers, same⟩ := ih seeded (g.schedule q₀ entry)
          simp only [seed, sprouts, made]
          refine ⟨answers, ?_⟩
          rw [List.filter_cons_of_pos (by simp), same]
      · simp only [List.map_cons, own, if_false, seed, sprouts, root_silenced made, made]
        cases entry with
        | none => exact ih seeded q₀
        | some entry =>
          obtain ⟨answers, same⟩ := ih seeded q₀
          refine ⟨answers, ?_⟩
          dsimp only
          rw [List.filter_cons_of_neg (by simpa using own), same]

theorem sprouts_kind {K : Transformation → Prop} {ordinal : Nat}
    {descriptions : List (String × Description)}
    (roots : ∀ d ∈ descriptions, ∀ noun, d.2.rootNoun? = some noun → K noun.transformation) :
    ∀ sprout ∈ g.sprouts ordinal descriptions, sprout.2.Of K := by
  induction descriptions generalizing ordinal with
  | nil =>
    intro sprout member
    cases member
  | cons description rest ih =>
    obtain ⟨name, d⟩ := description
    have later : ∀ sprout ∈ g.sprouts (ordinal + 1) rest, sprout.2.Of K :=
      ih fun d member => roots d (List.mem_cons_of_mem _ member)
    intro sprout member
    rw [sprouts] at member
    split at member
    next entry made =>
      rcases List.mem_cons.mp member with rfl | member
      · obtain ⟨noun, known, _, pending⟩ := root_ok made
        intro node here
        rw [pending entry rfl, List.mem_singleton] at here
        subst here
        exact roots (name, d) List.mem_cons_self noun known
      · exact later sprout member
    · exact later sprout member

/-- What the roots of a program settle into does not change with the other descriptions. -/
theorem Settles.of_nouns {program program' : Program}
    (nouns : ∀ description noun, program'.noun? description noun = program.noun? description noun)
    {depth n : Nat} {entries retired : List Entry}
    (settles : g.Settles program depth n entries retired) :
    g.Settles program' depth n entries retired := by
  induction settles with
  | nil => exact .nil
  | leaf done _ ih => exact .leaf done ih
  | turn pending evaluated _ ih =>
    refine .turn pending ?_ ih
    rw [g.evaluated_of_nouns nouns]
    exact evaluated

theorem Blind.only {program : Program} {K : Transformation → Prop} (blind : g.Blind program K)
    (name : String) : g.Blind (program.only name) K where
  roots d member noun known := by
    obtain ⟨d', member', rfl⟩ := List.mem_map.mp member
    refine blind.roots d' member' noun ?_
    dsimp only at known
    split at known
    · exact known
    · exact known
  confined entry :=
    { blind.confined entry with
      nouns := fun description noun found known => by
        refine (blind.confined entry).nouns description noun found ?_
        exact (program.noun?_only name description noun).symm.trans known }
  respects := blind.respects

theorem seeded_entries {program : Program} {seeded : Queue α}
    (starts : g.seed 0 program.entries .empty = (.ok (), seeded)) :
    seeded.entries.Perm ((g.sprouts 0 program.entries).map (·.2)) := by
  have roots := (seed_sprouts starts).1
  rwa [show (Queue.empty : Queue α).entries = [] from rfl, List.append_nil] at roots

theorem Blind.seeded {program : Program} {K : Transformation → Prop} (blind : g.Blind program K)
    {seeded : Queue α} (starts : g.seed 0 program.entries .empty = (.ok (), seeded)) :
    ∀ entry ∈ seeded.entries, entry.Of K := by
  intro entry member
  obtain ⟨sprout, root, rfl⟩ := List.mem_map.mp ((seeded_entries starts).mem_iff.mp member)
  exact sprouts_kind blind.roots sprout root

theorem filter_sprouts {program : Program} {seeded : Queue α}
    (starts : g.seed 0 program.entries .empty = (.ok (), seeded)) {sprout : String × Entry}
    (root : sprout ∈ g.sprouts 0 program.entries) :
    ((g.sprouts 0 program.entries).filter fun other => other.1 = sprout.1) = [sprout] := by
  have distinct : ((g.sprouts 0 program.entries).map (·.1)).Nodup := by
    rw [(seed_sprouts starts).2]
    exact (List.filter_sublist.map _).nodup program.distinct
  generalize g.sprouts 0 program.entries = sprouts at root distinct
  induction sprouts with
  | nil => cases root
  | cons first rest ih =>
    obtain ⟨fresh, distinct'⟩ := List.nodup_cons.mp distinct
    rcases List.mem_cons.mp root with rfl | later
    · rw [List.filter_cons_of_pos (by simp), List.filter_eq_nil_iff.mpr fun other member => ?_]
      simp only [decide_eq_true_eq]
      exact fun same => fresh (List.mem_map.mpr ⟨other, member, same⟩)
    · rw [List.filter_cons_of_neg, ih later distinct']
      simp only [decide_eq_true_eq]
      exact fun same => fresh (List.mem_map.mpr ⟨sprout, later, same.symm⟩)

namespace Settles

variable {program : Program} {depth : Nat}

theorem of_mem {n : Nat} {entries retired : List Entry} {entry : Entry} (member : entry ∈ entries)
    (settles : g.Settles program depth n entries retired) :
    ∃ m own, g.Settles program depth m [entry] own := by
  obtain ⟨before, behind, rfl⟩ := List.append_of_mem member
  obtain ⟨_, _, _, _, _, _, _, settles'⟩ := settles.split
  obtain ⟨m, _, own, _, _, _, first, _⟩ := settles'.uncons
  exact ⟨m, own, first⟩

theorem perm_flatMap {n : Nat} {sprouts : List (String × Entry)} {retired : List Entry}
    (settles : g.Settles program depth n (sprouts.map (·.2)) retired)
    {alone : String → List Entry} (each : ∀ sprout ∈ sprouts, ∀ depth m own,
      g.Settles program depth m [sprout.2] own → (alone sprout.1).Perm own) :
    retired.Perm ((sprouts.map (·.1)).flatMap alone) := by
  induction sprouts generalizing n retired with
  | nil =>
    cases settles
    exact .refl _
  | cons sprout rest ih =>
    obtain ⟨m, _, own, others, rfl, rfl, first, later⟩ := settles.uncons
    have here := each sprout List.mem_cons_self depth m own first
    have there := ih later fun other member => each other (List.mem_cons_of_mem _ member)
    rw [List.map_cons, List.flatMap_cons]
    exact here.symm.append there

end Settles

section
variable {program : Program} {K : Transformation → Prop} (blind : g.Blind program K)
  (steady : g.operations.Steady)
  (publishes : ∀ q, (g.domain.publish q).2.uncached = q.uncached)

include blind steady publishes

theorem history_settles {i : Interpreter α β} (own : i.engine = g) {fuel : Nat}
    {requested : Progress} {calls : List Control}
    (final : ∃ report ∈ (i.history fuel program requested calls).reports, report.isFinal = true) :
    ∃ last seeded depth n leaves,
      (i.history fuel program requested calls).outcomes.getLast? = some (.ok last) ∧
        g.seed 0 program.entries .empty = (.ok (), seeded) ∧
          g.Settles program depth n ((g.sprouts 0 program.entries).map (·.2)) leaves ∧
            last.retired.Perm leaves := by
  rcases Interpreter.history_course steady publishes own fuel program requested calls with
    refused | ⟨error, failed⟩ | ⟨seeded, outcomes, reports, starts, history, kept, course⟩
  · rw [refused] at final
    obtain ⟨_, member, _⟩ := final
    cases member
  · rw [failed] at final
    obtain ⟨_, member, _⟩ := final
    cases member
  · rw [history] at final ⊢
    obtain ⟨depth, n, leaves, last, settles, ends, same⟩ :=
      course.settles blind kept (blind.seeded starts) final
    obtain ⟨leaves', same', settles'⟩ := settles.perm (seeded_entries starts)
    exact ⟨last, seeded, depth, n, leaves', ends, starts, settles', same.trans same'⟩

theorem RunsTo.settles {retired : List Entry} (runs : g.RunsTo program retired) :
    ∃ seeded depth n leaves, g.seed 0 program.entries .empty = (.ok (), seeded) ∧
      g.Settles program depth n ((g.sprouts 0 program.entries).map (·.2)) leaves ∧
        retired.Perm leaves := by
  obtain ⟨i, fuel, requested, calls, own, final, last, ends, rfl⟩ := runs
  obtain ⟨last', seeded, depth, n, leaves, ends', starts, settles, same⟩ :=
    history_settles blind steady publishes own final
  cases ends.symm.trans ends'
  exact ⟨seeded, depth, n, leaves, starts, settles, same⟩

theorem runsTo_of_settles {seeded : Queue α} {depth n : Nat} {leaves : List Entry}
    (starts : g.seed 0 program.entries .empty = (.ok (), seeded))
    (settles : g.Settles program depth n ((g.sprouts 0 program.entries).map (·.2)) leaves) :
    ∃ retired, g.RunsTo program retired := by
  obtain ⟨leaves', _, settles'⟩ := settles.perm (seeded_entries starts).symm
  let fuel := max depth (n + 1)
  let i : Interpreter α β := { engine := g }
  have ok : i.seeded program .static = (.ok (), (i.seeded program .static).2) := by
    simp only [Interpreter.seeded, i, starts]
  have start : (i.seeded program .static).2.queue = seeded := by
    simp only [Interpreter.seeded, i, starts]
    rfl
  have kept : seeded.Kept := by
    have made : (g.seed 0 program.entries .empty).2.Kept := kept_seed ⟨_, _, Queue.keeps_empty⟩
    rwa [starts] at made
  have loaded : g.Loaded program K fuel n (i.seeded program .static).2.queue := by
    rw [start]
    exact ⟨kept, blind.seeded starts, leaves', settles'.mono (Nat.le_max_left depth (n + 1))⟩
  have own : i.engine = g := rfl
  obtain ⟨calls, final⟩ := Interpreter.history_final blind publishes own rfl ok
    (Nat.le_max_right depth (n + 1)) loaded
  obtain ⟨last, _, _, _, _, ends, _⟩ := history_settles blind steady publishes own final
  exact ⟨last.retired, i, fuel, .static, calls, own, final, last, ends, rfl⟩

theorem RunsTo.alone {seeded : Queue α}
    (starts : g.seed 0 program.entries .empty = (.ok (), seeded)) {sprout : String × Entry}
    (root : sprout ∈ g.sprouts 0 program.entries) {own : List Entry}
    (runs : g.RunsTo (program.only sprout.1) own) {depth n : Nat} {leaves : List Entry}
    (settles : g.Settles program depth n [sprout.2] leaves) : own.Perm leaves := by
  obtain ⟨_, depth', n', leaves', _, settles', same⟩ :=
    runs.settles (blind.only sprout.1) steady publishes
  have only := (seed_only starts sprout.1 .empty).2
  rw [filter_sprouts starts root] at only
  rw [show g.sprouts 0 (program.only sprout.1).entries = [sprout] from only] at settles'
  have again := settles'.of_nouns fun description noun =>
    (program.noun?_only sprout.1 description noun).symm
  obtain ⟨_, rfl⟩ := (again.mono (Nat.le_max_left depth' depth)).unique
    (settles.mono (Nat.le_max_right depth' depth))
  exact same

/-- A run to a final report retires what the descriptions retire on their own. -/
theorem RunsTo.separate {retired : List Entry} (runs : g.RunsTo program retired) :
    (∀ name ∈ program.interpreted, ∃ own, g.RunsTo (program.only name) own) ∧
      ∀ alone : String → List Entry,
        (∀ name ∈ program.interpreted, g.RunsTo (program.only name) (alone name)) →
          retired.Perm (program.interpreted.flatMap alone) := by
  obtain ⟨seeded, depth, n, leaves, starts, settles, same⟩ := runs.settles blind steady publishes
  have names : (g.sprouts 0 program.entries).map (·.1) = program.interpreted :=
    (seed_sprouts starts).2
  refine ⟨fun name interpreted => ?_, fun alone each => ?_⟩
  · rw [← names] at interpreted
    obtain ⟨sprout, root, rfl⟩ := List.mem_map.mp interpreted
    obtain ⟨m, own, settles'⟩ := settles.of_mem (List.mem_map.mpr ⟨sprout, root, rfl⟩)
    obtain ⟨⟨q, starts'⟩, only⟩ := seed_only starts sprout.1 (.empty : Queue α)
    rw [filter_sprouts starts root] at only
    have alone : g.Settles (program.only sprout.1) depth m
        ((g.sprouts 0 (program.only sprout.1).entries).map (·.2)) own := by
      rw [show g.sprouts 0 (program.only sprout.1).entries = [sprout] from only]
      exact settles'.of_nouns (program.noun?_only sprout.1)
    exact runsTo_of_settles (blind.only sprout.1) steady publishes starts' alone
  · rw [← names]
    refine same.trans (settles.perm_flatMap fun sprout root d m ms settles' => ?_)
    have interpreted : sprout.1 ∈ program.interpreted := by
      rw [← names]
      exact List.mem_map.mpr ⟨sprout, root, rfl⟩
    exact (each sprout.1 interpreted).alone blind steady publishes starts root settles'

end

end Engine
end ProceduralScene
