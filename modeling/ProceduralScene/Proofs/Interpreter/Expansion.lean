import ProceduralScene.Proofs.Evaluation.Expansion
import ProceduralScene.Proofs.Interpreter.Separation

/-! Runs of an expanded program. Where evaluations do not depend on the queue, an entry comes to the
same parts and results in both programs, in no more evaluations in the expanded one: a node that
only goes on with others is a turn of its own in the first program, and none in the other one. Both
runs thus retire the same entries, in whatever order. -/
namespace ProceduralScene

open Evaluation Transformation

variable {α β : Type}

structure Entry.Expands (p : Program) (entry entry' : Entry) : Prop where
  id : entry'.id = entry.id
  value : entry'.value = entry.value
  seed : entry'.seed = entry.seed
  pending : Blocks (Transformation.Expands p) entry.pending entry'.pending

theorem Entry.Expands.of_finished {p : Program} {entry entry' : Entry}
    (expands : entry.Expands p entry') (done : entry.pending = []) : entry' = entry := by
  obtain ⟨id, value, seed, pending⟩ := entry
  obtain ⟨id', value', seed', pending'⟩ := entry'
  obtain ⟨rfl, rfl, rfl, blocks⟩ := expands
  cases done
  cases blocks.eq_nil
  rfl

theorem forall₂_mapIdx {γ δ ε ζ : Type} {R : γ → δ → Prop} {S : ε → ζ → Prop}
    {items : List γ} {items' : List δ} (each : List.Forall₂ R items items') {f : Nat → γ → ε}
    {f' : Nat → δ → ζ} (maps : ∀ i item item', R item item' → S (f i item) (f' i item')) :
    List.Forall₂ S (items.mapIdx f) (items'.mapIdx f') := by
  induction each generalizing f f' with
  | nil => exact .nil
  | cons first _ ih =>
    rw [List.mapIdx_cons, List.mapIdx_cons]
    exact .cons (maps 0 _ _ first) (ih fun i => maps (i + 1))

namespace Engine

structure Expanding (g : Engine α β) (p p' : Program) (K : Transformation → Prop) : Prop where
  blind : g.Blind p K
  expands : p.Expands p'
  carries : ∀ node name operation, K node → node.identifier? = some name →
    g.operations.get? name = some operation → operation.Carries p

variable {g : Engine α β} {p p' : Program} {K : Transformation → Prop}

theorem followers_expand {entry entry' : Entry} (expands : entry.Expands p entry')
    {rest rest' : List Transformation} (others : Blocks (Transformation.Expands p) rest rest')
    {step step' : Step} (steps : step.Expands p step') {after after' : Scope α}
    (same : after.value = after'.value) :
    List.Forall₂ (Entry.Expands p) (followers entry rest step after)
      (followers entry' rest' step' after') := by
  cases steps with
  | proceed payload each =>
    refine .cons ⟨expands.id, ?_, expands.seed, each.append others⟩ .nil
    simp only [Entry.prepend, Entry.payload, same]
  | fork payloads each =>
    refine forall₂_mapIdx (List.forall₂_same.mpr fun payload _ => Eq.refl payload) ?_
    rintro i payload _ rfl
    refine ⟨?_, ?_, expands.seed, each.append others⟩
    · simp only [Entry.prepend, Entry.branch, expands.id]
    · simp only [Entry.prepend, Entry.branch, same]
  | parallel each =>
    refine forall₂_mapIdx each fun i child child' expanded => ?_
    refine ⟨?_, ?_, expands.seed, (Blocks.single expanded).append others⟩
    · simp only [Entry.prepend, Entry.branch, expands.id]
    · simp only [Entry.prepend, Entry.branch, Entry.payload, same]

namespace Expanding

variable (expanding : g.Expanding p p' K)

include expanding

theorem evaluator (entry : Entry) : (g.evaluator p entry).Expanding p' K where
  confined := expanding.blind.confined entry
  expands := expanding.expands
  carries := expanding.carries

theorem turn {entry entry' : Entry} (expands : entry.Expands p entry') {node node' : Transformation}
    (kind : K node) (kept : Kept (Transformation.Expands p) node node') {depth : Nat} {step : Step}
    {after : Scope α} (evaluated : g.evaluated depth p {} entry node = (.ok step, after)) :
    ∃ step' after', g.evaluated depth p' {} entry' node' = (.ok step', after') ∧
      step.Expands p step' ∧ after.value = after'.value := by
  have same : (turnScope ({} : World α) entry node).value =
      (turnScope ({} : World α) entry' node').value := expands.value.symm
  obtain ⟨step', after', evaluated', related⟩ := Evaluator.mirrors_turn (expanding.evaluator entry)
    depth kind kept _ _ same step after evaluated
  have own : g.evaluator p' entry' = { g.evaluator p entry with program := p' } := by
    simp only [Engine.evaluator, expands.id, expands.seed]
  refine ⟨step', after', ?_, related⟩
  rw [Engine.evaluated, own]
  exact evaluated'

theorem settles {depth n : Nat} {entries entries' retired : List Entry}
    (settles : g.Settles p depth n entries retired) (kind : ∀ entry ∈ entries, entry.Of K)
    (each : List.Forall₂ (Entry.Expands p) entries entries') :
    ∃ m ≤ n, g.Settles p' depth m entries' retired := by
  induction settles generalizing entries' with
  | nil =>
    cases each
    exact ⟨0, Nat.le_refl 0, .nil⟩
  | @leaf n entry entries retired done _ ih =>
    obtain _ | ⟨first, others⟩ := each
    rename_i entry' entries'
    obtain ⟨m, fewer, settles'⟩ := ih (fun other member => kind other (List.mem_cons_of_mem _ member))
      others
    cases first.of_finished done
    exact ⟨m, fewer, .leaf done settles'⟩
  | @turn n entry entries retired node rest step after pending evaluated _ ih =>
    obtain _ | ⟨first, others⟩ := each
    rename_i entry' entries'
    have own : entry.Of K := kind entry List.mem_cons_self
    have here : K node := own node (by rw [pending]; exact List.mem_cons_self)
    have kinds : ∀ other ∈ followers entry rest step after ++ entries, other.Of K := by
      intro other member
      rcases List.mem_append.mp member with new | old
      · exact expanding.blind.followers own pending evaluated other new
      · exact kind other (List.mem_cons_of_mem _ old)
    have blocks := first.pending
    rw [pending] at blocks
    obtain ⟨block, rest', pending', expands, behind⟩ := blocks.uncons
    cases expands with
    | @opened _ children _ opens each =>
      -- the first program takes a turn for the node, the other one is already there
      have stands : step = .andThen children ∧ after = turnScope {} entry node := by
        rw [Engine.evaluated, Evaluator.step_of_opens opens] at evaluated
        cases evaluated
        exact ⟨rfl, rfl⟩
      obtain ⟨rfl, rfl⟩ := stands
      have still : Entry.Expands p
          ({ entry with pending := rest }.prepend children) entry' :=
        ⟨first.id, first.value, first.seed, by rw [pending']; exact each.append behind⟩
      obtain ⟨m, fewer, settles'⟩ := ih kinds (.cons still others)
      exact ⟨m, by omega, settles'⟩
    | kept kept =>
      obtain ⟨step', after', evaluated', steps, same⟩ := expanding.turn first here kept evaluated
      obtain ⟨m, fewer, settles'⟩ := ih kinds
        (List.rel_append (followers_expand first behind steps same) others)
      exact ⟨m + 1, by omega, .turn pending' evaluated' settles'⟩

end Expanding

theorem root_expands {d d' : Description} (expands : d.Expands p d') {ordinal : Nat} {name : String}
    {root : Option Entry} (made : g.root ordinal name d = .ok root) :
    ∃ root', g.root ordinal name d' = .ok root' ∧ Option.Rel (Entry.Expands p) root root' := by
  have interpreted : d'.isInterpreted = d.isInterpreted := by
    simp only [Description.isInterpreted, expands.initialVariables]
  have seed : d'.seed = d.seed := by simp only [Description.seed, expands.initialVariables]
  unfold Engine.root at made ⊢
  cases known : d.rootNoun? with
  | none =>
    rw [known] at made
    cases made
  | some noun =>
    obtain ⟨noun', named, astId, transformed⟩ := expands.nouns d.root noun known
    have known' : d'.rootNoun? = some noun' := by
      rw [Description.rootNoun?, expands.root]
      exact named
    rw [known] at made
    simp only [known', interpreted, seed, expands.initialVariables, astId]
    dsimp only at made
    split at made
    next runs =>
      rw [if_pos runs]
      cases created : g.domain.createValue d.initialVariables noun.astId with
      | error error =>
        rw [created] at made
        cases made
      | ok payload =>
        rw [created] at made
        cases made
        exact ⟨_, rfl, .some ⟨rfl, rfl, rfl, .single transformed⟩⟩
    next silent =>
      rw [if_neg silent]
      cases made
      exact ⟨_, rfl, .none⟩

theorem seed_expands {ordinal : Nat} {descriptions descriptions' : List (String × Description)}
    (each : List.Forall₂ (fun entry entry' => entry'.1 = entry.1 ∧ entry.2.Expands p entry'.2)
      descriptions descriptions') {q q' r : Queue α}
    (seeded : g.seed ordinal descriptions q = (.ok (), q')) :
    (∃ r', g.seed ordinal descriptions' r = (.ok (), r')) ∧
      List.Forall₂ (Entry.Expands p) ((g.sprouts ordinal descriptions).map (·.2))
        ((g.sprouts ordinal descriptions').map (·.2)) := by
  induction each generalizing ordinal q r with
  | nil => exact ⟨⟨r, rfl⟩, .nil⟩
  | @cons description description' rest rest' first _ ih =>
    obtain ⟨name, d⟩ := description
    obtain ⟨name', d'⟩ := description'
    obtain ⟨same, expands⟩ := first
    dsimp only at same expands
    subst same
    rw [seed] at seeded ⊢
    cases made : g.root ordinal name' d with
    | error error =>
      rw [made] at seeded
      cases seeded
    | ok root =>
      obtain ⟨root', made', related⟩ := root_expands expands made
      rw [made] at seeded
      cases related with
      | none =>
        simp only [sprouts, made, made']
        exact ih seeded
      | some related =>
        simp only [sprouts, made, made']
        obtain ⟨starts, others⟩ := ih seeded
        exact ⟨starts, .cons related others⟩

/-- The main statement: where a program comes to a final report, so does the expanded one, and all
its runs to a final report retire the same entries. -/
theorem RunsTo.expanded {K' : Transformation → Prop} (expanding : g.Expanding p p' K)
    (blind : g.Blind p' K') (steady : g.operations.Steady)
    (publishes : ∀ q, (g.domain.publish q).2.uncached = q.uncached) {retired : List Entry}
    (runs : g.RunsTo p retired) :
    (∃ retired', g.RunsTo p' retired') ∧
      ∀ retired', g.RunsTo p' retired' → retired.Perm retired' := by
  obtain ⟨seeded, depth, n, leaves, starts, settles, same⟩ :=
    runs.settles expanding.blind steady publishes
  have kinds : ∀ entry ∈ (g.sprouts 0 p.entries).map (·.2), entry.Of K := by
    intro entry member
    obtain ⟨sprout, root, rfl⟩ := List.mem_map.mp member
    exact sprouts_kind expanding.blind.roots sprout root
  obtain ⟨⟨seeded', starts'⟩, sprouts⟩ := seed_expands (r := .empty) expanding.expands starts
  obtain ⟨m, _, expanded⟩ := expanding.settles settles kinds sprouts
  refine ⟨runsTo_of_settles blind steady publishes starts' expanded, fun retired' runs' => ?_⟩
  obtain ⟨_, depth', n', leaves', _, settles', same'⟩ := runs'.settles blind steady publishes
  obtain ⟨_, rfl⟩ := (expanded.mono (Nat.le_max_left depth depth')).unique
    (settles'.mono (Nat.le_max_right depth depth'))
  exact same.trans same'.symm

end Engine
end ProceduralScene
