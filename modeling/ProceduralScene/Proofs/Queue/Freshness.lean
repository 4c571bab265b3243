import ProceduralScene.Queue.Artifact

/-! The cache is an optimization. Each artifact in it belongs to a first part of the results, and
none that was scanned since matters to it; a reader therefore gets what it would build from all
results, and the rest of the queue stays as it is. -/
namespace ProceduralScene.Queue

variable {α β γ : Type}

/-- All that a queue holds apart from its cache. -/
def uncached (q : Queue α) : Queue α := { q with cache := .empty }

theorem uncached_push (q : Queue α) (entry : Entry) (progress : Progress) :
    (q.push entry progress).uncached = q.uncached.push entry progress := by
  unfold push
  split <;> rfl

theorem uncached_pop (q : Queue α) :
    q.uncached.pop = q.pop.map fun popped => (popped.1, popped.2.uncached) := by
  unfold pop uncached
  cases q.slots <;> rfl

def Fresh [Holds α β] (q : Queue α) (key : String) (accepts : Entry → Bool)
    (build : List Entry → Option β) : Prop :=
  ∀ known, q.cache.get? key = some known →
    known.scanned ≤ q.results.size ∧
      known.artifact.bind Holds.restore =
        build ((q.results.toList.take known.scanned).filter accepts)

section
variable [Holds α β] (q : Queue α) (key : String) (accepts : Entry → Bool)
  (build : List Entry → Option β)

theorem fresh_empty : (empty : Queue α).Fresh key accepts build := by
  intro known found
  cases found

@[simp] theorem uncached_cached : (q.cached key accepts build).2.uncached = q.uncached := by
  unfold cached
  split
  · rfl
  · split <;> rfl

@[simp] theorem results_cached : (q.cached key accepts build).2.results = q.results := by
  have same := congrArg results (q.uncached_cached key accepts build)
  exact same

theorem rebuild_artifact :
    (q.rebuild key accepts build).1.artifact = build (q.results.toList.filter accepts) := by
  simp [rebuild]

theorem fresh_rebuild : (q.rebuild key accepts build).2.Fresh key accepts build := by
  intro known found
  simp only [rebuild, Sorted.get?_insert, if_true, Option.some.injEq] at found
  subst found
  refine ⟨Nat.le_refl _, ?_⟩
  have restored (artifact : Option β) :
      (artifact.map (Holds.keep : β → α)).bind Holds.restore = artifact := by
    cases artifact <;> simp [Holds.restore_keep]
  simp only [rebuild, restored, Array.toList_filter]
  rw [← Array.length_toList, List.take_length]

theorem filter_take_of_unchanged {scanned : Nat}
    (unchanged : q.results.any accepts scanned q.results.size = false) :
    (q.results.toList.take scanned).filter accepts = q.results.toList.filter accepts := by
  -- no result past the scanned ones is accepted
  have rest : (q.results.toList.drop scanned).filter accepts = [] := by
    rw [List.filter_eq_nil_iff]
    intro entry member accepted
    obtain ⟨i, inside, rfl⟩ := List.mem_iff_getElem.mp member
    rw [List.length_drop] at inside
    have short : scanned + i < q.results.size := by
      simp only [Array.length_toList] at inside
      omega
    have hit : q.results.any accepts scanned q.results.size = true := by
      rw [Array.any_iff_exists]
      refine ⟨scanned + i, short, Nat.le_add_right _ _, short, ?_⟩
      simpa using accepted
    rw [unchanged] at hit
    cases hit
  calc (q.results.toList.take scanned).filter accepts
      = (q.results.toList.take scanned).filter accepts ++
          (q.results.toList.drop scanned).filter accepts := by rw [rest, List.append_nil]
    _ = q.results.toList.filter accepts := by
        rw [← List.filter_append, List.take_append_drop]

variable {q key accepts build}

theorem cached_artifact (fresh : q.Fresh key accepts build) :
    (q.cached key accepts build).1.artifact = build (q.results.toList.filter accepts) := by
  unfold cached
  split
  · exact q.rebuild_artifact key accepts build
  next known found =>
    split
    · exact q.rebuild_artifact key accepts build
    next unchanged =>
      rw [← q.filter_take_of_unchanged accepts (Bool.not_eq_true _ ▸ unchanged)]
      exact (fresh known found).2

theorem fresh_cached (fresh : q.Fresh key accepts build) :
    (q.cached key accepts build).2.Fresh key accepts build := by
  unfold cached
  split
  · exact q.fresh_rebuild key accepts build
  next known found =>
    split
    · exact q.fresh_rebuild key accepts build
    next unchanged =>
      intro known' found'
      simp only [Sorted.get?_insert, if_true, Option.some.injEq] at found'
      subst found'
      refine ⟨Nat.le_refl _, ?_⟩
      rw [(fresh known found).2,
        q.filter_take_of_unchanged accepts (Bool.not_eq_true _ ▸ unchanged)]
      rw [← Array.length_toList, List.take_length]

theorem Fresh.extend {r : Queue α} (fresh : q.Fresh key accepts build)
    (kept : r.cache.get? key = q.cache.get? key) {retired : List Entry}
    (results : r.results.toList = q.results.toList ++ retired) : r.Fresh key accepts build := by
  intro known found
  rw [kept] at found
  obtain ⟨short, built⟩ := fresh known found
  have longer : r.results.size = q.results.size + retired.length := by
    rw [← Array.length_toList, results, List.length_append, Array.length_toList]
  refine ⟨by omega, ?_⟩
  rw [built, results, List.take_append_of_le_length (by simpa using short)]

theorem get?_cached_of_ne {other : String} (apart : other ≠ key) :
    (q.cached key accepts build).2.cache.get? other = q.cache.get? other := by
  unfold cached
  split
  · simp only [rebuild, Sorted.get?_insert, apart, if_false]
  · split
    · simp only [rebuild, Sorted.get?_insert, apart, if_false]
    · simp only [Sorted.get?_insert, apart, if_false]

theorem fresh_cached_of_ne [Holds α γ] {other : String} {accepts' : Entry → Bool}
    {build' : List Entry → Option γ} (apart : other ≠ key)
    (fresh : q.Fresh other accepts' build') :
    (q.cached key accepts build).2.Fresh other accepts' build' := by
  have results : (q.cached key accepts build).2.results.toList = q.results.toList ++ [] := by
    rw [results_cached, List.append_nil]
  exact fresh.extend (get?_cached_of_ne apart) results

end
end ProceduralScene.Queue
