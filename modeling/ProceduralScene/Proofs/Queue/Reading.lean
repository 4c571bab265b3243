import Mathlib.Data.List.Induction
import ProceduralScene.Proofs.Queue.Ledger

/-! Readers of a queue. Each key has one reader, which always accepts the same results and builds
the same from them. However pushes, pops and other readers come in between, a reader is given what
it would build now; it builds again only when a result that it accepts has retired since its last
call, and gets the same instance as then if not. -/
namespace ProceduralScene

structure Reader (α : Type) where
  {β : Type}
  holds : Holds α β
  accepts : Entry → Bool
  build : List Entry → Option β

attribute [instance] Reader.holds

namespace Queue

variable {α : Type}

inductive Visit where
  | push (entry : Entry) (progress : Progress)
  | pop
  | read (key : String)

def Visit.use (readers : String → Reader α) : Visit → Use α
  | push entry progress => .push entry progress
  | pop => .pop
  | read key => .cached (readers key).holds key (readers key).accepts (readers key).build

def Visit.retired? : Visit → Option Entry
  | push entry _ => if entry.pending = [] then some entry else none
  | _ => none

def Visit.isOther (key : String) : Visit → Bool
  | read other => other != key
  | _ => false

def retirements (visits : List Visit) : List Entry := visits.filterMap Visit.retired?

def visited (readers : String → Reader α) (visits : List Visit) : Queue α :=
  used (visits.map (Visit.use readers))

/-- The answer to a call for a key, after some visits. -/
def answer (readers : String → Reader α) (visits : List Visit) (key : String) :
    Reading (readers key).β :=
  ((visited readers visits).cached key (readers key).accepts (readers key).build).1

section
variable {β : Type} [Holds α β] {q r : Queue α} {key : String} {accepts : Entry → Bool}
  {build : List Entry → Option β} {known : Cached α}

theorem cached_of_none (missing : q.cache.get? key = none) :
    q.cached key accepts build = q.rebuild key accepts build := by
  simp only [cached, missing]

theorem cached_of_changed (found : q.cache.get? key = some known)
    (changed : q.results.any accepts known.scanned q.results.size = true) :
    q.cached key accepts build = q.rebuild key accepts build := by
  simp only [cached, found, changed, if_true]

theorem cached_of_unchanged (found : q.cache.get? key = some known)
    (unchanged : q.results.any accepts known.scanned q.results.size = false) :
    q.cached key accepts build =
      (⟨known.artifact.bind Holds.restore, known.builtAt, false⟩,
        { q with cache := q.cache.insert key { known with scanned := q.results.size } }) := by
  simp only [cached, found, unchanged, Bool.false_eq_true, if_false]

theorem get?_cached_self (q : Queue α) (key : String) (accepts : Entry → Bool)
    (build : List Entry → Option β) :
    ∃ known, (q.cached key accepts build).2.cache.get? key = some known ∧
      known.scanned = q.results.size ∧
      known.builtAt = (q.cached key accepts build).1.builtAt ∧
      known.artifact.bind Holds.restore = (q.cached key accepts build).1.artifact := by
  have rebuilt : ∃ known, (q.rebuild key accepts build).2.cache.get? key = some known ∧
      known.scanned = q.results.size ∧
      known.builtAt = (q.rebuild key accepts build).1.builtAt ∧
      known.artifact.bind Holds.restore = (q.rebuild key accepts build).1.artifact := by
    refine ⟨⟨q.results.size, q.results.size,
      (build (q.results.filter accepts).toList).map Holds.keep⟩, ?_, rfl, rfl, ?_⟩
    · rw [rebuild, Sorted.get?_insert, if_pos rfl]
    · dsimp only [rebuild]
      cases build (q.results.filter accepts).toList with
      | none => rfl
      | some artifact => exact Holds.restore_keep artifact
  cases found : q.cache.get? key with
  | none =>
    rw [cached_of_none found]
    exact rebuilt
  | some known =>
    cases changed : q.results.any accepts known.scanned q.results.size with
    | true =>
      rw [cached_of_changed found changed]
      exact rebuilt
    | false =>
      rw [cached_of_unchanged found changed]
      exact ⟨{ known with scanned := q.results.size }, by rw [Sorted.get?_insert, if_pos rfl], rfl,
        rfl, rfl⟩

theorem cached_congr (same : q.cache.get? key = r.cache.get? key)
    (results : q.results = r.results) :
    (q.cached key accepts build).1 = (r.cached key accepts build).1 ∧
      (q.cached key accepts build).2.cache.get? key =
        (r.cached key accepts build).2.cache.get? key := by
  unfold cached rebuild
  rw [same, results]
  split
  · simp only [Sorted.get?_insert, if_true, and_self]
  · split <;> simp only [Sorted.get?_insert, if_true, and_self]

def Scanned (q : Queue α) (key : String) : Prop :=
  ∀ known, q.cache.get? key = some known →
    known.builtAt ≤ known.scanned ∧ known.scanned ≤ q.results.size

theorem Scanned.builtAt_le (scanned : q.Scanned key) :
    (q.cached key accepts build).1.builtAt ≤ q.results.size := by
  cases found : q.cache.get? key with
  | none =>
    rw [cached_of_none found]
    exact Nat.le_refl _
  | some known =>
    cases changed : q.results.any accepts known.scanned q.results.size with
    | true =>
      rw [cached_of_changed found changed]
      exact Nat.le_refl _
    | false =>
      rw [cached_of_unchanged found changed]
      exact Nat.le_trans (scanned known found).1 (scanned known found).2

theorem Scanned.cached (scanned : q.Scanned key) : (q.cached key accepts build).2.Scanned key := by
  intro known found
  obtain ⟨known', found', all, builtAt, _⟩ := get?_cached_self q key accepts build
  cases found'.symm.trans found
  rw [results_cached, builtAt, all]
  exact ⟨scanned.builtAt_le, Nat.le_refl _⟩

theorem any_from_iff (accepts : Entry → Bool) {before since : List Entry}
    (results : q.results.toList = before ++ since) :
    q.results.any accepts before.length q.results.size = true ↔
      ∃ entry ∈ since, accepts entry = true := by
  have size : q.results.size = before.length + since.length := by
    rw [← Array.length_toList, results, List.length_append]
  rw [Array.any_iff_exists]
  constructor
  · rintro ⟨i, inside, late, _, accepted⟩
    refine ⟨q.results[i], ?_, accepted⟩
    have place : q.results.toList[i]? = since[i - before.length]? := by
      rw [results, List.getElem?_append_right late]
    rw [Array.getElem?_toList, Array.getElem?_eq_getElem inside] at place
    exact List.mem_of_getElem? place.symm
  · rintro ⟨entry, member, accepted⟩
    obtain ⟨i, inside, rfl⟩ := List.mem_iff_getElem.mp member
    have short : before.length + i < q.results.size := by omega
    refine ⟨before.length + i, short, Nat.le_add_right _ _, short, ?_⟩
    have place : q.results.toList[before.length + i]? = since[i]? := by
      rw [results, List.getElem?_append_right (Nat.le_add_right _ _), Nat.add_sub_cancel_left]
    rw [Array.getElem?_toList, Array.getElem?_eq_getElem short,
      List.getElem?_eq_getElem inside] at place
    rwa [Option.some.inj place]

end

section
variable (readers : String → Reader α)

theorem visited_concat (visits : List Visit) (visit : Visit) :
    visited readers (visits ++ [visit]) = (visited readers visits).use (visit.use readers) := by
  simp only [visited, used, List.map_append, List.map_cons, List.map_nil, List.foldl_append,
    List.foldl_cons, List.foldl_nil]

theorem results_use (q : Queue α) (visit : Visit) :
    (q.use (visit.use readers)).results.toList = q.results.toList ++ visit.retired?.toList := by
  cases visit with
  | push entry progress =>
    by_cases done : entry.pending = []
    · simp [Visit.use, use, push, retire, Visit.retired?, Entry.isTerminal, done]
    · simp [Visit.use, use, push, Visit.retired?, Entry.isTerminal, done]
  | pop =>
    simp only [Visit.use, use, Visit.retired?, Option.toList_none, List.append_nil, pop]
    cases q.slots <;> rfl
  | read key =>
    simp only [Visit.use, use, Visit.retired?, Option.toList_none, List.append_nil, results_cached]

theorem retirements_append (visits since : List Visit) :
    retirements (visits ++ since) = retirements visits ++ retirements since :=
  List.filterMap_append

theorem results_visited (visits : List Visit) :
    (visited readers visits).results.toList = retirements visits := by
  induction visits using List.reverseRecOn with
  | nil => rfl
  | append_singleton visits visit ih =>
    have last : retirements [visit] = visit.retired?.toList := by
      cases retired : visit.retired? <;> simp [retirements, retired]
    rw [visited_concat, results_use, ih, retirements_append, last]

theorem size_visited (visits : List Visit) :
    (visited readers visits).results.size = (retirements visits).length := by
  rw [← Array.length_toList, results_visited]

theorem get?_use {key : String} (q : Queue α) {visit : Visit} (other : visit ≠ .read key) :
    (q.use (visit.use readers)).cache.get? key = q.cache.get? key := by
  cases visit with
  | push entry progress =>
    simp only [Visit.use, use, push]
    split <;> rfl
  | pop =>
    simp only [Visit.use, use, pop]
    cases q.slots <;> rfl
  | read next =>
    refine get?_cached_of_ne fun same => other ?_
    rw [same]

theorem get?_visited_append {key : String} (visits : List Visit) {since : List Visit}
    (others : Visit.read key ∉ since) :
    (visited readers (visits ++ since)).cache.get? key =
      (visited readers visits).cache.get? key := by
  induction since using List.reverseRecOn with
  | nil => rw [List.append_nil]
  | append_singleton since visit ih =>
    rw [List.mem_append, not_or, List.mem_singleton] at others
    rw [← List.append_assoc, visited_concat, get?_use readers _ (Ne.symm others.2), ih others.1]

theorem get?_visited_of_not_mem {key : String} {visits : List Visit}
    (unread : Visit.read key ∉ visits) : (visited readers visits).cache.get? key = none := by
  rw [← List.nil_append visits, get?_visited_append readers [] unread]
  rfl

theorem get?_visited_of_read {key : String} (earlier : List Visit) {since : List Visit}
    (last : Visit.read key ∉ since) :
    ∃ known, (visited readers (earlier ++ .read key :: since)).cache.get? key = some known ∧
      known.scanned = (retirements earlier).length ∧
      known.builtAt = (answer readers earlier key).builtAt ∧
      known.artifact.bind Holds.restore = (answer readers earlier key).artifact := by
  have split : earlier ++ .read key :: since = (earlier ++ [.read key]) ++ since := by
    rw [List.append_assoc, List.singleton_append]
  rw [split, get?_visited_append readers _ last, visited_concat, ← size_visited readers earlier]
  exact get?_cached_self (visited readers earlier) _ _ _

theorem fresh_visited (key : String) (visits : List Visit) :
    (visited readers visits).Fresh key (readers key).accepts (readers key).build := by
  induction visits using List.reverseRecOn with
  | nil => exact fresh_empty _ _ _
  | append_singleton visits visit ih =>
    rw [visited_concat]
    by_cases own : visit = .read key
    · subst own
      exact fresh_cached ih
    · exact ih.extend (get?_use readers _ own) (results_use readers _ visit)

theorem scanned_visited (key : String) (visits : List Visit) :
    (visited readers visits).Scanned key := by
  induction visits using List.reverseRecOn with
  | nil =>
    intro known found
    cases found
  | append_singleton visits visit ih =>
    rw [visited_concat]
    by_cases own : visit = .read key
    · subst own
      exact ih.cached
    · intro known found
      rw [get?_use readers _ own] at found
      have longer := congrArg List.length (results_use readers (visited readers visits) visit)
      rw [List.length_append, Array.length_toList, Array.length_toList] at longer
      have bound := ih known found
      omega

theorem visited_filter (key : String) (visits : List Visit) :
    (visited readers (visits.filter fun visit => !visit.isOther key)).cache.get? key =
        (visited readers visits).cache.get? key ∧
      (visited readers (visits.filter fun visit => !visit.isOther key)).results =
        (visited readers visits).results := by
  induction visits using List.reverseRecOn with
  | nil => exact ⟨rfl, rfl⟩
  | append_singleton visits visit ih =>
    have results (q : Queue α) (same : q.results = (visited readers visits).results) :
        (q.use (visit.use readers)).results =
          ((visited readers visits).use (visit.use readers)).results := by
      apply Array.toList_inj.mp
      rw [results_use, results_use, same]
    by_cases own : visit = .read key
    · subst own
      have kept : Visit.isOther key (.read key) = false := by simp [Visit.isOther]
      rw [List.filter_append, List.filter_cons_of_pos (by rw [kept]; rfl), List.filter_nil,
        visited_concat, visited_concat]
      exact ⟨(cached_congr ih.1 ih.2).2, results _ ih.2⟩
    · rw [visited_concat, get?_use readers _ own, List.filter_append]
      cases other : visit.isOther key with
      | true =>
        have unchanged : (visited readers visits).results =
            ((visited readers visits).use (visit.use readers)).results := by
          cases visit with
          | push entry progress => cases other
          | pop => cases other
          | read next => exact (results_cached _ _ _ _).symm
        rw [List.filter_cons_of_neg (by rw [other]; exact Bool.false_ne_true), List.filter_nil,
          List.append_nil, ← unchanged]
        exact ih
      | false =>
        rw [List.filter_cons_of_pos (by rw [other]; rfl), List.filter_nil, visited_concat,
          get?_use readers _ own]
        exact ⟨ih.1, results _ ih.2⟩

/-- What a call for a key gives after some visits, and when it builds. -/
structure Answers (readers : String → Reader α) (visits : List Visit) (key : String) : Prop where
  artifact : (answer readers visits key).artifact =
    (readers key).build ((retirements visits).filter (readers key).accepts)
  first : .read key ∉ visits → (answer readers visits key).rebuilt = true
  again : ∀ earlier since, visits = earlier ++ .read key :: since → .read key ∉ since →
    ((answer readers visits key).rebuilt = true ↔
      ∃ entry ∈ retirements since, (readers key).accepts entry = true)
  same : ∀ earlier since, visits = earlier ++ .read key :: since → .read key ∉ since →
    if (answer readers visits key).rebuilt then
      (answer readers earlier key).builtAt < (answer readers visits key).builtAt
    else
      (answer readers visits key).builtAt = (answer readers earlier key).builtAt ∧
        (answer readers visits key).artifact = (answer readers earlier key).artifact
  unused : (answer readers visits key).rebuilt = false → ∀ build,
    ((visited readers visits).cached key (readers key).accepts build).1 =
      answer readers visits key
  others : answer readers (visits.filter fun visit => !visit.isOther key) key =
    answer readers visits key
  scanned : ∀ other known, (visited readers visits).cache.get? other = some known →
    known.scanned ≤ (visited readers visits).results.size

theorem answer_again {key : String} {visits earlier since : List Visit}
    (split : visits = earlier ++ .read key :: since) (last : .read key ∉ since) :
    (∃ entry ∈ retirements since, (readers key).accepts entry = true) ∧
        (answer readers visits key).rebuilt = true ∧
        (answer readers earlier key).builtAt < (answer readers visits key).builtAt ∨
      (¬∃ entry ∈ retirements since, (readers key).accepts entry = true) ∧
        (answer readers visits key).rebuilt = false ∧
        (answer readers visits key).builtAt = (answer readers earlier key).builtAt ∧
        (answer readers visits key).artifact = (answer readers earlier key).artifact := by
  obtain ⟨known, found, scanned, builtAt, artifact⟩ := get?_visited_of_read readers earlier last
  rw [← split] at found
  have results : (visited readers visits).results.toList =
      retirements earlier ++ retirements since := by
    rw [results_visited, split, retirements_append]
    rfl
  have changes := any_from_iff (readers key).accepts results
  rw [← scanned] at changes
  cases changed : (visited readers visits).results.any (readers key).accepts known.scanned
    (visited readers visits).results.size with
  | true =>
    obtain ⟨entry, member, accepted⟩ := changes.mp changed
    refine .inl ⟨⟨entry, member, accepted⟩, ?_⟩
    rw [answer, cached_of_changed found changed]
    refine ⟨rfl, ?_⟩
    have early : (answer readers earlier key).builtAt ≤ (retirements earlier).length := by
      rw [← size_visited readers]
      exact (scanned_visited readers key earlier).builtAt_le
    have grown := congrArg List.length results
    have some := List.length_pos_of_mem member
    rw [List.length_append, Array.length_toList] at grown
    show _ < (visited readers visits).results.size
    omega
  | false =>
    refine .inr ⟨fun accepted => ?_, ?_⟩
    · cases changed.symm.trans (changes.mpr accepted)
    · rw [answer, cached_of_unchanged found changed]
      exact ⟨rfl, builtAt, artifact⟩

/-- The cache serves every reader fresh and builds for it only when it must. -/
theorem visited_answers (visits : List Visit) (key : String) : Answers readers visits key where
  artifact := by
    rw [answer, cached_artifact (fresh_visited readers key visits), results_visited]
  first unread := by
    rw [answer, cached_of_none (get?_visited_of_not_mem readers unread)]
    rfl
  again earlier since split last := by
    rcases answer_again readers split last with ⟨accepted, rebuilt, _⟩ | ⟨none, kept, _⟩
    · exact iff_of_true rebuilt accepted
    · exact iff_of_false (by rw [kept]; exact Bool.false_ne_true) none
  same earlier since split last := by
    rcases answer_again readers split last with ⟨_, rebuilt, newer⟩ | ⟨_, kept, same⟩
    · rwa [if_pos rebuilt]
    · rwa [if_neg (by rw [kept]; exact Bool.false_ne_true)]
  unused kept build := by
    cases found : (visited readers visits).cache.get? key with
    | none =>
      rw [answer, cached_of_none found] at kept
      cases kept
    | some known =>
      cases changed : (visited readers visits).results.any (readers key).accepts known.scanned
        (visited readers visits).results.size with
      | true =>
        rw [answer, cached_of_changed found changed] at kept
        cases kept
      | false => rw [answer, cached_of_unchanged found changed, cached_of_unchanged found changed]
  others := by
    obtain ⟨kept, results⟩ := visited_filter readers key visits
    exact (cached_congr kept results).1
  scanned other known found := (scanned_visited readers other visits known found).2

end

end Queue
end ProceduralScene
