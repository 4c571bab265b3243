import ProceduralScene.Proofs.Scene.Operations

/-! The networks that a scene keeps in the cache stay what a reader would build. Queues of one
content and with such caches therefore look the same to every operation and to the publishing of
a slice, whatever was read from them before. -/
namespace ProceduralScene

variable {α : Type} [Holds α Network]

theorem Network.cacheKey_inj {a b : String} : cacheKey a = cacheKey b ↔ a = b :=
  String.append_right_inj _

namespace Queue

/-- Every network in the cache is the one of the pathways scanned for it. -/
def Coherent (q : Queue α) : Prop :=
  ∀ kind, q.Fresh (Network.cacheKey kind) (Network.isSource kind) (Network.build kind)

theorem coherent_empty : (empty : Queue α).Coherent := fun _ => fresh_empty _ _ _

theorem Coherent.artifact {q : Queue α} (coherent : q.Coherent) (kind : String) :
    (Network.cached q kind).1.artifact =
      Network.build kind (q.results.toList.filter (Network.isSource kind)) :=
  cached_artifact (coherent kind)

theorem Coherent.artifact_congr {q r : Queue α} (left : q.Coherent) (right : r.Coherent)
    (results : q.results = r.results) (kind : String) :
    (Network.cached q kind).1.artifact = (Network.cached r kind).1.artifact := by
  rw [left.artifact, right.artifact, results]

theorem Coherent.cached {q : Queue α} (coherent : q.Coherent) (kind : String) :
    (Network.cached q kind).2.Coherent := by
  intro other
  by_cases same : other = kind
  · subst same
    exact fresh_cached (coherent other)
  · refine fresh_cached_of_ne ?_ (coherent other)
    rwa [Ne, Network.cacheKey_inj]

theorem Coherent.extend {q r : Queue α} (coherent : q.Coherent) (cache : r.cache = q.cache)
    {retired : List Entry} (results : r.results.toList = q.results.toList ++ retired) :
    r.Coherent :=
  fun kind => (coherent kind).extend (by rw [cache]) results

theorem Coherent.push {q : Queue α} (coherent : q.Coherent) (entry : Entry)
    (progress : Progress) : (q.push entry progress).Coherent := by
  unfold Queue.push
  split
  · exact coherent.extend rfl Array.toList_push
  · exact coherent.extend rfl (List.append_nil _).symm

theorem Coherent.pop {q rest : Queue α} (coherent : q.Coherent) {entry : Entry}
    (popped : q.pop = some (entry, rest)) : rest.Coherent := by
  unfold Queue.pop at popped
  split at popped
  · cases popped
  · cases popped
    exact coherent.extend rfl (List.append_nil _).symm

structure Shows (content q : Queue α) : Prop where
  content : q.uncached = content
  coherent : q.Coherent

def Alike (content q r : Queue α) : Prop := Shows content q ∧ Shows content r

variable {content q r : Queue α}

theorem Alike.symm (alike : Alike content q r) : Alike content r q := ⟨alike.2, alike.1⟩

theorem Shows.cached (shown : Shows content q) (kind : String) :
    Shows content (Network.cached q kind).2 :=
  ⟨(q.uncached_cached _ _ _).trans shown.content, shown.coherent.cached kind⟩

theorem Shows.push (shown : Shows content q) (entry : Entry) (progress : Progress) :
    Shows (content.push entry progress) (q.push entry progress) :=
  ⟨by rw [uncached_push, shown.content], shown.coherent.push entry progress⟩

theorem Shows.pop_none (shown : Shows content q) (drained : content.pop = none) :
    q.pop = none := by
  rw [← shown.content, uncached_pop] at drained
  exact Option.map_eq_none_iff.mp drained

theorem Shows.pop_some (shown : Shows content q) {entry : Entry} {rest : Queue α}
    (popped : content.pop = some (entry, rest)) :
    ∃ q', q.pop = some (entry, q') ∧ Shows rest q' := by
  rw [← shown.content, uncached_pop] at popped
  obtain ⟨⟨entry', q'⟩, found, same⟩ := Option.map_eq_some_iff.mp popped
  cases same
  exact ⟨q', found, rfl, shown.coherent.pop found⟩

theorem Shows.inFlight (shown : Shows content q) : q.inFlight = content.inFlight := by
  rw [← shown.content]
  rfl

theorem Shows.results (shown : Shows content q) : q.results = content.results := by
  rw [← shown.content]
  rfl

theorem Shows.hasWork (shown : Shows content q) : q.hasWork = content.hasWork := by
  rw [← shown.content]
  rfl

theorem Shows.progress? (shown : Shows content q) : q.progress? = content.progress? := by
  rw [← shown.content]
  rfl

end Queue

namespace Scene

theorem indistinct_alike (content : Queue α) : Indistinct (Queue.Alike content) where
  inFlight alike := alike.1.inFlight.trans alike.2.inFlight.symm
  results alike := alike.1.results.trans alike.2.results.symm
  artifact alike :=
    alike.1.coherent.artifact_congr alike.2.coherent (alike.1.results.trans alike.2.results.symm)
  cached alike kind := ⟨alike.1.cached kind, alike.2.cached kind⟩

theorem publish_shows {content q : Queue Network} (shown : Queue.Shows content q) :
    Queue.Shows content (publish q).2 :=
  (shown.cached "street").cached "footwalk"

theorem publish_alike {content q r : Queue Network} (alike : Queue.Alike content q r) :
    (publish q).1 = (publish r).1 := by
  have indistinct := indistinct_alike content
  have street := indistinct.cached alike "street"
  have footwalk := indistinct.cached street "footwalk"
  have entries : (Network.cached (Network.cached q "street").2 "footwalk").2.entries =
      (Network.cached (Network.cached r "street").2 "footwalk").2.entries := by
    simp only [Queue.entries, Queue.retired, indistinct.inFlight footwalk,
      indistinct.results footwalk]
  simp only [publish, indistinct.artifact alike, indistinct.artifact street, entries]

end Scene
end ProceduralScene
