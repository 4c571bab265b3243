import ProceduralScene.Queue.Basic

/-! Artifacts derived from the results, such as a network of all finished pathways. A reader
names its artifact by a key and says which results matter to it; the artifact is built again
only after such a result has retired. -/
namespace ProceduralScene

/-- A cache of `α` can keep a `β` and give it back. -/
class Holds (α β : Type) where
  keep : β → α
  restore : α → Option β
  restore_keep : ∀ b, restore (keep b) = some b

instance : Holds α α := ⟨id, some, fun _ => rfl⟩

/-- An answer of the cache. Two answers of one key are the same instance when they were built
at the same number of results. -/
structure Reading (β : Type) where
  artifact : Option β
  builtAt : Nat
  rebuilt : Bool

namespace Queue

variable {α β : Type} [Holds α β]

/-- Builds the artifact from the results that matter, in order of retirement. -/
def rebuild (q : Queue α) (key : String) (accepts : Entry → Bool)
    (build : List Entry → Option β) : Reading β × Queue α :=
  let artifact := build (q.results.filter accepts).toList
  let retired := q.results.size
  (⟨artifact, retired, true⟩,
    { q with cache := q.cache.insert key ⟨retired, retired, artifact.map Holds.keep⟩ })

/-- Looks only at results that retired since the last call for the key. A build that gives
nothing is remembered like any other. -/
def cached (q : Queue α) (key : String) (accepts : Entry → Bool)
    (build : List Entry → Option β) : Reading β × Queue α :=
  match q.cache.get? key with
  | none => q.rebuild key accepts build
  | some known =>
    if q.results.any accepts known.scanned q.results.size then q.rebuild key accepts build
    else
      (⟨known.artifact.bind Holds.restore, known.builtAt, false⟩,
        { q with cache := q.cache.insert key { known with scanned := q.results.size } })

end Queue
end ProceduralScene
