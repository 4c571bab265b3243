import ProceduralScene.Keyed

/-! Values under distinct text keys, in the order of the keys. The order is that of code
points, so two maps with the same look-ups are the same map. -/
namespace ProceduralScene

def insertSorted (key : String) (value : α) : List (String × α) → List (String × α)
  | [] => [(key, value)]
  | (other, old) :: rest =>
    if key < other then (key, value) :: (other, old) :: rest
    else if other < key then (other, old) :: insertSorted key value rest
    else (key, value) :: rest

theorem mem_insertSorted {key : String} {value : α} {entries : List (String × α)}
    {entry : String × α} (h : entry ∈ insertSorted key value entries) :
    entry = (key, value) ∨ entry ∈ entries := by
  induction entries with
  | nil => simp_all [insertSorted]
  | cons head rest ih =>
    simp only [insertSorted] at h
    split at h
    · grind
    · split at h <;> grind

theorem pairwise_insertSorted (key : String) (value : α) (entries : List (String × α))
    (increasing : entries.Pairwise (·.1 < ·.1)) :
    (insertSorted key value entries).Pairwise (·.1 < ·.1) := by
  induction entries with
  | nil => simp [insertSorted]
  | cons head rest ih =>
    obtain ⟨other, old⟩ := head
    obtain ⟨least, increasing⟩ := List.pairwise_cons.mp increasing
    simp only [insertSorted]
    split
    case isTrue before =>
      refine List.pairwise_cons.mpr ⟨?_, List.pairwise_cons.mpr ⟨least, increasing⟩⟩
      intro entry member
      rcases List.mem_cons.mp member with same | member
      · exact same ▸ before
      · exact String.lt_trans before (least entry member)
    case isFalse notBefore =>
      split
      case isTrue after =>
        refine List.pairwise_cons.mpr ⟨?_, ih increasing⟩
        intro entry member
        rcases mem_insertSorted member with rfl | member
        · exact after
        · exact least entry member
      case isFalse notAfter =>
        have same : key = other :=
          String.le_antisymm (String.not_lt.mp notAfter) (String.not_lt.mp notBefore)
        exact List.pairwise_cons.mpr ⟨same ▸ least, increasing⟩

theorem insertSorted_of_last {key : String} {value : α} {entries : List (String × α)}
    (last : ∀ entry ∈ entries, entry.1 < key) :
    insertSorted key value entries = entries ++ [(key, value)] := by
  induction entries with
  | nil => rfl
  | cons entry rest ih =>
    obtain ⟨other, old⟩ := entry
    have after : other < key := last _ List.mem_cons_self
    have notBefore : ¬key < other := fun before =>
      String.lt_irrefl key (String.lt_trans before after)
    rw [insertSorted, if_neg notBefore, if_pos after,
      ih fun entry member => last entry (List.mem_cons_of_mem _ member)]
    rfl

structure Sorted (α : Type u) where
  entries : List (String × α) := []
  increasing : entries.Pairwise (·.1 < ·.1) := by simp

namespace Sorted

instance : Inhabited (Sorted α) := ⟨{}⟩

def empty : Sorted α := {}

def insert (m : Sorted α) (key : String) (value : α) : Sorted α :=
  ⟨insertSorted key value m.entries, pairwise_insertSorted key value m.entries m.increasing⟩

def ofList (entries : List (String × α)) : Sorted α :=
  entries.foldl (fun m entry => m.insert entry.1 entry.2) empty

def merge (m other : Sorted α) : Sorted α :=
  other.entries.foldl (fun m entry => m.insert entry.1 entry.2) m

def get? (m : Sorted α) (key : String) : Option α := lookupKey key m.entries

def contains (m : Sorted α) (key : String) : Bool := (m.get? key).isSome

def keys (m : Sorted α) : List String := m.entries.map (·.1)

def size (m : Sorted α) : Nat := m.entries.length

theorem get?_insert (m : Sorted α) (key other : String) (value : α) :
    (m.insert key value).get? other = if other = key then some value else m.get? other := by
  obtain ⟨entries, increasing⟩ := m
  simp only [get?, insert]
  clear increasing
  induction entries with
  | nil => simp [insertSorted, lookupKey, eq_comm]
  | cons head rest ih =>
    obtain ⟨first, old⟩ := head
    simp only [insertSorted]
    split
    · simp [lookupKey, eq_comm]
    · next notBefore =>
      split
      · next after =>
        have apart : first ≠ key := fun same => String.lt_irrefl key (same ▸ after)
        grind [lookupKey]
      · next notAfter =>
        have same : key = first :=
          String.le_antisymm (String.not_lt.mp notAfter) (String.not_lt.mp notBefore)
        grind [lookupKey]

theorem mem_of_get? {m : Sorted α} {key : String} {value : α} (found : m.get? key = some value) :
    (key, value) ∈ m.entries := mem_of_lookupKey found

theorem mem_of_mem_foldl {written : List (String × α)} {m : Sorted α} {entry : String × α}
    (member : entry ∈ (written.foldl (fun m entry => m.insert entry.1 entry.2) m).entries) :
    entry ∈ m.entries ∨ entry ∈ written := by
  induction written generalizing m with
  | nil => exact .inl member
  | cons head rest ih =>
    rcases ih member with member | member
    · rcases mem_insertSorted member with rfl | member
      · exact .inr List.mem_cons_self
      · exact .inl member
    · exact .inr (List.mem_cons_of_mem _ member)

theorem mem_of_mem_ofList {written : List (String × α)} {entry : String × α}
    (member : entry ∈ (ofList written).entries) : entry ∈ written := by
  rcases mem_of_mem_foldl member with member | member
  · cases member
  · exact member

theorem forall_mem_ofList {written : List (String × α)} {P : String × α → Prop}
    (all : ∀ entry ∈ written, P entry) : ∀ entry ∈ (ofList written).entries, P entry :=
  fun entry member => all entry (mem_of_mem_ofList member)

theorem mem_of_mem_merge {m other : Sorted α} {entry : String × α}
    (member : entry ∈ (m.merge other).entries) : entry ∈ m.entries ∨ entry ∈ other.entries :=
  mem_of_mem_foldl member

@[ext] theorem ext {m n : Sorted α} (same : m.entries = n.entries) : m = n := by
  cases m
  cases n
  cases same
  rfl

theorem entries_foldl {written : List (String × α)} {m : Sorted α}
    (increasing : (m.entries ++ written).Pairwise (·.1 < ·.1)) :
    (written.foldl (fun m entry => m.insert entry.1 entry.2) m).entries =
      m.entries ++ written := by
  induction written generalizing m with
  | nil => simp
  | cons entry rest ih =>
    have added : (m.insert entry.1 entry.2).entries = m.entries ++ [entry] :=
      insertSorted_of_last fun other member =>
        (List.pairwise_append.mp increasing).2.2 other member entry List.mem_cons_self
    rw [List.foldl_cons, ih, added, List.append_assoc, List.singleton_append]
    rw [added, List.append_assoc, List.singleton_append]
    exact increasing

theorem ofList_entries (m : Sorted α) : ofList m.entries = m := by
  apply ext
  exact entries_foldl (m := empty) m.increasing

end Sorted
end ProceduralScene
