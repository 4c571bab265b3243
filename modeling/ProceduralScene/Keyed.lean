/-! Values under distinct text keys, in the order the keys were first written. Writing a key
again changes its value and keeps its place. -/
namespace ProceduralScene

def lookupKey (key : String) : List (String × α) → Option α
  | [] => none
  | (other, value) :: rest => if other = key then some value else lookupKey key rest

theorem mem_of_lookupKey {key : String} {value : α} {entries : List (String × α)}
    (found : lookupKey key entries = some value) : (key, value) ∈ entries := by
  induction entries with
  | nil => cases found
  | cons entry rest ih =>
    obtain ⟨other, old⟩ := entry
    simp only [lookupKey] at found
    split at found
    next same =>
      cases found
      exact same ▸ List.mem_cons_self
    next => exact List.mem_cons_of_mem _ (ih found)

def insertKeyed (key : String) (value : α) : List (String × α) → List (String × α)
  | [] => [(key, value)]
  | (other, old) :: rest =>
    if other = key then (key, value) :: rest else (other, old) :: insertKeyed key value rest

theorem mem_keys_insertKeyed (key : String) (value : α) (entries : List (String × α))
    (k : String) :
    k ∈ (insertKeyed key value entries).map (·.1) ↔ k = key ∨ k ∈ entries.map (·.1) := by
  induction entries with
  | nil => simp [insertKeyed]
  | cons entry rest ih =>
    obtain ⟨other, old⟩ := entry
    by_cases same : other = key
    · simp [insertKeyed, same]
    · simp only [insertKeyed, same, if_false, List.map_cons, List.mem_cons, ih]
      grind

theorem nodup_keys_insertKeyed (key : String) (value : α) (entries : List (String × α))
    (distinct : (entries.map (·.1)).Nodup) :
    ((insertKeyed key value entries).map (·.1)).Nodup := by
  induction entries with
  | nil => simp [insertKeyed]
  | cons entry rest ih =>
    obtain ⟨other, old⟩ := entry
    obtain ⟨fresh, distinct⟩ := List.nodup_cons.mp distinct
    by_cases same : other = key
    · subst same
      simp only [insertKeyed, if_true, List.map_cons, List.nodup_cons]
      exact ⟨fresh, distinct⟩
    · simp only [insertKeyed, same, if_false, List.map_cons, List.nodup_cons]
      refine ⟨?_, ih distinct⟩
      rw [mem_keys_insertKeyed]
      simp_all

theorem mem_insertKeyed {key : String} {value : α} {entries : List (String × α)}
    {entry : String × α} (member : entry ∈ insertKeyed key value entries) :
    entry = (key, value) ∨ entry ∈ entries := by
  induction entries with
  | nil => simpa [insertKeyed] using member
  | cons head rest ih =>
    simp only [insertKeyed] at member
    split at member <;> grind

theorem insertKeyed_of_not_mem {key : String} {value : α} {entries : List (String × α)}
    (fresh : key ∉ entries.map (·.1)) :
    insertKeyed key value entries = entries ++ [(key, value)] := by
  induction entries with
  | nil => rfl
  | cons entry rest ih =>
    obtain ⟨other, old⟩ := entry
    simp only [List.map_cons, List.mem_cons, not_or] at fresh
    simp only [insertKeyed, if_neg (Ne.symm fresh.1), ih fresh.2, List.cons_append]

structure Keyed (α : Type u) where
  entries : List (String × α) := []
  distinct : (entries.map (·.1)).Nodup := by simp

namespace Keyed

instance : Inhabited (Keyed α) := ⟨{}⟩

def empty : Keyed α := {}

def insert (m : Keyed α) (key : String) (value : α) : Keyed α :=
  ⟨insertKeyed key value m.entries, nodup_keys_insertKeyed key value m.entries m.distinct⟩

def ofList (entries : List (String × α)) : Keyed α :=
  entries.foldl (fun m entry => m.insert entry.1 entry.2) empty

def get? (m : Keyed α) (key : String) : Option α := lookupKey key m.entries

def keys (m : Keyed α) : List String := m.entries.map (·.1)

def size (m : Keyed α) : Nat := m.entries.length

theorem get?_insert (m : Keyed α) (key other : String) (value : α) :
    (m.insert key value).get? other = if other = key then some value else m.get? other := by
  obtain ⟨entries, distinct⟩ := m
  simp only [get?, insert]
  clear distinct
  induction entries with
  | nil => simp [insertKeyed, lookupKey, eq_comm]
  | cons head rest ih =>
    simp only [insertKeyed, lookupKey]
    grind [lookupKey]

@[ext] theorem ext {m n : Keyed α} (same : m.entries = n.entries) : m = n := by
  cases m
  cases n
  cases same
  rfl

theorem entries_foldl {written : List (String × α)} {m : Keyed α}
    (distinct : ((m.entries ++ written).map (·.1)).Nodup) :
    (written.foldl (fun m entry => m.insert entry.1 entry.2) m).entries =
      m.entries ++ written := by
  induction written generalizing m with
  | nil => simp
  | cons entry rest ih =>
    have fresh : entry.1 ∉ m.entries.map (·.1) := by
      simp only [List.map_append, List.map_cons, List.nodup_append] at distinct
      intro member
      exact distinct.2.2 _ member _ List.mem_cons_self rfl
    have added : (m.insert entry.1 entry.2).entries = m.entries ++ [entry] :=
      insertKeyed_of_not_mem fresh
    rw [List.foldl_cons, ih, added, List.append_assoc, List.singleton_append]
    rw [added, List.append_assoc, List.singleton_append]
    exact distinct

theorem mem_of_mem_foldl {written : List (String × α)} {m : Keyed α} {entry : String × α}
    (member : entry ∈ (written.foldl (fun m entry => m.insert entry.1 entry.2) m).entries) :
    entry ∈ m.entries ∨ entry ∈ written := by
  induction written generalizing m with
  | nil => exact .inl member
  | cons head rest ih =>
    rcases ih member with member | member
    · rcases mem_insertKeyed member with rfl | member
      · exact .inr List.mem_cons_self
      · exact .inl member
    · exact .inr (List.mem_cons_of_mem _ member)

theorem mem_of_mem_ofList {written : List (String × α)} {entry : String × α}
    (member : entry ∈ (ofList written).entries) : entry ∈ written :=
  (mem_of_mem_foldl member).resolve_left (by simp [empty])

theorem ofList_entries (m : Keyed α) : ofList m.entries = m := by
  apply ext
  exact entries_foldl (m := empty) m.distinct

theorem get?_of_mem {m : Keyed α} {key : String} {value : α} (member : (key, value) ∈ m.entries) :
    m.get? key = some value := by
  obtain ⟨entries, distinct⟩ := m
  simp only [get?] at member ⊢
  induction entries with
  | nil => cases member
  | cons head rest ih =>
    obtain ⟨other, old⟩ := head
    obtain ⟨fresh, distinct⟩ := List.nodup_cons.mp distinct
    rw [lookupKey]
    rcases List.mem_cons.mp member with same | later
    · cases same
      exact if_pos rfl
    · have apart : other ≠ key := fun same => fresh (same ▸ List.mem_map.mpr ⟨_, later, rfl⟩)
      rw [if_neg apart]
      exact ih distinct later

def mapWithKey {γ δ : Type} (m : Keyed γ) (f : String → γ → δ) : Keyed δ where
  entries := m.entries.map fun entry => (entry.1, f entry.1 entry.2)
  distinct := by
    rw [List.map_map]
    exact m.distinct

theorem get?_mapWithKey {γ δ : Type} (m : Keyed γ) (f : String → γ → δ) (key : String) :
    (m.mapWithKey f).get? key = (m.get? key).map (f key) := by
  obtain ⟨entries, distinct⟩ := m
  simp only [get?, mapWithKey]
  clear distinct
  induction entries with
  | nil => rfl
  | cons entry rest ih =>
    obtain ⟨other, value⟩ := entry
    simp only [List.map_cons, lookupKey]
    split
    next same =>
      subst same
      rfl
    next => exact ih

end Keyed
end ProceduralScene
