import ProceduralScene.Json.Basic

/-! Values that are written as JSON and read back. JSON has no word for a number that is not
finite, so a reading inverts a writing on values with finite numbers, and gives no others. The laws
of a type pass on to its lists. -/
namespace ProceduralScene

section
variable {α β : Type}

theorem mapM_map {encode : α → β} {decode : β → Option α} {items : List α}
    (inverts : ∀ a ∈ items, decode (encode a) = some a) :
    (items.map encode).mapM decode = some items := by
  induction items with
  | nil => rfl
  | cons a rest ih =>
    rw [List.map_cons, List.mapM_cons, inverts a List.mem_cons_self,
      ih fun b member => inverts b (List.mem_cons_of_mem _ member)]
    rfl

theorem mem_of_mapM {decode : β → Option α} {written : List β} {items : List α}
    (read : written.mapM decode = some items) :
    ∀ a ∈ items, ∃ b ∈ written, decode b = some a := by
  induction written generalizing items with
  | nil =>
    cases read
    simp
  | cons b rest ih =>
    simp only [List.mapM_cons, Option.pure_def, Option.bind_eq_bind, Option.bind_eq_some_iff]
      at read
    obtain ⟨first, here, later, there, same⟩ := read
    cases same
    intro a member
    rcases List.mem_cons.mp member with rfl | member
    · exact ⟨b, List.mem_cons_self, here⟩
    · obtain ⟨c, inside, found⟩ := ih there a member
      exact ⟨c, List.mem_cons_of_mem _ inside, found⟩

end

namespace Json

@[simp] theorem number?_float {x : Float} (finite : x.isFinite = true) :
    (float x).number? = some x := if_pos finite

theorem isFinite_of_number? {json : Json} {x : Float} (read : json.number? = some x) :
    x.isFinite = true := by
  unfold number? at read
  split at read
  · dsimp only at read
    split at read
    · cases read
      assumption
    · cases read
  · split at read
    · cases read
      assumption
    · cases read
  · cases read

theorem isSoundItems_iff {items : List Json} :
    isSoundItems items = true ↔ ∀ item ∈ items, item.isSound = true := by
  induction items with
  | nil => simp [isSoundItems]
  | cons item rest ih => simp [isSoundItems, ih]

theorem isSoundFields_iff {fields : List (String × Json)} :
    isSoundFields fields = true ↔ ∀ field ∈ fields, field.2.isSound = true := by
  induction fields with
  | nil => simp [isSoundFields]
  | cons field rest ih => simp [isSoundFields, ih]

theorem isSound_arr {items : List Json} :
    (arr items).isSound = true ↔ ∀ item ∈ items, item.isSound = true := by
  rw [isSound.eq_def]
  exact isSoundItems_iff

theorem isSound_obj {fields : List (String × Json)} :
    (obj fields).isSound = true ↔ ∀ field ∈ fields, field.2.isSound = true := by
  rw [isSound.eq_def]
  exact isSoundFields_iff

/-- What is written of a value with finite numbers is sound, and read back as that value; what is
read has finite numbers. -/
structure Inverts {α : Type} (encode : α → Json) (decode : Json → Option α) (finite : α → Bool) :
    Prop where
  isSound : ∀ a, finite a = true → (encode a).isSound = true
  decode_encode : ∀ a, finite a = true → decode (encode a) = some a
  finite_of_decode : ∀ json a, decode json = some a → finite a = true

namespace Inverts

variable {α : Type} {encode : α → Json} {decode : Json → Option α} {finite : α → Bool}
  (inverts : Inverts encode decode finite)

include inverts

theorem reread {json : Json} {a : α} (read : decode json = some a) :
    decode (encode a) = some a :=
  inverts.decode_encode a (inverts.finite_of_decode json a read)

theorem isSound_map {items : List α} (all : items.all finite = true) :
    (arr (items.map encode)).isSound = true := by
  rw [Json.isSound_arr, List.forall_mem_map]
  intro a member
  exact inverts.isSound a (List.all_eq_true.mp all a member)

theorem mapM_encode {items : List α} (all : items.all finite = true) :
    (items.map encode).mapM decode = some items :=
  mapM_map fun a member => inverts.decode_encode a (List.all_eq_true.mp all a member)

theorem all_of_mapM {written : List Json} {items : List α}
    (read : written.mapM decode = some items) : items.all finite = true := by
  rw [List.all_eq_true]
  intro a member
  obtain ⟨json, _, found⟩ := mem_of_mapM read a member
  exact inverts.finite_of_decode json a found

theorem isSound_entries {entries : List (String × α)}
    (all : (entries.all fun entry => finite entry.2) = true) :
    (obj (entries.map fun entry => (entry.1, encode entry.2))).isSound = true := by
  rw [Json.isSound_obj, List.forall_mem_map]
  intro entry member
  exact inverts.isSound entry.2 (List.all_eq_true.mp all entry member)

theorem mapM_entries {entries : List (String × α)}
    (all : (entries.all fun entry => finite entry.2) = true) :
    ((entries.map fun entry => (entry.1, encode entry.2)).mapM fun field => do
      return (field.1, ← decode field.2)) = some entries := by
  apply mapM_map
  intro entry member
  rw [inverts.decode_encode entry.2 (List.all_eq_true.mp all entry member)]
  rfl

theorem all_of_mapM_entries {fields : List (String × Json)} {entries : List (String × α)}
    (read : (fields.mapM fun field => do return (field.1, ← decode field.2)) = some entries) :
    (entries.all fun entry => finite entry.2) = true := by
  rw [List.all_eq_true]
  intro entry member
  obtain ⟨field, _, found⟩ := mem_of_mapM read entry member
  simp only [Option.pure_def, Option.bind_eq_bind, Option.bind_eq_some_iff] at found
  obtain ⟨a, read, same⟩ := found
  cases same
  exact inverts.finite_of_decode field.2 a read

end Inverts
end Json
end ProceduralScene
