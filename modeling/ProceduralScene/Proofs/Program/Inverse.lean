import ProceduralScene.Program.Basic
import ProceduralScene.Proofs.Payload.Untagged

/-! Programs as documents. Every node, rule and description with finite numbers comes back as it
was written, and what is read has finite numbers only. For nodes the argument follows the two
recursions: writing goes down the tree, so a node is read back if its children are; reading goes up
the document, so what is read of a field is finite before the type of its object is known. -/
namespace ProceduralScene

open Json (Inverts)

namespace Transformation

/-- The payloads that a node itself contains; its weights count as numbers. -/
def literals : Transformation → List Payload
  | precomputed _ _ parameters => parameters
  | literal _ value => [value]
  | switch _ cases _ => cases.flatten
  | stochasticSwitch _ probabilities _ => probabilities.map Payload.number
  | _ => []

def holdsFinite (node : Transformation) : Bool := node.literals.all Payload.isFinite

def isFinite (node : Transformation) : Bool := node.nodes.all holdsFinite

theorem all_nodesOf (children : List Transformation) :
    (nodesOf children).all holdsFinite = children.all isFinite := by
  induction children with
  | nil => rfl
  | cons child rest ih => rw [nodesOf, List.all_append, ih, List.all_cons, isFinite]

theorem isFinite_eq (node : Transformation) :
    node.isFinite = (node.holdsFinite && node.children.all isFinite) := by
  cases node <;>
    simp only [isFinite, nodes, children, all_nodesOf, List.all_cons, List.all_nil,
      List.all_append, List.cons_append, Bool.and_true, Bool.and_assoc]

theorem payloads_arr {row : List Payload} (finite : row.all Payload.isFinite = true) :
    payloads (.arr (row.map Payload.toJson)) = some row := Payload.decodeItems_map finite

theorem toJsonList_eq_map (children : List Transformation) :
    toJsonList children = children.map toJson := by
  induction children with
  | nil => rfl
  | cons child rest ih => rw [toJsonList, ih, List.map_cons]

theorem decodeItems_eq_mapM (items : List Json) : decodeItems items = items.mapM decode := by
  induction items with
  | nil => rfl
  | cons item rest ih => rw [decodeItems, ih, List.mapM_cons]

theorem decode_record (type id : String) (fields : List (String × Json)) :
    decode (toJson.record type id fields) =
      assemble (("astId", ⟨.str id, none, none⟩) :: ("type", ⟨.str type, none, none⟩) ::
        decodeFields fields) := rfl

theorem decode_of_children {node : Transformation} (own : node.holdsFinite = true)
    (below : ∀ child ∈ node.children, decode child.toJson = some child) :
    decode node.toJson = some node := by
  have nodes : decodeItems (toJsonList node.children) = some node.children := by
    rw [toJsonList_eq_map, decodeItems_eq_mapM, mapM_map below]
  rw [holdsFinite] at own
  cases node with
  | sequential id children | parallel id children | operation id name children =>
    rw [Transformation.children] at nodes
    simp [toJson, decode_record, decodeFields, decodeArray, assemble, stringAt, nodesAt, one,
      typeOf, Json.string?, nodes]
  | precomputed id name parameters =>
    rw [literals] at own
    have read := payloads_arr own
    simp [toJson, decode_record, decodeFields, assemble, stringAt, one, typeOf, Json.string?, read]
  | literal id value =>
    simp only [literals, List.all_cons, List.all_nil, Bool.and_true] at own
    have read := Payload.decode_toJson own
    simp [toJson, decode_record, decodeFields, assemble, stringAt, one, typeOf, Json.string?, read]
  | reference id description noun | this id | getVariable id name =>
    simp [toJson, decode_record, decodeFields, assemble, stringAt, one, typeOf, Json.string?]
  | unary id operator child =>
    have read := below child List.mem_cons_self
    simp [toJson, decode_record, decodeFields, assemble, stringAt, nodeAt, one, typeOf,
      Json.string?, read, UnaryOperator.ofJson, Json.symbol?, UnaryOperator.ofSymbol_symbol]
  | setVariable id name value =>
    have read := below value List.mem_cons_self
    simp [toJson, decode_record, decodeFields, assemble, stringAt, nodeAt, one, typeOf,
      Json.string?, read]
  | binary id operator left right =>
    have first := below left (by simp [children])
    have second := below right (by simp [children])
    simp [toJson, decode_record, decodeFields, assemble, stringAt, nodeAt, one, typeOf,
      Json.string?, first, second, BinaryOperator.ofJson, Json.symbol?,
      BinaryOperator.ofSymbol_symbol]
  | ifElse id condition whenTrue whenFalse =>
    have first := below condition (by simp [children])
    have second := below whenTrue (by simp [children])
    have third := below whenFalse (by simp [children])
    simp [toJson, decode_record, decodeFields, assemble, stringAt, nodeAt, one, typeOf,
      Json.string?, first, second, third]
  | switch id cases children =>
    rw [Transformation.children] at nodes
    rw [literals, List.all_flatten, List.all_eq_true] at own
    have read : (cases.map fun row => Json.arr (row.map Payload.toJson)).mapM payloads =
        some cases := mapM_map fun row member => payloads_arr (own row member)
    simp [toJson, decode_record, decodeFields, decodeArray, assemble, stringAt, nodesAt, one,
      typeOf, Json.string?, Json.items?, nodes, read]
  | stochasticSwitch id probabilities children =>
    rw [Transformation.children] at nodes
    rw [literals, List.all_map, List.all_eq_true] at own
    have read : (probabilities.map Json.float).mapM Json.number? = some probabilities :=
      mapM_map fun x member => Json.number?_float (own x member)
    simp [toJson, decode_record, decodeFields, decodeArray, assemble, stringAt, nodesAt, one,
      typeOf, Json.string?, Json.items?, nodes, read]

theorem decode_toJson {node : Transformation} (finite : node.isFinite = true) :
    decode node.toJson = some node := by
  induction node using induction_on_children with
  | step node ih =>
    rw [isFinite_eq, Bool.and_eq_true] at finite
    apply decode_of_children finite.1
    intro child member
    exact ih child member (List.all_eq_true.mp finite.2 child member)

theorem isSound_record {type id : String} {fields : List (String × Json)} :
    (toJson.record type id fields).isSound = true ↔
      ∀ field ∈ fields, field.2.isSound = true := by
  simp only [toJson.record, Json.isSound_obj, List.forall_mem_cons]
  simp [Json.isSound]

theorem isSound_of_children {node : Transformation} (own : node.holdsFinite = true)
    (below : ∀ child ∈ node.children, child.toJson.isSound = true) :
    node.toJson.isSound = true := by
  rw [holdsFinite] at own
  have text (s : String) : (Json.str s).isSound = true := by rw [Json.isSound]
  cases node with
  | sequential id children | parallel id children | operation id name children =>
    rw [Transformation.children] at below
    simpa [toJson, isSound_record, toJsonList_eq_map, Json.isSound_arr, text] using below
  | precomputed id name parameters =>
    rw [literals] at own
    have sound := Payload.inverts.isSound_map own
    simp [toJson, isSound_record, text, sound]
  | literal id value =>
    simp only [literals, List.all_cons, List.all_nil, Bool.and_true] at own
    simp [toJson, isSound_record, Payload.inverts.isSound value own]
  | reference id description noun | this id | getVariable id name =>
    simp [toJson, isSound_record, text]
  | unary id operator child | setVariable id name child
  | binary id operator left right | ifElse id condition whenTrue whenFalse =>
    simp only [children, List.forall_mem_cons] at below
    simp [toJson, isSound_record, below, text]
  | switch id cases children =>
    rw [literals, List.all_flatten, List.all_eq_true] at own
    rw [Transformation.children] at below
    have rows : ∀ row ∈ cases, (Json.arr (row.map Payload.toJson)).isSound = true :=
      fun row member => Payload.inverts.isSound_map (own row member)
    simp only [toJson, isSound_record, toJsonList_eq_map, List.forall_mem_cons]
    simpa [Json.isSound_arr] using And.intro rows below
  | stochasticSwitch id probabilities children =>
    rw [literals, List.all_map, List.all_eq_true] at own
    rw [Transformation.children] at below
    have weights : ∀ x ∈ probabilities, (Json.float x).isSound = true := own
    simp only [toJson, isSound_record, toJsonList_eq_map, List.forall_mem_cons]
    simpa [Json.isSound_arr] using And.intro weights below

theorem isSound_toJson {node : Transformation} (finite : node.isFinite = true) :
    node.toJson.isSound = true := by
  induction node using induction_on_children with
  | step node ih =>
    rw [isFinite_eq, Bool.and_eq_true] at finite
    apply isSound_of_children finite.1
    intro child member
    exact ih child member (List.all_eq_true.mp finite.2 child member)

theorem isSound_of_mem_items {json item : Json} {items : List Json} (sound : json.isSound = true)
    (array : json.items? = some items) (inside : item ∈ items) : item.isSound = true := by
  cases json with
  | arr all =>
    cases array
    exact Json.isSound_arr.mp sound item inside
  | _ => cases array

theorem all_of_payloads {json : Json} {row : List Payload} (sound : json.isSound = true)
    (read : payloads json = some row) : row.all Payload.isFinite = true := by
  obtain ⟨items, array, read⟩ := Option.bind_eq_some_iff.mp read
  rw [← Payload.areFinite_eq_all]
  apply Payload.areFinite_of_decodeItems items row _ read
  rw [Json.isSoundItems_iff]
  exact fun item inside => isSound_of_mem_items sound array inside

structure Member.IsFinite (m : Member) : Prop where
  sound : m.json.isSound = true
  node : ∀ node, m.node = some node → node.isFinite = true
  nodes : ∀ nodes, m.nodes = some nodes → nodes.all isFinite = true

section
variable {fields : List (String × Member)} (finite : ∀ field ∈ fields, field.2.IsFinite)

include finite

theorem isFinite_of_one {name : String} {m : Member} (found : one fields name = some m) :
    m.IsFinite := by
  unfold one at found
  split at found
  next same =>
    cases found
    have member := same ▸ List.mem_cons_self
    exact finite _ (List.mem_filter.mp member).1
  next => cases found

theorem isFinite_of_nodeAt {name : String} {node : Transformation}
    (found : nodeAt fields name = some node) : node.isFinite = true := by
  obtain ⟨m, here, read⟩ := Option.bind_eq_some_iff.mp found
  exact (isFinite_of_one finite here).node node read

theorem isFinite_of_nodesAt {name : String} {nodes : List Transformation}
    (found : nodesAt fields name = some nodes) : nodes.all isFinite = true := by
  obtain ⟨m, here, read⟩ := Option.bind_eq_some_iff.mp found
  exact (isFinite_of_one finite here).nodes nodes read

theorem isFinite_of_assemble {node : Transformation} (read : assemble fields = some node) :
    node.isFinite = true := by
  have whole {node : Transformation} (own : node.holdsFinite = true)
      (below : node.children.all isFinite = true) : node.isFinite = true := by
    rw [isFinite_eq, own, below]
    rfl
  simp only [assemble, Option.pure_def, Option.bind_eq_bind, Option.bind_eq_some_iff] at read
  obtain ⟨id, _, m, _, type, _, read⟩ := read
  -- one case for each type, and one for all other names
  split at read <;> simp only [Option.bind_eq_some_iff, Option.some.injEq, reduceCtorEq] at read
  · obtain ⟨children, nodes, rfl⟩ := read
    exact whole rfl (isFinite_of_nodesAt finite nodes)
  · obtain ⟨children, nodes, rfl⟩ := read
    exact whole rfl (isFinite_of_nodesAt finite nodes)
  · obtain ⟨name, _, children, nodes, rfl⟩ := read
    exact whole rfl (isFinite_of_nodesAt finite nodes)
  · obtain ⟨name, _, m, here, parameters, row, rfl⟩ := read
    exact whole (all_of_payloads (isFinite_of_one finite here).sound row) rfl
  · obtain ⟨m, here, value, decoded, rfl⟩ := read
    have sound := (isFinite_of_one finite here).sound
    have own := Payload.isFinite_of_decode m.json value sound decoded
    exact whole (by simp [holdsFinite, literals, own]) rfl
  · obtain ⟨description, _, noun, _, rfl⟩ := read
    exact whole rfl rfl
  · cases read
    exact whole rfl rfl
  · obtain ⟨_, _, operator, _, child, node, rfl⟩ := read
    have below := isFinite_of_nodeAt finite node
    exact whole rfl (by simp [Transformation.children, below])
  · obtain ⟨_, _, operator, _, left, node, right, node', rfl⟩ := read
    have below := isFinite_of_nodeAt finite node
    have below' := isFinite_of_nodeAt finite node'
    exact whole rfl (by simp [Transformation.children, below, below'])
  · obtain ⟨condition, node, whenTrue, node', whenFalse, node'', rfl⟩ := read
    have below := isFinite_of_nodeAt finite node
    have below' := isFinite_of_nodeAt finite node'
    have below'' := isFinite_of_nodeAt finite node''
    exact whole rfl (by simp [Transformation.children, below, below', below''])
  · obtain ⟨m, here, items, array, cases, rows, children, nodes, rfl⟩ := read
    have sound := (isFinite_of_one finite here).sound
    have own (row : List Payload) (member : row ∈ cases) : row.all Payload.isFinite = true := by
      obtain ⟨json, inside, read⟩ := mem_of_mapM rows row member
      exact all_of_payloads (isSound_of_mem_items sound array inside) read
    refine whole ?_ (isFinite_of_nodesAt finite nodes)
    rw [holdsFinite, literals, List.all_flatten, List.all_eq_true]
    exact own
  · obtain ⟨name, _, rfl⟩ := read
    exact whole rfl rfl
  · obtain ⟨name, _, value, node, rfl⟩ := read
    have below := isFinite_of_nodeAt finite node
    exact whole rfl (by simp [Transformation.children, below])
  · obtain ⟨m, here, items, array, probabilities, weights, children, nodes, rfl⟩ := read
    refine whole ?_ (isFinite_of_nodesAt finite nodes)
    rw [holdsFinite, literals, List.all_map, List.all_eq_true]
    intro x member
    obtain ⟨json, _, read⟩ := mem_of_mapM weights x member
    exact Json.isFinite_of_number? read

end

mutual

theorem isFinite_of_decode : ∀ (json : Json) (node : Transformation), json.isSound = true →
    decode json = some node → node.isFinite = true
  | .obj fields, node, sound, read =>
    isFinite_of_assemble (isFinite_decodeFields fields sound) read
  | .null, _, _, read | .bool _, _, _, read | .int _, _, _, read | .float _, _, _, read
  | .str _, _, _, read | .arr _, _, _, read | .flawed _, _, _, read => by cases read

theorem isFinite_of_decodeArray : ∀ (json : Json) (nodes : List Transformation),
    json.isSound = true → decodeArray json = some nodes → nodes.all isFinite = true
  | .arr items, nodes, sound, read => isFinite_of_decodeItems items nodes sound read
  | .null, _, _, read | .bool _, _, _, read | .int _, _, _, read | .float _, _, _, read
  | .str _, _, _, read | .obj _, _, _, read | .flawed _, _, _, read => by cases read

theorem isFinite_of_decodeItems : ∀ (items : List Json) (nodes : List Transformation),
    Json.isSoundItems items = true → decodeItems items = some nodes → nodes.all isFinite = true
  | [], _, _, read => by cases read; rfl
  | item :: rest, nodes, sound, read => by
    simp only [Json.isSoundItems, Bool.and_eq_true] at sound
    simp only [decodeItems, Option.pure_def, Option.bind_eq_bind, Option.bind_eq_some_iff] at read
    obtain ⟨node, first, nodes, later, same⟩ := read
    cases same
    rw [List.all_cons, Bool.and_eq_true]
    exact ⟨isFinite_of_decode item node sound.1 first,
      isFinite_of_decodeItems rest nodes sound.2 later⟩

theorem isFinite_decodeFields : ∀ fields : List (String × Json),
    Json.isSoundFields fields = true → ∀ field ∈ decodeFields fields, field.2.IsFinite
  | [], _, _, member => by cases member
  | (name, value) :: rest, sound, field, member => by
    simp only [Json.isSoundFields, Bool.and_eq_true] at sound
    rcases List.mem_cons.mp member with rfl | member
    · exact {
        sound := sound.1
        node := fun node read => isFinite_of_decode value node sound.1 read
        nodes := fun nodes read => isFinite_of_decodeArray value nodes sound.1 read }
    · exact isFinite_decodeFields rest sound.2 field member

end

theorem inverts : Inverts toJson ofJson isFinite where
  isSound _ := isSound_toJson
  decode_encode node finite := by rw [ofJson, if_pos (isSound_toJson finite), decode_toJson finite]
  finite_of_decode json node read := by
    unfold ofJson at read
    split at read
    next sound => exact isFinite_of_decode json node sound read
    next => cases read

end Transformation

theorem Keyed.inverts {α : Type} {encode : α → Json} {decode : Json → Option α}
    {finite : α → Bool} (inner : Inverts encode decode finite) :
    Inverts (Keyed.toJson encode) (Keyed.ofJson decode)
      fun m => m.entries.all fun entry => finite entry.2 where
  isSound m all := inner.isSound_entries all
  decode_encode m all := by
    have read := inner.mapM_entries all
    unfold Keyed.ofJson Keyed.toJson
    rw [Json.fields?, Option.bind_eq_bind, Option.bind_some, read, Option.bind_eq_bind,
      Option.bind_some, Keyed.ofList_entries]
    rfl
  finite_of_decode json m read := by
    simp only [Keyed.ofJson, Option.pure_def, Option.bind_eq_bind, Option.bind_eq_some_iff] at read
    obtain ⟨fields, _, entries, read, same⟩ := read
    cases same
    have all := inner.all_of_mapM_entries read
    rw [List.all_eq_true] at all ⊢
    exact fun entry member => all entry (Keyed.mem_of_mem_ofList member)

namespace Variables

def isFinite (vars : Variables) : Bool := vars.entries.all fun entry => entry.2.isFinite

theorem inverts : Inverts toJson ofJson isFinite where
  isSound vars all := Payload.inverts.isSound_entries all
  decode_encode vars all := by
    have read := Payload.inverts.mapM_entries all
    unfold ofJson toJson
    rw [Json.fields?, Option.bind_eq_bind, Option.bind_some, read, Option.bind_eq_bind,
      Option.bind_some, Sorted.ofList_entries]
    rfl
  finite_of_decode json vars read := by
    simp only [ofJson, Option.pure_def, Option.bind_eq_bind, Option.bind_eq_some_iff] at read
    obtain ⟨fields, _, entries, read, same⟩ := read
    cases same
    have all := Payload.inverts.all_of_mapM_entries read
    rw [List.all_eq_true] at all
    exact List.all_eq_true.mpr (Sorted.forall_mem_ofList all)

end Variables

namespace Noun

def isFinite (n : Noun) : Bool := n.transformation.isFinite

theorem inverts : Inverts toJson ofJson isFinite where
  isSound n finite := by
    have sound := Transformation.inverts.isSound n.transformation finite
    simp [toJson, Json.isSound_obj, sound, Json.isSound.eq_def (.str _)]
  decode_encode n finite := by
    have read := Transformation.inverts.decode_encode n.transformation finite
    simp [ofJson, toJson, Json.members, Json.field, Json.string?, read]
  finite_of_decode json n read := by
    unfold ofJson at read
    split at read
    · simp only [Option.pure_def, Option.bind_eq_bind, Option.bind_eq_some_iff] at read
      obtain ⟨astId, _, transformation, read, same⟩ := read
      cases same
      exact Transformation.inverts.finite_of_decode _ transformation read
    · cases read

end Noun

namespace Description

def isFinite (d : Description) : Bool :=
  d.initialVariables.isFinite && d.nouns.entries.all fun entry => entry.2.isFinite

theorem inverts : Inverts toJson ofJson isFinite where
  isSound d finite := by
    simp only [isFinite, Bool.and_eq_true] at finite
    have vars := Variables.inverts.isSound d.initialVariables finite.1
    have nouns := (Keyed.inverts Noun.inverts).isSound d.nouns finite.2
    simp [toJson, Json.isSound_obj, vars, nouns, Json.isSound.eq_def (.str _)]
  decode_encode d finite := by
    simp only [isFinite, Bool.and_eq_true] at finite
    have vars := Variables.inverts.decode_encode d.initialVariables finite.1
    have nouns := (Keyed.inverts Noun.inverts).decode_encode d.nouns finite.2
    simp [ofJson, toJson, Json.members, Json.field, Json.string?, vars, nouns]
  finite_of_decode json d read := by
    unfold ofJson at read
    split at read
    · simp only [Option.pure_def, Option.bind_eq_bind, Option.bind_eq_some_iff] at read
      obtain ⟨vars, hvars, nouns, hnouns, root, _, same⟩ := read
      cases same
      rw [isFinite, Bool.and_eq_true]
      exact ⟨Variables.inverts.finite_of_decode _ vars hvars,
        (Keyed.inverts Noun.inverts).finite_of_decode _ nouns hnouns⟩
    · cases read

end Description

namespace Program

def isFinite (p : Program) : Bool := p.entries.all fun entry => entry.2.isFinite

theorem inverts : Inverts toJson ofJson isFinite := Keyed.inverts Description.inverts

end Program
end ProceduralScene
