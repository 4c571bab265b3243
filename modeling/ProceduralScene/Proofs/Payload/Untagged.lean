import ProceduralScene.Payload.Basic
import ProceduralScene.Proofs.Json.Inverse

/-! Payloads in documents carry no tag, so a document is tried as each kind in turn. No payload is
taken for one of a kind that is tried earlier: scalars, arrays and objects are told apart, and of
the records each lacks a field that every earlier one needs. -/
namespace ProceduralScene

open Json (Inverts)

namespace Point

def isFinite (p : Point) : Bool := p.x.isFinite && p.y.isFinite && p.z.isFinite

theorem inverts : Inverts toJson ofJson isFinite where
  isSound p finite := by
    simp only [isFinite, Bool.and_eq_true] at finite
    simp [toJson, Json.isSound, Json.isSoundFields, finite]
  decode_encode p finite := by
    simp only [isFinite, Bool.and_eq_true] at finite
    simp [ofJson, toJson, Json.members, Json.field, finite]
  finite_of_decode json p read := by
    unfold ofJson at read
    split at read
    · simp only [Option.pure_def, Option.bind_eq_bind, Option.bind_eq_some_iff] at read
      obtain ⟨x, hx, y, hy, z, hz, same⟩ := read
      cases same
      simp [isFinite, Json.isFinite_of_number? hx, Json.isFinite_of_number? hy,
        Json.isFinite_of_number? hz]
    · cases read

end Point

namespace Keyframe

def isFinite (k : Keyframe) : Bool :=
  k.position.isFinite && k.time.isFinite && k.speed.isFinite

theorem inverts : Inverts toJson ofJson isFinite where
  isSound k finite := by
    simp only [isFinite, Point.isFinite, position, Bool.and_eq_true] at finite
    simp [toJson, Json.isSound, Json.isSoundFields, finite]
  decode_encode k finite := by
    simp only [isFinite, Point.isFinite, position, Bool.and_eq_true] at finite
    simp [ofJson, toJson, Json.members, Json.field, Json.string?, finite]
  finite_of_decode json k read := by
    unfold ofJson at read
    split at read
    · simp only [Option.pure_def, Option.bind_eq_bind, Option.bind_eq_some_iff] at read
      obtain ⟨x, hx, y, hy, z, hz, time, htime, astId, _, speed, hspeed, same⟩ := read
      cases same
      simp [isFinite, Point.isFinite, position, Json.isFinite_of_number? hx,
        Json.isFinite_of_number? hy, Json.isFinite_of_number? hz, Json.isFinite_of_number? htime,
        Json.isFinite_of_number? hspeed]
    · cases read

end Keyframe

namespace Motion

def isFinite (m : Motion) : Bool := m.keyframes.toList.all Keyframe.isFinite && m.radius.isFinite

theorem inverts : Inverts toJson ofJson isFinite where
  isSound m finite := by
    obtain ⟨keyframes, url, radius, kind⟩ := m
    simp only [isFinite, Bool.and_eq_true] at finite
    have sound := Keyframe.inverts.isSound_map finite.1
    cases url <;> simp [toJson, Json.isSound.eq_def (.obj _), Json.isSoundFields, sound,
      Json.isSound.eq_def (.float _), Json.isSound.eq_def (.str _), finite.2]
  decode_encode m finite := by
    obtain ⟨keyframes, url, radius, kind⟩ := m
    simp only [isFinite, Bool.and_eq_true] at finite
    have read := Keyframe.inverts.mapM_encode finite.1
    cases url <;> simp [ofJson, toJson, Json.members, Json.field, Json.string?, Json.items?,
      Json.optionalString?, read, finite.2]
  finite_of_decode json m read := by
    unfold ofJson at read
    split at read
    · simp only [Option.pure_def, Option.bind_eq_bind, Option.bind_eq_some_iff] at read
      obtain ⟨items, _, keyframes, hkeyframes, url, _, radius, hradius, kind, _, same⟩ := read
      cases same
      simp [isFinite, Keyframe.inverts.all_of_mapM hkeyframes, Json.isFinite_of_number? hradius]
    · cases read

end Motion

namespace PathwayPoint

def isFinite (p : PathwayPoint) : Bool := p.position.isFinite && p.size.isFinite

theorem inverts : Inverts toJson ofJson isFinite where
  isSound p finite := by
    simp only [isFinite, Point.isFinite, position, Bool.and_eq_true] at finite
    simp [toJson, Json.isSound, Json.isSoundFields, finite]
  decode_encode p finite := by
    simp only [isFinite, Point.isFinite, position, Bool.and_eq_true] at finite
    simp [ofJson, toJson, Json.members, Json.field, Json.string?, finite]
  finite_of_decode json p read := by
    unfold ofJson at read
    split at read
    · simp only [Option.pure_def, Option.bind_eq_bind, Option.bind_eq_some_iff] at read
      obtain ⟨x, hx, y, hy, size, hsize, astId, _, same⟩ := read
      cases same
      have ground : (0 : Float).isFinite = true := by decide
      simp [isFinite, Point.isFinite, position, Json.isFinite_of_number? hx,
        Json.isFinite_of_number? hy, Json.isFinite_of_number? hsize, ground]
    · cases read

end PathwayPoint

namespace Pathway

def isFinite (p : Pathway) : Bool := p.points.all PathwayPoint.isFinite

theorem inverts : Inverts toJson ofJson isFinite where
  isSound p finite := by
    have sound := PathwayPoint.inverts.isSound_map finite
    simp [toJson, Json.isSound.eq_def (.obj _), Json.isSoundFields, sound,
      Json.isSound.eq_def (.str _)]
  decode_encode p finite := by
    have read := PathwayPoint.inverts.mapM_encode finite
    simp [ofJson, toJson, Json.members, Json.field, Json.string?, Json.items?, read]
  finite_of_decode json p read := by
    unfold ofJson at read
    split at read
    · simp only [Option.pure_def, Option.bind_eq_bind, Option.bind_eq_some_iff] at read
      obtain ⟨items, _, points, hpoints, kind, _, same⟩ := read
      cases same
      exact PathwayPoint.inverts.all_of_mapM hpoints
    · cases read

end Pathway

namespace Payload

mutual

def isFinite : Payload → Bool
  | nil | bool _ | text _ => true
  | number x => x.isFinite
  | list items => areFinite items
  | motion m => m.isFinite
  | pathway p => p.isFinite
  | point p => p.isFinite

def areFinite : List Payload → Bool
  | [] => true
  | item :: rest => isFinite item && areFinite rest

end

theorem areFinite_eq_all (items : List Payload) : areFinite items = items.all isFinite := by
  induction items with
  | nil => rfl
  | cons item rest ih => rw [areFinite, ih, List.all_cons]

theorem toJsonItems_eq_map (items : List Payload) : toJsonItems items = items.map toJson := by
  induction items with
  | nil => rfl
  | cons item rest ih => rw [toJsonItems, ih, List.map_cons]

inductive Kind where
  | nil
  | bool
  | number
  | text
  | list
  | motion
  | pathway
  | point
  deriving DecidableEq

def Kind.tried : List Kind := [nil, bool, number, text, list, motion, pathway, point]

def kind : Payload → Kind
  | nil => .nil
  | bool _ => .bool
  | number _ => .number
  | text _ => .text
  | list _ => .list
  | motion _ => .motion
  | pathway _ => .pathway
  | point _ => .point

def readAs (json : Json) : Kind → Option Payload
  | .nil => match json with
    | .null => some nil
    | _ => none
  | .bool => match json with
    | .bool b => some (bool b)
    | _ => none
  | .number => json.number?.map number
  | .text => json.string?.map text
  | .list => json.items?.bind fun items => (decodeItems items).map list
  | .motion => (Motion.ofJson json).map motion
  | .pathway => (Pathway.ofJson json).map pathway
  | .point => (Point.ofJson json).map point

theorem decode_eq_findSome? {json : Json} (sound : json.isSound = true) :
    decode json = Kind.tried.findSome? (readAs json) := by
  cases json with
  | null => rfl
  | bool b => rfl
  | int n =>
    simp only [Json.isSound] at sound
    simp [decode, Kind.tried, List.findSome?_cons, readAs, Json.number?, sound]
  | float x =>
    simp only [Json.isSound] at sound
    simp [decode, Kind.tried, List.findSome?_cons, readAs, sound]
  | str s => rfl
  | arr items =>
    simp only [decode, ofRecord, Kind.tried, readAs, List.findSome?, Json.number?, Json.string?,
      Json.items?, Option.map_none, Option.bind_some]
    cases (decodeItems items).map list with
    | some p => rfl
    | none =>
      cases Motion.ofJson (.arr items) with
      | some m => rfl
      | none =>
        cases Pathway.ofJson (.arr items) with
        | some p => rfl
        | none => cases Point.ofJson (.arr items) <;> rfl
  | obj fields =>
    simp only [decode, ofRecord, Kind.tried, readAs, List.findSome?, Json.number?, Json.string?,
      Json.items?, Option.map_none, Option.bind_none]
    cases Motion.ofJson (.obj fields) with
    | some m => rfl
    | none =>
      cases Pathway.ofJson (.obj fields) with
      | some p => rfl
      | none => cases Point.ofJson (.obj fields) <;> rfl
  | flawed before => cases sound

/-- Nothing that is written is read as a kind that is tried before its own. -/
theorem readAs_of_earlier (p : Payload) :
    ∀ k ∈ Kind.tried.takeWhile (· != p.kind), readAs p.toJson k = none := by
  cases p with
  | nil => simp [kind, Kind.tried]
  | bool b => simp [kind, Kind.tried, readAs, toJson]
  | number x => simp [kind, Kind.tried, readAs, toJson]
  | text s => simp [kind, Kind.tried, readAs, toJson, Json.number?]
  | list items => simp [kind, Kind.tried, readAs, toJson, Json.number?, Json.string?]
  | motion m => simp [kind, Kind.tried, readAs, toJson, Motion.toJson, Json.number?, Json.string?,
      Json.items?]
  | pathway p => simp [kind, Kind.tried, readAs, toJson, Pathway.toJson, Json.number?,
      Json.string?, Json.items?, Motion.ofJson, Json.members, Json.field]
  | point p => simp [kind, Kind.tried, readAs, toJson, Point.toJson, Json.number?, Json.string?,
      Json.items?, Motion.ofJson, Pathway.ofJson, Json.members, Json.field]

theorem findSome?_tried {p : Payload} {f : Kind → Option Payload}
    (earlier : ∀ k ∈ Kind.tried.takeWhile (· != p.kind), f k = none) (own : f p.kind = some p) :
    Kind.tried.findSome? f = some p := by
  have split : ∃ later, Kind.tried = Kind.tried.takeWhile (· != p.kind) ++ p.kind :: later := by
    cases p <;> exact ⟨_, rfl⟩
  obtain ⟨later, split⟩ := split
  exact List.findSome?_eq_some_iff.mpr ⟨_, p.kind, later, split, own, earlier⟩

mutual

theorem isSound_toJson : ∀ p : Payload, p.isFinite = true → p.toJson.isSound = true
  | nil, _ | bool _, _ | text _, _ => by rfl
  | number _, finite => finite
  | list items, finite => isSoundItems_toJsonItems items finite
  | motion m, finite => Motion.inverts.isSound m finite
  | pathway p, finite => Pathway.inverts.isSound p finite
  | point p, finite => Point.inverts.isSound p finite

theorem isSoundItems_toJsonItems : ∀ items : List Payload, areFinite items = true →
    Json.isSoundItems (toJsonItems items) = true
  | [], _ => rfl
  | item :: rest, finite => by
    simp only [areFinite, Bool.and_eq_true] at finite
    simp only [toJsonItems, Json.isSoundItems, Bool.and_eq_true]
    exact ⟨isSound_toJson item finite.1, isSoundItems_toJsonItems rest finite.2⟩

end

theorem decode_of_readAs {p : Payload} (finite : p.isFinite = true)
    (own : readAs p.toJson p.kind = some p) : decode p.toJson = some p := by
  rw [decode_eq_findSome? (isSound_toJson p finite)]
  exact findSome?_tried (readAs_of_earlier p) own

mutual

theorem readAs_toJson : ∀ p : Payload, p.isFinite = true → readAs p.toJson p.kind = some p
  | nil, _ | bool _, _ | text _, _ => by rfl
  | number x, finite => by
    have read : (Json.float x).number? = some x := Json.number?_float finite
    simp [readAs, toJson, kind, read]
  | list items, finite => by
    have read := decodeItems_toJsonItems items finite
    simp [readAs, toJson, kind, Json.items?, read]
  | motion m, finite => by
    have read := Motion.inverts.decode_encode m finite
    simp [readAs, toJson, kind, read]
  | pathway p, finite => by
    have read := Pathway.inverts.decode_encode p finite
    simp [readAs, toJson, kind, read]
  | point p, finite => by
    have read := Point.inverts.decode_encode p finite
    simp [readAs, toJson, kind, read]

theorem decodeItems_toJsonItems : ∀ items : List Payload, areFinite items = true →
    decodeItems (toJsonItems items) = some items
  | [], _ => rfl
  | item :: rest, finite => by
    simp only [areFinite, Bool.and_eq_true] at finite
    have first := decode_of_readAs finite.1 (readAs_toJson item finite.1)
    have later := decodeItems_toJsonItems rest finite.2
    simp [toJsonItems, decodeItems, first, later]

end

theorem decode_toJson {p : Payload} (finite : p.isFinite = true) : decode p.toJson = some p :=
  decode_of_readAs finite (readAs_toJson p finite)

theorem decodeItems_map {items : List Payload} (finite : items.all isFinite = true) :
    decodeItems (items.map toJson) = some items := by
  rw [← toJsonItems_eq_map, decodeItems_toJsonItems items (areFinite_eq_all items ▸ finite)]

theorem isFinite_of_ofRecord {json : Json} {p : Payload} (read : ofRecord json = some p) :
    p.isFinite = true := by
  simp only [ofRecord, Option.orElse_eq_orElse, Option.orElse_eq_or, Option.or_eq_some_iff,
    Option.map_eq_some_iff]
    at read
  rcases read with ⟨m, read, rfl⟩ | ⟨_, ⟨p, read, rfl⟩ | ⟨_, p, read, rfl⟩⟩
  · exact Motion.inverts.finite_of_decode json m read
  · exact Pathway.inverts.finite_of_decode json p read
  · exact Point.inverts.finite_of_decode json p read

mutual

theorem isFinite_of_decode : ∀ (json : Json) (p : Payload), json.isSound = true →
    decode json = some p → p.isFinite = true
  | .null, p, _, read | .bool _, p, _, read | .str _, p, _, read => by cases read; rfl
  | .int n, p, sound, read | .float n, p, sound, read => by cases read; exact sound
  | .arr items, p, sound, read => by
    simp only [decode, Option.orElse_eq_orElse, Option.orElse_eq_or, Option.or_eq_some_iff,
      Option.map_eq_some_iff] at read
    rcases read with ⟨ps, read, rfl⟩ | ⟨_, read⟩
    · exact areFinite_of_decodeItems items ps sound read
    · exact isFinite_of_ofRecord read
  | .obj fields, p, _, read => isFinite_of_ofRecord read
  | .flawed _, p, sound, _ => by cases sound

theorem areFinite_of_decodeItems : ∀ (items : List Json) (ps : List Payload),
    Json.isSoundItems items = true → decodeItems items = some ps → areFinite ps = true
  | [], ps, _, read => by cases read; rfl
  | item :: rest, ps, sound, read => by
    simp only [Json.isSoundItems, Bool.and_eq_true] at sound
    simp only [decodeItems, Option.pure_def, Option.bind_eq_bind, Option.bind_eq_some_iff] at read
    obtain ⟨p, first, ps, later, same⟩ := read
    cases same
    simp only [areFinite, Bool.and_eq_true]
    exact ⟨isFinite_of_decode item p sound.1 first, areFinite_of_decodeItems rest ps sound.2 later⟩

end

theorem inverts : Inverts toJson ofJson isFinite where
  isSound := isSound_toJson
  decode_encode p finite := by rw [ofJson, if_pos (isSound_toJson p finite), decode_toJson finite]
  finite_of_decode json p read := by
    unfold ofJson at read
    split at read
    next sound => exact isFinite_of_decode json p sound read
    next => cases read

/-- A payload with finite numbers is written as nothing that a kind tried before its own can read,
and comes back as it was. Whatever is read has finite numbers, and so comes back as well. -/
theorem read_written :
    (∀ json : Json, json.isSound = true → ofJson json = Kind.tried.findSome? (readAs json)) ∧
      (∀ p : Payload, p.isFinite = true → ofJson p.toJson = some p ∧
        ∀ k ∈ Kind.tried.takeWhile (· != p.kind), readAs p.toJson k = none) ∧
      ∀ (json : Json) (p : Payload), ofJson json = some p →
        p.isFinite = true ∧ ofJson p.toJson = some p := by
  refine ⟨fun json sound => ?_, fun p finite => ?_, fun json p read => ?_⟩
  · rw [ofJson, if_pos sound, decode_eq_findSome? sound]
  · exact ⟨inverts.decode_encode p finite, readAs_of_earlier p⟩
  · exact ⟨inverts.finite_of_decode json p read, inverts.reread read⟩

def assorted : Payload := .list [.nil, .bool false, .number (-0.5), .text "street",
  .list [.number 0, .list []],
  .motion ⟨#[⟨0, 0, 0, 0, "start", 1.5⟩, ⟨3, 0, 0, 2, "walk", 1.5⟩], none, 1, "pedestrian"⟩,
  .motion ⟨#[], some "models/car", 2, "car"⟩,
  .pathway ⟨[⟨0, 1, 2, "paved"⟩], "street"⟩, .point ⟨1, 2, 3⟩]

def plain : Json := .arr [
  .arr [.obj [("size", .int 2), ("astId", .str "paved"), ("x", .int 0), ("y", .float 1.5)]],
  .str "street"]

theorem assorted_read_written :
    assorted.isFinite = true ∧ ofJson assorted.toJson = some assorted ∧
      ∃ p : Payload, p.kind = .pathway ∧ ofJson plain = some p ∧ ofJson p.toJson = some p := by
  have finite : assorted.isFinite = true := by decide +kernel
  have plainly : (ofJson plain).map kind = some .pathway := by decide +kernel
  obtain ⟨p, read, isPathway⟩ := Option.map_eq_some_iff.mp plainly
  refine ⟨finite, (read_written.2.1 assorted finite).1, p, isPathway, read, ?_⟩
  exact (read_written.2.2 plain p read).2

end Payload
end ProceduralScene
