import ProceduralScene.Queue.Basic

/-! Where ids come from. An entry descends from a root by a path of ordinals, and its id spells
the ordinals one after another without a mark between them. The paths of all entries are apart
from each other, since a part of an entry takes its place; the ids are so only as long as they
can be read back. -/
namespace ProceduralScene

abbrev Path := List Nat

namespace Path

def digits (path : Path) : List Char := path.flatMap (Nat.toDigits 10)

def id (path : Path) : String := .ofList path.digits

theorem id_root (ordinal : Nat) : id [ordinal] = toString ordinal := by
  rw [id, digits, List.flatMap_singleton, Nat.toString_eq_ofList_toDigits]

theorem id_append (path : Path) (ordinal : Nat) :
    id (path ++ [ordinal]) = path.id ++ toString ordinal := by
  rw [id, digits, List.flatMap_append, List.flatMap_singleton, String.ofList_append,
    Nat.toString_eq_ofList_toDigits]
  rfl

theorem toDigits_inj {a b : Nat} (same : Nat.toDigits 10 a = Nat.toDigits 10 b) : a = b :=
  calc
    a = Nat.ofDigitChars 10 (Nat.toDigits 10 a) 0 := Nat.ofDigitChars_ten_toDigits.symm
    _ = Nat.ofDigitChars 10 (Nat.toDigits 10 b) 0 := by rw [same]
    _ = b := Nat.ofDigitChars_ten_toDigits

theorem digitChar_inj {a b : Nat} (ha : a < 10) (hb : b < 10)
    (same : a.digitChar = b.digitChar) : a = b := by
  apply toDigits_inj
  rw [Nat.toDigits_of_lt_base ha, Nat.toDigits_of_lt_base hb, same]

theorem digits_of_single {path : Path} (single : ∀ n ∈ path, n < 10) :
    path.digits = path.map Nat.digitChar := by
  induction path with
  | nil => rfl
  | cons n path ih =>
    rw [digits, List.flatMap_cons, Nat.toDigits_of_lt_base (single n List.mem_cons_self)]
    exact congrArg (n.digitChar :: ·) (ih fun m member => single m (List.mem_cons_of_mem _ member))

theorem prefix_of_digits {a b : Path} (ha : ∀ n ∈ a, n < 10) (hb : ∀ n ∈ b, n < 10)
    (spelled : a.digits <+: b.digits) : a <+: b := by
  rw [digits_of_single ha, digits_of_single hb] at spelled
  induction a generalizing b with
  | nil => exact List.nil_prefix
  | cons n a ih =>
    cases b with
    | nil => cases List.prefix_nil.mp spelled
    | cons m b =>
      obtain ⟨first, rest⟩ := List.cons_prefix_cons.mp spelled
      refine List.cons_prefix_cons.mpr ⟨?_, ?_⟩
      · exact digitChar_inj (ha n List.mem_cons_self) (hb m List.mem_cons_self) first
      · exact ih (fun k member => ha k (List.mem_cons_of_mem _ member))
          (fun k member => hb k (List.mem_cons_of_mem _ member)) rest

theorem digits_inj {a b : Path} (ha : ∀ n ∈ a, n < 10) (hb : ∀ n ∈ b, n < 10)
    (same : a.digits = b.digits) : a = b := by
  refine (prefix_of_digits ha hb (same ▸ List.prefix_refl _)).eq_of_length ?_
  rw [digits_of_single ha, digits_of_single hb] at same
  simpa only [List.length_map] using congrArg List.length same

def Apart (a b : Path) : Prop := ¬a <+: b ∧ ¬b <+: a

theorem Apart.symm {a b : Path} (apart : Apart a b) : Apart b a := ⟨apart.2, apart.1⟩

theorem apart_roots {a b : Nat} (other : a ≠ b) : Apart [a] [b] := by
  constructor
  · rintro ⟨rest, same⟩
    exact other (List.cons.inj same).1
  · rintro ⟨rest, same⟩
    exact other (List.cons.inj same).1.symm

theorem Apart.append {a b : Path} (apart : Apart a b) (ordinal : Nat) :
    Apart (a ++ [ordinal]) b := by
  constructor
  · intro below
    exact apart.1 ((List.prefix_append a _).trans below)
  · intro above
    rcases List.prefix_concat_iff.mp above with same | above
    · exact apart.1 (same ▸ List.prefix_append a _)
    · exact apart.2 above

theorem apart_parts (path : Path) {a b : Nat} (other : a ≠ b) :
    Apart (path ++ [a]) (path ++ [b]) := by
  constructor
  · rintro ⟨rest, same⟩
    rw [List.append_assoc] at same
    exact other (List.cons.inj (List.append_cancel_left same)).1
  · rintro ⟨rest, same⟩
    rw [List.append_assoc] at same
    exact other (List.cons.inj (List.append_cancel_left same)).1.symm

/-- A path below one of some descriptions, through parts of which there are at most `width`. -/
def Within (descriptions width : Nat) (path : Path) : Prop :=
  ∃ root rest, path = root :: rest ∧ root < descriptions ∧ ∀ n ∈ rest, n < width

theorem Within.append {descriptions width : Nat} {path : Path}
    (within : path.Within descriptions width) {ordinal : Nat} (part : ordinal < width) :
    Within descriptions width (path ++ [ordinal]) := by
  obtain ⟨root, rest, rfl, known, narrow⟩ := within
  refine ⟨root, rest ++ [ordinal], rfl, known, fun n member => ?_⟩
  rcases List.mem_append.mp member with member | member
  · exact narrow n member
  · rw [List.mem_singleton.mp member]
    exact part

theorem Within.single {descriptions width : Nat} (few : descriptions ≤ 10) (tight : width ≤ 10)
    {path : Path} (within : path.Within descriptions width) : ∀ n ∈ path, n < 10 := by
  obtain ⟨root, rest, rfl, known, narrow⟩ := within
  intro n member
  rcases List.mem_cons.mp member with rfl | member
  · omega
  · have := narrow n member
    omega

/-- Whether ids can be read back: if there is nothing to split, or if every ordinal is a single
digit. -/
def Readable (descriptions width : Nat) : Prop :=
  descriptions = 0 ∨ width = 0 ∨ descriptions ≤ 10 ∧ width ≤ 10

theorem Within.id_inj {descriptions width : Nat} (readable : Readable descriptions width)
    {a b : Path} (ha : a.Within descriptions width) (hb : b.Within descriptions width)
    (same : a.id = b.id) : a = b := by
  have spelled : a.digits = b.digits := String.ofList_injective same
  rcases readable with none | none | ⟨few, tight⟩
  · obtain ⟨root, rest, rfl, known, narrow⟩ := ha
    omega
  · obtain ⟨root, rest, rfl, known, narrow⟩ := ha
    obtain ⟨root', rest', rfl, known', narrow'⟩ := hb
    have alone (path : Path) (narrow : ∀ n ∈ path, n < width) : path = [] := by
      rw [List.eq_nil_iff_forall_not_mem]
      intro n member
      have := narrow n member
      omega
    rw [alone rest narrow, alone rest' narrow'] at spelled ⊢
    simp only [digits, List.flatMap_singleton] at spelled
    rw [toDigits_inj spelled]
  · exact digits_inj (ha.single few tight) (hb.single few tight) spelled

end Path

/-- The paths that some ids spell, all apart from each other. -/
structure Chart (descriptions width : Nat) (ids : List String) (paths : List Path) : Prop where
  ids : ids.Perm (paths.map Path.id)
  apart : paths.Pairwise Path.Apart
  within : ∀ path ∈ paths, path.Within descriptions width

namespace Chart

variable {descriptions width : Nat} {ids : List String} {paths : List Path}

theorem perm (chart : Chart descriptions width ids paths) {ids' : List String}
    (same : ids'.Perm ids) : Chart descriptions width ids' paths :=
  { chart with ids := same.trans chart.ids }

theorem first {id : String} (chart : Chart descriptions width (id :: ids) paths) :
    ∃ (path : Path) (others : List Path), id = path.id ∧ path.Within descriptions width ∧
      (∀ other ∈ others, path.Apart other) ∧ Chart descriptions width ids others := by
  have member : id ∈ paths.map Path.id := chart.ids.mem_iff.mp List.mem_cons_self
  obtain ⟨path, inside, rfl⟩ := List.mem_map.mp member
  obtain ⟨before, after, rfl⟩ := List.append_of_mem inside
  have front : (before ++ path :: after).Perm (path :: (before ++ after)) := List.perm_middle
  have apart := (front.pairwise_iff fun apart => Path.Apart.symm apart).mp chart.apart
  obtain ⟨apart, rest⟩ := List.pairwise_cons.mp apart
  refine ⟨path, before ++ after, rfl, chart.within path inside, apart, ?_, rest, ?_⟩
  · exact (List.perm_cons _).mp (chart.ids.trans (front.map Path.id))
  · exact fun other member => chart.within other (front.mem_iff.mpr (List.mem_cons_of_mem _ member))

theorem split {id : String} (chart : Chart descriptions width (id :: ids) paths) {parts : Nat}
    (narrow : parts ≤ width) :
    ∃ paths', Chart descriptions width
      ((List.range parts).map (fun ordinal => id ++ toString ordinal) ++ ids) paths' := by
  obtain ⟨path, others, rfl, within, apart, rest⟩ := chart.first
  refine ⟨(List.range parts).map (fun ordinal => path ++ [ordinal]) ++ others, ?_, ?_, ?_⟩
  · rw [List.map_append, List.map_map]
    simp only [Function.comp_def, Path.id_append]
    exact rest.ids.append_left _
  · rw [List.pairwise_append]
    refine ⟨?_, rest.apart, fun part member other outside => ?_⟩
    · rw [List.pairwise_map]
      exact List.nodup_range.imp fun other => Path.apart_parts path other
    · obtain ⟨ordinal, _, rfl⟩ := List.mem_map.mp member
      exact (apart other outside).append ordinal
  · intro part member
    rcases List.mem_append.mp member with member | member
    · obtain ⟨ordinal, inside, rfl⟩ := List.mem_map.mp member
      have := List.mem_range.mp inside
      exact within.append (by omega)
    · exact rest.within part member

theorem nil (descriptions width : Nat) : Chart descriptions width [] [] :=
  ⟨.nil, .nil, by simp⟩

theorem root (chart : Chart descriptions width ids paths) {ordinal : Nat}
    (known : ordinal < descriptions)
    (roots : ∀ path ∈ paths, ∃ root, path = [root] ∧ root < ordinal) :
    Chart descriptions width (toString ordinal :: ids) ([ordinal] :: paths) where
  ids := by
    rw [List.map_cons, Path.id_root]
    exact chart.ids.cons _
  apart := by
    refine List.pairwise_cons.mpr ⟨fun path member => ?_, chart.apart⟩
    obtain ⟨root, rfl, earlier⟩ := roots path member
    exact Path.apart_roots (by omega)
  within := by
    intro path member
    rcases List.mem_cons.mp member with rfl | member
    · exact ⟨ordinal, [], rfl, known, by simp⟩
    · exact chart.within path member

theorem drop {id : String} (chart : Chart descriptions width (id :: ids) paths) :
    ∃ paths', Chart descriptions width ids paths' := by
  obtain ⟨_, others, _, _, _, rest⟩ := chart.first
  exact ⟨others, rest⟩

theorem nodup (chart : Chart descriptions width ids paths)
    (readable : Path.Readable descriptions width) : ids.Nodup := by
  rw [chart.ids.nodup_iff, List.nodup_iff_pairwise_ne, List.pairwise_map]
  refine chart.apart.imp_of_mem fun {a b} ha hb apart same => ?_
  have equal := Path.Within.id_inj readable (chart.within a ha) (chart.within b hb) same
  exact apart.1 (equal ▸ List.prefix_refl a)

/-- With ordinals of one digit, no id starts with another one. -/
theorem unrelated (chart : Chart descriptions width ids paths) (few : descriptions ≤ 10)
    (tight : width ≤ 10) :
    ids.Pairwise fun a b => ¬a.toList <+: b.toList ∧ ¬b.toList <+: a.toList := by
  rw [chart.ids.pairwise_iff And.symm, List.pairwise_map]
  refine chart.apart.imp_of_mem fun {a b} ha hb apart => ?_
  have single := (chart.within a ha).single few tight
  have single' := (chart.within b hb).single few tight
  rw [Path.id, Path.id, String.toList_ofList, String.toList_ofList]
  exact ⟨fun spelled => apart.1 (Path.prefix_of_digits single single' spelled),
    fun spelled => apart.2 (Path.prefix_of_digits single' single spelled)⟩

end Chart
end ProceduralScene
