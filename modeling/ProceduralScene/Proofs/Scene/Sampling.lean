import ProceduralScene.Proofs.Binary64.RunningSum
import ProceduralScene.Proofs.Scene.Network

/-! Points drawn on a network. Counting down from the number of segments and looking one up at an
index are safe only on a network that has segments, and a network is built of nothing else; so
sampling always gives as many points as are asked for, and asking for more only adds to them. -/
namespace ProceduralScene

open Binary64

theorem Binary64.truncateNat_le (limit : Nat) (x : Float) : truncateNat limit x ≤ limit := by
  unfold truncateNat
  split_ifs
  · exact Nat.zero_le limit
  · exact Nat.zero_le limit
  · exact le_rfl
  · exact Nat.min_le_left _ _

namespace Network

def reached? (target covered : Float) : List Segment → Option Segment
  | [] => none
  | segment :: rest =>
    if target ≤ covered + segment.length then some segment
    else reached? target (covered + segment.length) rest

/-- The segment for a draw, where counting below zero and looking past the end fail. -/
def pick? (segments : List Segment) (total draw : Float) : Option Segment := do
  let last ← segments.length.ppred
  if total ≤ 0 then segments[truncateNat last (draw * segments.length.toFloat)]?
  else (reached? (draw * total) 0 segments).or segments[last]?

def drawn (key : String) (index : Nat) (seed : UInt32) : Float :=
  Draw.unit (Draw.hash53 seed (key ++ toString index))

def sample? (segments : List Segment) (total : Float) (key : String) (amount : Nat) :
    Option (List Point) :=
  (List.range amount).mapM fun index => do
    let segment ← pick? segments total (drawn key index 1)
    return segment.pointAt (drawn key index 2) (drawn key index 3 - 0.5)

theorem reach_lands (target covered : Float) (segment : Segment) (rest : List Segment) :
    ∃ i, (segment :: rest)[i]? = some (reach target covered segment rest) ∧
      Lands covered target ((segment :: rest).map Segment.length) i := by
  induction rest generalizing covered segment with
  | nil => exact ⟨0, rfl, .single⟩
  | cons next rest ih =>
    rw [reach]
    split_ifs with reached
    · exact ⟨0, rfl, .here reached⟩
    · obtain ⟨i, found, lands⟩ := ih (covered + segment.length) next
      exact ⟨i + 1, found, .later reached lands⟩

theorem reached?_or (target covered : Float) (segment : Segment) (rest : List Segment) :
    (reached? target covered (segment :: rest)).or (segment :: rest)[rest.length]? =
      some (reach target covered segment rest) := by
  induction rest generalizing covered segment with
  | nil =>
    rw [reached?, reached?]
    split_ifs <;> rfl
  | cons next rest ih =>
    rw [reached?, reach]
    split_ifs with reached
    · rfl
    · exact ih (covered + segment.length) next

theorem pick_even {n : Network} (flat : n.totalLength ≤ 0) (draw : Float) :
    n.segments[truncateNat (n.segments.length - 1) (draw * n.segments.length.toFloat)]? =
      some (n.pick draw) := by
  have inhabited := List.length_pos_iff.mpr n.inhabited
  have inside : truncateNat (n.segments.length - 1) (draw * n.segments.length.toFloat) <
      n.segments.length := by
    have := truncateNat_le (n.segments.length - 1) (draw * n.segments.length.toFloat)
    omega
  simp only [pick, if_pos flat, List.getElem?_eq_getElem inside, Option.getD_some]

theorem pick_reach {n : Network} (long : ¬n.totalLength ≤ 0) (draw : Float) :
    ∃ first rest, n.segments = first :: rest ∧
      n.pick draw = reach (draw * n.totalLength) 0 first rest := by
  obtain ⟨kind, segments, total, inhabited⟩ := n
  cases segments with
  | nil => exact absurd rfl inhabited
  | cons first rest =>
    rw [pick, if_neg long]
    exact ⟨first, rest, rfl, rfl⟩

theorem pick_lands {n : Network} (long : ¬n.totalLength ≤ 0) (draw : Float) :
    ∃ i, n.segments[i]? = some (n.pick draw) ∧
      Lands 0 (draw * n.totalLength) (n.segments.map Segment.length) i := by
  obtain ⟨first, rest, parts, picked⟩ := pick_reach long draw
  rw [parts, picked]
  exact reach_lands _ _ first rest

theorem pick?_eq (n : Network) (draw : Float) :
    pick? n.segments n.totalLength draw = some (n.pick draw) := by
  have last : n.segments.length.ppred = some (n.segments.length - 1) :=
    Nat.ppred_eq_pred (List.length_pos_iff.mpr n.inhabited)
  rw [pick?, last, Option.bind_eq_bind, Option.bind_some]
  split_ifs with flat
  · exact pick_even flat draw
  · obtain ⟨first, rest, parts, picked⟩ := pick_reach flat draw
    rw [parts, picked]
    exact reached?_or _ _ first rest

/-! Without segments there is nothing to count down from. -/

example (total draw : Float) : pick? [] total draw = none := rfl

theorem sample?_eq (n : Network) (key : String) (amount : Nat) :
    sample? n.segments n.totalLength key amount = some (n.sample key amount) := by
  simp only [sample?, pick?_eq]
  exact List.mapM_pure

theorem getElem?_sample (n : Network) (key : String) {amount index : Nat} (asked : index < amount) :
    (n.sample key amount)[index]? =
      some ((n.pick (drawn key index 1)).pointAt (drawn key index 2) (drawn key index 3 - 0.5)) := by
  rw [sample, List.getElem?_map, List.getElem?_range asked]
  rfl

theorem sample_prefix (n : Network) (key : String) {amount more : Nat} (le : amount ≤ more) :
    n.sample key amount <+: n.sample key more := by
  have fewer : List.range amount = (List.range more).take amount := by
    rw [List.take_range, Nat.min_eq_left le]
  rw [sample, fewer]
  exact (List.take_prefix _ _).map _

/-- What sampling the network of some finished pathways comes to: a point is of the segment where
the running length reaches the share of the total that is drawn, or of the last segment; without a
length it is of a segment at an index that is drawn. -/
structure Samples (kind : String) (entries : List Entry) (n : Network) (key : String)
    (amount : Nat) : Prop where
  collects : Collects kind entries (some n)
  inhabited : 0 < n.segments.length
  safe : sample? n.segments n.totalLength key amount = some (n.sample key amount)
  count : (n.sample key amount).length = amount
  weighted : ¬n.totalLength ≤ 0 → ∀ index < amount, ∃ i s,
    Lands 0 (drawn key index 1 * n.totalLength) (n.segments.map Segment.length) i ∧
      n.segments[i]? = some s ∧ (n.sample key amount)[index]? =
        some (s.pointAt (drawn key index 2) (drawn key index 3 - 0.5))
  even : n.totalLength ≤ 0 → ∀ index < amount, ∃ s,
    n.segments[truncateNat (n.segments.length - 1)
      (drawn key index 1 * n.segments.length.toFloat)]? = some s ∧
        (n.sample key amount)[index]? =
          some (s.pointAt (drawn key index 2) (drawn key index 3 - 0.5))
  extended : ∀ more, amount ≤ more → n.sample key amount <+: n.sample key more

def district : List Entry :=
  let street (points : List PathwayPoint) : Entry :=
    ⟨"0", ⟨.pathway ⟨points, "street"⟩, .empty⟩, "0", []⟩
  [street [⟨0, 0, 4, "a"⟩, ⟨10, 0, 4, "b"⟩, ⟨10, 10, 2, "c"⟩], street [], street [⟨3, 4, 2, "d"⟩]]

end Network
end ProceduralScene
