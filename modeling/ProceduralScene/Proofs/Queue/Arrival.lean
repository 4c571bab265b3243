import ProceduralScene.Proofs.Queue.Order

/-! Arrivals in the order of service: lowest progress first, and among equals first come first
served. This is what a stable sort computes, and there is only one such order. -/
namespace ProceduralScene

theorem filter_mergeSort {α : Type} {le : α → α → Bool}
    (trans : ∀ a b c, le a b = true → le b c = true → le a c = true)
    (total : ∀ a b, (le a b || le b a) = true) {items : List α} {kind : α → Bool}
    (ordered : (items.filter kind).Pairwise fun a b => le a b = true) :
    (items.mergeSort le).filter kind = items.filter kind := by
  have kept := (List.sublist_mergeSort trans total ordered List.filter_sublist).filter kind
  rw [List.filter_filter] at kept
  simp only [Bool.and_self] at kept
  have length := ((List.mergeSort_perm items le).filter kind).length_eq
  exact (kept.eq_of_length length.symm).symm

structure Arrival where
  progress : Progress
  entry : Entry

namespace Arrival

def notAfter (a b : Arrival) : Bool := a.progress ≤ b.progress

theorem notAfter_iff {a b : Arrival} : a.notAfter b = true ↔ a.progress ≤ b.progress :=
  decide_eq_true_iff

theorem notAfter_trans (a b c : Arrival) (ab : a.notAfter b = true) (bc : b.notAfter c = true) :
    a.notAfter c = true := by
  rw [notAfter_iff] at ab bc ⊢
  exact Progress.le_trans ab bc

theorem notAfter_total (a b : Arrival) : (a.notAfter b || b.notAfter a) = true := by
  rw [Bool.or_eq_true, notAfter_iff, notAfter_iff]
  exact Progress.le_total _ _

def ranks (rank : UInt64) (a : Arrival) : Bool := a.progress.rank == rank

theorem ranks_iff {rank : UInt64} {a : Arrival} : a.ranks rank = true ↔ a.progress.rank = rank :=
  beq_iff_eq

structure Stable (arrivals arranged : List Arrival) : Prop where
  ordered : arranged.Pairwise fun a b => a.notAfter b = true
  ties : ∀ rank, arranged.filter (ranks rank) = arrivals.filter (ranks rank)

theorem Stable.mem {arrivals arranged : List Arrival} (stable : Stable arrivals arranged)
    {a : Arrival} : a ∈ arranged ↔ a ∈ arrivals := by
  have same : a ∈ arranged.filter (ranks a.progress.rank) ↔
      a ∈ arrivals.filter (ranks a.progress.rank) := by
    rw [stable.ties]
  simpa only [List.mem_filter, ranks_iff, and_true] using same

theorem Stable.eq {first second : List Arrival} (stable : Stable first second)
    (ordered : first.Pairwise fun a b => a.notAfter b = true) : first = second := by
  induction first generalizing second with
  | nil =>
    cases second with
    | nil => rfl
    | cons b rest => exact absurd (stable.mem.mp List.mem_cons_self) List.not_mem_nil
  | cons a first ih =>
    obtain ⟨least, ordered'⟩ := List.pairwise_cons.mp ordered
    cases second with
    | nil => exact absurd (stable.mem.mpr List.mem_cons_self) List.not_mem_nil
    | cons b second =>
      obtain ⟨least', stable'⟩ := List.pairwise_cons.mp stable.ordered
      have ab : a.progress ≤ b.progress := by
        rcases List.mem_cons.mp (stable.mem.mp List.mem_cons_self) with rfl | member
        · exact Progress.le_refl _
        · exact notAfter_iff.mp (least b member)
      have ba : b.progress ≤ a.progress := by
        rcases List.mem_cons.mp (stable.mem.mpr List.mem_cons_self) with rfl | member
        · exact Progress.le_refl _
        · exact notAfter_iff.mp (least' a member)
      -- both heads are least, so they tie, and ties are in the order of arrival
      have rank : b.progress.rank = a.progress.rank := UInt64.le_antisymm ba ab
      have ties := stable.ties a.progress.rank
      rw [List.filter_cons_of_pos (ranks_iff.mpr rank),
        List.filter_cons_of_pos (ranks_iff.mpr rfl)] at ties
      obtain ⟨rfl, _⟩ := List.cons.inj ties
      have rest : Stable first second := by
        refine ⟨stable', fun other => ?_⟩
        have ties := stable.ties other
        simp only [List.filter_cons] at ties
        split at ties
        · exact (List.cons.inj ties).2
        · exact ties
      exact congrArg (b :: ·) (ih rest ordered')

theorem Stable.unique {arrivals first second : List Arrival} (stable : Stable arrivals first)
    (stable' : Stable arrivals second) : first = second := by
  have between : Stable first second :=
    ⟨stable'.ordered, fun rank => (stable'.ties rank).trans (stable.ties rank).symm⟩
  exact between.eq stable.ordered

theorem stable_mergeSort (arrivals : List Arrival) :
    Stable arrivals (arrivals.mergeSort notAfter) := by
  refine ⟨List.pairwise_mergeSort notAfter_trans notAfter_total arrivals, fun rank => ?_⟩
  refine filter_mergeSort notAfter_trans notAfter_total ?_
  refine List.pairwise_of_forall_mem_list fun a member b member' => ?_
  have ha := ranks_iff.mp (List.mem_filter.mp member).2
  have hb := ranks_iff.mp (List.mem_filter.mp member').2
  exact notAfter_iff.mpr (UInt64.le_of_eq (ha.trans hb.symm))

/-- Later arrivals can be put in order together with those that are in order already. -/
theorem Stable.resort {arrivals arranged : List Arrival} (stable : Stable arrivals arranged)
    (later : List Arrival) :
    Stable (arrivals ++ later) ((arranged ++ later).mergeSort notAfter) := by
  have sorted := stable_mergeSort (arranged ++ later)
  refine ⟨sorted.ordered, fun rank => ?_⟩
  rw [sorted.ties, List.filter_append, List.filter_append, stable.ties]

end Arrival
end ProceduralScene
