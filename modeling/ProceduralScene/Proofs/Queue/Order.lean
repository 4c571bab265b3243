import ProceduralScene.Queue.Basic

/-! The order of the slots. Sequence numbers make it strict, so an entry has one place among
those in flight; walking along the slots from the front finds that place, and so does a binary
search in the slots kept back to front. -/
namespace ProceduralScene

namespace Progress

theorem lt_iff {a b : Progress} : a < b ↔ a.rank.toNat < b.rank.toNat :=
  UInt64.lt_iff_toNat_lt

theorem le_iff {a b : Progress} : a ≤ b ↔ a.rank.toNat ≤ b.rank.toNat :=
  UInt64.le_iff_toNat_le

end Progress

namespace Slot

theorem before_iff {a b : Slot} :
    a.before b = true ↔
      a.progress.rank.toNat < b.progress.rank.toNat ∨
        a.progress.rank.toNat ≤ b.progress.rank.toNat ∧ a.sequence < b.sequence := by
  simp only [before, Bool.or_eq_true, Bool.and_eq_true, decide_eq_true_eq, Progress.lt_iff,
    Progress.le_iff]

theorem before_trans {a b c : Slot} (ab : a.before b = true) (bc : b.before c = true) :
    a.before c = true := by
  rw [before_iff] at ab bc ⊢
  omega

theorem progress_le_of_before {a b : Slot} (ab : a.before b = true) :
    a.progress ≤ b.progress := by
  rw [before_iff] at ab
  rw [Progress.le_iff]
  omega

theorem before_of_not_before {a b : Slot} (newer : b.sequence < a.sequence)
    (behind : ¬a.before b = true) : b.before a = true := by
  rw [before_iff] at behind ⊢
  omega

end Slot

abbrev Ordered (slots : List Slot) : Prop := slots.Pairwise fun a b => a.before b = true

theorem ordered_insertSlot {slot : Slot} {slots : List Slot} (ordered : Ordered slots)
    (newest : ∀ other ∈ slots, other.sequence < slot.sequence) :
    Ordered (insertSlot slot slots) := by
  induction slots with
  | nil => exact List.pairwise_singleton _ _
  | cons other rest ih =>
    obtain ⟨first, ordered'⟩ := List.pairwise_cons.mp ordered
    simp only [insertSlot]
    split
    next ahead =>
      refine List.pairwise_cons.mpr ⟨fun later member => ?_, ordered⟩
      rcases List.mem_cons.mp member with rfl | member
      · exact ahead
      · exact Slot.before_trans ahead (first later member)
    next behind =>
      refine List.pairwise_cons.mpr ⟨fun later member => ?_, ?_⟩
      · rcases List.mem_cons.mp ((perm_insertSlot slot rest).mem_iff.mp member) with rfl | member
        · exact Slot.before_of_not_before (newest other List.mem_cons_self) behind
        · exact first later member
      · exact ih ordered' fun later member => newest later (List.mem_cons_of_mem _ member)

theorem sublist_insertSlot (slot : Slot) (slots : List Slot) :
    slots.Sublist (insertSlot slot slots) := by
  induction slots with
  | nil => exact List.nil_sublist _
  | cons other rest ih =>
    rw [insertSlot]
    split
    · exact List.sublist_cons_self slot _
    · exact ih.cons_cons other

theorem insertSlot_append {slot : Slot} {ahead behind : List Slot}
    (before : ∀ other ∈ ahead, ¬slot.before other = true)
    (after : ∀ other ∈ behind, slot.before other = true) :
    insertSlot slot (ahead ++ behind) = ahead ++ slot :: behind := by
  induction ahead with
  | nil =>
    cases behind with
    | nil => rfl
    | cons other rest => exact if_pos (after other List.mem_cons_self)
  | cons other rest ih =>
    rw [List.cons_append, insertSlot, if_neg (before other List.mem_cons_self),
      ih fun other member => before other (List.mem_cons_of_mem _ member)]
    rfl

theorem Ordered.divided (slot : Slot) {slots : List Slot} (ordered : Ordered slots) :
    ∃ ahead behind, slots = ahead ++ behind ∧ (∀ other ∈ ahead, ¬slot.before other = true) ∧
      ∀ other ∈ behind, slot.before other = true := by
  induction slots with
  | nil => exact ⟨[], [], rfl, by simp, by simp⟩
  | cons other rest ih =>
    obtain ⟨first, ordered⟩ := List.pairwise_cons.mp ordered
    by_cases ahead : slot.before other = true
    · refine ⟨[], other :: rest, rfl, by simp, fun later member => ?_⟩
      rcases List.mem_cons.mp member with rfl | member
      · exact ahead
      · exact Slot.before_trans ahead (first later member)
    · obtain ⟨earlier, later, rfl, before, after⟩ := ih ordered
      refine ⟨other :: earlier, later, rfl, fun some member => ?_, after⟩
      rcases List.mem_cons.mp member with rfl | member
      · exact ahead
      · exact before some member

/-- The first index between two bounds at which a test fails, by halving. The test must hold up
to some index and fail from there on. -/
def partitionPoint (test : α → Bool) (items : Array α) (low high : Nat) : Nat :=
  if low < high then
    if items[(low + high) / 2]?.any test then
      partitionPoint test items ((low + high) / 2 + 1) high
    else partitionPoint test items low ((low + high) / 2)
  else low
termination_by high - low

theorem partitionPoint_eq {test : α → Bool} {items : Array α} {passing failing : List α}
    (split : items.toList = passing ++ failing) (pass : ∀ item ∈ passing, test item = true)
    (fail : ∀ item ∈ failing, ¬test item = true) (low high : Nat)
    (below : low ≤ passing.length) (above : passing.length ≤ high)
    (inside : high ≤ items.size) :
    partitionPoint test items low high = passing.length := by
  have tested (index : Nat) (short : index < items.size) :
      items[index]?.any test = true ↔ index < passing.length := by
    rw [Array.getElem?_toList.symm, split, List.getElem?_append]
    split
    next early =>
      rw [List.getElem?_eq_getElem early]
      simpa using ⟨fun _ => early, fun _ => pass _ (List.getElem_mem early)⟩
    next late =>
      have range : index - passing.length < failing.length := by
        have := congrArg List.length split
        simp only [Array.length_toList, List.length_append] at this
        omega
      rw [List.getElem?_eq_getElem range]
      simpa [late] using fail _ (List.getElem_mem range)
  -- the first failing index stays between the bounds while they close in on it
  fun_induction partitionPoint test items low high with
  | case1 low high running passed ih =>
    rw [tested _ (by omega)] at passed
    exact ih (by omega) above inside
  | case2 low high running failed ih =>
    rw [tested _ (by omega)] at failed
    exact ih below (by omega) (by omega)
  | case3 low high ended => omega

/-- Insertion into the slots kept back to front, at the index that a binary search finds. -/
def insertSearched (slot : Slot) (slots : List Slot) : List Slot :=
  let reversed := slots.reverse
  (reversed.insertIdx
    (partitionPoint (fun other => slot.before other) reversed.toArray 0 reversed.length)
    slot).reverse

theorem insertIdx_between (item : α) (first last : List α) :
    (first ++ last).insertIdx first.length item = first ++ item :: last := by
  induction first with
  | nil => exact List.insertIdx_zero
  | cons other rest ih =>
    rw [List.cons_append, List.length_cons, List.insertIdx_succ_cons, ih]
    rfl

theorem insertSearched_eq {slot : Slot} {slots : List Slot} (ordered : Ordered slots) :
    insertSearched slot slots = insertSlot slot slots := by
  obtain ⟨ahead, behind, rfl, before, after⟩ := ordered.divided slot
  have found : partitionPoint (fun other => slot.before other) (ahead ++ behind).reverse.toArray 0
      (ahead ++ behind).reverse.length = behind.reverse.length := by
    refine partitionPoint_eq List.reverse_append ?_ ?_ 0 _ (Nat.zero_le _) ?_ ?_
    · exact fun other member => after other (List.mem_reverse.mp member)
    · exact fun other member => before other (List.mem_reverse.mp member)
    · simp
    · simp
  rw [insertSlot_append before after, insertSearched, found, List.reverse_append,
    insertIdx_between]
  simp

end ProceduralScene
