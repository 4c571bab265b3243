import ProceduralScene.Proofs.Queue.Arrival
import ProceduralScene.Proofs.Queue.Freshness

/-! The queue serves entries in the order of their progress, first come first served among equals.
A ledger only writes down what arrives: entries wait in the order of arrival, and an entry
without nodes retires at once. Whatever is done with a new queue, it says what its ledger says. -/
namespace ProceduralScene

/-- What has been pushed and not been popped, and what has retired. -/
structure Ledger where
  waiting : List Arrival := []
  retired : List Arrival := []

namespace Ledger

def push (ledger : Ledger) (entry : Entry) (progress : Progress) : Ledger :=
  if entry.pending = [] then { ledger with retired := ledger.retired ++ [⟨progress, entry⟩] }
  else { ledger with waiting := ledger.waiting ++ [⟨progress, entry⟩] }

def leads (ledger : Ledger) (a : Arrival) : Bool := ledger.waiting.all a.notAfter

/-- The earliest arrival of the least progress. -/
def next? (ledger : Ledger) : Option Arrival := ledger.waiting.find? ledger.leads

def pop (ledger : Ledger) : Ledger :=
  { ledger with waiting := ledger.waiting.eraseP ledger.leads }

theorem next?_of_split {ledger : Ledger} {earlier later : List Arrival} {a : Arrival}
    (waiting : ledger.waiting = earlier ++ a :: later)
    (above : ∀ b ∈ earlier, a.progress < b.progress)
    (notBelow : ∀ b ∈ later, a.progress ≤ b.progress) :
    ledger.next? = some a ∧ ledger.pop.waiting = earlier ++ later := by
  have leads : ledger.leads a = true := by
    rw [Ledger.leads, waiting, List.all_eq_true]
    intro b member
    rw [Arrival.notAfter_iff]
    rcases List.mem_append.mp member with member | member
    · have := above b member
      rw [Progress.lt_iff] at this
      rw [Progress.le_iff]
      omega
    · rcases List.mem_cons.mp member with rfl | member
      · exact Progress.le_refl _
      · exact notBelow b member
  have behind : ∀ b ∈ earlier, ¬ledger.leads b = true := by
    intro b member lead
    rw [Ledger.leads, waiting, List.all_eq_true] at lead
    have := lead a (List.mem_append_right _ List.mem_cons_self)
    rw [Arrival.notAfter_iff] at this
    exact Progress.not_le.mpr (above b member) this
  refine ⟨?_, ?_⟩
  · rw [next?, waiting, List.find?_append, List.find?_eq_none.mpr behind,
      List.find?_cons_of_pos leads]
    rfl
  · rw [pop, waiting, List.eraseP_append_right _ behind, List.eraseP_cons_of_pos leads]

def pushAll (ledger : Ledger) (arrivals : List Arrival) : Ledger :=
  arrivals.foldl (fun ledger a => ledger.push a.entry a.progress) ledger

theorem waiting_pushAll (ledger : Ledger) (arrivals : List Arrival) :
    (ledger.pushAll arrivals).waiting =
      ledger.waiting ++ arrivals.filter fun a => !a.entry.isTerminal := by
  induction arrivals generalizing ledger with
  | nil => simp [pushAll]
  | cons a rest ih =>
    refine (ih (ledger.push a.entry a.progress)).trans ?_
    by_cases done : a.entry.pending = [] <;> simp [push, Entry.isTerminal, done]

theorem retired_pushAll (ledger : Ledger) (arrivals : List Arrival) :
    (ledger.pushAll arrivals).retired =
      ledger.retired ++ arrivals.filter fun a => a.entry.isTerminal := by
  induction arrivals generalizing ledger with
  | nil => simp [pushAll]
  | cons a rest ih =>
    refine (ih (ledger.push a.entry a.progress)).trans ?_
    by_cases done : a.entry.pending = [] <;> simp [push, Entry.isTerminal, done]

end Ledger

namespace Queue

variable {α : Type}

/-- A call on a queue; readings of the cache may be of any kind. -/
inductive Use (α : Type) : Type 1 where
  | push (entry : Entry) (progress : Progress)
  | pop
  | cached {β : Type} (holds : Holds α β) (key : String) (accepts : Entry → Bool)
    (build : List Entry → Option β)

def use (q : Queue α) : Use α → Queue α
  | .push entry progress => q.push entry progress
  | .pop => (q.pop.map (·.2)).getD q
  | .cached _ key accepts build => (q.cached key accepts build).2

def used (calls : List (Use α)) : Queue α := calls.foldl use empty

end Queue

def Ledger.note {α : Type} (ledger : Ledger) : Queue.Use α → Ledger
  | .push entry progress => ledger.push entry progress
  | .pop => ledger.pop
  | .cached _ _ _ _ => ledger

def Ledger.of {α : Type} (calls : List (Queue.Use α)) : Ledger := calls.foldl note {}

def Slot.arrival (slot : Slot) : Arrival := ⟨slot.progress, slot.entry⟩

namespace Queue

variable {α : Type}

structure Keeps (q : Queue α) (ledger : Ledger) (numbered : List Slot) : Prop where
  waiting : ledger.waiting = numbered.map Slot.arrival
  increasing : numbered.Pairwise fun a b => a.sequence < b.sequence
  fresh : ∀ slot ∈ numbered, slot.sequence < q.sequence
  slots : q.slots.Perm numbered
  ordered : Ordered q.slots
  unfinished : ∀ a ∈ ledger.waiting, a.entry.pending ≠ []
  retired : q.retired = ledger.retired.map (·.entry)
  finished : ∀ a ∈ ledger.retired, a.entry.pending = []
  version : q.version = ledger.retired.length
  furthest : match q.furthest with
    | none => ledger.retired = []
    | some furthest => (∃ a ∈ ledger.retired, a.progress = furthest) ∧
        ∀ a ∈ ledger.retired, a.progress ≤ furthest

theorem keeps_empty : (empty : Queue α).Keeps {} [] where
  waiting := rfl
  increasing := .nil
  fresh := by simp
  slots := .nil
  ordered := .nil
  unfinished := by simp
  retired := rfl
  finished := by simp
  version := rfl
  furthest := rfl

variable {q r : Queue α} {ledger : Ledger} {numbered : List Slot}

theorem Keeps.retire (keeps : q.Keeps ledger numbered) {entry : Entry}
    (done : entry.pending = []) (progress : Progress) :
    (q.retire entry progress).Keeps (ledger.push entry progress) numbered := by
  rw [Ledger.push, if_pos done]
  refine { keeps with retired := ?_, finished := ?_, version := ?_, furthest := ?_ }
  · have := keeps.retired
    simp only [Queue.retired, Queue.retire] at this ⊢
    rw [Array.toList_push, List.map_append, this]
    rfl
  · intro a member
    rcases List.mem_append.mp member with member | member
    · exact keeps.finished a member
    · rw [List.mem_singleton.mp member]
      exact done
  · simp only [Queue.retire, keeps.version, List.length_append, List.length_singleton]
  · have known := keeps.furthest
    simp only [Queue.retire]
    cases found : q.furthest with
    | none =>
      rw [found] at known
      dsimp only at known ⊢
      rw [known]
      simp [Progress.le_refl]
    | some furthest =>
      rw [found] at known
      obtain ⟨⟨a, member, reached⟩, least⟩ := known
      dsimp only [Progress.furthest]
      split
      next further =>
        refine ⟨⟨⟨progress, entry⟩, by simp, rfl⟩, fun b member => ?_⟩
        rcases List.mem_append.mp member with member | member
        · have := least b member
          rw [Progress.le_iff] at this ⊢
          rw [Progress.lt_iff] at further
          omega
        · rw [List.mem_singleton.mp member]
          exact Progress.le_refl _
      next notFurther =>
        refine ⟨⟨a, List.mem_append_left _ member, reached⟩, fun b member => ?_⟩
        rcases List.mem_append.mp member with member | member
        · exact least b member
        · rw [List.mem_singleton.mp member]
          rw [Progress.lt_iff] at notFurther
          rw [Progress.le_iff]
          dsimp only
          omega

theorem Keeps.enter (keeps : q.Keeps ledger numbered) {entry : Entry}
    (working : entry.pending ≠ []) (progress : Progress) :
    (q.push entry progress).Keeps (ledger.push entry progress)
      (numbered ++ [⟨progress, q.sequence, entry⟩]) := by
  have pushed : q.push entry progress = { q with
      slots := insertSlot ⟨progress, q.sequence, entry⟩ q.slots
      sequence := q.sequence + 1 } := by
    rw [Queue.push, if_neg]
    simpa only [Entry.isTerminal, List.isEmpty_iff] using working
  rw [Ledger.push, if_neg working, pushed]
  refine { keeps with waiting := ?_, increasing := ?_, fresh := ?_, slots := ?_, ordered := ?_,
                      unfinished := ?_ }
  · simp only [keeps.waiting, List.map_append, List.map_cons, List.map_nil, Slot.arrival]
  · rw [List.pairwise_append]
    refine ⟨keeps.increasing, List.pairwise_singleton _ _, fun slot member last same => ?_⟩
    rw [List.mem_singleton.mp same]
    exact keeps.fresh slot member
  · intro slot member
    rcases List.mem_append.mp member with member | member
    · exact Nat.lt_succ_of_lt (keeps.fresh slot member)
    · rw [List.mem_singleton.mp member]
      exact Nat.lt_succ_self _
  · have place := perm_insertSlot ⟨progress, q.sequence, entry⟩ q.slots
    exact place.trans ((keeps.slots.cons _).trans (List.perm_append_singleton _ _).symm)
  · exact ordered_insertSlot keeps.ordered fun other member =>
      keeps.fresh other (keeps.slots.mem_iff.mp member)
  · intro a member
    rcases List.mem_append.mp member with member | member
    · exact keeps.unfinished a member
    · rw [List.mem_singleton.mp member]
      exact working

theorem Keeps.push (keeps : q.Keeps ledger numbered) (entry : Entry) (progress : Progress) :
    ∃ numbered', (q.push entry progress).Keeps (ledger.push entry progress) numbered' := by
  by_cases done : entry.pending = []
  · have retires : q.push entry progress = q.retire entry progress := by
      rw [Queue.push, if_pos]
      simpa only [Entry.isTerminal, List.isEmpty_iff] using done
    rw [retires]
    exact ⟨numbered, keeps.retire done progress⟩
  · exact ⟨_, keeps.enter done progress⟩

theorem Keeps.pushAll (keeps : q.Keeps ledger numbered) (arrivals : List Arrival) :
    ∃ numbered', (arrivals.foldl (fun q a => q.push a.entry a.progress) q).Keeps
      (ledger.pushAll arrivals) numbered' := by
  induction arrivals generalizing q ledger numbered with
  | nil => exact ⟨numbered, keeps⟩
  | cons a rest ih =>
    obtain ⟨numbered', keeps'⟩ := keeps.push a.entry a.progress
    exact ih keeps'

/-- The first slot is that of the next arrival, which comes between the earlier arrivals, all
above it, and the later ones. -/
theorem Keeps.first (keeps : q.Keeps ledger numbered) {slot : Slot} {rest : List Slot}
    (slots : q.slots = slot :: rest) :
    ∃ earlier later, numbered = earlier ++ slot :: later ∧
      ledger.waiting = earlier.map Slot.arrival ++ slot.arrival :: later.map Slot.arrival ∧
      (∀ b ∈ earlier.map Slot.arrival, slot.arrival.progress < b.progress) ∧
      ∀ b ∈ later.map Slot.arrival, slot.arrival.progress ≤ b.progress := by
  have ordered := keeps.ordered
  have perm := keeps.slots
  rw [slots] at ordered perm
  obtain ⟨least, _⟩ := List.pairwise_cons.mp ordered
  obtain ⟨earlier, later, split⟩ := List.append_of_mem (perm.mem_iff.mp List.mem_cons_self)
  have increasing := keeps.increasing
  rw [split, List.pairwise_append] at increasing
  obtain ⟨_, after, between⟩ := increasing
  -- arrivals keep their numbers, so the sides of the split tell who came first
  have older (b : Slot) (member : b ∈ earlier) : b.sequence < slot.sequence :=
    between b member slot List.mem_cons_self
  have newer (b : Slot) (member : b ∈ later) : slot.sequence < b.sequence :=
    (List.pairwise_cons.mp after).1 b member
  have before (b : Slot) (other : b.sequence ≠ slot.sequence) (member : b ∈ numbered) :
      slot.before b = true := by
    rcases List.mem_cons.mp (perm.mem_iff.mpr member) with rfl | member
    · exact absurd rfl other
    · exact least b member
  refine ⟨earlier, later, split, ?_, fun a member => ?_, fun a member => ?_⟩
  · rw [keeps.waiting, split, List.map_append, List.map_cons]
  · obtain ⟨b, inside, rfl⟩ := List.mem_map.mp member
    have age := older b inside
    have ahead := before b (by omega) (split ▸ List.mem_append_left _ inside)
    rw [Slot.before_iff] at ahead
    rw [Progress.lt_iff]
    dsimp only [Slot.arrival]
    omega
  · obtain ⟨b, inside, rfl⟩ := List.mem_map.mp member
    have age := newer b inside
    exact Slot.progress_le_of_before (before b (by omega)
      (split ▸ List.mem_append_right _ (List.mem_cons_of_mem _ inside)))

theorem Keeps.drained (keeps : q.Keeps ledger numbered) (slots : q.slots = []) :
    numbered = [] ∧ ledger.waiting = [] := by
  have perm := keeps.slots
  rw [slots] at perm
  have none : numbered = [] := perm.symm.eq_nil
  exact ⟨none, by rw [keeps.waiting, none]; rfl⟩

theorem Keeps.next? (keeps : q.Keeps ledger numbered) :
    ledger.next? = q.slots.head?.map Slot.arrival := by
  cases slots : q.slots with
  | nil =>
    rw [Ledger.next?, (keeps.drained slots).2]
    rfl
  | cons slot rest =>
    obtain ⟨earlier, later, _, waiting, above, notBelow⟩ := keeps.first slots
    exact (Ledger.next?_of_split waiting above notBelow).1

theorem Keeps.pop (keeps : q.Keeps ledger numbered) :
    ∃ numbered', ((q.pop.map (·.2)).getD q).Keeps ledger.pop numbered' := by
  cases slots : q.slots with
  | nil =>
    have same : ledger.pop = ledger := by
      rw [Ledger.pop, (keeps.drained slots).2, List.eraseP_nil, ← (keeps.drained slots).2]
    rw [Queue.pop, slots, same]
    exact ⟨numbered, keeps⟩
  | cons slot rest =>
    obtain ⟨earlier, later, split, waiting, above, notBelow⟩ := keeps.first slots
    have left := (Ledger.next?_of_split waiting above notBelow).2
    have fewer : (earlier ++ later).Sublist numbered := by
      rw [split]
      exact (List.sublist_cons_self slot later).append_left earlier
    rw [Queue.pop, slots]
    refine ⟨earlier ++ later, { keeps with
      waiting := ?_, increasing := ?_, fresh := ?_, slots := ?_, ordered := ?_
      unfinished := ?_ }⟩
    · rw [left, List.map_append]
    · exact keeps.increasing.sublist fewer
    · exact fun other member => keeps.fresh other (fewer.mem member)
    · have perm := keeps.slots
      rw [slots, split] at perm
      exact (List.perm_cons slot).mp (perm.trans List.perm_middle)
    · have ordered := keeps.ordered
      rw [slots] at ordered
      exact (List.pairwise_cons.mp ordered).2
    · intro a member
      refine keeps.unfinished a ?_
      rw [left, ← List.map_append] at member
      rw [keeps.waiting]
      exact (fewer.map _).mem member

theorem Keeps.of_uncached (keeps : q.Keeps ledger numbered) (same : r.uncached = q.uncached) :
    r.Keeps ledger numbered := by
  have other : r = { q with cache := r.cache } := by
    have back := congrArg (fun content => { content with cache := r.cache }) same
    exact back
  rw [other]
  exact { keeps with }

theorem Keeps.use (keeps : q.Keeps ledger numbered) (call : Use α) :
    ∃ numbered', (q.use call).Keeps (ledger.note call) numbered' := by
  cases call with
  | push entry progress => exact keeps.push entry progress
  | pop => exact keeps.pop
  | cached holds key accepts build =>
    exact ⟨numbered, keeps.of_uncached (q.uncached_cached key accepts build)⟩

/-- Every call keeps the ledger, and so do all calls on a new queue. -/
theorem keeps_used (calls : List (Use α)) :
    ∃ numbered, (used calls).Keeps (Ledger.of calls) numbered := by
  have run (q : Queue α) (ledger : Ledger) (numbered : List Slot)
      (keeps : q.Keeps ledger numbered) :
      ∃ numbered', (calls.foldl Queue.use q).Keeps (calls.foldl Ledger.note ledger) numbered' := by
    induction calls generalizing q ledger numbered with
    | nil => exact ⟨numbered, keeps⟩
    | cons call calls ih =>
      obtain ⟨numbered', keeps'⟩ := keeps.use call
      exact ih _ _ numbered' keeps'
  exact run empty {} [] keeps_empty

theorem Keeps.stable (keeps : q.Keeps ledger numbered) :
    Arrival.Stable ledger.waiting (q.slots.map Slot.arrival) := by
  refine ⟨List.pairwise_map.mpr (keeps.ordered.imp fun ahead => ?_), fun rank => ?_⟩
  · exact Arrival.notAfter_iff.mpr (Slot.progress_le_of_before ahead)
  · rw [keeps.waiting, List.filter_map, List.filter_map]
    congr 1
    -- among equal progress both lists are in the order of the sequence numbers
    have arranged : (q.slots.filter (Arrival.ranks rank ∘ Slot.arrival)).Pairwise
        fun a b => a.sequence < b.sequence := by
      refine (keeps.ordered.filter _).imp_of_mem fun {a b} ha hb ahead => ?_
      have same := (List.mem_filter.mp ha).2
      have same' := (List.mem_filter.mp hb).2
      rw [Function.comp_apply, Arrival.ranks_iff] at same same'
      rw [Slot.before_iff] at ahead
      change a.progress.rank = rank at same
      change b.progress.rank = rank at same'
      rw [same, same'] at ahead
      omega
    refine List.Perm.eq_of_pairwise ?_ arranged (keeps.increasing.filter _) (keeps.slots.filter _)
    intro a b _ _ lower higher
    omega

/-- What can be seen of a queue, and taken from it, according to a ledger. -/
structure Serves (q : Queue α) (ledger : Ledger) : Prop where
  pop : q.pop.map (·.1) = ledger.next?.map (·.entry)
  peek : q.peek? = ledger.next?.map (·.entry)
  inFlight : q.inFlight = (ledger.waiting.mergeSort Arrival.notAfter).map (·.entry)
  unfinished : ∀ entry ∈ q.inFlight, entry.pending ≠ []
  retired : q.retired = ledger.retired.map (·.entry)
  finished : ∀ entry ∈ q.retired, entry.pending = []
  version : q.version = ledger.retired.length
  progress : match q.progress? with
    | some progress =>
      if ledger.waiting ≠ [] then
        (∃ a ∈ ledger.waiting, a.progress = progress) ∧
          ∀ a ∈ ledger.waiting, progress ≤ a.progress
      else
        (∃ a ∈ ledger.retired, a.progress = progress) ∧
          ∀ a ∈ ledger.retired, a.progress ≤ progress
    | none => ledger.waiting = [] ∧ ledger.retired = []
  searched : ∀ slot, insertSearched slot q.slots = insertSlot slot q.slots

theorem Keeps.inFlight (keeps : q.Keeps ledger numbered) :
    q.inFlight = (ledger.waiting.mergeSort Arrival.notAfter).map (·.entry) := by
  rw [← keeps.stable.unique (Arrival.stable_mergeSort ledger.waiting), List.map_map]
  rfl

theorem Keeps.serves (keeps : q.Keeps ledger numbered) : q.Serves ledger := by
  have next := keeps.next?
  refine {
    pop := ?_, peek := ?_, inFlight := keeps.inFlight, unfinished := ?_
    retired := keeps.retired, finished := ?_, version := keeps.version, progress := ?_
    searched := fun slot => insertSearched_eq keeps.ordered }
  · rw [next, Queue.pop]
    cases q.slots <;> rfl
  · rw [next, Queue.peek?, Option.map_map]
    rfl
  · intro entry member
    rw [keeps.inFlight] at member
    obtain ⟨a, inside, rfl⟩ := List.mem_map.mp member
    exact keeps.unfinished a (List.mem_mergeSort.mp inside)
  · intro entry member
    rw [keeps.retired] at member
    obtain ⟨a, inside, rfl⟩ := List.mem_map.mp member
    exact keeps.finished a inside
  · cases slots : q.slots with
    | nil =>
      have waiting := (keeps.drained slots).2
      have idle : q.progress? = q.furthest := by rw [Queue.progress?, slots]
      have furthest := keeps.furthest
      rw [idle]
      cases found : q.furthest with
      | none =>
        rw [found] at furthest
        exact ⟨waiting, furthest⟩
      | some furthest' =>
        rw [found] at furthest
        dsimp only
        rwa [if_neg (not_not_intro waiting)]
    | cons slot rest =>
      have busy : q.progress? = some slot.progress := by rw [Queue.progress?, slots]
      obtain ⟨earlier, later, _, waiting, above, notBelow⟩ := keeps.first slots
      have working : ledger.waiting ≠ [] := by
        rw [waiting]
        simp
      rw [busy]
      dsimp only
      rw [if_pos working]
      have led := (Ledger.next?_of_split waiting above notBelow).1
      refine ⟨⟨slot.arrival, List.mem_of_find?_eq_some led, rfl⟩, fun a member => ?_⟩
      have least := List.find?_some led
      rw [Ledger.leads, List.all_eq_true] at least
      have ahead : slot.arrival.progress ≤ a.progress := Arrival.notAfter_iff.mp (least a member)
      exact ahead

theorem used_serves (calls : List (Use α)) : (used calls).Serves (Ledger.of calls) := by
  obtain ⟨numbered, keeps⟩ := keeps_used calls
  exact keeps.serves

end Queue
end ProceduralScene
