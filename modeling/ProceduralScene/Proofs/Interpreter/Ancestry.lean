import ProceduralScene.Proofs.Interpreter.Replacement
import ProceduralScene.Proofs.Interpreter.Visits

/-! Where the entries of a run come from. A roll is kept along with the queue: it has a lineage for
every place in the queue, which starts at a description and gets longer by the ordinal of each
split. The roll is never read by the run. An entry's id spells its lineage, its seed is that of the
description, and its index is the last ordinal, unless it has been set to something else. -/
namespace ProceduralScene

open Evaluation

variable {α β : Type}

namespace Sorted

variable {m : Sorted α} {key name : String} {value : α}

theorem contains_insert_self : (m.insert key value).contains key = true := by
  simp only [contains, get?_insert, if_true, Option.isSome_some]

theorem contains_insert (known : m.contains name = true) :
    (m.insert key value).contains name = true := by
  simp only [contains, get?_insert] at known ⊢
  split
  · rfl
  · exact known

end Sorted

/-- The description that an entry comes from, the ordinals of the splits on the way to it, and the
nodes that have been evaluated on the way. -/
structure Lineage where
  root : Nat
  splits : List Nat := []
  evaluated : List Transformation := []

namespace Lineage

def path (l : Lineage) : Path := l.root :: l.splits

/-- The ordinal of the last split; an entry that has never split counts as the first. -/
def ordinal (l : Lineage) : Nat := l.splits.getLast?.getD 0

def goOn (l : Lineage) (node : Transformation) : Lineage :=
  { l with evaluated := l.evaluated ++ [node] }

def part (l : Lineage) (node : Transformation) (ordinal : Nat) : Lineage :=
  { l.goOn node with splits := l.splits ++ [ordinal] }

def followers (l : Lineage) (node : Transformation) : Step → List Lineage
  | .proceed _ _ => [l.goOn node]
  | .fork payloads _ => (List.range payloads.length).map (l.part node)
  | .parallel children => (List.range children.length).map (l.part node)

def SetsIndex (l : Lineage) : Prop :=
  ∃ node ∈ l.evaluated, ∃ expression, node.assigned? = some (Value.indexVariable, expression)

theorem id_part (l : Lineage) (node : Transformation) (ordinal : Nat) :
    (l.part node ordinal).path.id = l.path.id ++ toString ordinal :=
  Path.id_append l.path ordinal

theorem ordinal_part (l : Lineage) (node : Transformation) (ordinal : Nat) :
    (l.part node ordinal).ordinal = ordinal := by
  simp [Lineage.ordinal, part]

theorem setsIndex_goOn (l : Lineage) (node : Transformation) :
    (l.goOn node).SetsIndex ↔
      l.SetsIndex ∨ ∃ expression, node.assigned? = some (Value.indexVariable, expression) := by
  simp only [SetsIndex, goOn, List.mem_append, List.mem_singleton, or_and_right, exists_or,
    exists_eq_left]

structure Bears (d : Description) (l : Lineage) (entry : Entry) : Prop where
  id : entry.id = l.path.id
  seed : entry.seed = d.seed
  index : entry.value.vars.contains Value.indexVariable = true
  initial : ∀ name, d.initialVariables.contains name = true →
    entry.value.vars.contains name = true
  ordinal : ¬l.SetsIndex → entry.value.get? Value.indexVariable = some (.number l.ordinal.toFloat)

namespace Bears

variable {d : Description} {l : Lineage} {entry : Entry}

theorem part (bears : Bears d l entry) (node : Transformation) (ordinal : Nat) (payload : Payload)
    (pending : List Transformation) :
    Bears d (l.part node ordinal) (entry.part ordinal payload pending) where
  id := by
    rw [id_part, ← bears.id]
    rfl
  seed := bears.seed
  index := Sorted.contains_insert_self
  initial name known := Sorted.contains_insert (bears.initial name known)
  ordinal _ := by
    rw [ordinal_part]
    exact (Sorted.get?_insert _ _ _ _).trans (if_pos rfl)

theorem goOn (bears : Bears d l entry) {node : Transformation} {vars : Variables}
    (assigned : match node.assigned? with
      | none => vars = entry.value.vars
      | some (name, _) => ∃ payload, vars = entry.value.vars.insert name payload)
    (payload : Payload) (pending : List Transformation) :
    Bears d (l.goOn node) ⟨entry.id, ⟨payload, vars⟩, entry.seed, pending⟩ := by
  cases sets : node.assigned? with
  | none =>
    rw [sets] at assigned
    subst assigned
    refine ⟨bears.id, bears.seed, bears.index, bears.initial, fun unset => bears.ordinal ?_⟩
    exact fun set => unset ((l.setsIndex_goOn node).mpr (.inl set))
  | some assignment =>
    obtain ⟨name, expression⟩ := assignment
    rw [sets] at assigned
    obtain ⟨given, rfl⟩ := assigned
    refine ⟨bears.id, bears.seed, Sorted.contains_insert bears.index,
      fun name known => Sorted.contains_insert (bears.initial name known), fun unset => ?_⟩
    rw [setsIndex_goOn, not_or] at unset
    have other : Value.indexVariable ≠ name := fun same => unset.2 ⟨expression, by rw [sets, same]⟩
    exact (Sorted.get?_insert _ _ _ _).trans ((if_neg other).trans (bears.ordinal unset.1))

end Bears
end Lineage

structure Roll where
  waiting : List (Slot × Lineage) := []
  retired : List (Entry × Lineage) := []

def insertTagged (slot : Slot) (l : Lineage) : List (Slot × Lineage) → List (Slot × Lineage)
  | [] => [(slot, l)]
  | other :: rest =>
    if slot.before other.1 then (slot, l) :: other :: rest else other :: insertTagged slot l rest

theorem map_insertTagged (slot : Slot) (l : Lineage) (tagged : List (Slot × Lineage)) :
    (insertTagged slot l tagged).map Prod.fst = insertSlot slot (tagged.map Prod.fst) := by
  induction tagged with
  | nil => rfl
  | cons other rest ih =>
    simp only [insertTagged, insertSlot, List.map_cons]
    split
    · rfl
    · rw [List.map_cons, ih]

theorem mem_insertTagged {slot : Slot} {l : Lineage} {tagged : List (Slot × Lineage)}
    {member : Slot × Lineage} (among : member ∈ insertTagged slot l tagged) :
    member = (slot, l) ∨ member ∈ tagged := by
  induction tagged with
  | nil => exact .inl (List.mem_singleton.mp among)
  | cons other rest ih =>
    simp only [insertTagged] at among
    split at among
    · exact List.mem_cons.mp among
    · rcases List.mem_cons.mp among with rfl | among
      · exact .inr List.mem_cons_self
      · exact (ih among).imp id (List.mem_cons_of_mem _)

namespace Roll

def members (roll : Roll) : List (Entry × Lineage) :=
  roll.waiting.map (fun tagged => (tagged.1.entry, tagged.2)) ++ roll.retired

structure Lists (roll : Roll) (q : Queue α) : Prop where
  waiting : roll.waiting.map Prod.fst = q.slots
  retired : roll.retired.map Prod.fst = q.retired

theorem Lists.members {roll : Roll} {q : Queue α} (lists : roll.Lists q) :
    roll.members.map Prod.fst = q.entries := by
  rw [Roll.members, List.map_append, List.map_map, Queue.entries, Queue.inFlight, ← lists.waiting,
    ← lists.retired, List.map_map]
  rfl

theorem Lists.of_uncached {roll : Roll} {q r : Queue α} (lists : roll.Lists q)
    (same : r.uncached = q.uncached) : roll.Lists r where
  waiting := lists.waiting.trans (Queue.slots_of_uncached same).symm
  retired := by
    have results : r.uncached.retired = q.uncached.retired := congrArg Queue.retired same
    exact lists.retired.trans results.symm

def push (roll : Roll) (q : Queue α) (entry : Entry) (progress : Progress) (l : Lineage) : Roll :=
  if entry.isTerminal then { roll with retired := roll.retired ++ [(entry, l)] }
  else { roll with waiting := insertTagged ⟨progress, q.sequence, entry⟩ l roll.waiting }

theorem Lists.push {roll : Roll} {q : Queue α} (lists : roll.Lists q) (entry : Entry)
    (progress : Progress) (l : Lineage) :
    (roll.push q entry progress l).Lists (q.push entry progress) := by
  unfold Roll.push Queue.push
  split
  · refine ⟨lists.waiting, ?_⟩
    rw [List.map_append, lists.retired]
    exact (Array.toList_push).symm
  · exact ⟨by rw [map_insertTagged, lists.waiting], lists.retired⟩

theorem mem_push {roll : Roll} {q : Queue α} {entry : Entry} {progress : Progress} {l : Lineage}
    {member : Entry × Lineage} (among : member ∈ (roll.push q entry progress l).members) :
    member = (entry, l) ∨ member ∈ roll.members := by
  unfold push at among
  split at among
  · rcases List.mem_append.mp among with waits | done
    · exact .inr (List.mem_append_left _ waits)
    · rcases List.mem_append.mp done with before | last
      · exact .inr (List.mem_append_right _ before)
      · exact .inl (List.mem_singleton.mp last)
  · rcases List.mem_append.mp among with waits | done
    · obtain ⟨tagged, inside, rfl⟩ := List.mem_map.mp waits
      rcases mem_insertTagged inside with rfl | inside
      · exact .inl rfl
      · exact .inr (List.mem_append_left _ (List.mem_map.mpr ⟨tagged, inside, rfl⟩))
    · exact .inr (List.mem_append_right _ done)

end Roll

namespace Engine

variable (g : Engine α β)

def enrol : Queue α → Roll → List (Entry × Lineage) → Roll
  | _, roll, [] => roll
  | q, roll, (entry, l) :: rest =>
    enrol (g.schedule q entry) (roll.push q entry (g.domain.progress entry.payload) l) rest

/-- The roll of the seeding. Every description counts as an ordinal. -/
def seedRoll : Nat → List (String × Description) → Queue α → Roll → Roll
  | _, [], _, roll => roll
  | ordinal, (name, d) :: rest, q, roll =>
    match g.root ordinal name d with
    | .error _ => roll
    | .ok none => seedRoll (ordinal + 1) rest q roll
    | .ok (some entry) =>
      seedRoll (ordinal + 1) rest (g.schedule q entry) (g.enrol q roll [(entry, { root := ordinal })])

/-- The roll after an advance: the entries that follow the first one have its lineage, and their own
ordinals if it has split. -/
def advanceRoll (depth : Nat) (program : Program) (w : World α) (roll : Roll) : Roll :=
  match roll.waiting with
  | [] => roll
  | (slot, l) :: behind =>
    let left := { w.queue with slots := w.queue.slots.tail }
    let roll := { roll with waiting := behind }
    match slot.entry.pending with
    | [] => g.enrol left roll [(slot.entry, l)]
    | node :: rest =>
      match g.evaluated depth program { w with queue := left } slot.entry node with
      | (.error _, _) => roll
      | (.ok step, after) =>
        g.enrol after.queue roll ((followers slot.entry rest step after).zip (l.followers node step))

/-- The worlds that a run comes to, each with the roll that has been kept. -/
inductive Records (program : Program) : World α → Roll → Prop where
  | seeded (trace : Option (Array Event)) :
    Records program { queue := (g.seed 0 program.entries .empty).2, trace }
      (g.seedRoll 0 program.entries .empty {})
  | advanced {w : World α} {roll : Roll} (recorded : Records program w roll) {depth : Nat}
    (answered : (g.advance depth program w).1 ≠ .error .outOfFuel) :
    Records program (g.advance depth program w).2 (g.advanceRoll depth program w roll)
  | published {w : World α} {roll : Roll} (recorded : Records program w roll) :
    Records program { w with queue := (g.domain.publish w.queue).2 } roll

variable {g} {program : Program}

theorem Visits.recorded {w : World α} (visited : g.Visits program w) :
    ∃ roll, g.Records program w roll := by
  induction visited with
  | seeded trace => exact ⟨_, .seeded trace⟩
  | advanced _ answered ih =>
    obtain ⟨roll, recorded⟩ := ih
    exact ⟨_, recorded.advanced answered⟩
  | published _ ih =>
    obtain ⟨roll, recorded⟩ := ih
    exact ⟨roll, recorded.published⟩

theorem Records.visits {w : World α} {roll : Roll} (recorded : g.Records program w roll) :
    g.Visits program w := by
  induction recorded with
  | seeded trace => exact .seeded trace
  | advanced _ answered ih => exact ih.advanced answered
  | published _ ih => exact ih.published

theorem lists_enrol {q : Queue α} {roll : Roll} (lists : roll.Lists q)
    (tagged : List (Entry × Lineage)) :
    (g.enrol q roll tagged).Lists (g.scheduleAll q (tagged.map Prod.fst)) := by
  induction tagged generalizing q roll with
  | nil => exact lists
  | cons first rest ih => exact ih (lists.push first.1 _ first.2)

theorem mem_enrol {q : Queue α} {roll : Roll} {tagged : List (Entry × Lineage)}
    {member : Entry × Lineage} (among : member ∈ (g.enrol q roll tagged).members) :
    member ∈ tagged ∨ member ∈ roll.members := by
  induction tagged generalizing q roll with
  | nil => exact .inr among
  | cons first rest ih =>
    rcases ih among with later | before
    · exact .inl (List.mem_cons_of_mem _ later)
    · rcases Roll.mem_push before with rfl | before
      · exact .inl List.mem_cons_self
      · exact .inr before

/-- An entry and a lineage that one interpreted description of the program accounts for. -/
def Traceable (program : Program) (member : Entry × Lineage) : Prop :=
  ∃ name d, program.entries[member.2.root]? = some (name, d) ∧ d.isInterpreted = true ∧
    member.2.Bears d member.1

/-- A roll that lists a queue, every entry with a lineage that accounts for it. -/
structure Accounted (program : Program) (q : Queue α) (roll : Roll) : Prop where
  lists : roll.Lists q
  traceable : ∀ member ∈ roll.members, Traceable program member

namespace Accounted

variable {q r : Queue α} {roll : Roll}

theorem of_uncached (accounted : Accounted program q roll) (same : r.uncached = q.uncached) :
    Accounted program r roll := ⟨accounted.lists.of_uncached same, accounted.traceable⟩

theorem enrol (accounted : Accounted program q roll) {tagged : List (Entry × Lineage)}
    (traceable : ∀ member ∈ tagged, Traceable program member) :
    Accounted program (g.scheduleAll q (tagged.map Prod.fst)) (g.enrol q roll tagged) where
  lists := lists_enrol accounted.lists tagged
  traceable member among := by
    rcases mem_enrol among with new | old
    · exact traceable member new
    · exact accounted.traceable member old

theorem enrolOne (accounted : Accounted program q roll) {entry : Entry} {l : Lineage}
    (traceable : Traceable program (entry, l)) :
    Accounted program (g.schedule q entry) (g.enrol q roll [(entry, l)]) := by
  have tags : Accounted program (g.scheduleAll q ([(entry, l)].map Prod.fst))
      (g.enrol q roll [(entry, l)]) := accounted.enrol fun member among => by
    rw [List.mem_singleton.mp among]
    exact traceable
  exact tags

theorem behind (accounted : Accounted program q roll) {slot : Slot} {l : Lineage}
    {rest : List (Slot × Lineage)} (first : roll.waiting = (slot, l) :: rest) :
    q.slots = slot :: q.slots.tail ∧ Traceable program (slot.entry, l) ∧
      Accounted program { q with slots := q.slots.tail } { roll with waiting := rest } := by
  have slots := accounted.lists.waiting
  rw [first, List.map_cons] at slots
  have among (tagged : Slot × Lineage) (member : tagged ∈ roll.waiting) :
      Traceable program (tagged.1.entry, tagged.2) :=
    accounted.traceable _ (List.mem_append_left _ (List.mem_map.mpr ⟨tagged, member, rfl⟩))
  refine ⟨by rw [← slots]; rfl, among (slot, l) (by rw [first]; exact List.mem_cons_self), ?_, ?_⟩
  · exact ⟨by rw [← slots]; rfl, accounted.lists.retired⟩
  · intro member inside
    rcases List.mem_append.mp inside with waits | done
    · obtain ⟨tagged, listed, rfl⟩ := List.mem_map.mp waits
      exact among tagged (by rw [first]; exact List.mem_cons_of_mem _ listed)
    · exact accounted.traceable member (List.mem_append_right _ done)

end Accounted

theorem root_bears {ordinal : Nat} {name : String} {d : Description} {entry : Entry}
    (made : g.root ordinal name d = .ok (some entry)) :
    d.isInterpreted = true ∧ Lineage.Bears d { root := ordinal } entry := by
  have id := root_id made
  unfold root at made
  split at made
  · cases made
  next noun _ =>
    split at made
    next interpreted =>
      cases created : g.domain.createValue d.initialVariables noun.astId with
      | error error =>
        rw [created] at made
        cases made
      | ok payload =>
        rw [created] at made
        cases made
        refine ⟨interpreted, ?_, rfl, Sorted.contains_insert_self,
          fun name known => Sorted.contains_insert known, fun _ => ?_⟩
        · exact id.trans (Path.id_root ordinal).symm
        · exact (Sorted.get?_insert _ _ _ _).trans (if_pos rfl)
    · cases made

theorem seed_accounted {ordinal : Nat} {descriptions : List (String × Description)}
    (behind : program.entries.drop ordinal = descriptions) {q : Queue α} {roll : Roll}
    (accounted : Accounted program q roll) :
    Accounted program (g.seed ordinal descriptions q).2
      (g.seedRoll ordinal descriptions q roll) := by
  induction descriptions generalizing ordinal q roll with
  | nil => exact accounted
  | cons description rest ih =>
    obtain ⟨name, d⟩ := description
    have here : program.entries[ordinal]? = some (name, d) := by
      rw [← List.head?_drop, behind]
      rfl
    have later : program.entries.drop (ordinal + 1) = rest := by
      rw [← List.tail_drop, behind]
      rfl
    unfold seed seedRoll
    cases made : g.root ordinal name d with
    | error error => exact accounted
    | ok root =>
      cases root with
      | none => exact ih later accounted
      | some entry =>
        obtain ⟨interpreted, bears⟩ := root_bears made
        exact ih later (accounted.enrolOne ⟨name, d, here, interpreted, bears⟩)

theorem length_followers (entry : Entry) (rest : List Transformation) (step : Step)
    (after : Scope α) (l : Lineage) (node : Transformation) :
    (followers entry rest step after).length = (l.followers node step).length := by
  cases step <;> simp [followers, Step.successors, Lineage.followers]

theorem followers_bear {depth : Nat} {w : World α} {entry : Entry} {node : Transformation}
    {rest : List Transformation} {step : Step} {after : Scope α}
    (evaluated : g.evaluated depth program w entry node = (.ok step, after)) {d : Description}
    {l : Lineage} (bears : l.Bears d entry) :
    ∀ member ∈ (followers entry rest step after).zip (l.followers node step),
      member.2.root = l.root ∧ member.2.Bears d member.1 := by
  obtain ⟨vars, assigns, followed⟩ := evaluated_assigns evaluated
  have assigned : match node.assigned? with
      | none => vars = entry.value.vars
      | some (name, _) => ∃ payload, vars = entry.value.vars.insert name payload := by
    unfold Assigns at assigns
    cases sets : node.assigned? with
    | none =>
      rw [sets] at assigns
      exact assigns
    | some assignment =>
      rw [sets] at assigns
      obtain ⟨payload, _, set⟩ := assigns
      exact ⟨payload, set⟩
  intro member among
  rw [followed] at among
  obtain ⟨k, inside, rfl⟩ := List.mem_iff_getElem.mp among
  cases step with
  | proceed payload push =>
    simp only [Entry.replacedBy, Lineage.followers, List.zip_cons_cons, List.zip_nil_left,
      List.getElem_singleton]
    exact ⟨rfl, bears.goOn assigned _ _⟩
  | fork payloads push =>
    simp only [Entry.replacedBy, Lineage.followers, List.getElem_zip, List.getElem_mapIdx,
      List.getElem_map, List.getElem_range]
    exact ⟨rfl, bears.part _ _ _ _⟩
  | parallel children =>
    simp only [Entry.replacedBy, Lineage.followers, List.getElem_zip, List.getElem_mapIdx,
      List.getElem_map, List.getElem_range]
    exact ⟨rfl, bears.part _ _ _ _⟩

theorem advance_accounted (steady : g.operations.Steady) {depth : Nat} {w : World α} {roll : Roll}
    (answered : (g.advance depth program w).1 ≠ .error .outOfFuel)
    (accounted : Accounted program w.queue roll) :
    Accounted program (g.advance depth program w).2.queue
      (g.advanceRoll depth program w roll) := by
  unfold advanceRoll
  cases first : roll.waiting with
  | nil =>
    have slots := accounted.lists.waiting
    rw [first] at slots
    rw [g.advance_of_pop_none (by rw [Queue.pop, ← slots]; rfl)]
    exact accounted
  | cons tagged behind =>
    obtain ⟨slot, l⟩ := tagged
    obtain ⟨slots, traceable, left⟩ := accounted.behind first
    have popped : w.queue.pop = some (slot.entry, { w.queue with slots := w.queue.slots.tail }) := by
      rw [Queue.pop, slots]
      rfl
    dsimp only
    cases pending : slot.entry.pending with
    | nil =>
      rw [g.advance_of_terminal popped pending]
      exact left.enrolOne traceable
    | cons node rest =>
      rw [advance_of_pop g popped pending] at answered ⊢
      dsimp only
      rcases evaluated : g.evaluated depth program
        { w with queue := { w.queue with slots := w.queue.slots.tail } } slot.entry node with
        ⟨fault | step, after⟩
      · rw [evaluated] at answered
        exact left.of_uncached (evaluated_steady steady evaluated fun exhausted =>
          answered (by cases exhausted; rfl))
      · have same := evaluated_steady steady evaluated fun exhausted => by cases exhausted
        obtain ⟨name, d, described, interpreted, bears⟩ := traceable
        have tags : Accounted program (g.scheduleAll after.queue
            (((followers slot.entry rest step after).zip (l.followers node step)).map Prod.fst)) _ :=
          (left.of_uncached same).enrol (g := g) fun member among => by
            obtain ⟨root, bears'⟩ := followers_bear evaluated bears member among
            exact ⟨name, d, by rw [root]; exact described, interpreted, bears'⟩
        rwa [List.map_fst_zip (Nat.le_of_eq (length_followers _ _ _ _ _ _))] at tags

/-- The main statement: whatever roll has been kept, it accounts for every place in the queue. -/
theorem Records.accounted (steady : g.operations.Steady)
    (publishes : ∀ q, (g.domain.publish q).2.uncached = q.uncached) {w : World α} {roll : Roll}
    (recorded : g.Records program w roll) : Accounted program w.queue roll := by
  induction recorded with
  | seeded trace => exact seed_accounted rfl ⟨⟨rfl, rfl⟩, nofun⟩
  | advanced _ answered ih => exact advance_accounted steady answered ih
  | published _ ih => exact ih.of_uncached (publishes _)

end Engine
end ProceduralScene
