import ProceduralScene.Proofs.Binary64.Arithmetic
import ProceduralScene.Proofs.Scene.Retrying

/-! When dodging ends. An entity that would come too near to another one stands still for a time
step. Whether it has arrived is decided apart from that, by how far it stood from its target when
the step began. So a last step that is blocked ends the operation short of the target. -/
namespace ProceduralScene.Surroundings

open Movement

variable {α : Type} {call : Call α} {m : Motion} {last : Keyframe} {target : Point}
  {queue : Queue α}

/-- Some motion, in flight or retired, is at that time nearer to a place than both radii reach. -/
def Obstructed (queue : Queue α) (radius time : Float) (place : Point) : Prop :=
  ∃ entry ∈ queue.entries, ∃ other at_, entry.payload = .motion other ∧
    other.positionAt time (timeStep + 0.001) = some at_ ∧ at_.distance place < other.radius + radius

theorem blocked_iff (queue : Queue α) (radius time : Float) (place : Point) :
    blocked queue radius time place = true ↔ Obstructed queue radius time place := by
  have collides (entry : Entry) :
      (entry.payload.motion?.any fun other =>
        (other.positionAt time (timeStep + 0.001)).any fun at_ =>
          decide (at_.distance place < other.radius + radius)) = true ↔
      ∃ other at_, entry.payload = .motion other ∧
        other.positionAt time (timeStep + 0.001) = some at_ ∧
        at_.distance place < other.radius + radius := by
    cases entry.payload <;>
      simp [Payload.motion?, Option.any_eq_true, decide_eq_true_eq]
  simp only [blocked, Obstructed, Queue.entries, Queue.inFlight, Queue.retired, Bool.or_eq_true,
    List.any_eq_true, Array.any_eq_true', collides, List.mem_append, List.mem_map,
    Array.mem_toList_iff]
  constructor
  · rintro (⟨slot, waits, near⟩ | ⟨entry, finished, near⟩)
    · exact ⟨slot.entry, .inl ⟨slot, waits, rfl⟩, near⟩
    · exact ⟨entry, .inr finished, near⟩
  · rintro ⟨entry, ⟨slot, waits, rfl⟩ | finished, near⟩
    · exact .inl ⟨slot, waits, near⟩
    · exact .inr ⟨entry, finished, near⟩

instance (queue : Queue α) (radius time : Float) (place : Point) :
    Decidable (Obstructed queue radius time place) :=
  decidable_of_iff _ (blocked_iff queue radius time place)

/-- How far one time step goes: not past the target. -/
def reach (last : Keyframe) (target : Point) : Float :=
  Binary64.lesser (timeStep * last.speed) (last.position.distance target)

def strideTime (last : Keyframe) (target : Point) : Float :=
  last.time + reach last target / last.speed

def stridePlace (last : Keyframe) (target : Point) : Point :=
  last.position.lerp target (reach last target / last.position.distance target)

def again (call : Call α) (target : Point) : Transformation :=
  .precomputed call.astId "moveToAndDodge" [.number target.x, .number target.y, .number target.z]

def Near (last : Keyframe) (target : Point) : Prop :=
  last.position.distance target ≤ timeStep * last.speed

theorem le_reach_iff (positive : 0 < last.speed) :
    last.position.distance target ≤ reach last target ↔ Near last target := by
  refine Binary64.le_lesser_iff (Binary64.units_mul_le ?_ ?_ (Binary64.lt_iff.mp positive).2)
  · decide +kernel
  · decide +kernel

instance (last : Keyframe) (target : Point) : Decidable (Near last target) :=
  inferInstanceAs (Decidable (_ ≤ _))

def halt (queue : Queue α) (m : Motion) (last : Keyframe) (target : Point) : Point :=
  if Obstructed queue m.radius (strideTime last target) (stridePlace last target) then last.position
  else stridePlace last target

def dodged (call : Call α) (queue : Queue α) (m : Motion) (last : Keyframe) (target : Point) :
    Payload :=
  .motion (arrive m last (halt queue m last target) (strideTime last target) call.astId)

structure Dodges (call : Call α) (m : Motion) (last : Keyframe) (target : Point)
    (queue : Queue α) : Prop where
  moving : call.this = some (.motion m)
  reached : m.last? = some last
  given : threeNumbers call = .ok target
  reads : call.queue = some queue
  positive : 0 < last.speed
  apart : (last.position.distance target == 0) = false

theorem Dodges.moveToAndDodge_eq (dodges : Dodges call m last target queue) :
    moveToAndDodge call =
      .ok (.replaceThen (dodged call queue m last target)
        (if Near last target then [] else [again call target])) := by
  have advances : ¬last.speed ≤ 0 := by
    have positive := dodges.positive
    rw [Binary64.lt_iff] at positive
    rw [Binary64.le_iff]
    omega
  have answer : moveToAndDodge call =
      let place := if blocked queue m.radius (strideTime last target) (stridePlace last target)
        then last.position else stridePlace last target
      let moved := Payload.motion (arrive m last place (strideTime last target) call.astId)
      if last.position.distance target ≤ reach last target then .ok (.replace moved)
      else .ok (.replaceThen moved [again call target]) := by
    simp only [moveToAndDodge, motion_of_this dodges.moving, dodges.given,
      lastKeyframe_of_last? dodges.reached, Call.theQueue, dodges.reads, advances, dodges.apart,
      bind, Except.bind, if_false, Bool.false_eq_true]
    rfl
  rw [answer]
  simp only [le_reach_iff dodges.positive, blocked_iff, dodged, halt]
  split_ifs <;> rfl

/-- Whether a step is the last is decided by the distance before it alone: a blocked one too runs
again exactly if the target is further away than one time step goes. -/
theorem dodging_ends_iff_near (dodges : Dodges call m last target queue) :
    ∃ place,
      (Obstructed queue m.radius (strideTime last target) (stridePlace last target) →
        place = last.position) ∧
      (¬Obstructed queue m.radius (strideTime last target) (stridePlace last target) →
        place = stridePlace last target) ∧
      let moved := Payload.motion (arrive m last place (strideTime last target) call.astId)
      (moveToAndDodge call = .ok (.replaceThen moved [again call target]) ↔ ¬Near last target) ∧
      (moveToAndDodge call = .ok (.replace moved) ↔ Near last target) := by
  refine ⟨halt queue m last target, fun obstructed => if_pos obstructed,
    fun free => if_neg free, ?_⟩
  rw [dodges.moveToAndDodge_eq]
  by_cases near : Near last target
  · simp [near, dodged, Step.replaceThen, Step.replace]
  · simp [near, dodged, Step.replaceThen, Step.replace]

def walker : Motion := ⟨#[⟨0, 0, 0, 0, "", 1.5⟩], none, 1, "pedestrian"⟩

def bystander : Motion := ⟨#[⟨0.125, 0, 0, 0, "", 1.5⟩], none, 1, "pedestrian"⟩

def occupied : Queue Unit := Queue.empty.push ⟨"1", ⟨.motion bystander, .empty⟩, "", []⟩ 0

def doorstep : Keyframe := ⟨0, 0, 0, 0, "", 1.5⟩

def door : Point := ⟨0.125, 0, 0⟩

def lastStride (queue : Queue Unit) : Call Unit where
  identifier := "moveToAndDodge"
  node := .operation "go" "moveToAndDodge" []
  identity := "0"
  this := some (.motion walker)
  queue := some queue
  parameters := [.number door.x, .number door.y, .number door.z]

theorem dodges_lastStride (queue : Queue Unit) :
    Dodges (lastStride queue) walker doorstep door queue where
  moving := rfl
  reached := rfl
  given := rfl
  reads := rfl
  positive := by decide +kernel
  apart := by decide +kernel

theorem dodging_ends_free :
    moveToAndDodge (lastStride .empty) = .ok (.replace (.motion
      (arrive walker doorstep (stridePlace doorstep door) (strideTime doorstep door) "go"))) := by
  obtain ⟨place, -, arrives, -, ends⟩ := dodging_ends_iff_near (dodges_lastStride .empty)
  rw [arrives (by decide +kernel)] at ends
  exact ends.mpr (by decide +kernel)

/-- Beside the bystander the walker gives up. -/
theorem dodging_ends_blocked :
    Obstructed occupied walker.radius (strideTime doorstep door) (stridePlace doorstep door) ∧
    ∀ moved, moveToAndDodge (lastStride occupied) ≠
      .ok (.replaceThen moved [again (lastStride occupied) door]) := by
  refine ⟨by decide +kernel, fun moved => ?_⟩
  rw [(dodges_lastStride occupied).moveToAndDodge_eq, if_pos (by decide +kernel)]
  nofun

end ProceduralScene.Surroundings
