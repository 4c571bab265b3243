import ProceduralScene.Proofs.Binary64.Arithmetic
import ProceduralScene.Proofs.Scene.Retrying

/-! What a follower copies. It takes over the keyframes from its own time on, and by copying the
last one it sets its own time a delay ahead of that one. What the followed motion gains within the
delay is lost to it. -/
namespace ProceduralScene.Surroundings

open Movement

variable {α : Type} {call : Call α} {m : Motion} {last : Keyframe} {id : String} {offset : Point}
  {retryDelay : Float}

def copy (offset : Point) (speed : Float) (astId : String) (k : Keyframe) : Keyframe where
  x := k.x + offset.x
  y := k.y + offset.y
  z := k.z + offset.z
  time := k.time + followDelay
  astId := astId
  speed := speed

def since (time : Float) (keyframes : Array Keyframe) : Array Keyframe :=
  keyframes.filter fun k => time ≤ k.time

theorem replay_eq (offset : Point) (last : Keyframe) (astId : String) (keyframes : Array Keyframe) :
    replay offset last astId keyframes =
      (since last.time keyframes).map (copy offset last.speed astId) :=
  rfl

theorem since_append (time : Float) (old new : Array Keyframe) :
    since time (old ++ new) = since time old ++ since time new :=
  Array.filter_append Array.size_append

structure Follows (call : Call α) (m : Motion) (last : Keyframe) (id : String) (offset : Point) :
    Prop where
  moving : call.this = some (.motion m)
  reached : m.last? = some last
  named : call.text 0 = .ok id
  x : call.numberOr 1 0 = .ok offset.x
  y : call.numberOr 2 0 = .ok offset.y
  z : call.numberOr 3 0 = .ok offset.z

def Finds (queue : Queue α) (id : String) (target : Motion) (whereabouts : Whereabouts) : Prop :=
  ∃ entry, queue.find? id = some (entry, whereabouts) ∧ entry.payload = .motion target

def followed (call : Call α) (m : Motion) (last : Keyframe) (offset : Point) (target : Motion) :
    Motion :=
  takeOver m last (replay offset last call.astId target.keyframes)

theorem follow_of_finds (follows : Follows call m last id offset) {queue : Queue α}
    (reads : call.queue = some queue) {target : Motion} {whereabouts : Whereabouts}
    (finds : Finds queue id target whereabouts) :
    follow retryDelay call =
      if whereabouts = .finished then .ok (.replace (.motion (followed call m last offset target)))
      else if (since last.time target.keyframes).isEmpty then
        .ok (retry call (followed call m last offset target) retryDelay)
      else .ok (.replaceThen (.motion (followed call m last offset target)) [call.node]) := by
  obtain ⟨⟨entryId, ⟨payload, vars⟩, seed, pending⟩, found, moves⟩ := finds
  obtain rfl : payload = .motion target := moves
  simp only [follow, motion_of_this follows.moving, follows.named, follows.x, follows.y, follows.z,
    lastKeyframe_of_last? follows.reached, Call.theQueue, reads, found, bind, Except.bind, pure,
    Except.pure]
  have copies : (replay offset last call.astId target.keyframes).isEmpty =
      (since last.time target.keyframes).isEmpty := by
    rw [replay_eq, Bool.eq_iff_iff, Array.isEmpty_iff, Array.isEmpty_iff, Array.map_eq_empty_iff]
  change (if whereabouts = .finished then
    Except.ok (Step.replace (.motion (followed call m last offset target)))
    else if (!(replay offset last call.astId target.keyframes).isEmpty) = true then
      .ok (.replaceThen (.motion (followed call m last offset target)) [call.node])
    else .ok (retry call (followed call m last offset target) retryDelay)) = _
  rw [copies]
  cases (since last.time target.keyframes).isEmpty <;> rfl

theorem back?_since {keyframes : Array Keyframe} {k : Keyframe} {time : Float}
    (final : keyframes.back? = some k) (reaches : time ≤ k.time) :
    (since time keyframes).back? = some k := by
  obtain ⟨before, rfl⟩ := Array.back?_eq_some_iff.mp final
  rw [since, Array.filter_push, if_pos (decide_eq_true reaches), Array.back?_push]

theorem last?_followed {target : Motion} {k : Keyframe} (final : target.last? = some k)
    (copied : last.time ≤ k.time) :
    (followed call m last offset target).last? = some (copy offset last.speed call.astId k) := by
  have ends : (replay offset last call.astId target.keyframes).back? =
      some (copy offset last.speed call.astId k) := by
    obtain ⟨before, eq⟩ := Array.back?_eq_some_iff.mp (back?_since final copied)
    rw [replay_eq, eq, Array.map_push, Array.back?_push]
  unfold followed takeOver Motion.last?
  split_ifs
  · exact ends
  · rw [Array.back?_append, ends]
    rfl

def RunsOn (answer : Except EvalError Step) (m : Motion) : Prop :=
  ∃ nodes, answer = .ok (.replaceThen (.motion m) nodes)

theorem runsOn_follow (follows : Follows call m last id offset) {queue : Queue α}
    (reads : call.queue = some queue) {target : Motion} {whereabouts : Whereabouts}
    (finds : Finds queue id target whereabouts) :
    RunsOn (follow retryDelay call) (followed call m last offset target) := by
  rw [follow_of_finds follows reads finds]
  split_ifs
  · exact ⟨[], rfl⟩
  · exact ⟨_, rfl⟩
  · exact ⟨_, rfl⟩

section
variable {old new : Array Keyframe} {k : Keyframe} {time : Float}

theorem since_eq_empty (final : old.back? = some k)
    (sorted : old.toList.Pairwise (·.time ≤ ·.time)) (past : ¬time ≤ k.time) :
    since time old = #[] := by
  obtain ⟨before, rfl⟩ := Array.back?_eq_some_iff.mp final
  rw [Array.toList_push, List.pairwise_append] at sorted
  rw [since, Array.filter_eq_empty_iff]
  intro k' known
  rw [decide_eq_true_eq]
  intro reaches
  rcases Array.mem_push.mp known with earlier | rfl
  · exact past (Binary64.le_trans reaches
      (sorted.2.2 k' (Array.mem_toList_iff.mpr earlier) k (List.mem_singleton.mpr rfl)))
  · exact past reaches

theorem since_append_eq (final : old.back? = some k)
    (sorted : (old ++ new).toList.Pairwise (·.time ≤ ·.time)) (past : ¬time ≤ k.time)
    (all : ∀ k' ∈ new, time ≤ k'.time) : since time (old ++ new) = new := by
  rw [Array.toList_append, List.pairwise_append] at sorted
  rw [since_append, since_eq_empty final sorted.1 past, Array.empty_append, since,
    Array.filter_eq_self]
  exact fun k' fresh => decide_eq_true (all k' fresh)

theorem size_since_append_iff (time : Float) (final : old.back? = some k)
    (sorted : (old ++ new).toList.Pairwise (·.time ≤ ·.time)) :
    (since time (old ++ new)).size = new.size ↔ ¬time ≤ k.time ∧ ∀ k' ∈ new, time ≤ k'.time := by
  rw [Array.toList_append, List.pairwise_append] at sorted
  obtain ⟨known, -, later⟩ := sorted
  have all : (since time new).size = new.size ↔ ∀ k' ∈ new, time ≤ k'.time := by
    simp only [since, Array.filter_size_eq_size, decide_eq_true_eq]
  rw [since_append, Array.size_append, ← all]
  by_cases past : time ≤ k.time
  · have inside : k ∈ old := Array.mem_of_back? final
    have whole : (since time new).size = new.size := all.mpr fun k' fresh =>
      Binary64.le_trans past
        (later k (Array.mem_toList_iff.mpr inside) k' (Array.mem_toList_iff.mpr fresh))
    have some : 0 < (since time old).size :=
      Array.size_pos_of_mem (Array.mem_of_back? (back?_since final past))
    exact iff_of_false (by omega) fun both => both.1 past
  · rw [since_eq_empty final known past, Array.size_empty, Nat.zero_add, and_iff_right past]

end

theorem delayed_of_zero {t : Float} (zero : (t + followDelay == 0) = true) :
    ¬t + followDelay ≤ t := by
  intro stuck
  rw [Binary64.le_iff] at stuck
  rw [Binary64.beq_iff] at zero
  rw [Binary64.units_zero] at zero
  have := Binary64.units_add_pos stuck.2 (by omega) (y := followDelay) (by decide +kernel)
    (by decide +kernel)
  omega

/-- What a follower whose clock is a delay ahead of the last keyframe it knows adds to its own. -/
theorem takeOver_since_iff {f : Keyframe → Keyframe} {old new : Array Keyframe} {k : Keyframe}
    (reached : m.last? = some last) (delayed : last.time = k.time + followDelay)
    (final : old.back? = some k) (sorted : (old ++ new).toList.Pairwise (·.time ≤ ·.time)) :
    (takeOver m last ((since last.time (old ++ new)).map f)).keyframes = m.keyframes ++ new.map f ↔
      ¬last.time ≤ k.time ∧ (∀ k' ∈ new, last.time ≤ k'.time) ∧
        (new = #[] ∨ (last.time == 0) = false) := by
  have size := size_since_append_iff last.time final sorted
  constructor
  · intro same
    unfold takeOver at same
    split_ifs at same with clears
    -- with the keyframes so far dropped, some known ones would have to be copied again
    · rw [Bool.and_eq_true] at clears
      have past : ¬last.time ≤ k.time := by
        rw [delayed] at clears ⊢
        exact delayed_of_zero clears.2
      have sizes := congrArg Array.size same
      have stands : 0 < m.keyframes.size := Array.size_pos_of_mem (Array.mem_of_back? reached)
      rw [Array.toList_append, List.pairwise_append] at sorted
      rw [Array.size_append, Array.size_map, Array.size_map, since_append,
        since_eq_empty final sorted.1 past, Array.size_append, Array.size_empty] at sizes
      have : (since last.time new).size ≤ new.size := Array.size_filter_le
      omega
    · have taken := congrArg Array.size (Array.append_right_inj _ |>.mp same)
      rw [Array.size_map, Array.size_map] at taken
      obtain ⟨past, all⟩ := size.mp taken
      refine ⟨past, all, or_iff_not_imp_left.mpr fun some => ?_⟩
      rw [since_append_eq final sorted past all] at clears
      simpa [some] using clears
  · rintro ⟨past, all, keeps⟩
    rw [since_append_eq final sorted past all, takeOver, if_neg]
    rcases keeps with rfl | keeps
    · simp
    · simp [keeps]

theorem follow_again (retryDelay : Float) (follows : Follows call m last id offset)
    {queue queue' : Queue α} (reads : call.queue = some queue) {target target' : Motion}
    {whereabouts : Whereabouts} (finds : Finds queue id target .inFlight) {k : Keyframe}
    (final : target.last? = some k) (copied : last.time ≤ k.time)
    (finds' : Finds queue' id target' whereabouts) :
    let moved := followed call m last offset target
    let now := copy offset last.speed call.astId k
    follow retryDelay call = .ok (.replaceThen (.motion moved) [call.node]) ∧
      moved.last? = some now ∧
      RunsOn (follow retryDelay { call with this := some (.motion moved), queue := some queue' })
        (takeOver moved now ((since now.time target'.keyframes).map
          (copy offset last.speed call.astId))) := by
  intro moved now
  have reached' : moved.last? = some now := last?_followed final copied
  have gains : (since last.time target.keyframes).isEmpty ≠ true := by
    rw [ne_eq, Array.isEmpty_iff]
    intro none
    have ends := back?_since final copied
    rw [none, Array.back?_empty] at ends
    exact nomatch ends
  have follows' : Follows { call with this := some (.motion moved), queue := some queue' } moved now
      id offset :=
    ⟨rfl, reached', follows.named, follows.x, follows.y, follows.z⟩
  refine ⟨?_, reached', runsOn_follow follows' rfl finds'⟩
  rw [follow_of_finds follows reads finds, if_neg nofun, if_neg gains]

/-- The next call copies exactly the keyframes that are new to it if the time of the last known one,
delayed, lies after that one and not after any new one. -/
theorem follow_appends_new_iff (retryDelay : Float) (follows : Follows call m last id offset)
    {queue queue' : Queue α} (reads : call.queue = some queue) {target target' : Motion}
    {whereabouts : Whereabouts} (finds : Finds queue id target .inFlight) {k : Keyframe}
    (final : target.last? = some k) (copied : last.time ≤ k.time)
    (finds' : Finds queue' id target' whereabouts) {new : Array Keyframe}
    (grown : target'.keyframes = target.keyframes ++ new)
    (sorted : target'.keyframes.toList.Pairwise (·.time ≤ ·.time)) :
    ∃ moved moved',
      follow retryDelay call = .ok (.replaceThen (.motion moved) [call.node]) ∧
      RunsOn (follow retryDelay { call with this := some (.motion moved), queue := some queue' })
        moved' ∧
      (moved'.keyframes = moved.keyframes ++ new.map (copy offset last.speed call.astId) ↔
        ¬k.time + followDelay ≤ k.time ∧ (∀ k' ∈ new, k.time + followDelay ≤ k'.time) ∧
          (new = #[] ∨ (k.time + followDelay == 0) = false)) := by
  obtain ⟨answered, reached', again⟩ :=
    follow_again retryDelay follows reads finds final copied finds'
  refine ⟨_, _, answered, again, ?_⟩
  rw [grown] at sorted ⊢
  exact takeOver_since_iff reached' rfl final sorted

def leader (keyframes : Array Keyframe) : Motion := ⟨keyframes, none, 1, "pedestrian"⟩

def paused : Array Keyframe := #[⟨0, 0, 0, 0, "lead", 1.5⟩, ⟨0, 0, 0, 1, "pause", 1.5⟩]

def stroll : Array Keyframe := #[⟨5, 0, 0, 2, "stroll", 1.5⟩, ⟨5, 0, 0, 3, "stay", 1.5⟩]

def jump : Array Keyframe := #[⟨5, 0, 0, 1, "jump", 1.5⟩, ⟨5, 0, 0, 2, "stay", 1.5⟩]

def pausing : Queue Unit :=
  Queue.empty.push ⟨"0", ⟨.motion (leader paused), .empty⟩, "", [.operation "on" "moveTo" []]⟩ 1

def arrived (new : Array Keyframe) : Queue Unit :=
  Queue.empty.push ⟨"0", ⟨.motion (leader (paused ++ new)), .empty⟩, "", []⟩ 3

def behind : Keyframe := ⟨0, 0, 0, 0.01, "behind", 1.5⟩

def chase : Call Unit where
  identifier := "follow"
  node := .operation "behind" "follow" []
  identity := "1"
  this := some (.motion (leader #[behind]))
  queue := some pausing
  parameters := [.text "0"]

theorem follows_chase : Follows chase (leader #[behind]) behind "0" ⟨0, 0, 0⟩ :=
  ⟨rfl, rfl, rfl, rfl, rfl, rfl⟩

theorem finds_pausing : Finds pausing "0" (leader paused) .inFlight := ⟨_, rfl, rfl⟩

theorem finds_arrived (new : Array Keyframe) :
    Finds (arrived new) "0" (leader (paused ++ new)) .finished :=
  ⟨_, rfl, rfl⟩

theorem last?_paused : (leader paused).last? = some ⟨0, 0, 0, 1, "pause", 1.5⟩ := rfl

theorem follow_keeps_stroll :
    ∃ moved moved', follow 0.01 chase = .ok (.replaceThen (.motion moved) [chase.node]) ∧
      RunsOn (follow 0.01
        { chase with this := some (.motion moved), queue := some (arrived stroll) }) moved' ∧
      moved'.keyframes = moved.keyframes ++ stroll.map (copy ⟨0, 0, 0⟩ 1.5 "behind") := by
  obtain ⟨moved, moved', answered, again, copies⟩ := follow_appends_new_iff 0.01 follows_chase rfl
    finds_pausing last?_paused (by decide +kernel) (finds_arrived stroll) rfl (by decide +kernel)
  refine ⟨moved, moved', answered, again, copies.mpr ⟨by decide +kernel, ?_, .inr ?_⟩⟩
  · decide +kernel
  · decide +kernel

/-- Nothing of a jump within the delay is copied. -/
theorem follow_loses_jump :
    (paused ++ jump).toList.Pairwise (·.time ≤ ·.time) ∧
      ∃ moved moved', follow 0.01 chase = .ok (.replaceThen (.motion moved) [chase.node]) ∧
        RunsOn (follow 0.01
          { chase with this := some (.motion moved), queue := some (arrived jump) }) moved' ∧
        moved'.keyframes ≠ moved.keyframes ++ jump.map (copy ⟨0, 0, 0⟩ 1.5 "behind") := by
  have sorted : (paused ++ jump).toList.Pairwise (·.time ≤ ·.time) := by decide +kernel
  obtain ⟨answered, reached', again⟩ := follow_again 0.01 follows_chase rfl finds_pausing
    last?_paused (by decide +kernel) (finds_arrived jump)
  refine ⟨sorted, _, _, answered, again, fun same => ?_⟩
  have all := ((takeOver_since_iff reached' rfl rfl sorted).mp same).2.1
  exact absurd (all ⟨5, 0, 0, 1, "jump", 1.5⟩ (by simp [jump])) (by decide +kernel)

end ProceduralScene.Surroundings
