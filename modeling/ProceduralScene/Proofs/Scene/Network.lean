import ProceduralScene.Proofs.Binary64.Arithmetic
import ProceduralScene.Proofs.Queue.Reading
import ProceduralScene.Proofs.Scene.Coherence

/-! The network of a kind is made of the finished pathways of that kind and of nothing else. The
cache has one key for each kind, so readers of other kinds do not come into it; what a reader is
given lists the stretches of those pathways one after another, in the order in which they
retired. -/
namespace ProceduralScene

open Binary64 in
theorem Point.distance_self {p : Point} (x : p.x.isFinite = true) (y : p.y.isFinite = true)
    (z : p.z.isFinite = true) : p.distance p = 0 := by
  have zero : rounded 0 = 0 := by
    have double := isDouble_zero
    rwa [IsDouble, Int.cast_zero] at double
  have finite {d : Float} (none : units d = 0) : d.isFinite = true := by
    rw [isFinite_iff, none]
    exact overflow_pos
  have square {c : Float} (number : c.isFinite = true) : units ((c - c) * (c - c)) = 0 := by
    have none : units (c - c) = 0 := by rw [units_sub number number, sub_self, Int.cast_zero, zero]
    rw [units_mul (finite none) (finite none), none, Int.cast_zero, zero_mul, zero_div, zero]
  have sum {a b : Float} (left : units a = 0) (right : units b = 0) : units (a + b) = 0 := by
    rw [units_add (finite left) (finite right), left, right, add_zero, Int.cast_zero, zero]
  have none : (p.squaredDistance p == 0) = true := by
    rw [beq_iff, units_zero, squaredDistance, sum (sum (square x) (square y)) (square z)]
    exact ⟨rfl, overflow_pos.le⟩
  rw [distance, if_pos none]

namespace Pathway

/-- The stretches of a pathway: one to each next point, as wide as the two points on average, or
the only point itself. -/
structure Stretches (p : Pathway) (segments : List Segment) : Prop where
  none : p.points = [] → segments = []
  single : ∀ only, p.points = [only] → segments = [⟨only.position, only.position, only.size⟩] ∧
    (only.x.isFinite = true → only.y.isFinite = true → ∀ s ∈ segments, s.length = 0)
  count : 2 ≤ p.points.length → segments.length + 1 = p.points.length
  pair : 2 ≤ p.points.length → ∀ i a b, p.points[i]? = some a → p.points[i + 1]? = some b →
    segments[i]? = some ⟨a.position, b.position, (a.size + b.size) / 2⟩

theorem segments_of_two {p : Pathway} (two : 2 ≤ p.points.length) :
    p.segments = p.points.zipWith
      (fun a b => ⟨a.position, b.position, (a.size + b.size) / 2⟩) p.points.tail := by
  unfold segments
  split
  next only single =>
    rw [single, List.length_singleton] at two
    omega
  · rfl

theorem stretches_segments (p : Pathway) : p.Stretches p.segments where
  none empty := by
    rw [segments, empty]
    rfl
  single only single := by
    have alone : p.segments = [⟨only.position, only.position, only.size⟩] := by
      rw [segments, single]
    refine ⟨alone, fun x y s member => ?_⟩
    rw [alone, List.mem_singleton] at member
    subst member
    have ground : Float.isFinite 0 = true := by decide +kernel
    exact Point.distance_self x y ground
  count two := by
    rw [segments_of_two two, List.length_zipWith, List.length_tail]
    omega
  pair two i a b here next := by
    have tail : p.points.tail[i]? = some b := by rw [List.getElem?_tail, next]
    rw [segments_of_two two, List.getElem?_zipWith, here, tail]

theorem segments_eq_nil {p : Pathway} : p.segments = [] ↔ p.points = [] := by
  have stretches := p.stretches_segments
  refine ⟨fun nothing => ?_, stretches.none⟩
  rcases split : p.points with _ | ⟨only, _ | ⟨next, rest⟩⟩
  · rfl
  · have given := (stretches.single only split).1
    rw [nothing] at given
    cases given
  · have count := stretches.count (by rw [split, List.length_cons, List.length_cons]; omega)
    rw [nothing, split, List.length_cons, List.length_cons, List.length_nil] at count
    omega

end Pathway

namespace Network

def pathways (kind : String) (entries : List Entry) : List Pathway :=
  (entries.filterMap (·.payload.pathway?)).filter (·.kind == kind)

theorem mem_pathways {kind : String} {entries : List Entry} {p : Pathway} :
    p ∈ pathways kind entries ↔
      (∃ entry ∈ entries, entry.payload = .pathway p) ∧ p.kind = kind := by
  have given (payload : Payload) : payload.pathway? = some p ↔ payload = .pathway p := by
    cases payload <;> simp [Payload.pathway?]
  simp only [pathways, List.mem_filter, List.mem_filterMap, given, beq_iff_eq]

theorem segmentsOf_eq (kind : String) (entries : List Entry) :
    segmentsOf kind entries = (pathways kind entries).flatMap Pathway.segments := by
  unfold segmentsOf pathways
  induction entries.filterMap (·.payload.pathway?) with
  | nil => rfl
  | cons p rest ih =>
    rw [List.flatMap_cons, List.filter_cons, ih]
    cases p.kind == kind <;> rfl

theorem pathways_filter (kind : String) (entries : List Entry) :
    pathways kind (entries.filter (isSource kind)) = pathways kind entries := by
  unfold pathways
  induction entries with
  | nil => rfl
  | cons entry rest ih =>
    cases found : entry.payload.pathway? with
    | none => simp [isSource, found, ih]
    | some p =>
      cases own : p.kind == kind <;> simp [isSource, found, own, ih]

theorem pathways_eq_nil {kind : String} {entries : List Entry} :
    pathways kind entries = [] ↔ ∀ entry ∈ entries, isSource kind entry = false := by
  rw [pathways, List.filter_eq_nil_iff]
  simp only [List.mem_filterMap, forall_exists_index, and_imp, isSource]
  refine ⟨fun none entry member => ?_, fun none p entry member found => ?_⟩
  · cases found : entry.payload.pathway? with
    | none => rfl
    | some p => simpa using none p entry member found
  · simpa [found] using none entry member

/-- The network of a kind that belongs to some finished entries. -/
structure Collects (kind : String) (entries : List Entry) (network : Option Network) : Prop where
  found : network.isSome = true ↔
    ∃ entry ∈ entries, ∃ p, entry.payload = .pathway p ∧ p.kind = kind ∧ p.points ≠ []
  named : ∀ n ∈ network, n.kind = kind
  segments : ∀ n ∈ network, ∃ parts, (pathways kind entries).Forall₂ Pathway.Stretches parts ∧
    n.segments = parts.flatten
  total : ∀ n ∈ network,
    n.totalLength = (n.segments.map Segment.length).foldl (fun sum next => sum + next) 0

theorem segmentsOf_ne_nil {kind : String} {entries : List Entry} :
    segmentsOf kind entries ≠ [] ↔
      ∃ entry ∈ entries, ∃ p, entry.payload = .pathway p ∧ p.kind = kind ∧ p.points ≠ [] := by
  rw [segmentsOf_eq, Ne, List.flatMap_eq_nil_iff]
  simp only [Pathway.segments_eq_nil, not_forall, exists_prop, mem_pathways]
  constructor
  · rintro ⟨p, ⟨⟨entry, member, given⟩, own⟩, some⟩
    exact ⟨entry, member, p, given, own, some⟩
  · rintro ⟨entry, member, p, given, own, some⟩
    exact ⟨p, ⟨⟨entry, member, given⟩, own⟩, some⟩

theorem collects_build (kind : String) (entries : List Entry) :
    Collects kind entries (build kind entries) := by
  have built : segmentsOf kind entries = ((pathways kind entries).map Pathway.segments).flatten :=
    segmentsOf_eq kind entries
  have parts : (pathways kind entries).Forall₂ Pathway.Stretches
      ((pathways kind entries).map Pathway.segments) := by
    rw [List.forall₂_map_right_iff, List.forall₂_same]
    exact fun p _ => p.stretches_segments
  by_cases some : segmentsOf kind entries ≠ []
  · rw [build, dif_pos some]
    refine ⟨iff_of_true rfl (segmentsOf_ne_nil.mp some), ?_, ?_, ?_⟩
    · rintro n ⟨⟩
      rfl
    · rintro n ⟨⟩
      exact ⟨_, parts, built⟩
    · rintro n ⟨⟩
      rfl
  · rw [build, dif_neg some]
    exact ⟨iff_of_false Bool.false_ne_true (some ∘ segmentsOf_ne_nil.mpr), nofun, nofun, nofun⟩

theorem build_congr {kind : String} {entries others : List Entry}
    (same : pathways kind entries = pathways kind others) :
    build kind entries = build kind others := by
  have segments : segmentsOf kind entries = segmentsOf kind others := by
    rw [segmentsOf_eq, segmentsOf_eq, same]
  simp only [build, segments]

inductive Visit where
  | push (entry : Entry) (progress : Progress)
  | pop
  | read (kind : String)

variable {α : Type} [Holds α Network]

def visit (q : Queue α) : Visit → Queue α
  | .push entry progress => q.push entry progress
  | .pop => (q.pop.map (·.2)).getD q
  | .read kind => (cached q kind).2

def visited (visits : List Visit) : Queue α := visits.foldl visit .empty

/-- What a call for a kind gives after some visits. -/
def answer (α : Type) [Holds α Network] (visits : List Visit) (kind : String) : Reading Network :=
  (cached (visited visits : Queue α) kind).1

def Visit.retired? : Visit → Option Entry
  | push entry _ => if entry.pending = [] then some entry else none
  | _ => none

def finished (kind : String) (visits : List Visit) : List Pathway :=
  pathways kind (visits.filterMap Visit.retired?)

/-! The kinds read under the keys of the cache, so that what is known of readers applies. -/

def kindOf (key : String) : String := .ofList (key.toList.drop (cacheKey "").length)

theorem kindOf_cacheKey (kind : String) : kindOf (cacheKey kind) = kind := by
  rw [kindOf, cacheKey, cacheKey, String.append_empty, String.toList_append, ← String.length_toList,
    List.drop_left, String.ofList_toList]

def reader (α : Type) [Holds α Network] (key : String) : Reader α where
  holds := inferInstanceAs (Holds α Network)
  accepts := isSource (kindOf key)
  build := build (kindOf key)

def Visit.general : Visit → Queue.Visit
  | push entry progress => .push entry progress
  | pop => .pop
  | read kind => .read (cacheKey kind)

theorem visited_eq (visits : List Visit) :
    visited visits = Queue.visited (reader α) (visits.map Visit.general) := by
  have step : visit (α := α) = fun q v => q.use (v.general.use (reader α)) := by
    funext q v
    cases v with
    | push entry progress => rfl
    | pop => rfl
    | read kind =>
      simp only [visit, Visit.general, Queue.Visit.use, Queue.use, reader, kindOf_cacheKey]
      rfl
  rw [visited, step, Queue.visited, Queue.used, List.map_map, List.foldl_map]
  rfl

theorem answer_eq (visits : List Visit) (kind : String) :
    answer α visits kind =
      Queue.answer (reader α) (visits.map Visit.general) (cacheKey kind) := by
  rw [answer, cached, Queue.answer, ← visited_eq]
  simp only [reader, kindOf_cacheKey]
  rfl

theorem retirements_general (visits : List Visit) :
    Queue.retirements (visits.map Visit.general) = visits.filterMap Visit.retired? := by
  have same : (fun v : Visit => v.general.retired?) = Visit.retired? := by
    funext v
    cases v <;> rfl
  rw [Queue.retirements, List.filterMap_map]
  exact congrArg (List.filterMap · visits) same

theorem retired_visited (visits : List Visit) :
    (visited visits : Queue α).retired = visits.filterMap Visit.retired? := by
  rw [visited_eq, Queue.retired, Queue.results_visited, retirements_general]

theorem answer_artifact (visits : List Visit) (kind : String) :
    (answer α visits kind).artifact = build kind (visited visits : Queue α).retired := by
  have fresh := Queue.fresh_visited (reader α) (cacheKey kind) (visits.map Visit.general)
  rw [answer_eq, Queue.answer, Queue.cached_artifact fresh, ← visited_eq]
  simp only [reader, kindOf_cacheKey]
  exact build_congr (pathways_filter kind _)

/-- What the readers of a kind share, whatever else is done with the queue. -/
structure Shares (α : Type) [Holds α Network] (visits : List Visit) (kind : String) : Prop where
  retired : (visited visits : Queue α).retired = visits.filterMap Visit.retired?
  collects : Collects kind (visited visits : Queue α).retired (answer α visits kind).artifact
  alone : ∀ others, finished kind others = finished kind visits →
    (answer α others kind).artifact = (answer α visits kind).artifact
  still : ∀ earlier since, visits = earlier ++ .read kind :: since → .read kind ∉ since →
    finished kind since = [] → (answer α visits kind).rebuilt = false ∧
      (answer α visits kind).builtAt = (answer α earlier kind).builtAt ∧
      (answer α visits kind).artifact = (answer α earlier kind).artifact

theorem visited_shares (visits : List Visit) (kind : String) : Shares α visits kind where
  retired := retired_visited visits
  collects := by
    rw [answer_artifact]
    exact collects_build kind _
  alone others same := by
    rw [answer_artifact, answer_artifact, retired_visited, retired_visited]
    exact build_congr same
  still earlier since split last none := by
    have general : visits.map Visit.general =
        earlier.map Visit.general ++ .read (cacheKey kind) :: since.map Visit.general := by
      rw [split, List.map_append, List.map_cons, Visit.general]
    have unread : Queue.Visit.read (cacheKey kind) ∉ since.map Visit.general := by
      rw [List.mem_map]
      rintro ⟨v, member, same⟩
      cases v with
      | read other =>
        cases cacheKey_inj.mp (Queue.Visit.read.inj same)
        exact last member
      | push entry progress => cases same
      | pop => cases same
    rw [answer_eq, answer_eq]
    rcases Queue.answer_again (reader α) general unread with ⟨⟨entry, member, accepted⟩, _⟩ | kept
    · rw [retirements_general] at member
      simp only [reader, kindOf_cacheKey, pathways_eq_nil.mp none entry member] at accepted
      cases accepted
    · exact kept.2

def crossing : List Visit :=
  let path (kind : String) (points : List PathwayPoint) : Visit :=
    .push ⟨kind, ⟨.pathway ⟨points, kind⟩, .empty⟩, "0", []⟩ .static
  [.read "street", path "street" [⟨0, 0, 4, "a"⟩, ⟨10, 0, 4, "b"⟩, ⟨10, 10, 2, "c"⟩],
    path "footwalk" [⟨3, 4, 2, "d"⟩], .read "street", .pop]

example : ((answer Network crossing "street").artifact.map fun n =>
    (n.segments.length, n.totalLength == 20)) = some (2, true) := by decide +kernel

end Network
end ProceduralScene
