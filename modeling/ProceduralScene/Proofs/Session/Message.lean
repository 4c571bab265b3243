import ProceduralScene.Proofs.Binary64.Reading
import ProceduralScene.Proofs.Program.Inverse
import ProceduralScene.Session.Message

/-! Control messages as documents. A message comes back as it was sent, with its program and its
target, and so does a program by itself: every node, every description and rule in its place, and
every number. What was once read can be written and read again. -/
namespace ProceduralScene.ControlMessage

open Json (Inverts)

def isFinite : ControlMessage → Bool
  | interprete program requested => program.isFinite && requested.value.isFinite
  | updateRequestedProgress requested => requested.value.isFinite
  | cancel => true

theorem isSound_toJson {m : ControlMessage} (finite : m.isFinite = true) :
    m.toJson.isSound = true := by
  cases m with
  | interprete program requested =>
    simp only [isFinite, Bool.and_eq_true] at finite
    have sound := Program.inverts.isSound program finite.1
    simp [toJson, Json.isSound_obj, sound, Json.isSound.eq_def (.str _),
      Json.isSound.eq_def (.float _), finite.2]
  | updateRequestedProgress requested =>
    rw [isFinite] at finite
    simp [toJson, Json.isSound_obj, Json.isSound.eq_def (.str _), Json.isSound.eq_def (.float _),
      finite]
  | cancel => rfl

theorem isFinite_of_tagged {type : String} {rest : Json} {m : ControlMessage}
    (read : ofTagged type rest = some m) : m.isFinite = true := by
  unfold ofTagged at read
  split at read
  · split at read
    · simp only [Option.pure_def, Option.bind_eq_bind, Option.bind_eq_some_iff] at read
      obtain ⟨program, decoded, requested, number, same⟩ := read
      cases same
      rw [isFinite, Bool.and_eq_true, Progress.value_ofFloat]
      exact ⟨Program.inverts.finite_of_decode _ program decoded, Json.isFinite_of_number? number⟩
    · cases read
  · split at read
    · simp only [Option.pure_def, Option.bind_eq_bind, Option.bind_eq_some_iff] at read
      obtain ⟨requested, number, same⟩ := read
      cases same
      rw [isFinite, Progress.value_ofFloat]
      exact Json.isFinite_of_number? number
    · cases read
  · split at read
    · cases read
    · cases read
      rfl
  · cases read

theorem inverts : Inverts toJson ofJson isFinite where
  isSound _ := isSound_toJson
  decode_encode m finite := by
    unfold ofJson
    rw [if_pos (isSound_toJson finite)]
    cases m with
    | interprete program requested =>
      simp only [isFinite, Bool.and_eq_true] at finite
      have read := Program.inverts.decode_encode program finite.1
      simp [toJson, ofTagged, Json.members, Json.field, read, finite.2,
        Progress.ofFloat_value finite.2]
    | updateRequestedProgress requested =>
      rw [isFinite] at finite
      simp [toJson, ofTagged, Json.members, Json.field, finite, Progress.ofFloat_value finite]
    | cancel => rfl
  finite_of_decode json m read := by
    unfold ofJson at read
    split at read
    · split at read
      · split at read
        · exact isFinite_of_tagged read
        · cases read
      · exact isFinite_of_tagged read
      · cases read
    · cases read

/-- A program or a message with finite numbers is read back as it was written. A program that was
read has finite numbers, and written and read again it is the same. -/
theorem reads_written :
    (∀ p : Program, p.isFinite = true → Program.ofJson p.toJson = some p) ∧
      (∀ m : ControlMessage, m.isFinite = true → ofJson m.toJson = some m) ∧
      ∀ (json : Json) (p : Program), Program.ofJson json = some p →
        p.isFinite = true ∧ Program.ofJson p.toJson = Program.ofJson json := by
  refine ⟨Program.inverts.decode_encode, inverts.decode_encode, fun json p read => ?_⟩
  exact ⟨Program.inverts.finite_of_decode json p read,
    (Program.inverts.reread read).trans read.symm⟩

def miscellany : Program := .ofList [
  ("town", {
    initialVariables := .ofList [("width", .number 0.1), ("seed", .list [.nil, .text "7"])]
    nouns := .ofList [
      ("street", ⟨"a", .sequential "b" [
        .setVariable "c" "width" (.unary "d" .negate (.getVariable "e" "width")),
        .ifElse "f" (.binary "g" .lessEqual (.literal "h" (.number (-0.0))) (.this "i"))
          (.operation "j" "wait" [.literal "k" (.point ⟨0, 1, 2⟩)]) (.parallel "l" [])]⟩),
      ("house", ⟨"m", .stochasticSwitch "n" [0.25, 1e300] [
        .precomputed "o" "clone" [.number 2, .list [.bool true]],
        .switch "p" [[.text "one"], []] [.this "q", .this "r"]]⟩)]
    root := "street" }),
  ("land", {
    initialVariables := .empty
    nouns := .ofList [("all", ⟨"s", .reference "t" "town" "house"⟩)]
    root := "all" })]

theorem miscellany_reads_written :
    miscellany.isFinite = true ∧
      Program.ofJson (Program.toJson miscellany) = some miscellany ∧
      ofJson (interprete miscellany 30).toJson = some (interprete miscellany 30) := by
  have finite : miscellany.isFinite = true := by decide +kernel
  have sent : (interprete miscellany 30).isFinite = true := by decide +kernel
  exact ⟨finite, reads_written.1 miscellany finite, reads_written.2.1 _ sent⟩

end ProceduralScene.ControlMessage
