import ProceduralScene.Json.Settings

/-! What holds of all settings that are accepted. They start as the defaults, and the fields of the
text change them one after another. -/
namespace ProceduralScene.Settings

variable {σ : Type} {P : σ → Prop} {known : List (Field σ)}
  (keeps : ∀ field ∈ known, ∀ s value changed, P s → field.2 s value = .ok changed → P changed)

include keeps

theorem keeps_ofFields {fields : List (String × Json)} {seen : List String} {s accepted : σ}
    (start : P s) (read : ofFields known seen s fields = .ok accepted) : P accepted := by
  induction fields generalizing seen s with
  | nil =>
    cases read
    exact start
  | cons field rest ih =>
    obtain ⟨name, value⟩ := field
    rw [ofFields] at read
    split at read
    · exact ih start read
    next change found =>
      split at read
      · cases read
      · rcases changes : change s value with error | changed <;> rw [changes] at read
        · cases read
        · exact ih (keeps _ (List.mem_of_find?_eq_some found) s value changed start changes) read

theorem keeps_ofItems {part : List (Field σ)} (member : ∀ field ∈ part, field ∈ known)
    {items : List Json} {s accepted : σ} (start : P s)
    (read : ofItems s part items = .ok accepted) : P accepted := by
  induction items generalizing part s with
  | nil =>
    rw [ofItems] at read
    cases read
    exact start
  | cons value rest ih =>
    cases part with
    | nil => cases read
    | cons field part =>
      obtain ⟨name, change⟩ := field
      rw [List.forall_mem_cons] at member
      rw [ofItems] at read
      rcases changes : change s value with error | changed <;> rw [changes] at read
      · cases read
      · exact ih member.2 (keeps _ member.1 s value changed start changes) read

/-- What holds of the defaults and is kept by each field holds of all settings that are read. -/
theorem keeps_ofJson {defaults accepted : σ} {json : Json} (start : P defaults)
    (read : ofJson known defaults json = .ok accepted) : P accepted := by
  unfold ofJson at read
  split at read
  · exact keeps_ofFields keeps start read
  next before =>
    rcases whole : ofFields known [] defaults before with error | accepted' <;>
      rw [whole] at read <;> cases read
  · exact keeps_ofItems keeps (fun _ => id) start read
  · cases read

end ProceduralScene.Settings
