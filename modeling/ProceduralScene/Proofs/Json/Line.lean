import ProceduralScene.Json.Writer
import ProceduralScene.Sha256

/-! Texts that stay on one line. A string of a document escapes its line breaks, and nothing else in
a document has any; so its compact text is a single line, and so is a digest. -/
namespace ProceduralScene

def OneLine (s : String) : Prop := '\n' ∉ s.toList

instance : DecidablePred OneLine := fun s => inferInstanceAs (Decidable ('\n' ∉ s.toList))

namespace OneLine

theorem append {s t : String} (first : OneLine s) (second : OneLine t) : OneLine (s ++ t) := by
  rw [OneLine, String.toList_append, List.mem_append, not_or]
  exact ⟨first, second⟩

theorem push {s : String} {c : Char} (first : OneLine s) (last : c ≠ '\n') :
    OneLine (s.push c) := by
  rw [OneLine, String.toList_push, List.mem_append, not_or, List.mem_singleton]
  exact ⟨first, last.symm⟩

theorem join {texts : List String} (all : ∀ s ∈ texts, OneLine s) :
    OneLine (String.join texts) := by
  rw [OneLine, String.toList_join, List.mem_flatMap]
  rintro ⟨s, member, inside⟩
  exact all s member inside

theorem of_chars {cs : List Char} (all : ∀ c ∈ cs, c ≠ '\n') : OneLine (String.ofList cs) := by
  rw [OneLine, String.toList_ofList]
  exact fun inside => all '\n' inside rfl

theorem digit_ne {n : Nat} {c : Char} (digit : c ∈ Nat.toDigits 10 n) : c ≠ '\n' := by
  rintro rfl
  exact absurd (Nat.isDigit_of_mem_toDigits (by decide) (by decide) digit) (by decide)

theorem natural (n : Nat) : OneLine (toString n) := of_chars fun _ => digit_ne

theorem integer (n : Int) : OneLine (toString n) := by
  cases n with
  | ofNat n => exact natural n
  | negSucc n => exact append (by decide) (natural (n + 1))

theorem hex_ne (n : Nat) : Nat.digitChar n ≠ '\n' := by
  have small : ∀ m < 16, Nat.digitChar m ≠ '\n' := by decide
  rcases Nat.lt_or_ge n 16 with here | beyond
  · exact small n here
  · have star : Nat.digitChar n = '*' := by
      unfold Nat.digitChar
      repeat rw [if_neg (by omega)]
    rw [star]
    decide

end OneLine

namespace Decimal

theorem oneLine_zeros (n : Nat) : OneLine (zeros n) := by
  unfold zeros String.pushn
  induction n with
  | zero => decide
  | succ n ih => exact ih.push (by decide)

section
variable {digits : List Char} (all : ∀ c ∈ digits, c ≠ '\n')

include all

theorem oneLine_positional {mark : String} (marked : OneLine mark) (point : Int) :
    OneLine (positional mark digits point) := by
  have whole : OneLine (String.ofList digits) := .of_chars all
  have part {cs : List Char} (some : ∀ c ∈ cs, c ∈ digits) : OneLine (String.ofList cs) :=
    .of_chars fun c member => all c (some c member)
  unfold positional
  split
  · exact .append (.append (by decide) (oneLine_zeros _)) whole
  · dsimp only
    split
    · exact .append (.append whole (oneLine_zeros _)) marked
    · exact .append (.append (part fun c => List.mem_of_mem_take) (by decide))
        (part fun c => List.mem_of_mem_drop)

theorem oneLine_scientific (power : Int) : OneLine (scientific digits power) := by
  have sign : OneLine (if power < 0 then "e-" else "e+") := by
    split <;> decide
  unfold scientific
  refine .append (.append ?_ sign) (.natural _)
  split
  · decide
  next lead => exact .of_chars all
  next lead rest _ =>
    have first : OneLine lead.toString := .of_chars fun c here => all c (by simp_all)
    have others : OneLine (String.ofList rest) :=
      .of_chars fun c here => all c (List.mem_cons_of_mem _ here)
    exact .append (.append first (by decide)) others

end

theorem oneLine_text {layout : Layout} (marked : OneLine layout.wholeMark) (x : Float) :
    OneLine (layout.text x) := by
  have magnitude (d : Binary64.Dyadic) : OneLine (layout.magnitude d) := by
    unfold Layout.magnitude
    split
    · exact .append (by decide) marked
    · dsimp only
      split
      · exact oneLine_positional (fun _ => OneLine.digit_ne) marked _
      · exact oneLine_scientific (fun _ => OneLine.digit_ne) _
  unfold Layout.text
  split
  · decide
  · dsimp only
    refine .append ?_ ?_
    · split <;> decide
    · split
      · decide
      · exact magnitude _

end Decimal

namespace Json

theorem oneLine_escaped (c : Char) : OneLine (escaped c) := by
  by_cases broken : c = '\n'
  · subst broken
    decide
  · unfold escaped
    split
    iterate 7 decide
    split
    · exact .append (by decide) (.of_chars (by simp [OneLine.hex_ne]))
    · exact .of_chars (by simpa using broken)

theorem oneLine_quoted (s : String) : OneLine (quoted s) := by
  unfold quoted
  refine .append ?_ (by decide)
  rw [String.foldl_eq_foldl_toList]
  generalize s.toList = cs
  have begun : OneLine "\"" := by decide
  generalize "\"" = done at begun
  induction cs generalizing done with
  | nil => exact begun
  | cons c rest ih => exact ih _ (begun.append (oneLine_escaped c))

mutual

theorem oneLine_write : ∀ (value : Json) (done : String), OneLine done → OneLine (write done value)
  | .null, done, begun => begun.append (by decide)
  | .bool b, done, begun => by
    rw [write]
    exact begun.append (by cases b <;> decide)
  | .int n, done, begun => begun.append (.integer n)
  | .float x, done, begun => by
    rw [write]
    refine begun.append ?_
    split
    · exact Decimal.oneLine_text (by decide) x
    · decide
  | .str s, done, begun => begun.append (oneLine_quoted s)
  | .arr [], done, begun => begun.append (by decide)
  | .arr (item :: rest), done, begun =>
    (oneLine_writeItems rest _ (oneLine_write item _ (begun.append (by decide)))).append (by decide)
  | .obj [], done, begun => begun.append (by decide)
  | .obj ((name, value) :: rest), done, begun =>
    (oneLine_writeFields rest _ (oneLine_write value _
      (((begun.append (by decide)).append (oneLine_quoted name)).append (by decide)))).append
        (by decide)
  | .flawed _, done, begun => begun.append (by decide)

theorem oneLine_writeItems : ∀ (items : List Json) (done : String), OneLine done →
    OneLine (writeItems done items)
  | [], done, begun => begun
  | item :: rest, done, begun =>
    oneLine_writeItems rest _ (oneLine_write item _ (begun.append (by decide)))

theorem oneLine_writeFields : ∀ (fields : List (String × Json)) (done : String), OneLine done →
    OneLine (writeFields done fields)
  | [], done, begun => begun
  | (name, value) :: rest, done, begun =>
    oneLine_writeFields rest _ (oneLine_write value _
      (((begun.append (by decide)).append (oneLine_quoted name)).append (by decide)))

end

theorem oneLine_compact (value : Json) : OneLine value.compact := oneLine_write value "" (by decide)

end Json

theorem Sha256.oneLine_digest (text : String) : OneLine (digest text) := by
  refine .join fun s member => ?_
  obtain ⟨word, _, rfl⟩ := List.mem_map.mp member
  refine .of_chars fun c member => ?_
  obtain ⟨i, _, rfl⟩ := List.mem_map.mp member
  exact OneLine.hex_ne _

end ProceduralScene
