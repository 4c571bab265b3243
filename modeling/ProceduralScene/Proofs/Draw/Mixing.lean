import ProceduralScene.Proofs.Draw.Interval

/-! Hashing loses nothing until it drops bits. Every step of it is one to one on the state that it
works on: an odd factor has an inverse, a word can be read off its sum with its own shift, and each
of the two words is mixed with one that is known by then. A single unit therefore makes a difference
that all later units carry on. -/
namespace ProceduralScene.Draw

/-! Words. -/

theorem eq_of_mul_eq {x y factor : UInt32} (inverse : UInt32) (one : factor * inverse = 1)
    (same : x * factor = y * factor) : x = y :=
  calc x = x * factor * inverse := by rw [UInt32.mul_assoc, one, UInt32.mul_one]
    _ = y * factor * inverse := by rw [same]
    _ = y := by rw [UInt32.mul_assoc, one, UInt32.mul_one]

theorem eq_zero_of_eq_shiftRight {x shift : UInt32} (shifts : shift.toNat % 32 ≠ 0)
    (same : x = x >>> shift) : x = 0 := by
  have value := congrArg UInt32.toNat same
  rw [UInt32.toNat_shiftRight, Nat.shiftRight_eq_div_pow] at value
  have zero : x.toNat = 0 := by
    by_contra positive
    have := Nat.div_lt_self (Nat.pos_of_ne_zero positive) (Nat.one_lt_two_pow shifts)
    omega
  exact UInt32.toNat_inj.mp zero

theorem eq_of_xor_shiftRight_eq {x y shift : UInt32} (shifts : shift.toNat % 32 ≠ 0)
    (same : x ^^^ (x >>> shift) = y ^^^ (y >>> shift)) : x = y := by
  -- the two words differ by the shift of what they differ by
  refine UInt32.xor_eq_zero_iff.mp (eq_zero_of_eq_shiftRight shifts ?_)
  have cancel (a b : UInt32) : a ^^^ (a ^^^ b) = b := by
    rw [← UInt32.xor_assoc, UInt32.xor_self, UInt32.zero_xor]
  calc x ^^^ y = x >>> shift ^^^ (x ^^^ (x >>> shift)) ^^^ y := by
        rw [UInt32.xor_comm x (x >>> shift), cancel]
    _ = x >>> shift ^^^ (y ^^^ (y >>> shift)) ^^^ y := by rw [same]
    _ = x >>> shift ^^^ y >>> shift := by
        rw [UInt32.xor_assoc, UInt32.xor_comm (y ^^^ _) y, cancel]
    _ = (x ^^^ y) >>> shift := UInt32.shiftRight_xor.symm

theorem mix_injective (other : UInt32) : Function.Injective (mix · other) := by
  intro x y same
  have product := (UInt32.xor_left_inj _).mp same
  exact eq_of_xor_shiftRight_eq (by decide) (eq_of_mul_eq 2781581891 (by decide) product)

/-! States. -/

namespace State

@[ext] theorem ext {s t : State} (first : s.first = t.first) (second : s.second = t.second) :
    s = t := by
  cases s
  cases t
  exact congrArg₂ State.mk first second

theorem xor_eq_of_absorb_eq {s t : State} {x y : UInt16} (same : s.absorb x = t.absorb y) :
    s.first ^^^ x.toUInt32 = t.first ^^^ y.toUInt32 ∧
      s.second ^^^ x.toUInt32 = t.second ^^^ y.toUInt32 := by
  obtain ⟨first, second⟩ := State.mk.inj same
  exact ⟨eq_of_mul_eq 244002641 (by decide) first, eq_of_mul_eq 851723965 (by decide) second⟩

theorem absorb_injective (unit : UInt16) : Function.Injective (absorb · unit) := by
  intro s t same
  obtain ⟨first, second⟩ := xor_eq_of_absorb_eq same
  exact ext ((UInt32.xor_left_inj _).mp first) ((UInt32.xor_left_inj _).mp second)

theorem absorb_unit_injective (s : State) : Function.Injective s.absorb := by
  intro x y same
  exact UInt16.toUInt32_inj.mp ((UInt32.xor_right_inj _).mp (xor_eq_of_absorb_eq same).1)

theorem absorbAll_injective (units : List UInt16) :
    Function.Injective fun s : State => units.foldl absorb s := by
  induction units with
  | nil => exact Function.injective_id
  | cons unit rest ih => exact ih.comp (absorb_injective unit)

/-- The second word is mixed with the first one as it comes out, so it is found first. -/
theorem finish_injective : Function.Injective finish := by
  intro s t same
  obtain ⟨first, second⟩ := State.mk.inj same
  rw [first] at second
  have second := mix_injective _ second
  rw [second] at first
  exact ext (mix_injective _ first) second

end State

/-! Texts. -/

/-- Two lists of the same length that have different elements at exactly one place. -/
def DifferOnce {α : Type} (a b : List α) : Prop :=
  a.length = b.length ∧ ∃! i : ℕ, a[i]? ≠ b[i]?

theorem DifferOnce.split {α : Type} {a b : List α} (differ : DifferOnce a b) :
    ∃ before x y after, x ≠ y ∧ a = before ++ x :: after ∧ b = before ++ y :: after := by
  obtain ⟨length, i, differs, only⟩ := differ
  have inside : i < a.length := by
    by_contra outside
    exact differs (by rw [List.getElem?_eq_none (by omega), List.getElem?_eq_none (by omega)])
  have inside' : i < b.length := by omega
  have agree (j : ℕ) (other : j ≠ i) : a[j]? = b[j]? := by
    by_contra differs'
    exact other (only j differs')
  have before : a.take i = b.take i := by
    apply List.ext_getElem?
    intro j
    rw [List.getElem?_take, List.getElem?_take]
    split_ifs with less
    · exact agree j (by omega)
    · rfl
  have after : a.drop (i + 1) = b.drop (i + 1) := by
    apply List.ext_getElem?
    intro j
    rw [List.getElem?_drop, List.getElem?_drop]
    exact agree _ (by omega)
  refine ⟨a.take i, a[i], b[i], a.drop (i + 1), ?_, ?_, ?_⟩
  · rwa [List.getElem?_eq_getElem inside, List.getElem?_eq_getElem inside', Ne,
      Option.some_inj] at differs
  · rw [List.getElem_cons_drop, List.take_append_drop]
  · rw [before, after, List.getElem_cons_drop, List.take_append_drop]

theorem mixed_ne_of_differOnce (seed : UInt32) {a b : String}
    (differ : DifferOnce (Text.units16 a) (Text.units16 b)) : mixed seed a ≠ mixed seed b := by
  obtain ⟨before, x, y, after, different, left, right⟩ := differ.split
  intro same
  have absorbed := State.finish_injective same
  rw [left, right, List.foldl_append, List.foldl_append, List.foldl_cons, List.foldl_cons]
    at absorbed
  exact different (State.absorb_unit_injective _ (State.absorbAll_injective after absorbed))

theorem hash53_lt (seed : UInt32) (text : String) : hash53 seed text < range :=
  State.toNat53_lt _

/-- A hash has 53 bits, its draw lies in `[0, 1)`, and the state that it is taken from tells apart
any two texts with one unit of difference. -/
theorem hash_separates (seed : UInt32) (text : String) :
    hash53 seed text < 2 ^ 53 ∧ (0 ≤ unit (hash53 seed text) ∧ unit (hash53 seed text) < 1) ∧
      ∀ other, DifferOnce (Text.units16 text) (Text.units16 other) →
        mixed seed text ≠ mixed seed other :=
  ⟨hash53_lt seed text, ⟨unit_nonneg (hash53_lt seed text), unit_lt_one (hash53_lt seed text)⟩,
    fun _ differ => mixed_ne_of_differOnce seed differ⟩

theorem siblings_separate :
    DifferOnce (Text.units16 "00") (Text.units16 "01") ∧ mixed 0 "00" ≠ mixed 0 "01" := by
  have differ : DifferOnce (Text.units16 "00") (Text.units16 "01") := by
    refine ⟨rfl, 1, by decide, fun i differs => ?_⟩
    match i with
    | 0 => exact absurd rfl differs
    | 1 => rfl
    | _ + 2 => exact absurd rfl differs
  exact ⟨differ, (hash_separates 0 "00").2.2 "01" differ⟩

end ProceduralScene.Draw
