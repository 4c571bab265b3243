import ProceduralScene.Proofs.Scene.Replies
import ProceduralScene.Proofs.Scene.Slicing

/-! The custody of a run. Whoever holds the valid token may continue the run, and nobody else. Which
token that is can be told from the calls and their answers alone: the last one issued, unless it has
been used or something has happened since that makes it void. Tokens that are void stay void,
whatever calls follow, in later runs as well. -/
namespace ProceduralScene

variable {α β : Type}

structure Exchange (α β : Type) where
  before : Interpreter α β
  fuel : Nat
  command : Command

namespace Exchange

variable (x : Exchange α β)

def answer : Option (Except Fault (Report β)) := (x.before.perform x.fuel x.command).1

def after : Interpreter α β := (x.before.perform x.fuel x.command).2

def Accepted : Prop := x.before.refusal? x.command = none

def Begins : Prop := x.Accepted ∧ ∃ program requested, x.command = .begin program requested

def Issues (token : Token) : Prop :=
  ∃ report, x.answer = some (.ok report) ∧ report.token = some token

def Uses (token : Token) : Prop := x.Accepted ∧ x.command = .go (.resume token)

def Fails : Prop := x.Accepted ∧ ∃ error, x.answer = some (.error (.error error))

inductive Voids (token : Token) : Prop where
  | newer {other : Token} (issued : x.Issues other)
  | used (uses : x.Uses token)
  | cancelled (called : x.command = .go .cancel)
  | moved {requested : Progress} (accepted : x.Accepted)
    (called : x.command = .go (.request requested))
  | failed (fails : x.Fails)

end Exchange

/-- Some exchange was a `P`, and none since was a `Q`. -/
def Standing (P Q : Exchange α β → Prop) (past : List (Exchange α β)) : Prop :=
  ∃ earlier x later, past = earlier ++ x :: later ∧ P x ∧ ∀ y ∈ later, ¬Q y

def Valid (past : List (Exchange α β)) (token : Token) : Prop :=
  Standing (Exchange.Issues · token) (Exchange.Voids · token) past

def Stopped (past : List (Exchange α β)) : Prop := Standing Exchange.Fails Exchange.Begins past

/-- The calls that an interpreter of an engine has answered since it was made, and what it is
after them. -/
inductive Conversation (g : Engine α β) : List (Exchange α β) → Interpreter α β → Prop where
  | opened (clock : Clock) (trace : Option (Array Event)) :
    Conversation g [] { engine := g, clock, world := { trace } }
  | called {past : List (Exchange α β)} {i : Interpreter α β} (talk : Conversation g past i)
    (fuel : Nat) (command : Command)
    (answered : (i.perform fuel command).1 ≠ some (.error .outOfFuel)) :
    Conversation g (past ++ [⟨i, fuel, command⟩]) (i.perform fuel command).2

namespace Exchange

structure TakenUp (x : Exchange α β) : Prop where
  accepted : x.Accepted
  goes : x.command ≠ .go .cancel
  engine : x.after.engine = x.before.engine
  known : x.after.program.isSome = true

/-- What an exchange can do, refusals and failures included. -/
inductive Handled (x : Exchange α β) : Prop where
  | refused {error : EvalError} (why : x.before.refusal? x.command = some error)
    (answer : x.answer = some (.error (.error error))) (after : x.after = x.before)
  | cancelled (called : x.command = .go .cancel) (answer : x.answer = none)
    (after : x.after = { x.before with pending := none })
  | stayed (takenUp : x.TakenUp) {report : Report β} (answer : x.answer = some (.ok report))
    (token : report.token = none) (running : x.after.halted = false)
    (pending : x.after.pending = none) (issued : x.after.issued = x.before.issued)
  | handed (takenUp : x.TakenUp) {report : Report β} (answer : x.answer = some (.ok report))
    (token : report.token = some ⟨x.before.issued + 1⟩) (running : x.after.halted = false)
    (pending : x.after.pending = some (x.before.issued + 1))
    (issued : x.after.issued = x.before.issued + 1)
  | failed (takenUp : x.TakenUp) {error : EvalError}
    (answer : x.answer = some (.error (.error error)))
    (candid : x.before.engine.Candid → error.isRefusal = false) (halted : x.after.halted = true)
    (pending : x.after.pending = none) (issued : x.after.issued = x.before.issued)

variable {x : Exchange α β}

theorem handled (answered : x.answer ≠ some (.error .outOfFuel)) : x.Handled := by
  cases why : x.before.refusal? x.command with
  | some error =>
    have same := Interpreter.perform_of_refused why x.fuel
    exact .refused why (congrArg Prod.fst same) (congrArg Prod.snd same)
  | none =>
    by_cases goes : x.command = .go .cancel
    · refine .cancelled goes ?_ ?_ <;>
        simp only [answer, after, goes, Interpreter.perform, Interpreter.control,
          Interpreter.cancel]
    obtain ⟨entered, program, ⟨takesUp, _, _, _⟩, performed⟩ :=
      Interpreter.perform_of_accepted why goes x.fuel
    have takenUp (engine : x.after.engine = entered.engine)
        (same : x.after.program = entered.program) : x.TakenUp :=
      ⟨why, goes, engine.trans takesUp.engine, by rw [same, takesUp.program]; rfl⟩
    rcases performed with performed | ⟨_, error, queue, _, seeded, performed⟩
    · have first : x.answer = some (entered.run x.fuel program).1 := congrArg Prod.fst performed
      have second : x.after = (entered.run x.fuel program).2 := congrArg Prod.snd performed
      rcases ran : entered.run x.fuel program with ⟨(error | _) | report, after⟩
      · rw [ran] at first second
        obtain ⟨⟨w, rfl⟩, candid⟩ := Interpreter.run_fails ran
        rw [takesUp.engine] at candid
        refine .failed (takenUp ?_ ?_) first candid ?_ ?_ ?_ <;> rw [second]
        all_goals first | rfl | exact takesUp.issued
      · rw [ran] at first
        exact absurd first answered
      · rw [ran] at first second
        obtain ⟨engine, known, halted, token⟩ := Interpreter.run_reports ran
        rw [takesUp.running] at halted
        rw [takesUp.issued] at token
        subst second
        rcases token with ⟨none, pending, issued⟩ | ⟨token, pending, issued⟩
        · exact .stayed (takenUp engine known) first none halted pending issued
        · exact .handed (takenUp engine known) first token halted pending issued
    · have first : x.answer = some (.error (.error error)) := congrArg Prod.fst performed
      have second : x.after = entered.halt entered.world := congrArg Prod.snd performed
      refine .failed (takenUp ?_ ?_) first (fun candid => candid.seed_error seeded) ?_ ?_ ?_ <;>
        rw [second]
      all_goals first | rfl | exact takesUp.issued

theorem TakenUp.voids (takenUp : x.TakenUp) {token : Token}
    (valid : x.before.pending = some token.number) : x.Voids token := by
  obtain ⟨accepted, goes, _, _⟩ := takenUp
  have why := accepted
  cases command : x.command with
  | begin program requested =>
    rw [Accepted, command] at why
    simp [Interpreter.refusal?, Interpreter.isRunning, valid] at why
  | go control =>
    cases control with
    | resume other =>
      refine .used ⟨accepted, ?_⟩
      rw [Accepted, command] at why
      simp only [Interpreter.refusal?, valid, Option.some.injEq, ne_eq] at why
      split at why
      · cases why
      · by_cases same : token.number = other.number
        · obtain ⟨number⟩ := token
          obtain ⟨number'⟩ := other
          cases same
          exact command
        · rw [if_pos same] at why
          cases why
    | request requested => exact .moved accepted command
    | cancel => exact absurd command goes

theorem not_begins_of_cancelled (called : x.command = .go .cancel) : ¬x.Begins := by
  rintro ⟨_, _, _, begins⟩
  cases called.symm.trans begins

theorem TakenUp.begins (takenUp : x.TakenUp) (halted : x.before.halted = true) : x.Begins := by
  obtain ⟨accepted, goes, _, _⟩ := takenUp
  refine ⟨accepted, ?_⟩
  rw [Accepted] at accepted
  cases command : x.command with
  | begin program requested => exact ⟨program, requested, rfl⟩
  | go control =>
    rw [command] at accepted
    cases control with
    | resume token => simp [Interpreter.refusal?, halted] at accepted
    | request requested =>
      simp only [Interpreter.refusal?, halted, if_true] at accepted
      split at accepted <;> cases accepted
    | cancel => exact absurd command goes

theorem Handled.issues_iff (handled : x.Handled) (token : Token) :
    x.Issues token ↔
      x.after.issued = x.before.issued + 1 ∧ token.number = x.before.issued + 1 := by
  cases handled with
  | refused why answer after =>
    refine iff_of_false ?_ (by rw [after]; omega)
    rintro ⟨report, answer', _⟩
    cases answer.symm.trans answer'
  | cancelled called answer after =>
    refine iff_of_false ?_ (by simp only [after]; omega)
    rintro ⟨report, answer', _⟩
    cases answer.symm.trans answer'
  | stayed takenUp answer none running pending issued =>
    refine iff_of_false ?_ (by omega)
    rintro ⟨report, answer', given⟩
    cases answer.symm.trans answer'
    cases none.symm.trans given
  | handed takenUp answer handed running pending issued =>
    constructor
    · rintro ⟨report, answer', given⟩
      cases answer.symm.trans answer'
      cases handed.symm.trans given
      exact ⟨issued, rfl⟩
    · rintro ⟨_, number⟩
      exact ⟨_, answer, by rw [handed, ← number]⟩
  | failed takenUp answer candid halted pending issued =>
    refine iff_of_false ?_ (by omega)
    rintro ⟨report, answer', _⟩
    cases answer.symm.trans answer'

theorem Handled.issued_le (handled : x.Handled) : x.before.issued ≤ x.after.issued := by
  cases handled with
  | refused why answer after => exact Nat.le_of_eq (by rw [after])
  | cancelled called answer after => exact Nat.le_of_eq (by rw [after])
  | stayed takenUp answer none running pending issued => omega
  | handed takenUp answer handed running pending issued => omega
  | failed takenUp answer candid halted pending issued => omega

/-- The valid token after an exchange: the one just issued, or the old one if it is not void. -/
theorem Handled.pending_iff (handled : x.Handled) (token : Token) :
    x.after.pending = some token.number ↔
      x.Issues token ∨ (x.before.pending = some token.number ∧ ¬x.Voids token) := by
  have issues := handled.issues_iff token
  cases handled with
  | refused why answer after =>
    have silent : ¬x.Issues token := by rw [issues, after]; omega
    have kept : ¬x.Voids token := by
      intro voids
      cases voids with
      | newer issued =>
        obtain ⟨report, answer', _⟩ := issued
        cases answer.symm.trans answer'
      | used uses => cases why.symm.trans uses.1
      | cancelled called => rw [called] at why; cases why
      | moved accepted called => cases why.symm.trans accepted
      | failed fails => cases why.symm.trans fails.1
    rw [after]
    exact ⟨fun valid => .inr ⟨valid, kept⟩, fun cases => (cases.resolve_left silent).1⟩
  | cancelled called answer after =>
    have silent : ¬x.Issues token := by rw [issues]; simp only [after]; omega
    refine iff_of_false (by rw [after]; exact nofun) (not_or.mpr ⟨silent, ?_⟩)
    exact fun ⟨_, kept⟩ => kept (.cancelled called)
  | stayed takenUp answer none running pending issued =>
    have silent : ¬x.Issues token := by rw [issues]; omega
    refine iff_of_false (by rw [pending]; exact nofun) (not_or.mpr ⟨silent, ?_⟩)
    exact fun ⟨valid, kept⟩ => kept (takenUp.voids valid)
  | handed takenUp answer handed running pending issued =>
    have lost : ¬(x.before.pending = some token.number ∧ ¬x.Voids token) :=
      fun ⟨valid, kept⟩ => kept (takenUp.voids valid)
    rw [or_iff_left lost, issues, pending, Option.some.injEq]
    omega
  | failed takenUp answer candid halted pending issued =>
    have silent : ¬x.Issues token := by rw [issues]; omega
    refine iff_of_false (by rw [pending]; exact nofun) (not_or.mpr ⟨silent, ?_⟩)
    exact fun ⟨_, kept⟩ => kept (.failed ⟨takenUp.accepted, _, answer⟩)

theorem Handled.halted_iff (handled : x.Handled) :
    x.after.halted = true ↔ x.Fails ∨ (x.before.halted = true ∧ ¬x.Begins) := by
  cases handled with
  | refused why answer after =>
    have silent : ¬x.Fails := fun fails => by cases why.symm.trans fails.1
    have kept : ¬x.Begins := fun begins => by cases why.symm.trans begins.1
    rw [after]
    exact ⟨fun halted => .inr ⟨halted, kept⟩, fun cases => (cases.resolve_left silent).1⟩
  | cancelled called answer after =>
    have silent : ¬x.Fails := fun ⟨_, _, error⟩ => by cases answer.symm.trans error
    have kept : ¬x.Begins := not_begins_of_cancelled called
    rw [after]
    exact ⟨fun halted => .inr ⟨halted, kept⟩, fun cases => (cases.resolve_left silent).1⟩
  | stayed takenUp answer none running pending issued =>
    refine iff_of_false (by rw [running]; exact Bool.false_ne_true) ?_
    rintro (⟨_, _, error⟩ | ⟨halted, kept⟩)
    · cases answer.symm.trans error
    · exact kept (takenUp.begins halted)
  | handed takenUp answer handed running pending issued =>
    refine iff_of_false (by rw [running]; exact Bool.false_ne_true) ?_
    rintro (⟨_, _, error⟩ | ⟨halted, kept⟩)
    · cases answer.symm.trans error
    · exact kept (takenUp.begins halted)
  | failed takenUp answer candid halted pending issued =>
    exact iff_of_true halted (.inl ⟨takenUp.accepted, _, answer⟩)

theorem Handled.known_iff (handled : x.Handled) :
    x.after.program.isSome = true ↔ x.before.program.isSome = true ∨ x.Begins := by
  have takenUp_iff (takenUp : x.TakenUp) :
      x.after.program.isSome = true ↔ x.before.program.isSome = true ∨ x.Begins := by
    refine iff_of_true takenUp.known ?_
    have accepted := takenUp.accepted
    rw [Accepted] at accepted
    cases command : x.command with
    | begin program requested => exact .inr ⟨takenUp.accepted, program, requested, command⟩
    | go control =>
      rw [command] at accepted
      cases known : x.before.program with
      | some program => exact .inl rfl
      | none =>
        cases control with
        | resume token =>
          simp only [Interpreter.refusal?, known, Option.isNone_none, if_true] at accepted
          split at accepted
          · cases accepted
          · split at accepted <;> cases accepted
        | request requested => simp [Interpreter.refusal?, known] at accepted
        | cancel => exact absurd command takenUp.goes
  cases handled with
  | refused why answer after =>
    have kept : ¬x.Begins := fun begins => by cases why.symm.trans begins.1
    rw [after, or_iff_left kept]
  | cancelled called answer after =>
    have kept : ¬x.Begins := not_begins_of_cancelled called
    rw [after, or_iff_left kept]
  | stayed takenUp => exact takenUp_iff takenUp
  | handed takenUp => exact takenUp_iff takenUp
  | failed takenUp => exact takenUp_iff takenUp

theorem Handled.lost (handled : x.Handled) {token : Token} (known : token.number ≤ x.before.issued)
    (lost : x.before.pending ≠ some token.number ∨ x.Voids token) :
    token.number ≤ x.after.issued ∧ x.after.pending ≠ some token.number := by
  refine ⟨Nat.le_trans known handled.issued_le, fun valid => ?_⟩
  rcases (handled.pending_iff token).mp valid with issues | ⟨valid, kept⟩
  · have number := (handled.issues_iff token).mp issues
    omega
  · exact lost.elim (absurd valid) kept

theorem Handled.idle (handled : x.Handled)
    (idle : x.before.program = none → x.before.pending = none ∧ x.before.halted = false)
    (unknown : x.after.program = none) : x.after.pending = none ∧ x.after.halted = false := by
  have running (takenUp : x.TakenUp) : False := by
    have known := takenUp.known
    rw [unknown] at known
    cases known
  cases handled with
  | refused why answer after =>
    rw [after] at unknown ⊢
    exact idle unknown
  | cancelled called answer after =>
    rw [after] at unknown ⊢
    exact ⟨rfl, (idle unknown).2⟩
  | stayed takenUp => exact (running takenUp).elim
  | handed takenUp => exact (running takenUp).elim
  | failed takenUp => exact (running takenUp).elim

theorem Handled.quiet (handled : x.Handled)
    (quiet : x.before.halted = true → x.before.pending = none) (halted : x.after.halted = true) :
    x.after.pending = none := by
  cases handled with
  | refused why answer after =>
    rw [after] at halted ⊢
    exact quiet halted
  | cancelled called answer after => rw [after]
  | stayed takenUp answer none running pending issued => exact pending
  | handed takenUp answer handed running pending issued => cases running.symm.trans halted
  | failed takenUp answer candid halted pending issued => exact pending

theorem Handled.engine (handled : x.Handled) : x.after.engine = x.before.engine := by
  cases handled with
  | refused why answer after => rw [after]
  | cancelled called answer after => rw [after]
  | stayed takenUp => exact takenUp.engine
  | handed takenUp => exact takenUp.engine
  | failed takenUp => exact takenUp.engine

theorem Uses.pending {token : Token} (uses : x.Uses token) :
    x.before.pending = some token.number := by
  obtain ⟨accepted, command⟩ := uses
  rw [Accepted, command] at accepted
  by_cases valid : x.before.pending = some token.number
  · exact valid
  · simp only [Interpreter.refusal?, ne_eq, valid, not_false_eq_true, if_true] at accepted
    split at accepted <;> cases accepted

theorem Begins.pending (begins : x.Begins) : x.before.pending = none := by
  obtain ⟨accepted, program, requested, command⟩ := begins
  rw [Accepted, command] at accepted
  cases pending : x.before.pending with
  | none => rfl
  | some n => simp [Interpreter.refusal?, Interpreter.isRunning, pending] at accepted

theorem Handled.after_of_refusal (handled : x.Handled) (candid : x.before.engine.Candid)
    {error : EvalError} (answer : x.answer = some (.error (.error error)))
    (refusal : error.isRefusal = true) : x.after = x.before := by
  cases handled with
  | refused why answer' after => exact after
  | cancelled called answer' after => cases answer.symm.trans answer'
  | stayed takenUp answer' => cases answer.symm.trans answer'
  | handed takenUp answer' => cases answer.symm.trans answer'
  | failed takenUp answer' told =>
    cases answer.symm.trans answer'
    rw [told candid] at refusal
    cases refusal

theorem Handled.accepted_iff (handled : x.Handled) (candid : x.before.engine.Candid) :
    x.Accepted ↔ ∀ error, x.answer = some (.error (.error error)) → error.isRefusal = false := by
  cases handled with
  | refused why answer after =>
    refine iff_of_false (fun accepted => ?_) fun told => ?_
    · cases why.symm.trans accepted
    · cases (told _ answer).symm.trans (Interpreter.isRefusal_of_refused why)
  | cancelled called answer after =>
    refine iff_of_true (by rw [Accepted, called]; rfl) fun error answer' => ?_
    cases answer.symm.trans answer'
  | stayed takenUp answer =>
    refine iff_of_true takenUp.accepted fun error answer' => ?_
    cases answer.symm.trans answer'
  | handed takenUp answer =>
    refine iff_of_true takenUp.accepted fun error answer' => ?_
    cases answer.symm.trans answer'
  | failed takenUp answer told =>
    refine iff_of_true takenUp.accepted fun error answer' => ?_
    cases answer.symm.trans answer'
    exact told candid

end Exchange

theorem standing_concat {P Q : Exchange α β → Prop} {past : List (Exchange α β)}
    {x : Exchange α β} : Standing P Q (past ++ [x]) ↔ P x ∨ (Standing P Q past ∧ ¬Q x) := by
  constructor
  · rintro ⟨earlier, y, later, split, holds, none⟩
    rcases List.eq_nil_or_concat later with rfl | ⟨later, z, rfl⟩
    · obtain ⟨rfl, same⟩ := List.append_inj' split rfl
      cases same
      exact .inl holds
    · rw [List.concat_eq_append, ← List.cons_append, ← List.append_assoc] at split
      obtain ⟨rfl, same⟩ := List.append_inj' split rfl
      cases same
      exact .inr ⟨⟨earlier, y, later, rfl, holds, fun z member => none z (by simp [member])⟩,
        none x (by simp)⟩
  · rintro (holds | ⟨⟨earlier, y, later, rfl, holds, none⟩, fine⟩)
    · exact ⟨past, x, [], rfl, holds, fun _ member => by cases member⟩
    · refine ⟨earlier, y, later ++ [x], by simp, holds, fun z member => ?_⟩
      rcases List.mem_append.mp member with member | member
      · exact none z member
      · rwa [List.mem_singleton.mp member]

structure Recalls (g : Engine α β) (past : List (Exchange α β)) (i : Interpreter α β) : Prop where
  engine : i.engine = g
  valid : ∀ token, i.pending = some token.number ↔ Valid past token
  stopped : i.halted = true ↔ Stopped past
  known : i.program.isSome = true ↔ ∃ x ∈ past, x.Begins
  idle : i.program = none → i.pending = none ∧ i.halted = false
  quiet : i.halted = true → i.pending = none
  issued : ∀ x ∈ past, ∀ token, x.Issues token → token.number ≤ i.issued
  spent : ∀ x ∈ past, ∀ token, x.Uses token →
    token.number ≤ i.issued ∧ i.pending ≠ some token.number
  once : past.Pairwise fun x y => ∀ token, x.Uses token → ¬y.Uses token
  ownRun : ∀ token, Valid past token → Standing (Exchange.Issues · token) Exchange.Begins past
  accepted : g.Candid → ∀ x ∈ past, (x.Accepted ↔
    ∀ error, x.answer = some (.error (.error error)) → error.isRefusal = false)

theorem Recalls.pending_le {g : Engine α β} {past : List (Exchange α β)} {i : Interpreter α β}
    (recalls : Recalls g past i) {token : Token} (valid : i.pending = some token.number) :
    token.number ≤ i.issued := by
  obtain ⟨earlier, x, later, rfl, issues, _⟩ := (recalls.valid token).mp valid
  exact recalls.issued x (by simp) token issues

theorem recalls_opened (g : Engine α β) (clock : Clock) (trace : Option (Array Event)) :
    Recalls g [] { engine := g, clock, world := { trace } } where
  engine := rfl
  valid token := iff_of_false nofun fun ⟨earlier, x, later, split, _⟩ => by simp at split
  stopped := iff_of_false nofun fun ⟨earlier, x, later, split, _⟩ => by simp at split
  known := iff_of_false nofun fun ⟨x, member, _⟩ => by cases member
  idle _ := ⟨rfl, rfl⟩
  quiet _ := rfl
  issued x member := by cases member
  spent x member := by cases member
  once := .nil
  ownRun token := fun ⟨earlier, x, later, split, _⟩ => by simp at split
  accepted _ x member := by cases member

/-- One call keeps the interpreter's memory right. -/
theorem Recalls.step {g : Engine α β} {past : List (Exchange α β)} {x : Exchange α β}
    (recalls : Recalls g past x.before) (handled : x.Handled) :
    Recalls g (past ++ [x]) x.after where
  engine := handled.engine.trans recalls.engine
  valid token := by
    rw [handled.pending_iff, recalls.valid]
    exact (standing_concat (P := (Exchange.Issues · token))).symm
  stopped := by
    rw [handled.halted_iff, recalls.stopped]
    exact standing_concat.symm
  known := by
    rw [handled.known_iff, recalls.known]
    simp only [List.mem_append, List.mem_singleton, or_and_right, exists_or, exists_eq_left]
  idle := handled.idle recalls.idle
  quiet := handled.quiet recalls.quiet
  issued y member token issues := by
    rcases List.mem_append.mp member with member | member
    · exact Nat.le_trans (recalls.issued y member token issues) handled.issued_le
    · cases List.mem_singleton.mp member
      have number := (handled.issues_iff token).mp issues
      omega
  spent y member token uses := by
    rcases List.mem_append.mp member with member | member
    · obtain ⟨known, lost⟩ := recalls.spent y member token uses
      exact handled.lost known (.inl lost)
    · cases List.mem_singleton.mp member
      exact handled.lost (recalls.pending_le uses.pending) (.inr (.used uses))
  once := by
    refine List.pairwise_append.mpr ⟨recalls.once, List.pairwise_singleton _ _, ?_⟩
    intro y member z last token uses again
    cases List.mem_singleton.mp last
    exact (recalls.spent y member token uses).2 again.pending
  ownRun token valid := by
    rw [standing_concat]
    rcases standing_concat.mp valid with issues | ⟨valid, _⟩
    · exact .inl issues
    · refine .inr ⟨recalls.ownRun token valid, fun begins => ?_⟩
      cases begins.pending.symm.trans ((recalls.valid token).mpr valid)
  accepted candid y member := by
    rcases List.mem_append.mp member with member | member
    · exact recalls.accepted candid y member
    · cases List.mem_singleton.mp member
      exact handled.accepted_iff (recalls.engine.symm ▸ candid)

theorem Conversation.recalls {g : Engine α β} {past : List (Exchange α β)} {i : Interpreter α β}
    (talk : Conversation g past i) : Recalls g past i := by
  induction talk with
  | opened clock trace => exact recalls_opened g clock trace
  | called talk fuel command answered ih => exact ih.step (Exchange.handled answered)

/-- What an interpreter will do, as far as its past decides it. -/
structure Custody (g : Engine α β) (past : List (Exchange α β)) (i : Interpreter α β) : Prop where
  engine : i.engine = g
  resumes : ∀ token, Valid past token → ∃ program, i.program = some program ∧
    ∀ fuel, i.resume fuel token = i.run fuel program
  stale : ∀ token, ¬Valid past token → ¬Stopped past → ∀ fuel,
    i.resume fuel token = (.error (.error .staleResumption), i)
  stopped : Stopped past → (∀ token, ¬Valid past token) ∧ ∀ fuel,
    (∀ token, i.resume fuel token = (.error (.error .halted), i)) ∧
      ∀ requested, i.requestProgress fuel requested = (.error (.error .halted), i)
  running : i.isRunning = true ↔ ∃ token, Valid past token
  unique : ∀ token other, Valid past token → Valid past other → token = other
  once : past.Pairwise fun x y => ∀ token, x.Uses token → ¬y.Uses token
  ownRun : ∀ token, Valid past token → Standing (Exchange.Issues · token) Exchange.Begins past
  busy : (∃ token, Valid past token) → ∀ fuel program requested,
    i.begin fuel program requested = (.error (.error .alreadyRunning), i)
  free : (¬∃ token, Valid past token) → ∀ fuel program requested,
    i.begin fuel program requested = match i.seeded program requested with
      | (.ok (), entered) => entered.run fuel program
      | (.error error, entered) => (.error (.error error), entered.halt entered.world)
  begun : i.program.isSome = true ↔ ∃ x ∈ past, x.Begins
  moves : ¬Stopped past → ∀ fuel requested, i.requestProgress fuel requested =
    match i.program with
    | some program => { i with requested, pending := none }.run fuel program
    | none => (.error (.error .notStarted), i)
  accepted : g.Candid → ∀ x ∈ past, (x.Accepted ↔
    ∀ error, x.answer = some (.error (.error error)) → error.isRefusal = false)
  refused : g.Candid → ∀ fuel command error,
    (i.perform fuel command).1 = some (.error (.error error)) → error.isRefusal = true →
      (i.perform fuel command).2 = i

section
variable {g : Engine α β} {past : List (Exchange α β)} {i : Interpreter α β}

theorem Recalls.running (recalls : Recalls g past i) :
    i.isRunning = true ↔ ∃ token, Valid past token := by
  rw [Interpreter.isRunning, Option.isSome_iff_exists]
  exact ⟨fun ⟨n, valid⟩ => ⟨⟨n⟩, (recalls.valid ⟨n⟩).mp valid⟩,
    fun ⟨token, valid⟩ => ⟨token.number, (recalls.valid token).mpr valid⟩⟩

theorem Recalls.custody (recalls : Recalls g past i) : Custody g past i where
  engine := recalls.engine
  resumes token valid := by
    rw [← recalls.valid] at valid
    have going : i.halted = false := by
      cases halted : i.halted with
      | false => rfl
      | true => cases (recalls.quiet halted).symm.trans valid
    cases known : i.program with
    | none => cases (recalls.idle known).1.symm.trans valid
    | some program =>
      refine ⟨program, rfl, fun fuel => ?_⟩
      simp only [Interpreter.resume, going, valid, known, Bool.false_eq_true, if_false, ne_eq,
        not_true_eq_false]
  stale token invalid going fuel := by
    rw [← recalls.valid] at invalid
    rw [← recalls.stopped] at going
    rw [Interpreter.resume, if_neg going, if_pos invalid]
  stopped stopped := by
    rw [← recalls.stopped] at stopped
    refine ⟨fun token valid => ?_, fun fuel => ⟨fun token => ?_, fun requested => ?_⟩⟩
    · cases (recalls.quiet stopped).symm.trans ((recalls.valid token).mpr valid)
    · rw [Interpreter.resume, if_pos stopped]
    · cases known : i.program with
      | none => cases (recalls.idle known).2.symm.trans stopped
      | some program => simp only [Interpreter.requestProgress, known, stopped, if_true]
  running := recalls.running
  unique token other valid valid' := by
    have same := ((recalls.valid token).mpr valid).symm.trans ((recalls.valid other).mpr valid')
    obtain ⟨number⟩ := token
    obtain ⟨number'⟩ := other
    cases same
    rfl
  once := recalls.once
  ownRun := recalls.ownRun
  busy valid fuel program requested := by
    rw [Interpreter.begin, if_pos (recalls.running.mpr valid)]
  free none fuel program requested := by
    rw [← recalls.running] at none
    simp only [Interpreter.begin, none, Interpreter.seeded, Bool.false_eq_true, if_false]
    rcases i.engine.seed 0 program.entries .empty with ⟨error | _, queue⟩ <;> rfl
  begun := recalls.known
  moves going fuel requested := by
    rw [← recalls.stopped] at going
    rw [Interpreter.requestProgress]
    cases i.program with
    | none => rfl
    | some program => exact if_neg going
  accepted := recalls.accepted
  refused candid fuel command error answer refusal := by
    rw [← recalls.engine] at candid
    have answered : (i.perform fuel command).1 ≠ some (.error .outOfFuel) := by
      intro exhausted
      cases answer.symm.trans exhausted
    have handled : Exchange.Handled ⟨i, fuel, command⟩ := Exchange.handled answered
    exact handled.after_of_refusal candid answer refusal

/-- Whatever calls an interpreter has answered, they decide which token is valid, and with it what
the next call may do. -/
theorem conversation_custody (talk : Conversation g past i) : Custody g past i :=
  talk.recalls.custody

end

theorem answered_of_reported {i : Interpreter α β} {fuel : Nat} {command : Command}
    (reported : ((i.perform fuel command).1.bind Except.toOption).isSome = true) :
    (i.perform fuel command).1 ≠ some (.error .outOfFuel) := by
  intro exhausted
  rw [exhausted] at reported
  cases reported

def waitingPast : List (Exchange Network Snapshot) :=
  let opened := Interpreter.scene {} ⟨0⟩
  let begun := (opened.perform 10 (.begin Scene.waiting 10)).2
  [⟨opened, 10, .begin Scene.waiting 10⟩, ⟨begun, 10, .go (.resume ⟨1⟩)⟩]

def waitingNow : Interpreter Network Snapshot :=
  let begun := ((Interpreter.scene {} ⟨0⟩).perform 10 (.begin Scene.waiting 10)).2
  (begun.perform 10 (.go (.resume ⟨1⟩))).2

theorem waiting_custody :
    Custody (Scene.engine {} ⟨0⟩) waitingPast waitingNow ∧ waitingNow.pending = some 2 ∧
      (Scene.engine {} ⟨0⟩).Candid := by
  refine ⟨conversation_custody ?_, by decide +kernel,
    Scene.engine_candid {} ⟨0⟩⟩
  exact ((Conversation.opened .still none).called 10 (.begin Scene.waiting 10)
    (answered_of_reported (by decide +kernel))).called 10 (.go (.resume ⟨1⟩))
    (answered_of_reported (by decide +kernel))

end ProceduralScene
