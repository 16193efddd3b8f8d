import Litany.Machine.Execute
import Litany.Proofs.Scope.Acts

/-!
# What allowed acts come to

Many facts about running programs are proved in the same way: they hold of every elementary step
that a program of some kind can take, they pass from two computations to one after the other, and so
they hold of every expression and every statement. A `Regime` is a property of computations of this
kind. The programs it is about are those whose acts are all allowed, and this module makes the
induction over expressions and statements once for all of them.

What a call does is left to the regime: it depends on how the bodies of procedures are run.
-/

namespace Litany

/-- The stops that a program comes to for reasons of its own, wherever it runs. -/
def Stop.Own : Stop → Prop
  | .fault (.divisionByZero _) => True
  | .fault (.unsupported _ _) => True
  | .outOfFuel => True
  | _ => False

/-- A property that every elementary step has whose acts are allowed, and that two computations in a
row have if both do. A variable is started afresh with the zero of its type. -/
structure Regime (allows : Act → Prop) (body : List Stmt → Run Ending)
    (P : ∀ α : Type, Run α → Prop) : Prop where
  pure : ∀ {α : Type} (a : α), P α (pure a)
  bind : ∀ {α β : Type} {x : Run α} {f : α → Run β}, P α x → (∀ a, P β (f a)) → P β (x >>= f)
  stop : ∀ {α : Type} {stop : Stop}, stop.Own → P α (throw stop)
  visit : ∀ {p : Place}, allows (.read p) ∨ allows (.write p) → P Value (Run.visit p)
  store : ∀ {p : Place} {v : Value}, allows (.write p) → P Value (Run.store p v)
  reset : ∀ {p : Place}, allows (.reset p) → P Value (Run.store p (Value.zero p.type))
  write : ∀ text, P Unit (Run.write text)
  handOver : ∀ executor code line, P Unit (Run.handOver executor code line)
  install : ∀ {p : Procedure}, allows (.install p) → P Unit (modify fun m => m.install p)
  call : ∀ {ordinal line : Nat} {name : String} {arguments : List Expr},
    allows (.call ordinal name arguments.length) →
    (∀ e ∈ arguments, P Value (evaluate body e)) →
      P Value (evaluate body (.call ordinal name arguments line))

namespace Regime

variable {allows : Act → Prop} {P : ∀ α : Type, Run α → Prop}

/-! ### Expressions -/

section Values

variable {body : List Stmt → Run Ending} (h : Regime allows body P)

include h

/-- An operation answers, or stops for a reason of its own. -/
theorem arithmetic (l : Value) (op : Arithmetic) (r : Value) (line : Nat) :
    P Value (Run.arithmetic l op r line) := by
  unfold Run.arithmetic
  split
  · exact h.stop trivial
  · split
    · exact h.pure _
    · exact h.stop trivial

/-- A value is negated, or the program stops for a reason of its own. -/
theorem negation (v : Value) (line : Nat) : P Value (Run.negation v line) := by
  unfold Run.negation
  split
  · exact h.pure _
  · exact h.stop trivial

/-- Two values are compared, or the program stops for a reason of its own. -/
theorem comparison (l : Value) (c : Comparison) (r : Value) (line : Nat) :
    P Bool (Run.comparison l c r line) := by
  unfold Run.comparison
  split
  · exact h.pure _
  · exact h.stop trivial

end Values

section Evaluation

variable {body : List Stmt → Run Ending}

mutual

/-- An expression follows the regime if its acts are allowed. -/
theorem evaluate (h : Regime allows body P) :
    (e : Expr) → Allowed allows e.acts → P Value (Litany.evaluate body e)
  | .literal v, _ => by
    rw [Litany.evaluate]
    exact h.pure v
  | .read place, hacts => by
    rw [Litany.evaluate]
    exact h.visit (Or.inl (Allowed.singleton_iff.mp hacts))
  | .group inner, hacts => by
    rw [Litany.evaluate]
    exact evaluate h inner hacts
  | .negate operand line, hacts => by
    rw [Litany.evaluate]
    exact h.bind (evaluate h operand hacts) fun v => h.negation v line
  | .binary left op right line, hacts => by
    rw [Expr.acts, Allowed.append_iff] at hacts
    rw [Litany.evaluate]
    exact h.bind (evaluate h left hacts.1) fun l => h.bind (evaluate h right hacts.2) fun r =>
      h.arithmetic l op r line
  | .assign target steps, hacts => by
    rw [Expr.acts, Allowed.cons_iff] at hacts
    rw [Litany.evaluate]
    exact h.bind (h.visit (Or.inr hacts.1)) fun v => evaluateSteps h target hacts.1 v steps hacts.2
  | .bump target up after line, hacts => by
    have htarget := Allowed.singleton_iff.mp hacts
    rw [Litany.evaluate]
    exact h.bind (h.visit (Or.inr htarget)) fun current =>
      h.bind (h.arithmetic current .add _ line) fun changed =>
      h.bind (h.store htarget) fun _ => h.pure _
  | .call ordinal name arguments line, hacts => by
    rw [Expr.acts, Allowed.cons_iff] at hacts
    exact h.call hacts.1 (evaluateEach h arguments hacts.2)

/-- Each of some expressions follows the regime if their acts are allowed. -/
theorem evaluateEach (h : Regime allows body P) :
    (es : List Expr) → Allowed allows (Expr.actsOfAll es) →
      ∀ e ∈ es, P Value (Litany.evaluate body e)
  | [], _ => fun _ he => nomatch he
  | e :: rest, hacts => by
    rw [Expr.actsOfAll, Allowed.append_iff] at hacts
    exact List.forall_mem_cons.mpr ⟨evaluate h e hacts.1, evaluateEach h rest hacts.2⟩

/-- The steps of an assignment write at the target and do what their operands do. -/
theorem evaluateSteps (h : Regime allows body P) (target : Place)
    (htarget : allows (.write target)) (v : Value) :
    (steps : List (Step Expr)) → Allowed allows (Expr.actsOfSteps steps) →
      P Value (Litany.evaluateSteps body target v steps)
  | [], _ => by
    rw [Litany.evaluateSteps]
    exact h.pure v
  | ⟨op, operand, line⟩ :: rest, hacts => by
    rw [Expr.actsOfSteps, Allowed.append_iff] at hacts
    rw [Litany.evaluateSteps]
    refine h.bind (evaluate h operand hacts.1) fun r => ?_
    have hlater : ∀ changed, P Value (do
        let kept ← Run.store target changed
        Litany.evaluateSteps body target kept rest) := fun changed =>
      h.bind (h.store htarget) fun kept => evaluateSteps h target htarget kept rest hacts.2
    cases op with
    | none => exact h.bind (h.pure r) hlater
    | some op => exact h.bind (h.arithmetic v op r line) hlater

end

variable (h : Regime allows body P)

include h

theorem evaluateAll {es : List Expr} (hes : Allowed allows (Expr.actsOfAll es)) :
    P (List Value) (Litany.evaluateAll body es) := by
  induction es with
  | nil => exact h.pure []
  | cons e es ih =>
    rw [Expr.actsOfAll, Allowed.append_iff] at hes
    exact h.bind (h.evaluate e hes.1) fun _ => h.bind (ih hes.2) fun _ => h.pure _

/-! ### Conditions -/

theorem evaluateTerm {t : Term} (ht : Allowed allows t.acts) :
    P Bool (Litany.evaluateTerm body t) := by
  obtain ⟨negated, left, comparison, line⟩ := t
  obtain ⟨hleft, hright⟩ := Allowed.append_iff.mp ht
  refine h.bind (h.evaluate left hleft) fun l => ?_
  cases comparison with
  | none => exact h.bind (h.pure _) fun _ => h.pure _
  | some side =>
    obtain ⟨c, right⟩ := side
    exact h.bind (h.evaluate right (Allowed.toList_iff.mp hright _ rfl)) fun r =>
      h.bind (h.comparison l c r line) fun _ => h.pure _

/-- Which terms of a condition are evaluated depends on the run; the acts of all of them are
allowed. -/
theorem evaluateTerms {ts : List (Connective × Term)}
    (hts : ∀ t ∈ ts, Allowed allows t.2.acts) (sofar : Bool) :
    P Bool (Litany.evaluateTerms body sofar ts) := by
  induction ts generalizing sofar with
  | nil => cases sofar <;> exact h.pure _
  | cons t ts ih =>
    obtain ⟨ht, hrest⟩ := List.forall_mem_cons.mp hts
    obtain ⟨connective, t⟩ := t
    have hterm : P Bool (Litany.evaluateTerm body t >>= fun b =>
        Litany.evaluateTerms body b ts) := h.bind (h.evaluateTerm ht) fun b => ih hrest b
    cases connective with
    | and =>
      cases sofar with
      | true => exact hterm
      | false => exact ih hrest false
    | or =>
      cases sofar with
      | true => exact h.pure true
      | false => exact hterm

theorem evaluateCondition {c : Condition} (hc : Allowed allows c.acts) :
    P Bool (Litany.evaluateCondition body c) := by
  obtain ⟨hfirst, hrest⟩ := Allowed.append_iff.mp hc
  exact h.bind (h.evaluateTerm hfirst) fun b => h.evaluateTerms (Allowed.flatMap_iff.mp hrest) b

/-! ### Parts of statements -/

theorem effect {e : Option Expr} (he : ∀ e' ∈ e, Allowed allows e'.acts) :
    P Unit (Litany.effect body e) := by
  cases e with
  | none => exact h.pure ()
  | some e => exact h.bind (h.evaluate e (he e rfl)) fun _ => h.pure ()

theorem continues {c : Option Condition} (hc : ∀ c' ∈ c, Allowed allows c'.acts) :
    P Bool (Litany.continues body c) := by
  cases c with
  | none => exact h.pure true
  | some c => exact h.evaluateCondition (hc c rfl)

theorem returnValue {e : Option Expr} (he : ∀ e' ∈ e, Allowed allows e'.acts) :
    P Value (Litany.returnValue body e) := by
  cases e with
  | none => exact h.pure _
  | some e => exact h.evaluate e (he e rfl)

/-- Each variable is started afresh, and then given its initial value. -/
theorem declareAll {ds : List Declarator} (hds : ∀ d ∈ ds, Allowed allows d.acts) :
    P Unit (Litany.declareAll body ds) := by
  induction ds with
  | nil => exact h.pure ()
  | cons d ds ih =>
    obtain ⟨target, initial⟩ := d
    obtain ⟨hfirst, hrest⟩ := List.forall_mem_cons.mp hds
    obtain ⟨hreset, hinitial⟩ := Allowed.cons_iff.mp hfirst
    refine h.bind (h.reset hreset) fun _ => ?_
    cases initial with
    | none => exact h.bind (h.pure ()) fun _ => ih hrest
    | some e =>
      exact h.bind (h.evaluate e (Allowed.toList_iff.mp hinitial e rfl)) fun _ => ih hrest

/-- A loop keeps to what its test, its body and its step keep to, however often it goes round. -/
theorem rounds {test : Run Bool} {loop : Run Ending} {step : Run Unit} (htest : P Bool test)
    (hloop : P Ending loop) (hstep : P Unit step) (n : Nat) :
    P Ending (Litany.rounds test loop step n) := by
  induction n with
  | zero => exact h.stop trivial
  | succ n ih =>
    refine h.bind htest fun holds => ?_
    split
    · refine h.bind hloop fun ending => ?_
      cases ending with
      | returned v => exact h.pure _
      | through => exact h.bind hstep fun _ => ih
    · exact h.pure _

end Evaluation

/-! ### Statements -/

section Execution

variable {executor : Option Executor} {body : List Stmt → Run Ending} {n : Nat}

mutual

/-- A statement follows the regime if its acts are allowed. -/
theorem execute (h : Regime allows body P) :
    (s : Stmt) → Allowed allows s.acts → P Ending (Litany.execute ⟨executor, body, n⟩ s)
  | .expr e, hacts => by
    rw [Litany.execute]
    exact h.bind (h.bind (h.evaluate e hacts) fun _ => h.pure ()) fun _ => h.pure _
  | .declare vars, hacts | .classDef _ vars, hacts => by
    rw [Litany.execute]
    exact h.bind (h.declareAll (Allowed.flatMap_iff.mp hacts)) fun _ => h.pure _
  | .procedure p, hacts => by
    rw [Litany.execute]
    exact h.bind (h.install (Allowed.singleton_iff.mp hacts)) fun _ => h.pure _
  | .print template arguments _, hacts => by
    rw [Litany.execute]
    exact h.bind (h.evaluateAll hacts) fun _ => h.bind (h.write _) fun _ => h.pure _
  | .loop initial test step loop, hacts => by
    rw [Stmt.acts, Allowed.append_iff, Allowed.append_iff, Allowed.append_iff] at hacts
    obtain ⟨⟨⟨hinitial, htest⟩, hstep⟩, hloop⟩ := hacts
    rw [Litany.execute]
    exact h.bind (h.effect (Allowed.toList_iff.mp hinitial)) fun _ =>
      h.rounds (h.continues (Allowed.toList_iff.mp htest)) (executeAll h loop hloop)
        (h.effect (Allowed.toList_iff.mp hstep)) n
  | .branch test yes none, hacts => by
    rw [Stmt.acts, Allowed.append_iff] at hacts
    rw [Litany.execute]
    refine h.bind (h.evaluateCondition hacts.1) fun holds => ?_
    split
    · exact executeAll h yes hacts.2
    · exact h.pure _
  | .branch test yes (some no), hacts => by
    rw [Stmt.acts, Allowed.append_iff, Allowed.append_iff] at hacts
    rw [Litany.execute]
    refine h.bind (h.evaluateCondition hacts.1.1) fun holds => ?_
    split
    · exact executeAll h yes hacts.1.2
    · exact executeAll h no hacts.2
  | .giveBack value _, hacts => by
    rw [Litany.execute]
    exact h.bind (h.returnValue (Allowed.toList_iff.mp hacts)) fun _ => h.pure _
  | .foreign code line, _ => by
    rw [Litany.execute]
    exact h.bind (h.handOver executor code line) fun _ => h.pure _

/-- Statements follow the regime if their acts are allowed. -/
theorem executeAll (h : Regime allows body P) :
    (ss : List Stmt) → Allowed allows (Stmt.actsOfAll ss) →
      P Ending (Litany.executeAll ⟨executor, body, n⟩ ss)
  | [], _ => by
    rw [Litany.executeAll]
    exact h.pure _
  | s :: rest, hacts => by
    rw [Stmt.actsOfAll, Allowed.append_iff] at hacts
    rw [Litany.executeAll]
    refine h.bind (execute h s hacts.1) fun ending => ?_
    cases ending with
    | returned v => exact h.pure _
    | through => exact executeAll h rest hacts.2

end

end Execution

end Regime

end Litany
