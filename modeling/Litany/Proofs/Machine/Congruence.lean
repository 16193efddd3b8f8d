import Litany.Machine.Execute

/-!
# Two runs of one program, step by step

Two machines that run the same program go through the same steps, and so a relation between single
steps is one between whole runs. A relation between computations is a `Lockstep` of two contexts if
it holds of every elementary step and passes from two computations to one after the other; this
module makes the induction over expressions and statements once for all of them. Calls and loops are
left open there, as they depend on how bodies are run.

A `Congruence` leaves nothing open. The two runs may ask different hosts, and have different fuel as
far as the relation allows. The conclusion is `Congruence.runBody`.
-/

namespace Litany

open Run

/-- A relation between computations that the parts of a program respect, whichever of two contexts
they are carried out in. Calls are related if their arguments are, loops if their parts are. -/
structure Lockstep (cx cx' : Context) (R : ∀ α : Type, Run α → Run α → Prop) : Prop where
  pure : ∀ {α : Type} (a : α), R α (pure a) (pure a)
  bind : ∀ {α β : Type} {x x' : Run α} {f f' : α → Run β}, R α x x' → (∀ a, R β (f a) (f' a)) →
    R β (x >>= f) (x' >>= f')
  fault : ∀ {α : Type} (f : Fault), R α (fault f) (fault f)
  visit : ∀ p, R Value (visit p) (visit p)
  store : ∀ p v, R Value (store p v) (store p v)
  write : ∀ text, R Unit (write text) (write text)
  handOver : ∀ code line,
    R Unit (handOver cx.executor code line) (handOver cx'.executor code line)
  install : ∀ p, R Unit (modify fun m => m.install p) (modify fun m => m.install p)
  call : ∀ (ordinal : Nat) (name : String) (arguments : List Expr) (line : Nat),
    (∀ types, R (List Value) (evaluateArguments cx.body types arguments)
      (evaluateArguments cx'.body types arguments)) →
    R Value (evaluate cx.body (.call ordinal name arguments line))
      (evaluate cx'.body (.call ordinal name arguments line))
  loop : ∀ {test test' : Run Bool} {loop loop' : Run Ending} {step step' : Run Unit},
    R Bool test test' → R Ending loop loop' → R Unit step step' →
    R Ending (rounds test loop step cx.rounds) (rounds test' loop' step' cx'.rounds)

namespace Lockstep

variable {cx cx' : Context} {R : ∀ α : Type, Run α → Run α → Prop}

theorem ite {α : Type} {p : Prop} [Decidable p] {x x' y y' : Run α} (hx : R α x x')
    (hy : R α y y') : R α (if p then x else y) (if p then x' else y') := by
  split
  · exact hx
  · exact hy

section Values

variable (h : Lockstep cx cx' R)

include h

/-! ### Operations on values -/

/-- The same operation is done in both contexts, or fails in both. -/
theorem arithmetic (l : Value) (op : Arithmetic) (r : Value) (line : Nat) :
    R Value (arithmetic l op r line) (arithmetic l op r line) := by
  refine ite (h.fault _) ?_
  cases l.combine op r with
  | none => exact h.fault _
  | some v => exact h.pure v

theorem negation (v : Value) (line : Nat) : R Value (negation v line) (negation v line) := by
  unfold Run.negation
  cases v.negate? with
  | none => exact h.fault _
  | some w => exact h.pure w

/-- The same values are compared in both contexts. -/
theorem comparison (l : Value) (c : Comparison) (r : Value) (line : Nat) :
    R Bool (comparison l c r line) (comparison l c r line) := by
  unfold Run.comparison
  cases l.compare? c r with
  | none => exact h.fault _
  | some holds => exact h.pure holds

end Values

/-! ### Expressions -/

mutual

/-- The evaluations of an expression are related. -/
theorem evaluate (h : Lockstep cx cx' R) :
    (e : Expr) → R Value (Litany.evaluate cx.body e) (Litany.evaluate cx'.body e)
  | .literal v => by
    rw [Litany.evaluate, Litany.evaluate]
    exact h.pure v
  | .read place => by
    rw [Litany.evaluate, Litany.evaluate]
    exact h.visit place
  | .group inner => by
    rw [Litany.evaluate, Litany.evaluate]
    exact evaluate h inner
  | .negate operand line => by
    rw [Litany.evaluate, Litany.evaluate]
    exact h.bind (evaluate h operand) fun v => h.negation v line
  | .binary left op right line => by
    rw [Litany.evaluate, Litany.evaluate]
    exact h.bind (evaluate h left) fun l => h.bind (evaluate h right) fun r =>
      h.arithmetic l op r line
  | .assign target steps => by
    rw [Litany.evaluate, Litany.evaluate]
    exact h.bind (h.visit target) fun v => evaluateSteps h target v steps
  | .bump target up after line => by
    rw [Litany.evaluate, Litany.evaluate]
    exact h.bind (h.visit target) fun current =>
      h.bind (h.arithmetic current .add _ line) fun changed =>
      h.bind (h.store target changed) fun _ => h.pure _
  | .call ordinal name arguments line =>
    h.call ordinal name arguments line fun types => evaluateArguments h types arguments

/-- Arguments are related if their expressions are. -/
theorem evaluateArguments (h : Lockstep cx cx' R) (types : List Scalar) :
    (es : List Expr) →
    R (List Value) (Litany.evaluateArguments cx.body types es)
      (Litany.evaluateArguments cx'.body types es)
  | [] => by cases types <;> exact h.pure _
  | e :: rest => by
    cases types with
    | nil => exact h.pure _
    | cons type types =>
      rw [Litany.evaluateArguments, Litany.evaluateArguments]
      exact h.bind (evaluate h e) fun v =>
        h.bind (evaluateArguments h types rest) fun _ => h.pure _

/-- The steps of an assignment are related if their operands are. -/
theorem evaluateSteps (h : Lockstep cx cx' R) (target : Place) (v : Value) :
    (steps : List (Step Expr)) →
    R Value (Litany.evaluateSteps cx.body target v steps)
      (Litany.evaluateSteps cx'.body target v steps)
  | [] => by
    rw [Litany.evaluateSteps, Litany.evaluateSteps]
    exact h.pure v
  | ⟨op, operand, line⟩ :: rest => by
    rw [Litany.evaluateSteps, Litany.evaluateSteps]
    refine h.bind (evaluate h operand) fun r => ?_
    -- what follows is the same with and without an operator
    have hlater : ∀ changed, R Value
        (Run.store target changed >>= fun kept => Litany.evaluateSteps cx.body target kept rest)
        (Run.store target changed >>= fun kept => Litany.evaluateSteps cx'.body target kept rest) :=
      fun changed => h.bind (h.store target changed) fun kept => evaluateSteps h target kept rest
    cases op with
    | none => exact h.bind (h.pure r) hlater
    | some op => exact h.bind (h.arithmetic v op r line) hlater

end

section Parts

variable (h : Lockstep cx cx' R)

include h

theorem evaluateAll (es : List Expr) :
    R (List Value) (Litany.evaluateAll cx.body es) (Litany.evaluateAll cx'.body es) := by
  induction es with
  | nil => exact h.pure []
  | cons e es ih => exact h.bind (h.evaluate e) fun _ => h.bind ih fun _ => h.pure _

/-! ### Conditions -/

/-- Terms are related in two contexts that are. -/
theorem evaluateTerm (t : Term) :
    R Bool (Litany.evaluateTerm cx.body t) (Litany.evaluateTerm cx'.body t) := by
  obtain ⟨negated, left, comparison, line⟩ := t
  refine h.bind (h.evaluate left) fun l => ?_
  cases comparison with
  | none => exact h.bind (h.pure l.truth) fun _ => h.pure _
  | some side =>
    exact h.bind (h.evaluate side.2) fun r =>
      h.bind (h.comparison l side.1 r line) fun _ => h.pure _

/-- Behind the first term, conditions are related: the value so far decides on both sides which
terms are left out. -/
theorem evaluateTerms (sofar : Bool) (ts : List (Connective × Term)) :
    R Bool (Litany.evaluateTerms cx.body sofar ts) (Litany.evaluateTerms cx'.body sofar ts) := by
  induction ts generalizing sofar with
  | nil => cases sofar <;> exact h.pure _
  | cons t ts ih =>
    obtain ⟨connective, t⟩ := t
    have hterm : R Bool
        (Litany.evaluateTerm cx.body t >>= fun b => Litany.evaluateTerms cx.body b ts)
        (Litany.evaluateTerm cx'.body t >>= fun b => Litany.evaluateTerms cx'.body b ts) :=
      h.bind (h.evaluateTerm t) fun b => ih b
    cases connective with
    | and =>
      cases sofar with
      | true => exact hterm
      | false => exact ih false
    | or =>
      cases sofar with
      | true => exact h.pure true
      | false => exact hterm

/-- Conditions are related in two contexts that are. -/
theorem evaluateCondition (c : Condition) :
    R Bool (Litany.evaluateCondition cx.body c) (Litany.evaluateCondition cx'.body c) :=
  h.bind (h.evaluateTerm c.first) fun b => h.evaluateTerms b c.rest

/-! ### Parts of statements -/

theorem effect (e : Option Expr) :
    R Unit (Litany.effect cx.body e) (Litany.effect cx'.body e) := by
  cases e with
  | none => exact h.pure ()
  | some e => exact h.bind (h.evaluate e) fun _ => h.pure ()

theorem continues (c : Option Condition) :
    R Bool (Litany.continues cx.body c) (Litany.continues cx'.body c) := by
  cases c with
  | none => exact h.pure true
  | some c => exact h.evaluateCondition c

theorem returnValue (e : Option Expr) :
    R Value (Litany.returnValue cx.body e) (Litany.returnValue cx'.body e) := by
  cases e with
  | none => exact h.pure _
  | some e => exact h.evaluate e

/-- Declarations are related in two contexts that are. -/
theorem declareAll (ds : List Declarator) :
    R Unit (Litany.declareAll cx.body ds) (Litany.declareAll cx'.body ds) := by
  induction ds with
  | nil => exact h.pure ()
  | cons d ds ih =>
    obtain ⟨target, initial⟩ := d
    refine h.bind (h.store target (Value.zero target.type)) fun _ => ?_
    cases initial with
    | none => exact ih
    | some e => exact h.bind (h.evaluate e) fun _ => ih

end Parts

/-! ### Statements -/

mutual

/-- The executions of a statement are related. -/
theorem execute (h : Lockstep cx cx' R) :
    (s : Stmt) → R Ending (Litany.execute cx s) (Litany.execute cx' s)
  | .expr e => by
    rw [Litany.execute, Litany.execute]
    exact h.bind (h.effect (some e)) fun _ => h.pure _
  | .declare vars | .classDef _ vars => by
    rw [Litany.execute, Litany.execute]
    exact h.bind (h.declareAll vars) fun _ => h.pure _
  | .procedure p => by
    rw [Litany.execute, Litany.execute]
    exact h.bind (h.install p) fun _ => h.pure _
  | .print template arguments _ => by
    rw [Litany.execute, Litany.execute]
    exact h.bind (h.evaluateAll arguments) fun _ => h.bind (h.write _) fun _ => h.pure _
  | .loop initial test step loop => by
    rw [Litany.execute, Litany.execute]
    exact h.bind (h.effect initial) fun _ =>
      h.loop (h.continues test) (executeAll h loop) (h.effect step)
  | .branch test yes none => by
    rw [Litany.execute, Litany.execute]
    exact h.bind (h.evaluateCondition test) fun _ => ite (executeAll h yes) (h.pure _)
  | .branch test yes (some no) => by
    rw [Litany.execute, Litany.execute]
    exact h.bind (h.evaluateCondition test) fun _ => ite (executeAll h yes) (executeAll h no)
  | .giveBack value _ => by
    rw [Litany.execute, Litany.execute]
    exact h.bind (h.returnValue value) fun _ => h.pure _
  | .foreign code line => by
    rw [Litany.execute, Litany.execute]
    exact h.bind (h.handOver code line) fun _ => h.pure _

/-- Statements in a row are related in two contexts that are, each one behind those before it. -/
theorem executeAll (h : Lockstep cx cx' R) :
    (ss : List Stmt) → R Ending (Litany.executeAll cx ss) (Litany.executeAll cx' ss)
  | [] => by
    rw [Litany.executeAll, Litany.executeAll]
    exact h.pure _
  | s :: rest => by
    rw [Litany.executeAll, Litany.executeAll]
    refine h.bind (execute h s) fun ending => ?_
    cases ending with
    | returned v => exact h.pure _
    | through => exact executeAll h rest

end

end Lockstep

/-! ### Whole runs -/

/-- A relation between computations that all parts of a program respect, with the fuel that it
allows on both sides: a run that is out of fuel is related to whatever the other one does with
its fuel. -/
structure Congruence (executor executor' : Option Executor) (Allowed : Nat → Nat → Prop)
    (R : ∀ α : Type, Run α → Run α → Prop) : Prop where
  pure : ∀ {α : Type} (a : α), R α (pure a) (pure a)
  bind : ∀ {α β : Type} {x x' : Run α} {f f' : α → Run β}, R α x x' → (∀ a, R β (f a) (f' a)) →
    R β (x >>= f) (x' >>= f')
  fault : ∀ {α : Type} (f : Fault), R α (fault f) (fault f)
  visit : ∀ p, R Value (visit p) (visit p)
  store : ∀ p v, R Value (store p v) (store p v)
  write : ∀ text, R Unit (write text) (write text)
  handOver : ∀ code line, R Unit (handOver executor code line) (handOver executor' code line)
  install : ∀ p, R Unit (modify fun m => m.install p) (modify fun m => m.install p)
  procedure : ∀ ordinal name line,
    R Procedure (procedure ordinal name line) (procedure ordinal name line)
  inFrame : ∀ {α : Type} {x x' : Run α} (frame : Frame), R α x x' →
    R α (inFrame frame x) (inFrame frame x')
  pred : ∀ {k n : Nat}, Allowed (k + 1) n → ∃ n', n = n' + 1 ∧ Allowed k n'
  spent : ∀ {α : Type} {n : Nat} {x' : Run α}, Allowed 0 n → (n = 0 → x' = throw .outOfFuel) →
    R α (throw .outOfFuel) x'

namespace Congruence

variable {executor executor' : Option Executor} {Allowed : Nat → Nat → Prop}
  {R : ∀ α : Type, Run α → Run α → Prop} (h : Congruence executor executor' Allowed R)

include h

/-- Loops are related if their parts are and both may go round often enough. -/
theorem rounds {test test' : Run Bool} {loop loop' : Run Ending} {step step' : Run Unit}
    (htest : R Bool test test') (hloop : R Ending loop loop') (hstep : R Unit step step')
    {k n : Nat} (hkn : Allowed k n) :
    R Ending (Litany.rounds test loop step k) (Litany.rounds test' loop' step' n) := by
  -- on the rounds that the first loop may go; `pred` gives the second one as many more
  induction k generalizing n with
  | zero =>
    refine h.spent hkn ?_
    rintro rfl
    rfl
  | succ k ih =>
    obtain ⟨n, rfl, hless⟩ := h.pred hkn
    refine h.bind htest fun holds => Lockstep.ite (h.bind hloop fun ending => ?_) (h.pure _)
    cases ending with
    | returned v => exact h.pure _
    | through => exact h.bind hstep fun _ => ih hless

/-- The two sides are in lockstep if bodies are related and both have enough fuel. -/
theorem lockstep {body body' : List Stmt → Run Ending}
    (hbody : ∀ ss, R Ending (body ss) (body' ss)) {k n : Nat} (hkn : Allowed k n) :
    Lockstep ⟨executor, body, k⟩ ⟨executor', body', n⟩ R where
  pure := h.pure
  bind := h.bind
  fault := h.fault
  visit := h.visit
  store := h.store
  write := h.write
  handOver := h.handOver
  install := h.install
  call ordinal name arguments line harguments := by
    rw [Litany.evaluate, Litany.evaluate]
    exact h.bind (h.procedure ordinal name line) fun p =>
      h.bind (harguments p.parameters) fun values =>
        h.bind (h.inFrame _ (hbody p.body)) fun _ => h.pure _
  loop htest hloop hstep := h.rounds htest hloop hstep hkn

/-- Runs of the same statements are related, with fuel as the relation allows. -/
theorem runBody {k n : Nat} (hkn : Allowed k n) (ss : List Stmt) :
    R Ending (Litany.runBody executor k ss) (Litany.runBody executor' n ss) := by
  induction k generalizing n ss with
  | zero =>
    refine h.spent hkn ?_
    rintro rfl
    rfl
  | succ k ih =>
    obtain ⟨n, rfl, hless⟩ := h.pred hkn
    rw [Litany.runBody, Litany.runBody]
    exact (h.lockstep (fun ss => ih hless ss) hless).executeAll ss

end Congruence

end Litany
