import Litany.Proofs.Lines.Erasure

/-!
# Running does not look at lines

A line that syntax carries is put into the message of a fault and is never read otherwise. So
programs that are the same without their lines run alike: they print the same, hand over the same
blocks and leave the same values. The main statement is `Machine.interpret_alike`.

The induction on expressions and statements takes the bodies of procedures as given; fuel closes
it.
-/

namespace Litany

/-! ### Machines -/

namespace Machine

private theorem unlined_cell? (m : Machine) (slot : Slot) :
    m.unlined.cell? slot = m.cell? slot := by
  cases slot <;> rfl

/-- Setting a cell has nothing to do with the lines of procedures. -/
private theorem unlined_setCell (m : Machine) (slot : Slot) (v : Value) :
    (m.setCell slot v).unlined = m.unlined.setCell slot v := by
  cases slot with
  | global i => rfl
  | argument i | own i =>
    obtain ⟨globals, procedures, frames, output, blocks⟩ := m
    cases frames <;> rfl

/-- What is installed without its lines is the procedure without its lines. -/
private theorem unlined_install (m : Machine) (p : Procedure) :
    (m.install p).unlined = m.unlined.install p.unlined := by
  simp only [install, unlined, List.map_set, List.map_append, List.map_replicate, List.length_map,
    Option.map_some, Option.map_none]
  rfl

/-- The procedures of a program are installed without their lines. -/
private theorem unlined_installAll (m : Machine) (ss : List Stmt) :
    (m.installAll ss).unlined = m.unlined.installAll (ss.map Stmt.unlined) := by
  induction ss generalizing m with
  | nil => rfl
  | cons s ss ih =>
    cases s with
    | procedure p =>
      have hfirst := ih (m.install p)
      rw [unlined_install] at hfirst
      rw [List.map_cons, Stmt.unlined_procedure]
      exact hfirst
    | branch test yes no =>
      rw [List.map_cons, Stmt.unlined_branch]
      exact ih m
    | _ =>
      rw [List.map_cons, Stmt.unlined]
      exact ih m

end Machine

namespace Run

/-- Machines and stops are seen without their lines. -/
def view : View Stop Machine :=
  ⟨Stop.unlined, Machine.unlined⟩

/-- On a machine without lines, `x'` does what `x` does on the machine itself. -/
abbrev Lineless {α β : Type} (f : α → β) (x : Run α) (x' : Run β) : Prop :=
  Commutes view f x x'

/-! ### Operations on values -/

/-- An operation gives the same result on any line, and fails for the same cause. -/
private theorem lineless_arithmetic (l : Value) (op : Arithmetic) (r : Value) (line : Nat) :
    Lineless id (arithmetic l op r line) (arithmetic l op r 0) := by
  refine .ite (.throw rfl) ?_
  cases l.combine op r with
  | none => exact .throw rfl
  | some v => exact .pure rfl

/-- A value is negated alike on any line. -/
private theorem lineless_negation (v : Value) (line : Nat) :
    Lineless id (negation v line) (negation v 0) := by
  unfold negation
  cases v.negate? with
  | none => exact .throw rfl
  | some w => exact .pure rfl

/-- Values are compared alike on any line. -/
private theorem lineless_comparison (l : Value) (c : Comparison) (r : Value) (line : Nat) :
    Lineless id (comparison l c r line) (comparison l c r 0) := by
  unfold comparison
  cases l.compare? c r with
  | none => exact .throw rfl
  | some b => exact .pure rfl

/-- A change of the machine that respects what is seen of it. -/
private theorem lineless_modify {g g' : Machine → Machine} (h : ∀ m, g' m.unlined = (g m).unlined) :
    Lineless id (modify g) (modify g') :=
  fun m => congrArg (EStateM.Result.ok ()) (h m)

private theorem lineless_write (text : String) : Lineless id (write text) (write text) :=
  lineless_modify fun _ => rfl

/-- A block is handed over with the same text on any line. -/
private theorem lineless_handOver (executor : Option Executor) (code : String) (line : Nat) :
    Lineless id (handOver executor code line) (handOver executor code 0) := by
  intro m
  cases executor with
  | none => rfl
  | some answer =>
    have hblocks : (view.state m).blocks = m.blocks := rfl
    simp only [handOver, hblocks]
    cases answer m.blocks code <;> rfl

/-! ### Places -/

/-- A place is visited without regard to lines: no cell holds one. -/
private theorem lineless_visit (p : Place) : Lineless id (visit p) (visit p) := by
  intro m
  have hcell : (view.state m).cell? p.slot = m.cell? p.slot := m.unlined_cell? p.slot
  simp only [visit, hcell]
  cases m.cell? p.slot with
  | none => rfl
  | some content =>
    dsimp only
    cases p.path with
    | nil => rfl
    | cons segment rest =>
      dsimp only
      cases content.visit? p.key (Value.zero p.type) with
      | none => rfl
      | some found =>
        simp only [view, Machine.unlined_setCell]
        rfl

/-- Overwriting a place has nothing to do with lines. -/
private theorem unlined_overwrite (p : Place) (v : Value) (m : Machine) :
    (overwrite p v m).unlined = overwrite p v m.unlined := by
  unfold overwrite
  rw [m.unlined_cell?]
  cases p.path with
  | nil => exact m.unlined_setCell p.slot v
  | cons segment rest =>
    dsimp only
    cases m.cell? p.slot with
    | none => rfl
    | some content => exact m.unlined_setCell p.slot _

/-- A value is stored without regard to lines. -/
private theorem lineless_store (p : Place) (v : Value) : Lineless id (store p v) (store p v) :=
  (lineless_visit p).bind fun _ =>
    (lineless_modify fun m => (unlined_overwrite p _ m).symm).bind fun _ => .pure rfl

/-! ### Calls -/

/-- The procedure of a call is found without its lines, or is missing on both sides. -/
theorem lineless_procedure (ordinal : Nat) (name : String) (line : Nat) :
    Lineless ProcedureOf.unlined (procedure ordinal name line) (procedure ordinal name 0) := by
  intro m
  have hentry : (view.state m).procedures[ordinal]? =
      m.procedures[ordinal]?.map (Option.map ProcedureOf.unlined) := List.getElem?_map ..
  simp only [procedure, hentry]
  rcases m.procedures[ordinal]? with - | - | p <;> rfl

/-- A computation in a frame of its own does not look at lines if it does not outside. -/
private theorem lineless_inFrame {α β : Type} {f : α → β} {x : Run α} {x' : Run β}
    (hx : Lineless f x x') (frame : Frame) : Lineless f (inFrame frame x) (inFrame frame x') := by
  intro m
  have hinner := hx { m with frames := frame :: m.frames }
  have hstate : view.state { m with frames := frame :: m.frames } =
      { view.state m with frames := frame :: (view.state m).frames } := rfl
  rw [hstate] at hinner
  simp only [inFrame, hinner]
  cases x { m with frames := frame :: m.frames } <;> rfl

/-- The bodies of procedures run alike without their lines. -/
def Alike (body body' : List Stmt → Run Ending) : Prop :=
  ∀ ss, Lineless id (body ss) (body' (ss.map Stmt.unlined))

section Evaluation

variable {body body' : List Stmt → Run Ending}

/-- A call binds the same arguments and runs a body without its lines. -/
private theorem lineless_invoke (hbody : Alike body body') (p : Procedure)
    (arguments : List Value) :
    Lineless id (invoke body p arguments) (invoke body' p.unlined arguments) :=
  (lineless_inFrame (hbody p.body) _).bind fun _ => .pure rfl

mutual

/-- An expression has the same value without its lines. -/
theorem lineless_evaluate (hbody : Alike body body') :
    (e : Expr) → Lineless id (evaluate body e) (evaluate body' e.unlined)
  | .literal v => by
    rw [Expr.unlined, evaluate, evaluate]
    exact .pure rfl
  | .read place => by
    rw [Expr.unlined, evaluate, evaluate]
    exact lineless_visit place
  | .group inner => by
    rw [Expr.unlined, evaluate, evaluate]
    exact lineless_evaluate hbody inner
  | .negate operand line => by
    rw [Expr.unlined, evaluate, evaluate]
    exact (lineless_evaluate hbody operand).bind fun v => lineless_negation v line
  | .binary left op right line => by
    rw [Expr.unlined, evaluate, evaluate]
    exact (lineless_evaluate hbody left).bind fun l => (lineless_evaluate hbody right).bind fun r =>
      lineless_arithmetic l op r line
  | .assign target steps => by
    rw [Expr.unlined, evaluate, evaluate]
    exact (lineless_visit target).bind fun v => lineless_evaluateSteps hbody target v steps
  | .bump target up after line => by
    rw [Expr.unlined, evaluate, evaluate]
    exact (lineless_visit target).bind fun current =>
      (lineless_arithmetic current .add _ line).bind fun changed =>
      (lineless_store target changed).bind fun _ => .pure rfl
  | .call ordinal name arguments line => by
    rw [Expr.unlined, evaluate, evaluate]
    exact (lineless_procedure ordinal name line).bind fun p =>
      (lineless_evaluateArguments hbody p.parameters arguments).bind fun values =>
      lineless_invoke hbody p values

/-- The arguments of a call have the same values without their lines. -/
private theorem lineless_evaluateArguments (hbody : Alike body body') (types : List Scalar) :
    (es : List Expr) → Lineless id (evaluateArguments body types es)
      (evaluateArguments body' types (Expr.unlinedAll es))
  | [] => by
    cases types <;> exact .pure rfl
  | e :: rest => by
    rw [Expr.unlinedAll]
    cases types with
    | nil => exact .pure rfl
    | cons type types =>
      rw [evaluateArguments, evaluateArguments]
      exact (lineless_evaluate hbody e).bind fun v =>
        (lineless_evaluateArguments hbody types rest).bind fun _ => .pure rfl

/-- The steps of an assignment store the same values without their lines. -/
private theorem lineless_evaluateSteps (hbody : Alike body body') (target : Place) (v : Value) :
    (steps : List (Step Expr)) → Lineless id (evaluateSteps body target v steps)
      (evaluateSteps body' target v (Expr.unlinedSteps steps))
  | [] => by
    rw [Expr.unlinedSteps, evaluateSteps, evaluateSteps]
    exact .pure rfl
  | ⟨op, operand, line⟩ :: rest => by
    rw [Expr.unlinedSteps, evaluateSteps, evaluateSteps]
    refine (lineless_evaluate hbody operand).bind fun r => ?_
    cases op with
    | none =>
      exact Commutes.bind (f := id) (.pure rfl) fun changed =>
        (lineless_store target changed).bind fun kept =>
          lineless_evaluateSteps hbody target kept rest
    | some op =>
      exact (lineless_arithmetic v op r line).bind fun changed =>
        (lineless_store target changed).bind fun kept =>
          lineless_evaluateSteps hbody target kept rest

end

/-- Expressions in a row have the same values without their lines. -/
private theorem lineless_evaluateAll (hbody : Alike body body') (es : List Expr) :
    Lineless id (evaluateAll body es) (evaluateAll body' (es.map Expr.unlined)) := by
  induction es with
  | nil => exact .pure rfl
  | cons e es ih => exact (lineless_evaluate hbody e).bind fun _ => ih.bind fun _ => .pure rfl

/-- A term is as true without its lines. -/
private theorem lineless_evaluateTerm (hbody : Alike body body') (t : Term) :
    Lineless id (evaluateTerm body t) (evaluateTerm body' t.unlined) := by
  obtain ⟨negated, left, comparison, line⟩ := t
  refine (lineless_evaluate hbody left).bind fun l => ?_
  cases comparison with
  | none => exact Commutes.bind (f := id) (.pure rfl) fun _ => .pure rfl
  | some side =>
    obtain ⟨c, right⟩ := side
    exact (lineless_evaluate hbody right).bind fun r =>
      (lineless_comparison l c r line).bind fun _ => .pure rfl

/-- Terms joined by connectives, without their lines. -/
def termsUnlined (ts : List (Connective × Term)) : List (Connective × Term) :=
  ts.map fun (connective, t) => (connective, t.unlined)

/-- Behind the first term, a condition goes on alike without its lines. -/
private theorem lineless_evaluateTerms (hbody : Alike body body') (sofar : Bool)
    (ts : List (Connective × Term)) :
    Lineless id (evaluateTerms body sofar ts) (evaluateTerms body' sofar (termsUnlined ts)) := by
  induction ts generalizing sofar with
  | nil => cases sofar <;> exact .pure rfl
  | cons t ts ih =>
    obtain ⟨connective, t⟩ := t
    have hterm : Lineless id (evaluateTerm body t >>= fun b => evaluateTerms body b ts)
        (evaluateTerm body' t.unlined >>= fun b => evaluateTerms body' b (termsUnlined ts)) :=
      (lineless_evaluateTerm hbody t).bind fun b => ih b
    cases connective with
    | and =>
      cases sofar with
      | true => exact hterm
      | false => exact ih false
    | or =>
      cases sofar with
      | true => exact .pure rfl
      | false => exact hterm

/-- A condition is as true without its lines. -/
private theorem lineless_evaluateCondition (hbody : Alike body body') (c : Condition) :
    Lineless id (evaluateCondition body c) (evaluateCondition body' c.unlined) :=
  (lineless_evaluateTerm hbody c.first).bind fun b => lineless_evaluateTerms hbody b c.rest

/-! ### Statements -/

private theorem lineless_effect (hbody : Alike body body') (e : Option Expr) :
    Lineless id (effect body e) (effect body' (e.map Expr.unlined)) := by
  cases e with
  | none => exact .pure rfl
  | some e => exact (lineless_evaluate hbody e).bind fun _ => .pure rfl

/-- A loop without a test goes on, and one with a test goes on alike. -/
private theorem lineless_continues (hbody : Alike body body') (c : Option Condition) :
    Lineless id (continues body c) (continues body' (c.map Condition.unlined)) := by
  cases c with
  | none => exact .pure rfl
  | some c => exact lineless_evaluateCondition hbody c

/-- A return gives back the same value without its lines. -/
private theorem lineless_returnValue (hbody : Alike body body') (e : Option Expr) :
    Lineless id (returnValue body e) (returnValue body' (e.map Expr.unlined)) := by
  cases e with
  | none => exact .pure rfl
  | some e => exact lineless_evaluate hbody e

/-- Declared variables begin with the same values. -/
private theorem lineless_declareAll (hbody : Alike body body') (ds : List Declarator) :
    Lineless id (declareAll body ds) (declareAll body' (ds.map Declarator.unlined)) := by
  induction ds with
  | nil => exact .pure rfl
  | cons d ds ih =>
    obtain ⟨target, initial⟩ := d
    refine (lineless_store target (Value.zero target.type)).bind fun _ => ?_
    cases initial with
    | none => exact ih
    | some e => exact (lineless_evaluate hbody e).bind fun _ => ih

end Evaluation

/-- A loop goes round as often without its lines. -/
private theorem lineless_rounds {test test' : Run Bool} {body body' : Run Ending}
    {step step' : Run Unit} (htest : Lineless id test test') (hbody : Lineless id body body')
    (hstep : Lineless id step step') (n : Nat) :
    Lineless id (rounds test body step n) (rounds test' body' step' n) := by
  induction n with
  | zero => exact .throw rfl
  | succ n ih =>
    refine htest.bind fun holds => .ite (hbody.bind fun ending => ?_) (.pure rfl)
    cases ending with
    | returned v => exact .pure rfl
    | through => exact hstep.bind fun _ => ih

mutual

/-- A statement does the same without its lines. -/
theorem lineless_execute {executor : Option Executor} {n : Nat}
    {body body' : List Stmt → Run Ending} (hbody : Alike body body') :
    (s : Stmt) → Lineless id (execute ⟨executor, body, n⟩ s)
      (execute ⟨executor, body', n⟩ s.unlined)
  | .expr e => by
    rw [Stmt.unlined, execute, execute]
    exact (lineless_effect hbody (some e)).bind fun _ => .pure rfl
  | .declare vars | .classDef _ vars => by
    rw [Stmt.unlined, execute, execute]
    exact (lineless_declareAll hbody vars).bind fun _ => .pure rfl
  | .procedure p => by
    rw [Stmt.unlined_procedure, execute, execute]
    exact (lineless_modify fun m => (m.unlined_install p).symm).bind fun _ => .pure rfl
  | .print template arguments _ => by
    rw [Stmt.unlined, execute, execute]
    exact (lineless_evaluateAll hbody arguments).bind fun _ => (lineless_write _).bind fun _ =>
      .pure rfl
  | .loop initial test step body => by
    rw [Stmt.unlined, execute, execute]
    exact (lineless_effect hbody initial).bind fun _ =>
      lineless_rounds (lineless_continues hbody test) (lineless_executeAll hbody body)
        (lineless_effect hbody step) n
  | .branch test yes none => by
    rw [Stmt.unlined, execute, execute]
    exact (lineless_evaluateCondition hbody test).bind fun _ =>
      .ite (lineless_executeAll hbody yes) (.pure rfl)
  | .branch test yes (some no) => by
    rw [Stmt.unlined, execute, execute]
    exact (lineless_evaluateCondition hbody test).bind fun _ =>
      .ite (lineless_executeAll hbody yes) (lineless_executeAll hbody no)
  | .giveBack value _ => by
    rw [Stmt.unlined, execute, execute]
    exact (lineless_returnValue hbody value).bind fun _ => .pure rfl
  | .foreign code line => by
    rw [Stmt.unlined, execute, execute]
    exact (lineless_handOver executor code line).bind fun _ => .pure rfl

/-- Statements in a row do the same without their lines. -/
private theorem lineless_executeAll {executor : Option Executor} {n : Nat}
    {body body' : List Stmt → Run Ending} (hbody : Alike body body') :
    (ss : List Stmt) → Lineless id (executeAll ⟨executor, body, n⟩ ss)
      (executeAll ⟨executor, body', n⟩ (Stmt.unlinedAll ss))
  | [] => by
    rw [Stmt.unlinedAll, executeAll, executeAll]
    exact .pure rfl
  | s :: rest => by
    rw [Stmt.unlinedAll, executeAll, executeAll]
    refine (lineless_execute hbody s).bind fun ending => ?_
    cases ending with
    | returned v => exact .pure rfl
    | through => exact lineless_executeAll hbody rest

end

/-- With any fuel, statements do the same without their lines. -/
theorem alike_runBody (executor : Option Executor) (n : Nat) :
    Alike (runBody executor n) (runBody executor n) := by
  induction n with
  | zero => exact fun _ => .throw rfl
  | succ n ih =>
    intro ss
    rw [runBody, runBody, ← Stmt.unlinedAll_eq_map]
    exact lineless_executeAll ih ss

end Run

/-- A program without its lines, on a machine without lines, does what the program itself does,
lines apart. -/
theorem Machine.interpret_unlined (executor : Option Executor) (fuel : Nat) (m : Machine)
    (ss : List Stmt) :
    m.unlined.interpret executor fuel (ss.map Stmt.unlined) =
      ((m.interpret executor fuel ss).1.mapError Stop.unlined,
        (m.interpret executor fuel ss).2.unlined) := by
  have hseen : runBody executor fuel (ss.map Stmt.unlined) (m.installAll ss).unlined = _ :=
    Run.alike_runBody executor fuel ss (m.installAll ss)
  simp only [interpret, ← unlined_installAll, hseen]
  cases runBody executor fuel ss (m.installAll ss) with
  | ok ending later => rfl
  | error stop later => rfl

/-- Programs that are the same without their lines run alike: when one runs to its end, so does the
other, it prints the same, and the machines behind them are the same without their lines. -/
theorem Machine.interpret_alike {executor : Option Executor} {fuel : Nat} {m later : Machine}
    {ss ss' : List Stmt} {output : String} (halike : ss'.map Stmt.unlined = ss.map Stmt.unlined)
    (h : m.interpret executor fuel ss = (.ok output, later)) :
    ∃ later', m.interpret executor fuel ss' = (.ok output, later') ∧
      later'.unlined = later.unlined := by
  have hseen := interpret_unlined executor fuel m ss'
  rw [halike, interpret_unlined, h] at hseen
  obtain ⟨houtcome, hlater⟩ := Prod.mk.inj hseen
  cases hresult : m.interpret executor fuel ss' with
  | mk outcome later' =>
    rw [hresult] at houtcome hlater
    cases outcome with
    | ok output' =>
      obtain rfl : output = output' := Except.ok.inj houtcome
      exact ⟨later', rfl, hlater.symm⟩
    | error stop => cases houtcome

end Litany
