import Litany.Machine.Execute
import Litany.Proofs.Outcome
import Mathlib.Logic.Relation

/-!
# The moments of a run

A run is carried out part by part: to evaluate a sum is to evaluate its left side, then its right
side on the machine that this leaves; to make a call is to evaluate its arguments, then to execute
the body in a new frame. A `Moment` is a part that is about to be carried out, with the machine it
finds and the procedures of the calls that have not ended. `Moment.parts` are the parts that it is
made of, as far as the run gets, and the moments of a run are those that it leads to part by part.

Nothing happens between the parts (`Moment.accounts`): cells change in visits and stores only, and
any other part ends with the cells that the last of its own parts leaves. So the machines that
moments begin with and end with are all the states of a run. The walk along the parts is the same
for whatever is accounted for by them, and stands in `Accounting`.
-/

namespace Litany

open Run

/-! ### Parts of a run -/

/-- A part of a program that is carried out as such. -/
inductive Task where
  | visit (p : Place)
  | store (p : Place) (v : Value)
  | expr (e : Expr)
  | arguments (types : List Scalar) (es : List Expr)
  | steps (target : Place) (v : Value) (steps : List (Step Expr))
  | exprs (es : List Expr)
  | term (t : Term)
  | terms (sofar : Bool) (ts : List (Connective × Term))
  | condition (c : Condition)
  | declarators (ds : List Declarator)
  | statements (ss : List Stmt)
  | rounds (test : Option Condition) (loop : List Stmt) (step : Option Expr) (n : Nat)

/-- A part that is about to be carried out with some fuel, under calls of the given procedures, the
innermost first. -/
structure Moment where
  stack : List Nat
  fuel : Nat
  task : Task
  machine : Machine

/-- The machine in which a computation ends, with an answer or at a stop. -/
def Run.endOf {α : Type} (x : Run α) (m : Machine) : Machine :=
  match x m with
  | .ok _ later => later
  | .error _ later => later

/-- What comes behind a computation, if it answers. -/
def Run.andThen {α β : Type} (x : Run α) (m : Machine) (next : α → Machine → List β) : List β :=
  match x m with
  | .ok a later => next a later
  | .error _ _ => []

namespace Moment

variable (executor : Option Executor)

/-- The machine in which the part ends. -/
def finish (k : Moment) : Machine :=
  let body := runBody executor k.fuel
  let cx : Context := ⟨executor, body, k.fuel⟩
  match k.task with
  | .visit p => endOf (Run.visit p) k.machine
  | .store p v => endOf (Run.store p v) k.machine
  | .expr e => endOf (evaluate body e) k.machine
  | .arguments types es => endOf (evaluateArguments body types es) k.machine
  | .steps target v steps => endOf (evaluateSteps body target v steps) k.machine
  | .exprs es => endOf (evaluateAll body es) k.machine
  | .term t => endOf (evaluateTerm body t) k.machine
  | .terms sofar ts => endOf (evaluateTerms body sofar ts) k.machine
  | .condition c => endOf (evaluateCondition body c) k.machine
  | .declarators ds => endOf (declareAll body ds) k.machine
  | .statements ss => endOf (executeAll cx ss) k.machine
  | .rounds test loop step n =>
    endOf (Litany.rounds (continues body test) (executeAll cx loop) (effect body step) n) k.machine

/-- Another part under the same calls. -/
def turn (k : Moment) (task : Task) (m : Machine) : Moment :=
  { k with task, machine := m }

/-- The body of a procedure, in its own frame. Without fuel no body is begun. -/
def enter (k : Moment) (ordinal : Nat) (p : Procedure) (values : List Value) (m : Machine) :
    List Moment :=
  match k.fuel with
  | 0 => []
  | n + 1 => [⟨ordinal :: k.stack, n, .statements p.body,
      { m with frames := ⟨values, p.locals.map Value.zero⟩ :: m.frames }⟩]

/-- The parts of an expression. -/
def exprParts (k : Moment) : Expr → List Moment
  | .literal _ => []
  | .read p => [k.turn (.visit p) k.machine]
  | .group inner => [k.turn (.expr inner) k.machine]
  | .negate operand _ => [k.turn (.expr operand) k.machine]
  | .binary left _ right _ =>
    k.turn (.expr left) k.machine ::
      andThen (evaluate (runBody executor k.fuel) left) k.machine fun _ m =>
        [k.turn (.expr right) m]
  | .assign target steps =>
    k.turn (.visit target) k.machine ::
      andThen (Run.visit target) k.machine fun v m => [k.turn (.steps target v steps) m]
  | .bump target up _ line =>
    k.turn (.visit target) k.machine ::
      andThen (Run.visit target) k.machine fun current m =>
        andThen (arithmetic current .add (.int (if up then 1 else -1)) line) m fun changed m =>
          [k.turn (.store target changed) m]
  | .call ordinal name es line =>
    andThen (procedure ordinal name line) k.machine fun p m =>
      k.turn (.arguments p.parameters es) m ::
        andThen (evaluateArguments (runBody executor k.fuel) p.parameters es) m fun values m =>
          k.enter ordinal p values m

/-- The parts of a statement. -/
def stmtParts (k : Moment) : Stmt → List Moment
  | .expr e => [k.turn (.expr e) k.machine]
  | .declare vars => [k.turn (.declarators vars) k.machine]
  | .classDef _ vars => [k.turn (.declarators vars) k.machine]
  | .procedure _ => []
  | .print _ es _ => [k.turn (.exprs es) k.machine]
  | .loop initial test step loop =>
    (initial.toList.map fun e => k.turn (.expr e) k.machine) ++
      andThen (effect (runBody executor k.fuel) initial) k.machine fun _ m =>
        [k.turn (.rounds test loop step k.fuel) m]
  | .branch test yes no =>
    k.turn (.condition test) k.machine ::
      andThen (evaluateCondition (runBody executor k.fuel) test) k.machine fun holds m =>
        if holds then [k.turn (.statements yes) m]
        else no.toList.map fun no => k.turn (.statements no) m
  | .giveBack value _ => value.toList.map fun e => k.turn (.expr e) k.machine
  | .foreign _ _ => []

/-- The parts of a step of an assignment to a target that holds the given value. -/
def stepParts (k : Moment) (target : Place) (v : Value) (step : Step Expr)
    (rest : List (Step Expr)) : List Moment :=
  let changed := fun r : Value =>
    match step.op with
    | none => pure r
    | some op => arithmetic v op r step.line
  k.turn (.expr step.operand) k.machine ::
    andThen (evaluate (runBody executor k.fuel) step.operand) k.machine fun r m =>
      andThen (changed r) m fun w m =>
        k.turn (.store target w) m ::
          andThen (Run.store target w) m fun kept m => [k.turn (.steps target kept rest) m]

/-- The parts of one round of a loop. -/
def roundParts (k : Moment) (test : Option Condition) (loop : List Stmt) (step : Option Expr)
    (n : Nat) : List Moment :=
  let body := runBody executor k.fuel
  (test.toList.map fun c => k.turn (.condition c) k.machine) ++
    andThen (continues body test) k.machine fun holds m =>
      if holds then
        k.turn (.statements loop) m ::
          andThen (executeAll ⟨executor, body, k.fuel⟩ loop) m fun ending m =>
            match ending with
            | .returned _ => []
            | .through =>
              (step.toList.map fun e => k.turn (.expr e) m) ++
                andThen (effect body step) m fun _ m => [k.turn (.rounds test loop step n) m]
      else []

/-- The parts that a part is made of, in the order in which they are carried out, as far as the run
gets. -/
def parts (k : Moment) : List Moment :=
  let body := runBody executor k.fuel
  match k.task with
  | .visit _ => []
  | .store p _ => [k.turn (.visit p) k.machine]
  | .expr e => k.exprParts executor e
  | .arguments (_ :: types) (e :: rest) =>
    k.turn (.expr e) k.machine ::
      andThen (evaluate body e) k.machine fun _ m => [k.turn (.arguments types rest) m]
  | .arguments _ _ => []
  | .steps _ _ [] => []
  | .steps target v (step :: rest) => k.stepParts executor target v step rest
  | .exprs [] => []
  | .exprs (e :: rest) =>
    k.turn (.expr e) k.machine ::
      andThen (evaluate body e) k.machine fun _ m => [k.turn (.exprs rest) m]
  | .term t =>
    k.turn (.expr t.left) k.machine ::
      andThen (evaluate body t.left) k.machine fun _ m =>
        t.comparison.toList.map fun side => k.turn (.expr side.2) m
  | .terms _ [] => []
  | .terms true ((.or, _) :: _) => []
  | .terms false ((.and, _) :: rest) => [k.turn (.terms false rest) k.machine]
  | .terms _ ((_, t) :: rest) =>
    k.turn (.term t) k.machine ::
      andThen (evaluateTerm body t) k.machine fun holds m => [k.turn (.terms holds rest) m]
  | .condition c =>
    k.turn (.term c.first) k.machine ::
      andThen (evaluateTerm body c.first) k.machine fun holds m => [k.turn (.terms holds c.rest) m]
  | .declarators [] => []
  | .declarators (d :: rest) =>
    k.turn (.store d.target (Value.zero d.target.type)) k.machine ::
      andThen (Run.store d.target (Value.zero d.target.type)) k.machine fun _ m =>
        (d.initial.toList.map fun e => k.turn (.expr e) m) ++
          andThen (effect body d.initial) m fun _ m => [k.turn (.declarators rest) m]
  | .statements [] => []
  | .statements (s :: rest) =>
    k.stmtParts executor s ++
      andThen (execute ⟨executor, body, k.fuel⟩ s) k.machine fun ending m =>
        match ending with
        | .returned _ => []
        | .through => [k.turn (.statements rest) m]
  | .rounds _ _ _ 0 => []
  | .rounds test loop step (n + 1) => k.roundParts executor test loop step n

/-- The moments that a moment leads to, part by part. -/
def Leads : Moment → Moment → Prop :=
  Relation.ReflTransGen fun k k' => k' ∈ k.parts executor

/-- Go down from part to part, each chosen by its position. -/
def follow : List Nat → Moment → Option Moment
  | [], k => some k
  | i :: rest, k => (k.parts executor)[i]?.bind (follow rest)

variable {executor}

/-- What is found by following a path of parts is a moment of the run. -/
theorem leads_of_follow {path : List Nat} {k k' : Moment} (h : k.follow executor path = some k') :
    k.Leads executor k' := by
  induction path generalizing k with
  | nil =>
    cases h
    exact .refl
  | cons i rest ih =>
    obtain ⟨part, hpart, hrest⟩ := Option.bind_eq_some_iff.mp h
    exact .head (List.mem_of_getElem? hpart) (ih hrest)

end Moment

/-! ### The parts make up the run -/

/-- Two machines with the same cells. -/
structure Machine.SameCells (m m' : Machine) : Prop where
  globals : m.globals = m'.globals
  frames : m.frames = m'.frames

theorem Machine.SameCells.refl (m : Machine) : m.SameCells m :=
  ⟨rfl, rfl⟩

/-- Cells that do not change in two steps do not change in both. -/
theorem Machine.SameCells.trans {m₁ m₂ m₃ : Machine} (h : m₁.SameCells m₂) (h' : m₂.SameCells m₃) :
    m₁.SameCells m₃ :=
  ⟨h.globals.trans h'.globals, h.frames.trans h'.frames⟩

/-- A computation that leaves the machine as it is. -/
def Run.Idle {α : Type} (x : Run α) : Prop :=
  ∀ m : Machine, endOf x m = m

/-- A computation that changes no cell. -/
def Run.Still {α : Type} (x : Run α) : Prop :=
  ∀ m : Machine, m.SameCells (endOf x m)

/-- The machine behind a part, when all calls have ended that are not in the stack. -/
def Moment.behind (executor : Option Executor) (stack : List Nat) (k : Moment) : Machine :=
  let m := k.finish executor
  { m with frames := m.frames.drop (k.stack.length - stack.length) }

/-- Parts that are all that happens between two machines: the last of them leaves the cells that
are there in the end, and without any no cell has changed. -/
def Accounts (executor : Option Executor) (stack : List Nat) (m : Machine) (parts : List Moment)
    (later : Machine) : Prop :=
  match parts.getLast? with
  | none => m.SameCells later
  | some last => (last.behind executor stack).SameCells later

namespace Run

variable {α β : Type} {x : Run α} {m : Machine}

/-- The machine that two computations in a row leave is that of the second, if the first one
answers. -/
theorem endOf_bind (x : Run α) (f : α → Run β) (m : Machine) :
    endOf (x >>= f) m = match x m with
      | .ok a later => endOf (f a) later
      | .error _ later => later := by
  unfold endOf
  rw [bind_apply]
  cases x m with
  | ok a later => rfl
  | error stop later => rfl

private theorem idle_pure (a : α) : Idle (pure a : Run α) :=
  fun _ => rfl

private theorem idle_throw (stop : Stop) : Idle (throw stop : Run α) :=
  fun _ => rfl

/-- Operations change nothing, also where they fail. -/
private theorem idle_arithmetic (l : Value) (op : Arithmetic) (r : Value) (line : Nat) :
    Idle (arithmetic l op r line) := by
  unfold arithmetic
  split
  · exact idle_throw _
  · split
    · exact idle_pure _
    · exact idle_throw _

private theorem idle_negation (v : Value) (line : Nat) : Idle (negation v line) := by
  unfold negation
  split
  · exact idle_pure _
  · exact idle_throw _

private theorem idle_comparison (l : Value) (c : Comparison) (r : Value) (line : Nat) :
    Idle (comparison l c r line) := by
  unfold comparison
  split
  · exact idle_pure _
  · exact idle_throw _

/-- Looking up the procedure of a call changes nothing. -/
private theorem idle_procedure (ordinal : Nat) (name : String) (line : Nat) :
    Idle (procedure ordinal name line) := by
  intro m
  unfold endOf procedure
  split
  · rename_i hresult
    split at hresult <;> cases hresult
    rfl
  · rename_i hresult
    split at hresult <;> cases hresult
    rfl

/-- Handing over a block changes no cell. -/
private theorem still_handOver (executor : Option Executor) (code : String) (line : Nat) :
    Still (handOver executor code line) := by
  intro m
  cases executor with
  | none => exact .refl m
  | some answer =>
    unfold endOf handOver
    dsimp only
    cases answer m.blocks code <;> exact ⟨rfl, rfl⟩

end Run

/-! ### Accounting for a part by its parts -/

/-- A relation between a machine, the parts that are carried out on it one after the other, and the
machine behind the last of them. It does not look at what was printed or which procedures are
installed. -/
structure Accounting (executor : Option Executor)
    (R : List Nat → Machine → List Moment → Machine → Prop) : Prop where
  aside : ∀ (stack : List Nat) (m : Machine) (output : String)
    (procedures : List (Option Procedure)), R stack m [] { m with output, procedures }
  /-- One part under the same calls. -/
  turn : ∀ (k : Moment) (task : Task) (m : Machine),
    R k.stack m [k.turn task m] ((k.turn task m).finish executor)
  /-- The body of a procedure is the part of a call that runs it. -/
  enter : ∀ (k : Moment) (ordinal : Nat) (p : Procedure) (values : List Value) (m : Machine),
    R k.stack m (k.enter ordinal p values m) (endOf (invoke (runBody executor k.fuel) p values) m)
  append : ∀ {stack : List Nat} {m₁ m₂ m₃ : Machine} {parts more : List Moment},
    R stack m₁ parts m₂ → R stack m₂ more m₃ → R stack m₁ (parts ++ more) m₃

namespace Accounting

variable {executor : Option Executor} {R : List Nat → Machine → List Moment → Machine → Prop}
  {stack : List Nat} {m : Machine} {parts : List Moment} {α β : Type} {x : Run α} {f : α → Run β}

section Sequences

variable (h : Accounting executor R)

include h

/-- Where the machine stays as it is, there is no part. -/
theorem idle (hx : Idle x) (m : Machine) : R stack m [] (endOf x m) := by
  rw [hx m]
  exact h.aside stack m m.output m.procedures

/-- Parts of two computations in a row. -/
theorem andThen {next : α → Machine → List Moment} (hx : R stack m parts (endOf x m))
    (hf : ∀ a later, x m = .ok a later → R stack later (next a later) (endOf (f a) later)) :
    R stack m (parts ++ Run.andThen x m next) (endOf (x >>= f) m) := by
  rw [endOf_bind]
  unfold endOf at hx
  unfold Run.andThen
  cases hresult : x m with
  | error stop later =>
    rw [hresult] at hx
    simpa using hx
  | ok a later =>
    rw [hresult] at hx
    exact h.append hx (hf a later hresult)

/-- A computation without parts may come behind any parts. -/
private theorem andThen_nil (hx : R stack m parts (endOf x m))
    (hf : ∀ a later, R stack later [] (endOf (f a) later)) :
    R stack m parts (endOf (x >>= f) m) := by
  have hnone : Run.andThen x m (fun _ _ => ([] : List Moment)) = [] := by
    unfold Run.andThen
    cases x m <;> rfl
  have hboth : R stack m (parts ++ Run.andThen x m fun _ _ => []) (endOf (x >>= f) m) :=
    h.andThen hx fun a later _ => hf a later
  rw [hnone, List.append_nil] at hboth
  exact hboth

/-- A computation that leaves the machine as it is may come behind any parts. -/
private theorem bind_idle (hx : R stack m parts (endOf x m)) (hf : ∀ a, Idle (f a)) :
    R stack m parts (endOf (x >>= f) m) :=
  h.andThen_nil hx fun a later => h.idle (hf a) later

/-- A computation that leaves the machine as it is may come in front of any parts. -/
private theorem idle_bind {next : α → Machine → List Moment} (hx : Idle x)
    (hf : ∀ a later, x m = .ok a later → R stack later (next a later) (endOf (f a) later)) :
    R stack m (Run.andThen x m next) (endOf (x >>= f) m) := by
  have hnone : R stack m [] (endOf x m) := h.idle hx m
  exact h.andThen hnone hf

/-- A part that may be missing. -/
theorem effect (k : Moment) (e : Option Expr) (m : Machine) :
    R k.stack m (e.toList.map fun e => k.turn (.expr e) m)
      (endOf (effect (runBody executor k.fuel) e) m) := by
  cases e with
  | none => exact h.idle (idle_pure ()) m
  | some e => exact h.bind_idle (h.turn k (.expr e) m) fun _ => idle_pure _

end Sequences

section Parts

variable (h : Accounting executor R) (k : Moment)

include h

/-- An expression does what its parts do. -/
theorem expr (e : Expr) :
    R k.stack k.machine (k.exprParts executor e)
      (endOf (evaluate (runBody executor k.fuel) e) k.machine) := by
  cases e with
  | literal v =>
    rw [evaluate]
    exact h.idle (idle_pure v) _
  | read p =>
    rw [evaluate]
    exact h.turn k (.visit p) _
  | group inner =>
    rw [evaluate]
    exact h.turn k (.expr inner) _
  | negate operand line =>
    rw [evaluate]
    exact h.bind_idle (h.turn k (.expr operand) _) fun v => idle_negation v line
  | binary left op right line =>
    rw [evaluate]
    refine h.andThen (h.turn k (.expr left) _) fun l later _ => ?_
    exact h.bind_idle (h.turn k (.expr right) later) fun r => idle_arithmetic l op r line
  | assign target steps =>
    rw [evaluate]
    exact h.andThen (h.turn k (.visit target) _) fun v later _ =>
      h.turn k (.steps target v steps) later
  | bump target up after line =>
    rw [evaluate]
    refine h.andThen (h.turn k (.visit target) _) fun current later _ => ?_
    refine h.idle_bind (idle_arithmetic current .add _ line) fun changed last _ => ?_
    exact h.bind_idle (h.turn k (.store target changed) last) fun _ => idle_pure _
  | call ordinal name es line =>
    rw [evaluate]
    refine h.idle_bind (idle_procedure ordinal name line) fun p later _ => ?_
    refine h.andThen (h.turn k (.arguments p.parameters es) later) fun values last _ => ?_
    exact h.enter k ordinal p values last

/-- Of the statements, only a block of foreign code does more than its parts, if it has any. -/
private theorem stmt (s : Stmt) (hforeign : ∀ code line, s ≠ .foreign code line) :
    R k.stack k.machine (k.stmtParts executor s)
      (endOf (execute ⟨executor, runBody executor k.fuel, k.fuel⟩ s) k.machine) := by
  cases s with
  | expr e =>
    rw [execute]
    exact h.bind_idle (h.effect k (some e) _) fun _ => idle_pure _
  | declare vars =>
    rw [execute]
    exact h.bind_idle (h.turn k (.declarators vars) _) fun _ => idle_pure _
  | classDef number vars =>
    rw [execute]
    exact h.bind_idle (h.turn k (.declarators vars) _) fun _ => idle_pure _
  | procedure p =>
    rw [execute]
    exact h.aside k.stack k.machine k.machine.output (k.machine.install p).procedures
  | print template es line =>
    rw [execute]
    refine h.andThen_nil (h.turn k (.exprs es) _) fun values later => ?_
    exact h.aside k.stack later (later.output ++ _) later.procedures
  | loop initial test step loop =>
    rw [execute]
    exact h.andThen (h.effect k initial _) fun _ later _ =>
      h.turn k (.rounds test loop step k.fuel) later
  | branch test yes no =>
    cases no with
    | none =>
      rw [execute]
      refine h.andThen (h.turn k (.condition test) _) fun holds later _ => ?_
      cases holds with
      | true => exact h.turn k (.statements yes) later
      | false => exact h.idle (idle_pure _) later
    | some no =>
      rw [execute]
      refine h.andThen (h.turn k (.condition test) _) fun holds later _ => ?_
      cases holds with
      | true => exact h.turn k (.statements yes) later
      | false => exact h.turn k (.statements no) later
  | giveBack value line =>
    rw [execute]
    refine h.bind_idle ?_ fun _ => idle_pure _
    cases value with
    | none => exact h.idle (idle_pure _) _
    | some e => exact h.turn k (.expr e) _
  | foreign code line => exact absurd rfl (hforeign code line)

/-- A step of an assignment does what its parts do. -/
theorem step (target : Place) (v : Value) (step : Step Expr) (rest : List (Step Expr)) :
    R k.stack k.machine (k.stepParts executor target v step rest)
      (endOf (evaluateSteps (runBody executor k.fuel) target v (step :: rest)) k.machine) := by
  obtain ⟨op, operand, line⟩ := step
  rw [evaluateSteps]
  refine h.andThen (h.turn k (.expr operand) _) fun r later _ => ?_
  have hstore : ∀ (w : Value) (m : Machine), R k.stack m
      (k.turn (.store target w) m ::
        Run.andThen (Run.store target w) m fun kept m => [k.turn (.steps target kept rest) m])
      (endOf (Run.store target w >>= fun kept =>
        evaluateSteps (runBody executor k.fuel) target kept rest) m) := fun w m =>
    h.andThen (h.turn k (.store target w) m) fun kept after _ =>
      h.turn k (.steps target kept rest) after
  cases op with
  | none => exact h.idle_bind (idle_pure r) fun w last _ => hstore w last
  | some op => exact h.idle_bind (idle_arithmetic v op r line) fun w last _ => hstore w last

/-- A round of a loop does what its parts do. -/
private theorem round (test : Option Condition) (loop : List Stmt) (step : Option Expr) (n : Nat) :
    R k.stack k.machine (k.roundParts executor test loop step n)
      (endOf (rounds (continues (runBody executor k.fuel) test)
        (executeAll ⟨executor, runBody executor k.fuel, k.fuel⟩ loop)
        (Litany.effect (runBody executor k.fuel) step) (n + 1)) k.machine) := by
  rw [rounds]
  refine h.andThen ?_ fun holds later _ => ?_
  · cases test with
    | none => exact h.idle (idle_pure true) _
    | some c => exact h.turn k (.condition c) _
  · cases holds with
    | false => exact h.idle (idle_pure _) later
    | true =>
      refine h.andThen (h.turn k (.statements loop) later) fun ending last _ => ?_
      cases ending with
      | returned v => exact h.idle (idle_pure _) last
      | through =>
        exact h.andThen (h.effect k step last) fun _ after _ =>
          h.turn k (.rounds test loop step n) after

/-- A declaration does what its stores and its initial values do. -/
theorem declarators (d : Declarator) (rest : List Declarator) :
    R k.stack k.machine
      (k.turn (.store d.target (Value.zero d.target.type)) k.machine ::
        Run.andThen (Run.store d.target (Value.zero d.target.type)) k.machine fun _ m =>
          (d.initial.toList.map fun e => k.turn (.expr e) m) ++
            Run.andThen (Litany.effect (runBody executor k.fuel) d.initial) m fun _ m =>
              [k.turn (.declarators rest) m])
      (endOf (declareAll (runBody executor k.fuel) (d :: rest)) k.machine) := by
  rw [declareAll]
  refine h.andThen (h.turn k (.store d.target _) _) fun _ later _ => ?_
  have hrest := h.andThen (f := fun _ => declareAll (runBody executor k.fuel) rest)
    (h.effect k d.initial later) fun _ last _ => h.turn k (.declarators rest) last
  cases hinitial : d.initial with
  | none =>
    rw [hinitial] at hrest
    exact hrest
  | some e =>
    rw [hinitial] at hrest
    simpa only [Litany.effect, bind_assoc, pure_bind] using hrest

/-- A condition does what its terms do. -/
theorem term (t : Term) (rest : List (Connective × Term)) :
    R k.stack k.machine
      (k.turn (.term t) k.machine ::
        Run.andThen (evaluateTerm (runBody executor k.fuel) t) k.machine fun holds m =>
          [k.turn (.terms holds rest) m])
      (endOf (evaluateTerm (runBody executor k.fuel) t >>= fun holds =>
        evaluateTerms (runBody executor k.fuel) holds rest) k.machine) :=
  h.andThen (h.turn k (.term t) _) fun holds later _ => h.turn k (.terms holds rest) later

/-- A statement and those behind it, from what the statement does. -/
theorem statements (s : Stmt) (rest : List Stmt)
    (hs : R k.stack k.machine (k.stmtParts executor s)
      (endOf (execute ⟨executor, runBody executor k.fuel, k.fuel⟩ s) k.machine)) :
    R k.stack k.machine
      (k.stmtParts executor s ++
        Run.andThen (execute ⟨executor, runBody executor k.fuel, k.fuel⟩ s) k.machine
          fun ending m =>
            match ending with
            | .returned _ => []
            | .through => [k.turn (.statements rest) m])
      (endOf (executeAll ⟨executor, runBody executor k.fuel, k.fuel⟩ (s :: rest)) k.machine) := by
  rw [executeAll]
  refine h.andThen hs fun ending later _ => ?_
  cases ending with
  | returned v => exact h.idle (idle_pure _) later
  | through => exact h.turn k (.statements rest) later

/-- A part is made up of its parts, unless it does something to the machine itself: a visit, a
store, or a block of foreign code. -/
theorem of_parts (hvisit : ∀ p, k.task ≠ .visit p) (hstore : ∀ p v, k.task ≠ .store p v)
    (hforeign : ∀ code line rest, k.task ≠ .statements (.foreign code line :: rest)) :
    R k.stack k.machine (k.parts executor) (k.finish executor) := by
  obtain ⟨stack, fuel, task, m⟩ := k
  have hstay : R stack m [] m := h.aside stack m m.output m.procedures
  cases task with
  | visit p => exact absurd rfl (hvisit p)
  | store p v => exact absurd rfl (hstore p v)
  | expr e => exact h.expr ⟨stack, fuel, .expr e, m⟩ e
  | arguments types es =>
    cases es with
    | nil => cases types <;> exact hstay
    | cons e rest =>
      cases types with
      | nil => exact hstay
      | cons type types =>
        unfold Moment.finish
        dsimp only
        rw [evaluateArguments]
        refine h.andThen (h.turn ⟨stack, fuel, _, m⟩ (.expr e) m) fun v later _ => ?_
        exact h.bind_idle (h.turn ⟨stack, fuel, _, m⟩ (.arguments types rest) later) fun _ =>
          idle_pure _
  | steps target v steps =>
    cases steps with
    | nil => exact hstay
    | cons step rest => exact h.step ⟨stack, fuel, _, m⟩ target v step rest
  | exprs es =>
    cases es with
    | nil => exact hstay
    | cons e rest =>
      refine h.andThen (h.turn ⟨stack, fuel, _, m⟩ (.expr e) m) fun v later _ => ?_
      exact h.bind_idle (h.turn ⟨stack, fuel, _, m⟩ (.exprs rest) later) fun _ => idle_pure _
  | term t =>
    obtain ⟨negated, left, comparison, line⟩ := t
    refine h.andThen (h.turn ⟨stack, fuel, _, m⟩ (.expr left) m) fun l later _ => ?_
    cases comparison with
    | none => exact h.bind_idle (h.idle (idle_pure _) later) fun _ => idle_pure _
    | some side =>
      obtain ⟨c, right⟩ := side
      refine h.andThen_nil (h.turn ⟨stack, fuel, _, m⟩ (.expr right) later) fun r last => ?_
      exact h.bind_idle (h.idle (idle_comparison l c r line) last) fun _ => idle_pure _
  | terms sofar ts =>
    cases ts with
    | nil => cases sofar <;> exact hstay
    | cons t rest =>
      obtain ⟨connective, t⟩ := t
      cases connective with
      | and =>
        cases sofar with
        | true => exact h.term ⟨stack, fuel, _, m⟩ t rest
        | false => exact h.turn ⟨stack, fuel, _, m⟩ (.terms false rest) m
      | or =>
        cases sofar with
        | true => exact hstay
        | false => exact h.term ⟨stack, fuel, _, m⟩ t rest
  | condition c => exact h.term ⟨stack, fuel, _, m⟩ c.first c.rest
  | declarators ds =>
    cases ds with
    | nil => exact hstay
    | cons d rest => exact h.declarators ⟨stack, fuel, _, m⟩ d rest
  | statements ss =>
    cases ss with
    | nil =>
      unfold Moment.finish
      dsimp only
      rw [executeAll]
      exact hstay
    | cons s rest =>
      refine h.statements ⟨stack, fuel, _, m⟩ s rest (h.stmt ⟨stack, fuel, _, m⟩ s ?_)
      rintro code line rfl
      exact hforeign code line rest rfl
  | rounds test loop step n =>
    cases n with
    | zero => exact hstay
    | succ n => exact h.round ⟨stack, fuel, _, m⟩ test loop step n

end Parts

end Accounting

/-! ### Cells -/

/-- Cells are accounted for by the parts. -/
theorem accounting_cells (executor : Option Executor) :
    Accounting executor (Accounts executor) where
  aside _ _ _ _ := ⟨rfl, rfl⟩
  turn k task m := by
    refine ⟨rfl, ?_⟩
    -- no frame is dropped behind it
    change List.drop (k.stack.length - k.stack.length) _ = _
    rw [Nat.sub_self]
    rfl
  enter k ordinal p values m := by
    unfold invoke Moment.enter
    rw [endOf_bind]
    cases k.fuel with
    | zero => exact ⟨rfl, rfl⟩
    | succ n =>
      -- the part is one call deeper, so that its own frame is dropped behind it
      unfold Accounts Moment.behind
      dsimp only [List.getLast?_singleton, List.length_cons]
      rw [Nat.add_sub_cancel_left, List.drop_one]
      unfold inFrame Moment.finish
      dsimp only
      unfold endOf runBody
      cases executeAll ⟨executor, runBody executor n, n⟩ p.body
        { m with frames := ⟨values, p.locals.map Value.zero⟩ :: m.frames } with
      | ok ending later => exact ⟨rfl, rfl⟩
      | error stop later => exact ⟨rfl, rfl⟩
  append {stack m₁ m₂ m₃ parts more} hparts hmore := by
    unfold Accounts at *
    rw [List.getLast?_append]
    cases hlast : more.getLast? with
    | some last =>
      rw [hlast] at hmore
      exact hmore
    | none =>
      -- nothing comes behind: the parts in front are still the last
      rw [hlast] at hmore
      dsimp only at hmore
      rw [Option.none_or]
      cases hfront : parts.getLast? with
      | none =>
        rw [hfront] at hparts
        exact hparts.trans hmore
      | some last =>
        rw [hfront] at hparts
        exact hparts.trans hmore

/-- A part that is more than a visit or a store is made up of its parts: what they leave in the
cells is what it leaves there. -/
theorem Moment.accounts (executor : Option Executor) (k : Moment) (hvisit : ∀ p, k.task ≠ .visit p)
    (hstore : ∀ p v, k.task ≠ .store p v) :
    Accounts executor k.stack k.machine (k.parts executor) (k.finish executor) := by
  have hcells := accounting_cells executor
  by_cases hforeign : ∃ code line rest, k.task = .statements (.foreign code line :: rest)
  · obtain ⟨stack, fuel, task, m⟩ := k
    obtain ⟨code, line, rest, rfl⟩ := hforeign
    have hnone : Accounts executor stack m [] (endOf (handOver executor code line) m) :=
      still_handOver executor code line m
    refine hcells.statements ⟨stack, fuel, _, m⟩ _ rest ?_
    rw [execute]
    exact hcells.bind_idle hnone fun _ => idle_pure _
  · refine hcells.of_parts k hvisit hstore fun code line rest htask => ?_
    exact hforeign ⟨code, line, rest, htask⟩

end Litany
