import Litany.Proofs.Machine.Invariant
import Litany.Proofs.Machine.Storage

/-!
# One program on two storages

Two storages are in step on a computation if, from states that belong together, they give the same
answer or stop for the same reason, and leave states that belong together. A `Simulation` says this
of the elementary steps that a well-scoped program can take, and this module makes the induction
over the judgement of scoping: the storages are in step on whole expressions and statements.

A storage need not be able to hand out an object as a value. So the programs that are considered
are those in which only scalars are operands; `scalarOnly` tells them apart.
-/

namespace Litany

/-! ### Programs whose operands are scalars -/

/-- Whether a location holds a scalar. -/
def CellType.isScalar : CellType → Bool
  | .scalar _ => true
  | .object _ => false

/-- A location that holds a scalar has the type of one. -/
private theorem CellType.exists_of_isScalar {type : CellType} (h : type.isScalar = true) :
    ∃ t, type = .scalar t := by
  cases type with
  | scalar t => exact ⟨t, rfl⟩
  | object number => cases h

mutual

/-- Whether no object is an operand in an expression. -/
def Expr.scalarOnly : Expr → Bool
  | .literal _ => true
  | .read place => place.type.isScalar
  | .call _ _ arguments _ => scalarOnlyAll arguments
  | .negate operand _ => operand.scalarOnly
  | .group inner => inner.scalarOnly
  | .binary left _ right _ => left.scalarOnly && right.scalarOnly
  | .assign _ steps => scalarOnlySteps steps
  | .bump _ _ _ _ => true

/-- Whether no object is an operand in any of some expressions. -/
def Expr.scalarOnlyAll : List Expr → Bool
  | [] => true
  | e :: rest => e.scalarOnly && scalarOnlyAll rest

/-- Whether no object is an operand in the steps of an assignment. -/
def Expr.scalarOnlySteps : List (Step Expr) → Bool
  | [] => true
  | ⟨_, operand, _⟩ :: rest => operand.scalarOnly && scalarOnlySteps rest

end

private theorem Expr.scalarOnlyAll_iff {es : List Expr} :
    scalarOnlyAll es = true ↔ ∀ e ∈ es, e.scalarOnly = true := by
  induction es with
  | nil => simp [scalarOnlyAll]
  | cons e es ih => simp [scalarOnlyAll, ih]

private theorem Expr.scalarOnlySteps_iff {steps : List (Step Expr)} :
    scalarOnlySteps steps = true ↔ ∀ step ∈ steps, step.operand.scalarOnly = true := by
  induction steps with
  | nil => simp [scalarOnlySteps]
  | cons step steps ih =>
    obtain ⟨op, operand, line⟩ := step
    simp [scalarOnlySteps, ih]

/-- Whether no object is an operand in a term. -/
def Term.scalarOnly (t : Term) : Bool :=
  t.left.scalarOnly && t.comparison.all fun side => side.2.scalarOnly

/-- Whether no object is an operand in a condition. -/
def Condition.scalarOnly (c : Condition) : Bool :=
  c.first.scalarOnly && c.rest.all fun t => t.2.scalarOnly

/-- Whether no object is an operand in an initial value. -/
def Declarator.scalarOnly (d : Declarator) : Bool :=
  d.initial.all Expr.scalarOnly

mutual

/-- Whether no object is an operand in a statement, bodies of procedures included. -/
def Stmt.scalarOnly : Stmt → Bool
  | .expr e => e.scalarOnly
  | .declare vars => vars.all Declarator.scalarOnly
  | .procedure ⟨_, _, _, _, _, body⟩ => scalarOnlyAll body
  | .classDef _ vars => vars.all Declarator.scalarOnly
  | .print _ arguments _ => arguments.all Expr.scalarOnly
  | .loop initial test step body =>
    initial.all Expr.scalarOnly && test.all Condition.scalarOnly && step.all Expr.scalarOnly &&
      scalarOnlyAll body
  | .branch test yes none => test.scalarOnly && scalarOnlyAll yes
  | .branch test yes (some no) => test.scalarOnly && scalarOnlyAll yes && scalarOnlyAll no
  | .giveBack value _ => value.all Expr.scalarOnly
  | .foreign _ _ => true

/-- Whether no object is an operand in any of some statements. -/
def Stmt.scalarOnlyAll : List Stmt → Bool
  | [] => true
  | s :: rest => s.scalarOnly && scalarOnlyAll rest

end

namespace Storage

/-! ### In step -/

/-- Two results with the same answer or the same stop, and with states that belong together. -/
def Together {σ σ' α : Type} (R : σ → σ' → Prop) :
    EStateM.Result Stop σ α → EStateM.Result Stop σ' α → Prop
  | .ok a s, .ok b s' => a = b ∧ R s s'
  | .error stop s, .error stop' s' => stop = stop' ∧ R s s'
  | _, _ => False

/-- Two results that belong together are both answers, or both stops. -/
theorem Together.cases {σ σ' α : Type} {R : σ → σ' → Prop} {x : EStateM.Result Stop σ α}
    {y : EStateM.Result Stop σ' α} (h : Together R x y) :
    (∃ a s s', x = .ok a s ∧ y = .ok a s' ∧ R s s') ∨
      ∃ stop s s', x = .error stop s ∧ y = .error stop s' ∧ R s s' := by
  cases x with
  | ok a s =>
    cases y with
    | ok b s' =>
      obtain ⟨rfl, hs⟩ := h
      exact Or.inl ⟨a, s, s', rfl, rfl, hs⟩
    | error stop s' => exact h.elim
  | error stop s =>
    cases y with
    | ok b s' => exact h.elim
    | error stop' s' =>
      obtain ⟨rfl, hs⟩ := h
      exact Or.inr ⟨stop, s, s', rfl, rfl, hs⟩

/-- From states that belong together, two computations give the same answer or stop for the same
reason, and leave states that belong together. -/
def InStep {σ σ' α : Type} (R : σ → σ' → Prop) (x : RunOn σ α) (y : RunOn σ' α) : Prop :=
  ∀ s s', R s s' → Together R (x s) (y s')

namespace InStep

variable {σ σ' α β : Type} {R : σ → σ' → Prop}

theorem pure (a : α) : InStep R (pure a : RunOn σ α) (pure a) :=
  fun _ _ h => ⟨rfl, h⟩

theorem throw (stop : Stop) : InStep R (throw stop : RunOn σ α) (throw stop) :=
  fun _ _ h => ⟨rfl, h⟩

/-- Two computations in a row are in step if the first ones are and the second ones are for every
answer. -/
theorem bind {x : RunOn σ α} {y : RunOn σ' α} {f : α → RunOn σ β} {g : α → RunOn σ' β}
    (hx : InStep R x y) (hf : ∀ a, InStep R (f a) (g a)) : InStep R (x >>= f) (y >>= g) := by
  intro s s' h
  rw [bind_apply, bind_apply]
  rcases (hx s s' h).cases with ⟨a, t, t', hxs, hys, ht⟩ | ⟨stop, t, t', hxs, hys, ht⟩
  · rw [hxs, hys]
    exact hf a t t' ht
  · rw [hxs, hys]
    exact ⟨rfl, ht⟩

/-- A computation that does not look at its machine is in step with itself on any states. -/
theorem apart (x : Run α) : InStep R (Storage.apart x : RunOn σ α) (Storage.apart x) := by
  intro s s' h
  unfold Storage.apart
  cases x Machine.empty with
  | ok a m => exact ⟨rfl, h⟩
  | error stop m => exact ⟨rfl, h⟩

/-- Arguments are evaluated in step if each of them is. -/
theorem evaluateArguments {S : Storage σ} {S' : Storage σ'} {body : List Stmt → RunOn σ Ending}
    {body' : List Stmt → RunOn σ' Ending} {types : List Scalar} {es : List Expr}
    (hes : ∀ e ∈ es, InStep R (S.evaluate body e) (S'.evaluate body' e)) :
    InStep R (S.evaluateArguments body types es) (S'.evaluateArguments body' types es) := by
  induction es generalizing types with
  | nil => cases types <;> exact .pure []
  | cons e es ih =>
    obtain ⟨he, hrest⟩ := List.forall_mem_cons.mp hes
    cases types with
    | nil => exact .pure []
    | cons type types =>
      rw [Storage.evaluateArguments, Storage.evaluateArguments]
      exact he.bind fun v => (ih hrest).bind fun vs => .pure _

end InStep

/-! ### Simulations -/

/-- Two storages are in step on every elementary step that a well-scoped program whose operands are
scalars takes in a scope. Calls are left to the simulation: they depend on how bodies are run. -/
structure Simulation {σ σ' : Type} (names : Names) (scope : Scope) (S : Storage σ)
    (S' : Storage σ') (body : List Stmt → RunOn σ Ending) (body' : List Stmt → RunOn σ' Ending)
    (R : σ → σ' → Prop) : Prop where
  visit : ∀ {p : Place} {t : Scalar}, p.Scoped names scope → p.type = .scalar t →
    InStep R (S.visit p) (S'.visit p)
  store : ∀ {p : Place} {t : Scalar} (v : Value), p.Scoped names scope → p.type = .scalar t →
    InStep R (S.store p v) (S'.store p v)
  declare : ∀ {p : Place}, p.Scoped names scope → p.path = [] →
    InStep R (S.declare p) (S'.declare p)
  install : ∀ {p : Procedure}, p.Fits names → Stmt.scalarOnlyAll p.body = true →
    InStep R (S.install p) (S'.install p)
  write : ∀ text, InStep R (S.write text) (S'.write text)
  handOver : ∀ executor code line,
    InStep R (S.handOver executor code line) (S'.handOver executor code line)
  call : ∀ {ordinal line : Nat} {name : String} {arguments : List Expr},
    (∀ e ∈ arguments, InStep R (S.evaluate body e) (S'.evaluate body' e)) →
      InStep R (S.evaluate body (.call ordinal name arguments line))
        (S'.evaluate body' (.call ordinal name arguments line))

namespace Simulation

variable {σ σ' : Type} {names : Names} {scope : Scope} {S : Storage σ} {S' : Storage σ'}
  {body : List Stmt → RunOn σ Ending} {body' : List Stmt → RunOn σ' Ending} {R : σ → σ' → Prop}
  (h : Simulation names scope S S' body body' R)

include h

/-! ### Expressions -/

/-- The steps of an assignment are in step if their operands are; each of them stores at the same
scalar. -/
theorem evaluateSteps {target : Place} {t : Scalar} (htarget : target.Scoped names scope)
    (htype : target.type = .scalar t) {steps : List (Step Expr)}
    (hsteps : ∀ step ∈ steps, InStep R (S.evaluate body step.operand)
      (S'.evaluate body' step.operand)) (v : Value) :
    InStep R (S.evaluateSteps body target v steps) (S'.evaluateSteps body' target v steps) := by
  induction steps generalizing v with
  | nil =>
    rw [Storage.evaluateSteps, Storage.evaluateSteps]
    exact .pure v
  | cons step steps ih =>
    obtain ⟨op, operand, line⟩ := step
    obtain ⟨hstep, hrest⟩ := List.forall_mem_cons.mp hsteps
    rw [Storage.evaluateSteps, Storage.evaluateSteps]
    refine hstep.bind fun r => ?_
    -- what is stored may be of any type: it is the store that makes it fit
    have hlater : ∀ changed, InStep R
        (S.store target changed >>= fun kept => S.evaluateSteps body target kept steps)
        (S'.store target changed >>= fun kept => S'.evaluateSteps body' target kept steps) :=
      fun changed => (h.store changed htarget htype).bind fun kept => ih hrest kept
    cases op with
    | none => exact (InStep.pure r).bind hlater
    | some op => exact (InStep.apart _).bind hlater

/-- The storages are in step on a well-scoped expression. -/
theorem evaluate {e : Expr} (he : e.Scoped names scope) (honly : e.scalarOnly = true) :
    InStep R (S.evaluate body e) (S'.evaluate body' e) := by
  induction he with
  | literal v =>
    rw [Storage.evaluate, Storage.evaluate]
    exact .pure v
  | read hplace =>
    rw [Storage.evaluate, Storage.evaluate]
    obtain ⟨t, htype⟩ := CellType.exists_of_isScalar honly
    exact h.visit hplace htype
  | call line hp hname hlength _ ih =>
    -- what a body does is not known here; the arguments are, by induction
    have honly := Expr.scalarOnlyAll_iff.mp honly
    exact h.call fun e he => ih e he (honly e he)
  | negate line _ ih =>
    rw [Storage.evaluate, Storage.evaluate]
    exact (ih honly).bind fun v => .apart _
  | group _ ih =>
    rw [Storage.evaluate, Storage.evaluate]
    exact ih honly
  | binary op line _ _ ihLeft ihRight =>
    obtain ⟨hleft, hright⟩ := Bool.and_eq_true_iff.mp honly
    rw [Storage.evaluate, Storage.evaluate]
    exact (ihLeft hleft).bind fun l => (ihRight hright).bind fun r => .apart _
  | assign htarget htype _ ih =>
    have honly := Expr.scalarOnlySteps_iff.mp honly
    rw [Storage.evaluate, Storage.evaluate]
    exact (h.visit htarget htype).bind fun v =>
      h.evaluateSteps htarget htype (fun step hstep => ih step hstep (honly step hstep)) v
  | bump up after line htarget htype =>
    rw [Storage.evaluate, Storage.evaluate]
    exact (h.visit htarget htype).bind fun current => (InStep.apart _).bind fun changed =>
      (h.store changed htarget htype).bind fun _ => .pure _

/-- Expressions in a row are in step, if no object is an operand in any of them. -/
theorem evaluateAll {es : List Expr} (hes : ∀ e ∈ es, e.Scoped names scope)
    (honly : ∀ e ∈ es, e.scalarOnly = true) :
    InStep R (S.evaluateAll body es) (S'.evaluateAll body' es) := by
  induction es with
  | nil => exact .pure []
  | cons e es ih =>
    obtain ⟨he, hrest⟩ := List.forall_mem_cons.mp hes
    obtain ⟨honly, hrestOnly⟩ := List.forall_mem_cons.mp honly
    exact (h.evaluate he honly).bind fun _ => (ih hrest hrestOnly).bind fun _ => .pure _

/-- Terms are in step, if no object is an operand in them. -/
theorem evaluateTerm {t : Term} (ht : t.Scoped names scope) (honly : t.scalarOnly = true) :
    InStep R (S.evaluateTerm body t) (S'.evaluateTerm body' t) := by
  obtain ⟨negated, left, comparison, line⟩ := t
  obtain ⟨hleft, hright⟩ := Bool.and_eq_true_iff.mp honly
  refine (h.evaluate ht.left hleft).bind fun l => ?_
  cases comparison with
  | none => exact (InStep.pure _).bind fun _ => .pure _
  | some side =>
    obtain ⟨c, right⟩ := side
    exact (h.evaluate (ht.right (c, right) rfl) hright).bind fun r =>
      (InStep.apart _).bind fun _ => .pure _

/-- Conditions are in step behind their first term: both storages leave out the same terms. -/
theorem evaluateTerms {ts : List (Connective × Term)} (hts : ∀ t ∈ ts, t.2.Scoped names scope)
    (honly : ∀ t ∈ ts, t.2.scalarOnly = true) (sofar : Bool) :
    InStep R (S.evaluateTerms body sofar ts) (S'.evaluateTerms body' sofar ts) := by
  induction ts generalizing sofar with
  | nil => cases sofar <;> exact .pure _
  | cons t ts ih =>
    obtain ⟨ht, hrest⟩ := List.forall_mem_cons.mp hts
    obtain ⟨honly, hrestOnly⟩ := List.forall_mem_cons.mp honly
    obtain ⟨connective, t⟩ := t
    have hterm : InStep R
        (S.evaluateTerm body t >>= fun b => S.evaluateTerms body b ts)
        (S'.evaluateTerm body' t >>= fun b => S'.evaluateTerms body' b ts) :=
      (h.evaluateTerm ht honly).bind fun b => ih hrest hrestOnly b
    cases connective with
    | and =>
      cases sofar with
      | true => exact hterm
      | false => exact ih hrest hrestOnly false
    | or =>
      cases sofar with
      | true => exact .pure true
      | false => exact hterm

/-- Conditions are in step, if no object is an operand in them. -/
theorem evaluateCondition {c : Condition} (hc : c.Scoped names scope)
    (honly : c.scalarOnly = true) :
    InStep R (S.evaluateCondition body c) (S'.evaluateCondition body' c) := by
  obtain ⟨hfirst, hrest⟩ := Bool.and_eq_true_iff.mp honly
  exact (h.evaluateTerm hc.first hfirst).bind fun b =>
    h.evaluateTerms hc.rest (List.all_eq_true.mp hrest) b

/-! ### Parts of statements -/

theorem effect {e : Option Expr} (he : ∀ e' ∈ e, e'.Scoped names scope)
    (honly : e.all Expr.scalarOnly = true) : InStep R (S.effect body e) (S'.effect body' e) := by
  cases e with
  | none => exact .pure ()
  | some e => exact (h.evaluate (he e rfl) honly).bind fun _ => .pure ()

theorem continues {c : Option Condition} (hc : ∀ c' ∈ c, c'.Scoped names scope)
    (honly : c.all Condition.scalarOnly = true) :
    InStep R (S.continues body c) (S'.continues body' c) := by
  cases c with
  | none => exact .pure true
  | some c => exact h.evaluateCondition (hc c rfl) honly

theorem returnValue {e : Option Expr} (he : ∀ e' ∈ e, e'.Scoped names scope)
    (honly : e.all Expr.scalarOnly = true) :
    InStep R (S.returnValue body e) (S'.returnValue body' e) := by
  cases e with
  | none => exact .pure _
  | some e => exact h.evaluate (he e rfl) honly

/-- Declared variables begin with the same values, each under the tables that the ones before leave.
-/
theorem declareAll {opened closed : Names} {ds : List Declarator}
    (hds : Declarator.ScopedAll scope opened ds closed) (hgrows : closed.Grows names)
    (honly : ds.all Declarator.scalarOnly = true) :
    InStep R (S.declareAll body ds) (S'.declareAll body' ds) := by
  induction hds with
  | nil names => exact .pure ()
  | @cons _ _ _ d rest hfirst hrest ih =>
    have hmiddle := hrest.declares.grows.trans hgrows
    obtain ⟨honly, hrestOnly⟩ := Bool.and_eq_true_iff.mp honly
    obtain ⟨target, initial⟩ := d
    refine (h.declare (hfirst.target.mono hmiddle) hfirst.whole).bind fun _ => ?_
    cases initial with
    | none => exact (InStep.pure ()).bind fun _ => ih hgrows hrestOnly
    | some e =>
      have hscoped := (hfirst.initial e rfl).mono hmiddle
      exact (h.evaluate hscoped honly).bind fun _ => ih hgrows hrestOnly

omit h in
/-- Loops are in step if their tests, their bodies and their steps are. -/
theorem rounds {test : RunOn σ Bool} {test' : RunOn σ' Bool} {loop : RunOn σ Ending}
    {loop' : RunOn σ' Ending} {step : RunOn σ Unit} {step' : RunOn σ' Unit}
    (htest : InStep R test test') (hloop : InStep R loop loop') (hstep : InStep R step step')
    (n : Nat) :
    InStep R (Storage.rounds test loop step n) (Storage.rounds test' loop' step' n) := by
  induction n with
  | zero => exact .throw .outOfFuel
  | succ n ih =>
    refine htest.bind fun holds => ?_
    cases holds with
    | true =>
      refine hloop.bind fun ending => ?_
      cases ending with
      | returned v => exact .pure _
      | through => exact hstep.bind fun _ => ih
    | false => exact .pure _

/-! ### Statements -/

variable {executor : Option Executor} {n : Nat}

omit h in
/-- The storages are in step on a statement in front of others if they are on both. -/
private theorem executeAll_cons {s : Stmt} {rest : List Stmt}
    (hs : InStep R (S.execute body executor n s) (S'.execute body' executor n s))
    (hrest : InStep R (S.executeAll body executor n rest) (S'.executeAll body' executor n rest)) :
    InStep R (S.executeAll body executor n (s :: rest))
      (S'.executeAll body' executor n (s :: rest)) := by
  rw [Storage.executeAll, Storage.executeAll]
  refine hs.bind fun ending => ?_
  cases ending with
  | returned v => exact .pure _
  | through => exact hrest

/-- The storages are in step on well-scoped statements, under any tables that theirs have grown
into. -/
theorem executeAll {opened closed : Names} {ss : List Stmt}
    (hss : Stmt.ScopedAll scope opened ss closed) (hgrows : closed.Grows names)
    (honly : Stmt.scalarOnlyAll ss = true) :
    InStep R (S.executeAll body executor n ss) (S'.executeAll body' executor n ss) := by
  induction hss with
  | nil names =>
    rw [Storage.executeAll, Storage.executeAll]
    exact .pure _
  | expr he hrest ih =>
    obtain ⟨honly, hrestOnly⟩ := Bool.and_eq_true_iff.mp honly
    have hnames := hrest.declares.grows.trans hgrows
    refine executeAll_cons ?_ (ih hgrows hrestOnly)
    rw [Storage.execute, Storage.execute]
    refine InStep.bind (h.effect ?_ honly) fun _ => .pure _
    rintro e ⟨⟩
    exact he.mono hnames
  | declare hvars hrest ih =>
    obtain ⟨honly, hrestOnly⟩ := Bool.and_eq_true_iff.mp honly
    have hmiddle := hrest.declares.grows.trans hgrows
    refine executeAll_cons ?_ (ih hgrows hrestOnly)
    rw [Storage.execute, Storage.execute]
    exact (h.declareAll hvars hmiddle honly).bind fun _ => .pure _
  | print template line harguments hrest ih =>
    obtain ⟨honly, hrestOnly⟩ := Bool.and_eq_true_iff.mp honly
    have hnames := hrest.declares.grows.trans hgrows
    refine executeAll_cons ?_ (ih hgrows hrestOnly)
    rw [Storage.execute, Storage.execute]
    refine (h.evaluateAll (fun e he => (harguments e he).mono hnames)
      (List.all_eq_true.mp honly)).bind fun values => ?_
    exact (h.write _).bind fun _ => .pure _
  | loop hinitial htest hstep hloop hrest ihLoop ih =>
    obtain ⟨honly, hrestOnly⟩ := Bool.and_eq_true_iff.mp honly
    simp only [Stmt.scalarOnly, Bool.and_eq_true] at honly
    obtain ⟨⟨⟨hinitialOnly, htestOnly⟩, hstepOnly⟩, hloopOnly⟩ := honly
    -- each part is judged under the tables in front of it, and executed under those at the end
    have hmiddle := hrest.declares.grows.trans hgrows
    have hnames := hloop.declares.grows.trans hmiddle
    refine executeAll_cons ?_ (ih hgrows hrestOnly)
    rw [Storage.execute, Storage.execute]
    refine (h.effect (fun e he => (hinitial e he).mono hnames) hinitialOnly).bind fun _ => ?_
    exact rounds (h.continues (fun c hc => (htest c hc).mono hnames) htestOnly)
      (ihLoop hmiddle hloopOnly) (h.effect (fun e he => (hstep e he).mono hnames) hstepOnly) n
  | branch htest hyes hrest ihYes ih =>
    obtain ⟨honly, hrestOnly⟩ := Bool.and_eq_true_iff.mp honly
    simp only [Stmt.scalarOnly, Bool.and_eq_true] at honly
    obtain ⟨htestOnly, hyesOnly⟩ := honly
    have hmiddle := hrest.declares.grows.trans hgrows
    have hnames := hyes.declares.grows.trans hmiddle
    refine executeAll_cons ?_ (ih hgrows hrestOnly)
    rw [Storage.execute, Storage.execute]
    refine (h.evaluateCondition (htest.mono hnames) htestOnly).bind fun holds => ?_
    cases holds with
    | true => exact ihYes hmiddle hyesOnly
    | false => exact .pure _
  | branchElse htest hyes hno hrest ihYes ihNo ih =>
    obtain ⟨honly, hrestOnly⟩ := Bool.and_eq_true_iff.mp honly
    simp only [Stmt.scalarOnly, Bool.and_eq_true] at honly
    obtain ⟨⟨htestOnly, hyesOnly⟩, hnoOnly⟩ := honly
    have hmiddle := hrest.declares.grows.trans hgrows
    have hbetween := hno.declares.grows.trans hmiddle
    have hnames := hyes.declares.grows.trans hbetween
    refine executeAll_cons ?_ (ih hgrows hrestOnly)
    rw [Storage.execute, Storage.execute]
    refine (h.evaluateCondition (htest.mono hnames) htestOnly).bind fun holds => ?_
    cases holds with
    | true => exact ihYes hbetween hyesOnly
    | false => exact ihNo hmiddle hnoOnly
  | giveBack line hscope hvalue hrest ih =>
    obtain ⟨honly, hrestOnly⟩ := Bool.and_eq_true_iff.mp honly
    have hnames := hrest.declares.grows.trans hgrows
    refine executeAll_cons ?_ (ih hgrows hrestOnly)
    rw [Storage.execute, Storage.execute]
    exact (h.returnValue (fun e he => (hvalue e he).mono hnames) honly).bind fun _ => .pure _
  | foreign code line hrest ih =>
    obtain ⟨-, hrestOnly⟩ := Bool.and_eq_true_iff.mp honly
    refine executeAll_cons ?_ (ih hgrows hrestOnly)
    rw [Storage.execute, Storage.execute]
    exact (h.handOver executor code line).bind fun _ => .pure _

end Simulation

/-! ### Programs -/

/-- A single statement is executed as such. -/
theorem executeAll_singleton {σ : Type} (S : Storage σ) (body : List Stmt → RunOn σ Ending)
    (executor : Option Executor) (n : Nat) (s : Stmt) :
    S.executeAll body executor n [s] = S.execute body executor n s := by
  funext state
  rw [executeAll, executeAll, bind_apply]
  cases S.execute body executor n s state with
  | error stop later => rfl
  | ok ending later => cases ending <;> rfl

/-- The storages are in step on a well-scoped program, under any tables that extend those it leads
to. -/
theorem Simulation.program {σ σ' : Type} {names : Names} {S : Storage σ} {S' : Storage σ'}
    {body : List Stmt → RunOn σ Ending} {body' : List Stmt → RunOn σ' Ending} {R : σ → σ' → Prop}
    (h : Simulation names .top S S' body body' R) {executor : Option Executor} {n : Nat}
    {opened closed : Names} {ss : List Stmt} (hss : Program.Scoped opened ss closed)
    (hextends : closed.Extends names) (honly : Stmt.scalarOnlyAll ss = true) :
    InStep R (S.executeAll body executor n ss) (S'.executeAll body' executor n ss) := by
  induction hss with
  | nil names =>
    rw [Storage.executeAll, Storage.executeAll]
    exact .pure _
  | @procedure _ _ _ p _ hp hrest ih =>
    obtain ⟨honly, hrestOnly⟩ := Bool.and_eq_true_iff.mp honly
    refine executeAll_cons ?_ (ih hextends hrestOnly)
    rw [Storage.execute, Storage.execute]
    obtain ⟨ordinal, name, returns, parameters, locals, code⟩ := p
    have hfits := hp.fits.mono (hrest.extends.trans hextends)
    exact (h.install hfits honly).bind fun _ => .pure _
  | classDef hclass hvars hrest ih =>
    obtain ⟨honly, hrestOnly⟩ := Bool.and_eq_true_iff.mp honly
    refine executeAll_cons ?_ (ih hextends hrestOnly)
    rw [Storage.execute, Storage.execute]
    have hgrows := (hrest.extends.trans hextends).grows
    exact (h.declareAll hvars hgrows honly).bind fun _ => .pure _
  | @statement _ _ _ s _ hs hrest ih =>
    obtain ⟨honly, hrestOnly⟩ := Bool.and_eq_true_iff.mp honly
    refine executeAll_cons ?_ (ih hextends hrestOnly)
    rw [← executeAll_singleton, ← executeAll_singleton]
    have hsingle : Stmt.scalarOnlyAll [s] = true := Bool.and_eq_true_iff.mpr ⟨honly, rfl⟩
    exact h.executeAll hs (hrest.extends.trans hextends).grows hsingle

end Storage

end Litany
