import Litany.Proofs.Machine.Cells
import Litany.Proofs.Machine.Moments
import Litany.Proofs.Machine.Regime

/-!
# Laws that hold throughout a run

A `Law` says what a machine is like while some procedures are called, and which acts a program may
do there. It asks that every allowed act keeps the machine as it should be, and that the body of a
procedure that may be called does nothing but what is allowed in it. Then the law holds at every
moment of a run that begins with allowed acts (`Law.of_leads`), and where each part ends, with an
answer or at a stop (`Law.finish`).
-/

namespace Litany

open Run

/-! ### What computations keep -/

/-- A computation that keeps a property of the machine, whether it answers or stops early. -/
def Run.Preserves {α : Type} (holds : Machine → Prop) (x : Run α) : Prop :=
  ∀ m, holds m → Ends x m (fun _ later => holds later) fun _ later => holds later

namespace Run

variable {holds : Machine → Prop} {α β : Type} {x : Run α} {m : Machine}

private theorem preserves_pure (a : α) : Preserves holds (pure a : Run α) :=
  fun _ hm => hm

private theorem preserves_stop (stop : Stop) : Preserves holds (throw stop : Run α) :=
  fun _ hm => hm

/-- What two computations preserve they preserve in a row. -/
theorem Preserves.bind {f : α → Run β} (hx : Preserves holds x)
    (hf : ∀ a, Preserves holds (f a)) : Preserves holds (x >>= f) :=
  fun m hm => Ends.bind (hx m hm) fun a later hlater => hf a later hlater

/-- A visit that fails changes nothing, so it is enough to look at those that succeed. -/
private theorem preserves_visit {p : Place}
    (h : ∀ {m later : Machine} {v : Value}, holds m → visit p m = .ok v later → holds later) :
    Preserves holds (visit p) := by
  intro m hm
  unfold Ends
  cases hresult : visit p m with
  | ok v later => exact h hm hresult
  | error stop later => exact eq_of_visit_error hresult ▸ hm

/-- A store that fails changes nothing, so it is enough to look at those that succeed. -/
private theorem preserves_store {p : Place} {v : Value}
    (h : ∀ {m later : Machine} {kept : Value}, holds m → store p v m = .ok kept later →
      holds later) : Preserves holds (store p v) := by
  intro m hm
  unfold Ends
  cases hresult : store p v m with
  | ok kept later => exact h hm hresult
  | error stop later =>
    -- the visit of a store is all of it that can fail
    unfold store at hresult
    rw [bind_apply] at hresult
    split at hresult
    · cases hresult
    · rename_i hvisit
      cases hresult
      exact eq_of_visit_error hvisit ▸ hm

/-- What is preserved holds of the machine that is left, whether the computation answers or stops.
-/
theorem Preserves.endOf (hx : Preserves holds x) (hm : holds m) : holds (endOf x m) := by
  have hends := hx m hm
  unfold Ends at hends
  unfold Run.endOf
  cases hresult : x m with
  | ok a later =>
    rw [hresult] at hends
    exact hends
  | error stop later =>
    rw [hresult] at hends
    exact hends

/-- What comes behind a computation is looked at only where that computation answers. -/
theorem forall_andThen {next : α → Machine → List β} {P : β → Prop}
    (hnext : ∀ a later, x m = .ok a later → ∀ b ∈ next a later, P b) :
    ∀ b ∈ andThen x m next, P b := by
  unfold Run.andThen
  cases hresult : x m with
  | ok a later => exact hnext a later hresult
  | error stop later => simp

/-- What comes behind a computation finds a machine as it should be. -/
theorem Preserves.andThen (hx : Preserves holds x) (hm : holds m)
    {next : α → Machine → List β} {P : β → Prop}
    (hnext : ∀ a later, holds later → ∀ b ∈ next a later, P b) :
    ∀ b ∈ andThen x m next, P b :=
  forall_andThen fun a later hresult => hnext a later ((hx m hm).of_ok hresult)

/-- Arguments preserve what their expressions preserve. -/
private theorem preserves_evaluateArguments {body : List Stmt → Run Ending} {types : List Scalar}
    {es : List Expr} (hes : ∀ e ∈ es, Preserves holds (evaluate body e)) :
    Preserves holds (evaluateArguments body types es) := by
  induction es generalizing types with
  | nil => cases types <;> exact preserves_pure []
  | cons e es ih =>
    obtain ⟨he, hrest⟩ := List.forall_mem_cons.mp hes
    cases types with
    | nil => exact preserves_pure []
    | cons type types =>
      rw [evaluateArguments]
      exact he.bind fun _ => (ih hrest).bind fun _ => preserves_pure _

/-- Looking up the procedure of a call changes nothing. -/
private theorem preserves_procedure {ordinal line : Nat} {name : String} :
    Preserves holds (procedure ordinal name line) := by
  intro m hm
  unfold Ends procedure
  split
  · rename_i hresult
    split at hresult <;> cases hresult
    exact hm
  · rename_i hresult
    split at hresult <;> cases hresult
    exact hm

end Run

/-! ### Laws -/

/-- What a program may do, and what the machine is like, while the given procedures are called. -/
structure Law (allows : List Nat → Act → Prop) (holds : List Nat → Machine → Prop) : Prop where
  /-- Nothing hangs on what was printed or handed over. -/
  aside : ∀ {stack : List Nat} {m : Machine} (output : String) (blocks : List String),
    holds stack m → holds stack { m with output, blocks }
  visit : ∀ {stack : List Nat} {p : Place} {v : Value} {m later : Machine},
    allows stack (.read p) ∨ allows stack (.write p) ∨ allows stack (.reset p) →
      holds stack m → Run.visit p m = .ok v later → holds stack later
  store : ∀ {stack : List Nat} {p : Place} {v kept : Value} {m later : Machine},
    allows stack (.write p) ∨ (allows stack (.reset p) ∧ v = Value.zero p.type) →
      holds stack m → Run.store p v m = .ok kept later → holds stack later
  install : ∀ {stack : List Nat} {p : Procedure} {m : Machine},
    allows stack (.install p) → holds stack m → holds stack (m.install p)
  body : ∀ {stack : List Nat} {ordinal count : Nat} {name : String} {p : Procedure} {m : Machine},
    allows stack (.call ordinal name count) → holds stack m →
      m.procedures[ordinal]? = some (some p) →
        Allowed (allows (ordinal :: stack)) (Stmt.actsOfAll p.body)
  enter : ∀ {stack : List Nat} {ordinal : Nat} {name : String} {es : List Expr} {p : Procedure}
    {run : List Stmt → Run Ending} {values : List Value} {m later : Machine},
    allows stack (.call ordinal name es.length) → holds stack m →
      m.procedures[ordinal]? = some (some p) →
      evaluateArguments run p.parameters es m = .ok values later → holds stack later →
        holds (ordinal :: stack)
          { later with frames := ⟨values, p.locals.map Value.zero⟩ :: later.frames }
  leave : ∀ {stack : List Nat} {ordinal : Nat} {m : Machine}, holds (ordinal :: stack) m →
    holds stack { m with frames := m.frames.tail }

namespace Law

variable {allows : List Nat → Act → Prop} {holds : List Nat → Machine → Prop}

/-- The bodies that are run keep the law if their acts are allowed. -/
def Tends (allows : List Nat → Act → Prop) (holds : List Nat → Machine → Prop)
    (body : List Stmt → Run Ending) : Prop :=
  ∀ (stack : List Nat) (ss : List Stmt), Allowed (allows stack) (Stmt.actsOfAll ss) →
    Preserves (holds stack) (body ss)

section Steps

variable {stack : List Nat} {body : List Stmt → Run Ending} (law : Law allows holds)

include law

/-- Handing over a block changes nothing but what has been handed over. -/
private theorem preserves_handOver (executor : Option Executor) (code : String) (line : Nat) :
    Preserves (holds stack) (handOver executor code line) := by
  intro m hm
  cases executor with
  | none => exact hm
  | some answer =>
    simp only [Ends, handOver]
    cases answer m.blocks code <;> exact law.aside m.output _ hm

/-- A body runs in a frame of its own, which is dropped however it ends. -/
private theorem preserves_call (hbody : Tends allows holds body) {ordinal line : Nat}
    {name : String}
    {arguments : List Expr} (hcall : allows stack (.call ordinal name arguments.length))
    (hes : ∀ e ∈ arguments, Preserves (holds stack) (evaluate body e)) :
    Preserves (holds stack) (evaluate body (.call ordinal name arguments line)) := by
  intro m hm
  rw [evaluate, Ends, bind_apply]
  cases hfound : procedure ordinal name line m with
  | error stop later => exact (preserves_procedure m hm).of_error hfound
  | ok p later =>
    obtain ⟨hp, rfl⟩ := procedure_eq_ok.mp hfound
    dsimp only
    rw [bind_apply]
    have harguments : Ends (evaluateArguments body p.parameters arguments) later
        (fun _ middle => holds stack middle) fun _ middle => holds stack middle :=
      preserves_evaluateArguments hes later hm
    cases hvalues : evaluateArguments body p.parameters arguments later with
    | error stop middle => exact harguments.of_error hvalues
    | ok values middle =>
      have hmiddle := harguments.of_ok hvalues
      have hinner := hbody (ordinal :: stack) p.body (law.body hcall hm hp) _
        (law.enter hcall hm hp hvalues hmiddle)
      change Ends (invoke body p values) middle _ _
      refine Ends.bind (Q := fun _ last => holds stack last) ?_ fun _ last hlast => hlast
      unfold Ends inFrame at *
      revert hinner
      cases body p.body
        { middle with frames := ⟨values, p.locals.map Value.zero⟩ :: middle.frames } with
      | ok ending last => exact law.leave
      | error stop last => exact law.leave

/-- If bodies tend to a property, so does everything that a frame does with allowed acts. -/
private theorem regime_of_tends (hbody : Tends allows holds body) (stack : List Nat) :
    Regime (allows stack) body fun _ x => Preserves (holds stack) x where
  pure := preserves_pure
  bind := Preserves.bind
  stop := fun _ => preserves_stop _
  visit := fun hp => preserves_visit fun hm hvisit =>
    law.visit (hp.imp_right Or.inl) hm hvisit
  store := fun hp => preserves_store fun hm hstore => law.store (Or.inl hp) hm hstore
  reset := fun hp => preserves_store fun hm hstore => law.store (Or.inr ⟨hp, rfl⟩) hm hstore
  write := fun text m hm => law.aside (m.output ++ text) m.blocks hm
  handOver := law.preserves_handOver
  install := fun hp _ hm => law.install hp hm
  call := fun hcall hes => law.preserves_call hbody hcall hes

/-- With any fuel, the bodies of procedures tend to the property. -/
theorem tends_runBody (executor : Option Executor) (n : Nat) :
    Tends allows holds (runBody executor n) := by
  induction n with
  | zero => exact fun stack ss hss => preserves_stop .outOfFuel
  | succ n ih =>
    intro stack ss hss
    rw [runBody]
    exact (law.regime_of_tends ih stack).executeAll ss hss

/-- With any fuel, everything in a program whose acts are allowed keeps the law. -/
theorem regime (executor : Option Executor) (n : Nat) (stack : List Nat) :
    Regime (allows stack) (runBody executor n) fun _ x => Preserves (holds stack) x :=
  law.regime_of_tends (law.tends_runBody executor n) stack

end Steps

end Law

/-! ### Every moment -/

/-- A part whose acts are allowed. -/
def Task.Allowed (allows : Act → Prop) : Task → Prop
  | .visit p => allows (.read p) ∨ allows (.write p) ∨ allows (.reset p)
  | .store p v => allows (.write p) ∨ (allows (.reset p) ∧ v = Value.zero p.type)
  | .expr e => Litany.Allowed allows e.acts
  | .arguments _ es => Litany.Allowed allows (Expr.actsOfAll es)
  | .steps target _ rest =>
    allows (.write target) ∧ Litany.Allowed allows (Expr.actsOfSteps rest)
  | .exprs es => Litany.Allowed allows (Expr.actsOfAll es)
  | .term t => Litany.Allowed allows t.acts
  | .terms _ ts => ∀ t ∈ ts, Litany.Allowed allows t.2.acts
  | .condition c => Litany.Allowed allows c.acts
  | .declarators ds => ∀ d ∈ ds, Litany.Allowed allows d.acts
  | .statements ss => Litany.Allowed allows (Stmt.actsOfAll ss)
  | .rounds test loop step _ => (∀ c ∈ test, Litany.Allowed allows c.acts) ∧
      Litany.Allowed allows (Stmt.actsOfAll loop) ∧ ∀ e ∈ step, Litany.Allowed allows e.acts

/-- A moment at which a law holds: its part does what is allowed, and finds the machine as it should
be. -/
structure Moment.Obeys (allows : List Nat → Act → Prop) (holds : List Nat → Machine → Prop)
    (k : Moment) : Prop where
  allowed : k.task.Allowed (allows k.stack)
  holds : holds k.stack k.machine

namespace Law

variable {allows : List Nat → Act → Prop} {holds : List Nat → Machine → Prop}
  {executor : Option Executor} {k : Moment} {m : Machine} {task : Task}

/-- The next part of a run begins where the property holds, with acts that are allowed. -/
theorem turn (htask : task.Allowed (allows k.stack)) (hm : holds k.stack m) :
    (k.turn task m).Obeys allows holds :=
  ⟨htask, hm⟩

/-- A single part behind a computation. -/
private theorem turn_singleton (htask : task.Allowed (allows k.stack)) (hm : holds k.stack m) :
    ∀ k' ∈ [k.turn task m], k'.Obeys allows holds :=
  List.forall_mem_singleton.mpr (turn htask hm)

/-- A part that may be missing. -/
private theorem turn_option {ι : Type} {o : Option ι} {f : ι → Task}
    (htask : ∀ i ∈ o, (f i).Allowed (allows k.stack)) (hm : holds k.stack m) :
    ∀ k' ∈ o.toList.map fun i => k.turn (f i) m, k'.Obeys allows holds := by
  intro k' hk'
  obtain ⟨i, hi, rfl⟩ := List.mem_map.mp hk'
  exact turn (htask i (Option.mem_toList.mp hi)) hm

variable (law : Law allows holds)

include law

/-- The parts of an expression begin where the property holds. -/
theorem exprParts {e : Expr} (he : Allowed (allows k.stack) e.acts)
    (hm : holds k.stack k.machine) : ∀ k' ∈ k.exprParts executor e, k'.Obeys allows holds := by
  have hregime := law.regime executor k.fuel k.stack
  cases e with
  | literal v => simp [Moment.exprParts]
  | read p => exact turn_singleton (Or.inl (Allowed.singleton_iff.mp he)) hm
  | group inner => exact turn_singleton he hm
  | negate operand line => exact turn_singleton he hm
  | binary left op right line =>
    rw [Expr.acts, Allowed.append_iff] at he
    refine List.forall_mem_cons.mpr ⟨turn he.1 hm, (hregime.evaluate left he.1).andThen hm ?_⟩
    exact fun _ later hlater => turn_singleton he.2 hlater
  | assign target steps =>
    rw [Expr.acts, Allowed.cons_iff] at he
    refine List.forall_mem_cons.mpr
      ⟨turn (Or.inr (Or.inl he.1)) hm, (hregime.visit (Or.inr he.1)).andThen hm ?_⟩
    exact fun v later hlater => turn_singleton he hlater
  | bump target up after line =>
    have htarget := Allowed.singleton_iff.mp he
    refine List.forall_mem_cons.mpr
      ⟨turn (Or.inr (Or.inl htarget)) hm, (hregime.visit (Or.inr htarget)).andThen hm ?_⟩
    intro current later hlater
    refine (hregime.arithmetic current .add _ line).andThen hlater ?_
    exact fun changed last hlast => turn_singleton (Or.inl htarget) hlast
  | call ordinal name es line =>
    rw [Expr.acts, Allowed.cons_iff] at he
    refine forall_andThen fun p later hfound => ?_
    obtain ⟨hp, rfl⟩ := procedure_eq_ok.mp hfound
    refine List.forall_mem_cons.mpr ⟨turn he.2 hm, forall_andThen fun values last hvalues => ?_⟩
    have hlast := (preserves_evaluateArguments (hregime.evaluateEach es he.2) _ hm).of_ok hvalues
    unfold Moment.enter
    cases k.fuel with
    | zero => simp
    | succ n =>
      exact List.forall_mem_singleton.mpr
        ⟨law.body he.1 hm hp, law.enter he.1 hm hp hvalues hlast⟩

/-- The parts of a statement begin where the property holds. -/
theorem stmtParts {s : Stmt} (hs : Allowed (allows k.stack) s.acts)
    (hm : holds k.stack k.machine) : ∀ k' ∈ k.stmtParts executor s, k'.Obeys allows holds := by
  have hregime := law.regime executor k.fuel k.stack
  cases s with
  | expr e => exact turn_singleton hs hm
  | declare vars | classDef number vars => exact turn_singleton (Allowed.flatMap_iff.mp hs) hm
  | procedure p => simp [Moment.stmtParts]
  | print template es line => exact turn_singleton hs hm
  | loop initial test step loop =>
    rw [Stmt.acts, Allowed.append_iff, Allowed.append_iff, Allowed.append_iff] at hs
    obtain ⟨⟨⟨hinitial, htest⟩, hstep⟩, hloop⟩ := hs
    have hfirst := Allowed.toList_iff.mp hinitial
    refine List.forall_mem_append.mpr ⟨turn_option hfirst hm, ?_⟩
    refine (hregime.effect hfirst).andThen hm fun _ later hlater => ?_
    exact turn_singleton ⟨Allowed.toList_iff.mp htest, hloop, Allowed.toList_iff.mp hstep⟩ hlater
  | branch test yes no =>
    have htest : Allowed (allows k.stack) test.acts := by
      cases no with
      | none => exact (Allowed.append_iff.mp hs).1
      | some no => exact (Allowed.append_iff.mp (Allowed.append_iff.mp hs).1).1
    refine List.forall_mem_cons.mpr
      ⟨turn htest hm, (hregime.evaluateCondition htest).andThen hm fun holds' later hlater => ?_⟩
    cases no with
    | none =>
      rw [Stmt.acts, Allowed.append_iff] at hs
      cases holds' with
      | true => exact turn_singleton hs.2 hlater
      | false => simp
    | some no =>
      rw [Stmt.acts, Allowed.append_iff, Allowed.append_iff] at hs
      cases holds' with
      | true => exact turn_singleton hs.1.2 hlater
      | false => exact turn_singleton hs.2 hlater
  | giveBack value line => exact turn_option (Allowed.toList_iff.mp hs) hm
  | foreign code line => simp [Moment.stmtParts]

/-- The parts of a step of an assignment begin where the property holds. -/
theorem stepParts {target : Place} (htarget : allows k.stack (.write target)) (v : Value)
    {step : Step Expr} {rest : List (Step Expr)}
    (hsteps : Allowed (allows k.stack) (Expr.actsOfSteps (step :: rest)))
    (hm : holds k.stack k.machine) :
    ∀ k' ∈ k.stepParts executor target v step rest, k'.Obeys allows holds := by
  have hregime := law.regime executor k.fuel k.stack
  obtain ⟨op, operand, line⟩ := step
  rw [Expr.actsOfSteps, Allowed.append_iff] at hsteps
  have hlater : ∀ (w : Value) (m : Machine), holds k.stack m →
      ∀ k' ∈ k.turn (.store target w) m ::
          andThen (Run.store target w) m fun kept m => [k.turn (.steps target kept rest) m],
        k'.Obeys allows holds := by
    intro w m hm
    refine List.forall_mem_cons.mpr ⟨turn (Or.inl htarget) hm, ?_⟩
    refine (hregime.store htarget).andThen hm fun kept after hafter => ?_
    exact turn_singleton ⟨htarget, hsteps.2⟩ hafter
  refine List.forall_mem_cons.mpr
    ⟨turn hsteps.1 hm, (hregime.evaluate operand hsteps.1).andThen hm ?_⟩
  intro r m hm
  cases op with
  | none => exact (hregime.pure r).andThen hm hlater
  | some op => exact (hregime.arithmetic v op r line).andThen hm hlater

/-- A term of a condition, and what follows it. -/
private theorem termParts {t : Term} {rest : List (Connective × Term)}
    (ht : Allowed (allows k.stack) t.acts) (hrest : ∀ t' ∈ rest, Allowed (allows k.stack) t'.2.acts)
    (hm : holds k.stack k.machine) :
    ∀ k' ∈ k.turn (.term t) k.machine ::
        andThen (evaluateTerm (runBody executor k.fuel) t) k.machine fun holds m =>
          [k.turn (.terms holds rest) m],
      k'.Obeys allows holds := by
  have hregime := law.regime executor k.fuel k.stack
  refine List.forall_mem_cons.mpr ⟨turn ht hm, (hregime.evaluateTerm ht).andThen hm ?_⟩
  exact fun _ later hlater => turn_singleton hrest hlater

/-- The parts of a round of a loop begin where the property holds. -/
theorem roundParts {test : Option Condition} {loop : List Stmt} {step : Option Expr}
    (htest : ∀ c ∈ test, Allowed (allows k.stack) c.acts)
    (hloop : Allowed (allows k.stack) (Stmt.actsOfAll loop))
    (hstep : ∀ e ∈ step, Allowed (allows k.stack) e.acts) (n : Nat)
    (hm : holds k.stack k.machine) :
    ∀ k' ∈ k.roundParts executor test loop step n, k'.Obeys allows holds := by
  have hregime := law.regime executor k.fuel k.stack
  refine List.forall_mem_append.mpr
    ⟨turn_option htest hm, (hregime.continues htest).andThen hm fun again later hlater => ?_⟩
  cases again with
  | false => simp
  | true =>
    refine List.forall_mem_cons.mpr ⟨turn hloop hlater,
      (hregime.executeAll loop hloop).andThen hlater fun ending last hlast => ?_⟩
    cases ending with
    | returned v => simp
    | through =>
      refine List.forall_mem_append.mpr
        ⟨turn_option hstep hlast, (hregime.effect hstep).andThen hlast ?_⟩
      exact fun _ after hafter => turn_singleton ⟨htest, hloop, hstep⟩ hafter

/-- The law holds at the parts of a moment at which it holds. -/
theorem of_mem_parts (h : k.Obeys allows holds) :
    ∀ k' ∈ k.parts executor, k'.Obeys allows holds := by
  have hregime := law.regime executor k.fuel k.stack
  obtain ⟨stack, fuel, task, m⟩ := k
  obtain ⟨htask, hm⟩ := h
  cases task with
  | visit p => simp [Moment.parts]
  | store p v =>
    refine turn_singleton ?_ hm
    rcases htask with hwrite | ⟨hreset, -⟩
    · exact Or.inr (Or.inl hwrite)
    · exact Or.inr (Or.inr hreset)
  | expr e => exact law.exprParts htask hm
  | arguments types es =>
    cases types with
    | nil => simp [Moment.parts]
    | cons type types =>
      cases es with
      | nil => simp [Moment.parts]
      | cons e rest =>
        obtain ⟨he, hrest⟩ := Allowed.append_iff.mp htask
        refine List.forall_mem_cons.mpr ⟨turn he hm, (hregime.evaluate e he).andThen hm ?_⟩
        exact fun _ later hlater => turn_singleton hrest hlater
  | steps target v steps =>
    cases steps with
    | nil => simp [Moment.parts]
    | cons step rest => exact law.stepParts htask.1 v htask.2 hm
  | exprs es =>
    cases es with
    | nil => simp [Moment.parts]
    | cons e rest =>
      obtain ⟨he, hrest⟩ := Allowed.append_iff.mp htask
      refine List.forall_mem_cons.mpr ⟨turn he hm, (hregime.evaluate e he).andThen hm ?_⟩
      exact fun _ later hlater => turn_singleton hrest hlater
  | term t =>
    obtain ⟨hleft, hright⟩ := Allowed.append_iff.mp htask
    refine List.forall_mem_cons.mpr ⟨turn hleft hm, (hregime.evaluate t.left hleft).andThen hm ?_⟩
    exact fun _ later hlater => turn_option (Allowed.toList_iff.mp hright) hlater
  | terms sofar ts =>
    cases ts with
    | nil => simp [Moment.parts]
    | cons t rest =>
      obtain ⟨ht, hrest⟩ := List.forall_mem_cons.mp htask
      obtain ⟨connective, t⟩ := t
      cases connective with
      | and =>
        cases sofar with
        | true => exact law.termParts ht hrest hm
        | false => exact turn_singleton hrest hm
      | or =>
        cases sofar with
        | true => simp [Moment.parts]
        | false => exact law.termParts ht hrest hm
  | condition c =>
    obtain ⟨hfirst, hrest⟩ := Allowed.append_iff.mp htask
    exact law.termParts hfirst (Allowed.flatMap_iff.mp hrest) hm
  | declarators ds =>
    cases ds with
    | nil => simp [Moment.parts]
    | cons d rest =>
      obtain ⟨hfirst, hrest⟩ := List.forall_mem_cons.mp htask
      obtain ⟨hreset, hinitial⟩ := Allowed.cons_iff.mp hfirst
      have hinitial := Allowed.toList_iff.mp hinitial
      refine List.forall_mem_cons.mpr
        ⟨turn (Or.inr ⟨hreset, rfl⟩) hm, (hregime.reset hreset).andThen hm fun _ later hlater => ?_⟩
      refine List.forall_mem_append.mpr
        ⟨turn_option hinitial hlater, (hregime.effect hinitial).andThen hlater ?_⟩
      exact fun _ last hlast => turn_singleton hrest hlast
  | statements ss =>
    cases ss with
    | nil => simp [Moment.parts]
    | cons s rest =>
      obtain ⟨hs, hrest⟩ := Allowed.append_iff.mp htask
      refine List.forall_mem_append.mpr ⟨law.stmtParts hs hm, ?_⟩
      refine (hregime.execute s hs).andThen hm fun ending later hlater => ?_
      cases ending with
      | returned v => simp
      | through => exact turn_singleton hrest hlater
  | rounds test loop step n =>
    cases n with
    | zero => simp [Moment.parts]
    | succ n =>
      obtain ⟨htest, hloop, hstep⟩ := htask
      exact law.roundParts htest hloop hstep n hm

/-- The law holds at every moment that one at which it holds leads to. -/
theorem of_leads {k' : Moment} (hleads : k.Leads executor k') (h : k.Obeys allows holds) :
    k'.Obeys allows holds := by
  induction hleads with
  | refl => exact h
  | tail _ hpart ih => exact law.of_mem_parts ih _ hpart

/-- A part that is carried out under a law leaves the machine as it should be. -/
theorem finish (h : k.Obeys allows holds) : holds k.stack (k.finish executor) := by
  have hregime := law.regime executor k.fuel k.stack
  obtain ⟨stack, fuel, task, m⟩ := k
  obtain ⟨htask, hm⟩ := h
  cases task with
  | visit p =>
    exact (preserves_visit fun hm hvisit => law.visit htask hm hvisit).endOf hm
  | store p v =>
    exact (preserves_store fun hm hstore => law.store htask hm hstore).endOf hm
  | expr e => exact (hregime.evaluate e htask).endOf hm
  | arguments types es =>
    exact (preserves_evaluateArguments (hregime.evaluateEach es htask)).endOf hm
  | steps target v steps => exact (hregime.evaluateSteps target htask.1 v steps htask.2).endOf hm
  | exprs es => exact (hregime.evaluateAll htask).endOf hm
  | term t => exact (hregime.evaluateTerm htask).endOf hm
  | terms sofar ts => exact (hregime.evaluateTerms htask sofar).endOf hm
  | condition c => exact (hregime.evaluateCondition htask).endOf hm
  | declarators ds => exact (hregime.declareAll htask).endOf hm
  | statements ss => exact (hregime.executeAll ss htask).endOf hm
  | rounds test loop step n =>
    obtain ⟨htest, hloop, hstep⟩ := htask
    exact (hregime.rounds (hregime.continues htest) (hregime.executeAll loop hloop)
      (hregime.effect hstep) n).endOf hm

end Law

end Litany
