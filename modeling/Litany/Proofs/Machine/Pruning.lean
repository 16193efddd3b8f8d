import Litany.Proofs.Machine.Congruence
import Litany.Proofs.Machine.Simulation
import Mathlib.Data.List.Forall2

/-!
# What stands behind a return

No statement behind a return in the same list is ever executed. `Prunes` relates two lists of
statements if the second is the first without what stands behind some of its returns, at any depth:
in the bodies of loops and branches, and in those of procedures. On machines whose procedures have
been pruned in this way, pruned programs do the same, failures included (`matches_runBody`), and so
the results are equal (`Machine.Pruned.interpret`). `Stmt.prune` leaves out all that can be left
out.

The two runs are in lockstep except where a call looks up its procedure: what is found on the one
side is not what is found on the other. So the relation is on whole machines, and calls are a case
of their own.
-/

namespace Litany

open Run Storage

/-! ### Pruned statements -/

/-- The second list is the first without what stands behind some of its returns, at any depth. -/
inductive Prunes : List Stmt → List Stmt → Prop where
  | nil : Prunes [] []
  | cons (s : Stmt) {rest rest' : List Stmt} (hrest : Prunes rest rest') :
      Prunes (s :: rest) (s :: rest')
  | behind (value : Option Expr) (line : Nat) (rest : List Stmt) :
      Prunes (.giveBack value line :: rest) [.giveBack value line]
  | procedure (p : Procedure) {body : List Stmt} {rest rest' : List Stmt}
      (hbody : Prunes p.body body) (hrest : Prunes rest rest') :
      Prunes (.procedure p :: rest) (.procedure { p with body } :: rest')
  | loop (initial : Option Expr) (test : Option Condition) (step : Option Expr)
      {body body' rest rest' : List Stmt} (hbody : Prunes body body') (hrest : Prunes rest rest') :
      Prunes (.loop initial test step body :: rest) (.loop initial test step body' :: rest')
  | branch (test : Condition) {yes yes' rest rest' : List Stmt} (hyes : Prunes yes yes')
      (hrest : Prunes rest rest') :
      Prunes (.branch test yes none :: rest) (.branch test yes' none :: rest')
  | branchElse (test : Condition) {yes yes' no no' rest rest' : List Stmt}
      (hyes : Prunes yes yes') (hno : Prunes no no') (hrest : Prunes rest rest') :
      Prunes (.branch test yes (some no) :: rest) (.branch test yes' (some no') :: rest')

/-- Nothing need be left out. -/
theorem Prunes.refl (ss : List Stmt) : Prunes ss ss := by
  induction ss with
  | nil => exact .nil
  | cons s rest ih => exact .cons s ih

/-- The second procedure is the first with a pruned body. -/
def ProcedureOf.Prunes (p p' : Procedure) : Prop :=
  ∃ body, Litany.Prunes p.body body ∧ p' = { p with body }

/-- The second program is the first with pruned statements. At top level no statement is left out,
as the procedures among them are installed in front of the run. -/
def Program.Prunes : List Stmt → List Stmt → Prop :=
  List.Forall₂ fun s s' => Litany.Prunes [s] [s']

/-- A pruned statement may stand in front of pruned statements. -/
private theorem Prunes.cons_cons {s s' : Stmt} {rest rest' : List Stmt} (hs : Prunes [s] [s'])
    (hrest : Prunes rest rest') : Prunes (s :: rest) (s' :: rest') := by
  cases hs with
  | cons => exact .cons s hrest
  | behind value line => exact .cons _ hrest
  | procedure p hbody => exact .procedure p hbody hrest
  | loop initial test step hbody => exact .loop initial test step hbody hrest
  | branch test hyes => exact .branch test hyes hrest
  | branchElse test hyes hno => exact .branchElse test hyes hno hrest

/-! ### Leaving out everything -/

mutual

/-- A statement without anything behind the returns inside of it. -/
def Stmt.prune : Stmt → Stmt
  | .procedure ⟨ordinal, name, returns, parameters, locals, body⟩ =>
    .procedure ⟨ordinal, name, returns, parameters, locals, pruneAll body⟩
  | .loop initial test step body => .loop initial test step (pruneAll body)
  | .branch test yes none => .branch test (pruneAll yes) none
  | .branch test yes (some no) => .branch test (pruneAll yes) (some (pruneAll no))
  | s => s

/-- Statements up to the first return among them, each without anything behind the returns inside
of it. -/
def Stmt.pruneAll : List Stmt → List Stmt
  | [] => []
  | .giveBack value line :: _ => [.giveBack value line]
  | s :: rest => s.prune :: pruneAll rest

end

mutual

/-- What `prune` leaves of a statement is the statement pruned. -/
theorem Stmt.prunes_prune : (s : Stmt) → Prunes [s] [s.prune]
  | .procedure p => by
    obtain ⟨ordinal, name, returns, parameters, locals, body⟩ := p
    rw [prune]
    exact .procedure _ (prunes_pruneAll body) .nil
  | .loop initial test step body => by
    rw [prune]
    exact .loop initial test step (prunes_pruneAll body) .nil
  | .branch test yes none => by
    rw [prune]
    exact .branch test (prunes_pruneAll yes) .nil
  | .branch test yes (some no) => by
    rw [prune]
    exact .branchElse test (prunes_pruneAll yes) (prunes_pruneAll no) .nil
  | .expr _ | .declare _ | .classDef _ _ | .print _ _ _ | .giveBack _ _ | .foreign _ _ => by
    rw [prune]
    · exact .refl _
    all_goals simp

/-- What `pruneAll` leaves of statements is the statements pruned. -/
private theorem Stmt.prunes_pruneAll : (ss : List Stmt) → Prunes ss (Stmt.pruneAll ss)
  | [] => .nil
  | .giveBack value line :: rest => .behind value line rest
  | .expr _ :: rest | .declare _ :: rest | .procedure _ :: rest | .classDef _ _ :: rest
  | .print _ _ _ :: rest | .loop _ _ _ _ :: rest | .branch _ _ _ :: rest
  | .foreign _ _ :: rest => by
    rw [pruneAll]
    · exact (Stmt.prunes_prune _).cons_cons (prunes_pruneAll rest)
    · simp

end

/-- The items of a program may all be pruned. -/
theorem Program.prunes_prune (ss : List Stmt) : Program.Prunes ss (ss.map Stmt.prune) := by
  induction ss with
  | nil => exact .nil
  | cons s rest ih => exact .cons s.prunes_prune ih

/-- A pruned program is a pruned list of statements. -/
theorem Program.Prunes.statements {ss ss' : List Stmt} (h : Program.Prunes ss ss') :
    Litany.Prunes ss ss' := by
  induction h with
  | nil => exact .nil
  | cons hs _ ih => exact hs.cons_cons ih

/-! ### Pruned machines -/

namespace Machine

/-- The second machine is the first with pruned procedures. -/
structure Pruned (m m' : Machine) : Prop where
  globals : m.globals = m'.globals
  frames : m.frames = m'.frames
  output : m.output = m'.output
  blocks : m.blocks = m'.blocks
  procedures : ∀ i : Nat,
    Option.Rel ProcedureOf.Prunes m.procedures[i]?.join m'.procedures[i]?.join

namespace Pruned

/-- Every machine is one with its own procedures pruned of nothing. -/
theorem refl (m : Machine) : m.Pruned m := by
  refine ⟨rfl, rfl, rfl, rfl, fun i => ?_⟩
  cases m.procedures[i]?.join with
  | none => exact .none
  | some p => exact .some ⟨p.body, .refl p.body, rfl⟩

variable {m m' : Machine} (h : m.Pruned m')

include h

/-- Pruned procedures leave the cells of a machine as they are. -/
theorem cell? (slot : Slot) : m.cell? slot = m'.cell? slot := by
  cases slot with
  | global i => exact congrArg (·[i]?) h.globals
  | argument i | own i => simp only [Machine.cell?, h.frames]

/-- A cell is set on both machines alike. -/
theorem setCell (slot : Slot) (v : Value) : (m.setCell slot v).Pruned (m'.setCell slot v) := by
  obtain ⟨globals, procedures, frames, output, blocks⟩ := m
  obtain ⟨globals', procedures', frames', output', blocks'⟩ := m'
  obtain ⟨rfl, rfl, rfl, rfl, hprocedures⟩ := h
  cases slot with
  | global i => exact ⟨rfl, rfl, rfl, rfl, hprocedures⟩
  | argument i | own i => cases frames <;> exact ⟨rfl, rfl, rfl, rfl, hprocedures⟩

/-- A place is overwritten on both machines alike. -/
theorem overwrite (p : Place) (v : Value) :
    (Run.overwrite p v m).Pruned (Run.overwrite p v m') := by
  unfold Run.overwrite
  rw [h.cell? p.slot]
  cases p.path with
  | nil => exact h.setCell p.slot v
  | cons segment rest =>
    cases m'.cell? p.slot with
    | none => exact h
    | some content => exact h.setCell p.slot _

/-- A procedure may be installed on the one machine and its pruned form on the other. -/
theorem install {p p' : Procedure} (hp : p.Prunes p') : (m.install p).Pruned (m'.install p') := by
  refine ⟨h.globals, h.frames, h.output, h.blocks, fun i => ?_⟩
  obtain ⟨body, hbody, rfl⟩ := hp
  rw [install_procedures, install_procedures]
  by_cases hi : i = p.ordinal
  · rw [if_pos hi, if_pos hi]
    exact .some ⟨body, hbody, rfl⟩
  · rw [if_neg hi, if_neg hi]
    exact h.procedures i

omit h in
/-- The procedures of a program may be installed on the one machine and those of the pruned program
on the other. -/
theorem installAll {ss ss' : List Stmt} (hss : Program.Prunes ss ss') (h : m.Pruned m') :
    (m.installAll ss).Pruned (m'.installAll ss') := by
  induction hss generalizing m m' with
  | nil => exact h
  | @cons s s' rest rest' hs _ ih =>
    cases hs with
    | cons =>
      cases s with
      | procedure p => exact ih (h.install ⟨p.body, .refl p.body, rfl⟩)
      | _ => exact ih h
    | procedure p hbody => exact ih (h.install ⟨_, hbody, rfl⟩)
    | behind | loop | branch | branchElse => exact ih h

end Pruned

end Machine

/-! ### Elementary steps -/

namespace Run

/-- From a machine and a pruned one, two computations give the same answer or stop for the same
reason, and leave machines that are related in the same way. -/
abbrev Matches {α : Type} (x x' : Run α) : Prop :=
  InStep Machine.Pruned x x'

/-- A place is visited alike on both machines: its cell is the same. -/
private theorem matches_visit (p : Place) : Matches (visit p) (visit p) := by
  intro m m' h
  unfold visit
  rw [h.cell? p.slot]
  cases m'.cell? p.slot with
  | none => exact ⟨rfl, h⟩
  | some content =>
    cases p.path with
    | nil => exact ⟨rfl, h⟩
    | cons segment rest =>
      dsimp only
      cases content.visit? p.key (Value.zero p.type) with
      | none => exact ⟨rfl, h⟩
      | some found => exact ⟨rfl, h.setCell p.slot found.2⟩

/-- A change that keeps the procedures of two machines apart only by what is pruned. -/
private theorem matches_modify {f f' : Machine → Machine}
    (hf : ∀ m m', m.Pruned m' → (f m).Pruned (f' m')) :
    Matches (modify f : Run Unit) (modify f') :=
  fun m m' h => ⟨rfl, hf m m' h⟩

/-- A value is stored alike on both machines. -/
private theorem matches_store (p : Place) (v : Value) : Matches (store p v) (store p v) :=
  (matches_visit p).bind fun _ =>
    (matches_modify fun _ _ h => h.overwrite p (v.stored p.type)).bind fun _ => .pure _

private theorem matches_write (text : String) : Matches (write text) (write text) :=
  matches_modify fun _ _ h =>
    ⟨h.globals, h.frames, congrArg (· ++ text) h.output, h.blocks, h.procedures⟩

/-- A block is handed over alike: the blocks before it are the same. -/
private theorem matches_handOver (executor : Option Executor) (code : String) (line : Nat) :
    Matches (handOver executor code line) (handOver executor code line) := by
  intro m m' h
  cases executor with
  | none => exact ⟨rfl, h⟩
  | some answer =>
    have hhanded : Machine.Pruned { m with blocks := m.blocks ++ [code] }
        { m' with blocks := m'.blocks ++ [code] } :=
      ⟨h.globals, h.frames, h.output, congrArg (· ++ [code]) h.blocks, h.procedures⟩
    simp only [handOver, h.blocks] at hhanded ⊢
    cases answer m'.blocks code with
    | ok u => exact ⟨rfl, hhanded⟩
    | error reason => exact ⟨rfl, hhanded⟩

/-- A computation in a frame of its own matches another one if it does so outside. -/
private theorem matches_inFrame {α : Type} {x x' : Run α} (hx : Matches x x') (frame : Frame) :
    Matches (inFrame frame x) (inFrame frame x') := by
  intro m m' h
  have hinner : Machine.Pruned { m with frames := frame :: m.frames }
      { m' with frames := frame :: m'.frames } :=
    ⟨h.globals, congrArg (frame :: ·) h.frames, h.output, h.blocks, h.procedures⟩
  have hpopped : ∀ {last last' : Machine}, last.Pruned last' →
      Machine.Pruned { last with frames := last.frames.tail }
        { last' with frames := last'.frames.tail } := fun h =>
    ⟨h.globals, congrArg List.tail h.frames, h.output, h.blocks, h.procedures⟩
  unfold inFrame
  rcases (hx _ _ hinner).cases with ⟨a, last, last', hrun, hrun', hlast⟩ |
    ⟨stop, last, last', hrun, hrun', hlast⟩
  · rw [hrun, hrun']
    exact ⟨rfl, hpopped hlast⟩
  · rw [hrun, hrun']
    exact ⟨rfl, hpopped hlast⟩

/-! ### Calls and loops -/

/-- A call finds a procedure on the one side and a pruned one on the other. They bind the same
arguments and zero the same locals, and the rest is their bodies. -/
private theorem matches_call {body body' : List Stmt → Run Ending}
    (hbody : ∀ ss ss', Prunes ss ss' → Matches (body ss) (body' ss')) (ordinal : Nat)
    (name : String) (arguments : List Expr) (line : Nat)
    (harguments : ∀ types, Matches (evaluateArguments body types arguments)
      (evaluateArguments body' types arguments)) :
    Matches (evaluate body (.call ordinal name arguments line))
      (evaluate body' (.call ordinal name arguments line)) := by
  intro m m' h
  rw [evaluate, evaluate, bind_apply, bind_apply]
  have hfound := h.procedures ordinal
  have hlookup : ∀ m : Machine, procedure ordinal name line m =
      match m.procedures[ordinal]?.join with
      | some p => .ok p m
      | none => fault (.noBody name line) m := by
    intro m
    unfold procedure
    rcases m.procedures[ordinal]? with _ | _ | p <;> rfl
  rw [hlookup, hlookup]
  generalize m.procedures[ordinal]?.join = found at hfound ⊢
  generalize m'.procedures[ordinal]?.join = found' at hfound ⊢
  cases hfound with
  | none => exact ⟨rfl, h⟩
  | @some p p' hp =>
    obtain ⟨code, hcode, rfl⟩ := hp
    refine (harguments p.parameters).bind (fun values => ?_) m m' h
    exact (matches_inFrame (hbody p.body code hcode) _).bind fun _ => .pure _

/-- Loops match if their tests, their bodies and their steps do. -/
private theorem matches_rounds {test test' : Run Bool} {loop loop' : Run Ending}
    {step step' : Run Unit}
    (htest : Matches test test') (hloop : Matches loop loop') (hstep : Matches step step')
    (n : Nat) : Matches (rounds test loop step n) (rounds test' loop' step' n) := by
  induction n with
  | zero => exact .throw .outOfFuel
  | succ n ih =>
    refine htest.bind fun holds =>
      Lockstep.ite (R := @Matches) (hloop.bind fun ending => ?_) (.pure _)
    cases ending with
    | returned v => exact .pure _
    | through => exact hstep.bind fun _ => ih

/-- With matching bodies of procedures, all parts of a program match. -/
private theorem matches_lockstep {body body' : List Stmt → Run Ending}
    (hbody : ∀ ss ss', Prunes ss ss' → Matches (body ss) (body' ss')) (executor : Option Executor)
    (n : Nat) : Lockstep ⟨executor, body, n⟩ ⟨executor, body', n⟩ @Matches where
  pure := .pure
  bind := .bind
  fault f := .throw (.fault f)
  visit := matches_visit
  store := matches_store
  write := matches_write
  handOver := matches_handOver executor
  install p := matches_modify fun _ _ h => h.install ⟨p.body, .refl p.body, rfl⟩
  call := matches_call hbody
  loop htest hloop hstep := matches_rounds htest hloop hstep n

/-! ### Whole runs -/

/-- Statements in front of others are executed alike if both are. -/
private theorem matches_executeAll_cons {cx cx' : Context} {s s' : Stmt} {rest rest' : List Stmt}
    (hs : Matches (execute cx s) (execute cx' s'))
    (hrest : Matches (executeAll cx rest) (executeAll cx' rest')) :
    Matches (executeAll cx (s :: rest)) (executeAll cx' (s' :: rest')) := by
  rw [executeAll, executeAll]
  refine hs.bind fun ending => ?_
  cases ending with
  | returned v => exact .pure _
  | through => exact hrest

/-- Pruned statements are executed alike if pruned bodies are run alike. -/
theorem matches_executeAll {body body' : List Stmt → Run Ending}
    (hbody : ∀ ss ss', Prunes ss ss' → Matches (body ss) (body' ss')) (executor : Option Executor)
    (n : Nat) {ss ss' : List Stmt} (hss : Prunes ss ss') :
    Matches (executeAll ⟨executor, body, n⟩ ss) (executeAll ⟨executor, body', n⟩ ss') := by
  have hsteps := matches_lockstep hbody executor n
  induction hss with
  | nil => exact hsteps.executeAll []
  | cons s _ ih => exact matches_executeAll_cons (hsteps.execute s) ih
  | behind value line rest =>
    rw [executeAll, executeAll, execute, execute, bind_assoc, bind_assoc]
    exact (hsteps.returnValue value).bind fun v => .pure _
  | @procedure p code _ _ hcode _ _ ih =>
    refine matches_executeAll_cons ?_ ih
    rw [execute, execute]
    exact (matches_modify fun _ _ h => h.install ⟨code, hcode, rfl⟩).bind fun _ => .pure _
  | loop initial test step _ _ ihBody ih =>
    refine matches_executeAll_cons ?_ ih
    rw [execute, execute]
    exact (hsteps.effect initial).bind fun _ =>
      matches_rounds (hsteps.continues test) ihBody (hsteps.effect step) n
  | branch test _ _ ihYes ih =>
    refine matches_executeAll_cons ?_ ih
    rw [execute, execute]
    exact (hsteps.evaluateCondition test).bind fun _ => Lockstep.ite (R := @Matches) ihYes (.pure _)
  | branchElse test _ _ _ ihYes ihNo ih =>
    refine matches_executeAll_cons ?_ ih
    rw [execute, execute]
    exact (hsteps.evaluateCondition test).bind fun _ => Lockstep.ite (R := @Matches) ihYes ihNo

/-- With any fuel, pruned statements do the same as the statements themselves. -/
theorem matches_runBody (executor : Option Executor) (n : Nat) {ss ss' : List Stmt}
    (hss : Prunes ss ss') : Matches (runBody executor n ss) (runBody executor n ss') := by
  induction n generalizing ss ss' with
  | zero => exact .throw .outOfFuel
  | succ n ih =>
    rw [runBody, runBody]
    exact matches_executeAll (fun _ _ => ih) executor n hss

end Run

/-- A pruned program gives the same result on a pruned machine, and leaves a pruned machine. -/
theorem Machine.Pruned.interpret {m m' : Machine} (h : m.Pruned m') {ss ss' : List Stmt}
    (hss : Program.Prunes ss ss') (executor : Option Executor) (n : Nat) :
    (m.interpret executor n ss).1 = (m'.interpret executor n ss').1 ∧
      (m.interpret executor n ss).2.Pruned (m'.interpret executor n ss').2 := by
  unfold Machine.interpret
  rcases (matches_runBody executor n hss.statements _ _ (h.installAll hss)).cases with
    ⟨a, last, last', hrun, hrun', hlast⟩ | ⟨stop, last, last', hrun, hrun', hlast⟩
  · rw [hrun, hrun']
    exact ⟨congrArg Except.ok hlast.output, hlast.globals, rfl, rfl, hlast.blocks, hlast.procedures⟩
  · rw [hrun, hrun']
    exact ⟨rfl, hlast.globals, rfl, rfl, hlast.blocks, hlast.procedures⟩

end Litany
