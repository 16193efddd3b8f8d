import Litany.Machine.Execute
import Litany.Proofs.Machine.Cells

/-!
# Assignments, step by step

An assignment carries the value of its target along while it also writes it. The two agree at the
end of every step: whatever the operand of the step has done to the target, the step ends with a
store, and what was stored is what is carried on (`visit_of_assignStep`, `visit_of_evaluateSteps`).
So an assignment may be cut between any two steps and taken up again at its target, which is
`evaluate_assign_append`.

The steps are a fold over one step, `assignStep`. Nothing is asked of the place, of the machine or
of the way bodies are run: a target without a cell fails on both sides in the same way.
-/

namespace Litany

open Run

/-! ### One step -/

namespace Run

/-- What was stored at a place is found there, and the visit changes nothing. -/
theorem visit_of_store {p : Place} {v kept : Value} {m later : Machine}
    (h : store p v m = .ok kept later) : visit p later = .ok kept later := by
  obtain ⟨found, visited, hvisit, hrest⟩ := bind_eq_ok.mp h
  cases hrest
  unfold overwrite
  rcases cases_of_visit hvisit with ⟨hpath, rfl, hcell⟩ | ⟨cells, hpath, hcell, rfl, hlookup⟩
  · have hwritten := Machine.cell?_setCell hcell (v.stored p.type)
    simp only [visit, hpath, hwritten]
  · obtain ⟨segment, rest, hcons⟩ := List.exists_cons_of_ne_nil hpath
    have hreserved := Machine.cell?_setCell hcell
      (.object (Cells.reserve cells p.key (Value.zero p.type)))
    have hwritten := Machine.cell?_setCell hreserved
      (.object ((Cells.reserve cells p.key (Value.zero p.type)).put p.key (v.stored p.type)))
    have hput := Cells.lookup_put hlookup (v.stored p.type)
    -- the key has its cell already, so that nothing is reserved for it again
    have hstays : Cells.reserve
        ((Cells.reserve cells p.key (Value.zero p.type)).put p.key (v.stored p.type)) p.key
        (Value.zero p.type) =
        (Cells.reserve cells p.key (Value.zero p.type)).put p.key (v.stored p.type) :=
      if_pos (by rw [hput]; rfl)
    simp only [hcons, hreserved, Value.putField, visit, hwritten, Value.visit?, hstays, hput,
      Option.getD_some]
    rw [Machine.setCell_of_cell? hwritten]

/-- An operation that fails changes nothing. -/
private theorem eq_of_arithmetic_error {l r : Value} {op : Arithmetic} {line : Nat} {stop : Stop}
    {m later : Machine} (h : arithmetic l op r line m = .error stop later) : later = m := by
  unfold arithmetic at h
  by_cases hzero : op = .divide ∧ r.isZero = true
  · rw [if_pos hzero] at h
    cases h
    rfl
  · rw [if_neg hzero] at h
    cases hcombine : l.combine op r with
    | some v =>
      rw [hcombine] at h
      cases h
    | none =>
      rw [hcombine] at h
      cases h
      rfl

/-- What a step makes of the value in front of it and of its operand. -/
def combined (v : Value) (op : Option Arithmetic) (r : Value) (line : Nat) : Run Value :=
  match op with
  | none => pure r
  | some op => arithmetic v op r line

end Run

/-- One step of an assignment whose target holds the given value: the operand, the operation, the
store. -/
def assignStep (body : List Stmt → Run Ending) (target : Place) (v : Value) (step : Step Expr) :
    Run Value := do
  let r ← evaluate body step.operand
  let changed ← combined v step.op r step.line
  store target changed

section Steps

variable {body : List Stmt → Run Ending} {target : Place} {v w : Value} {m later : Machine}

/-- A step ends with its target holding what it answers. -/
theorem visit_of_assignStep {step : Step Expr} (h : assignStep body target v step m = .ok w later) :
    visit target later = .ok w later := by
  obtain ⟨r, m₁, -, hrest⟩ := bind_eq_ok.mp h
  obtain ⟨changed, m₂, -, hstore⟩ := bind_eq_ok.mp hrest
  exact visit_of_store hstore

/-- A step whose operation fails has written nothing: the machine is the one that its operand
leaves. -/
private theorem assignStep_of_arithmetic_error {op : Arithmetic} {operand : Expr} {line : Nat}
    {r : Value} {stop : Stop} (hoperand : evaluate body operand m = .ok r later) {last : Machine}
    (hfails : arithmetic v op r line later = .error stop last) :
    assignStep body target v ⟨some op, operand, line⟩ m = .error stop later := by
  obtain rfl := eq_of_arithmetic_error hfails
  simp only [assignStep, combined]
  rw [bind_of_ok hoperand, bind_apply, hfails]

/-! ### All steps -/

/-- The steps of an assignment are taken one after the other, each with the value that the one
before has stored. -/
theorem evaluateSteps_eq_foldlM (body : List Stmt → Run Ending) (target : Place) (v : Value)
    (steps : List (Step Expr)) :
    evaluateSteps body target v steps = steps.foldlM (assignStep body target) v := by
  induction steps generalizing v with
  | nil => rw [evaluateSteps, List.foldlM_nil]
  | cons step rest ih =>
    obtain ⟨op, operand, line⟩ := step
    rw [evaluateSteps, List.foldlM_cons]
    cases op with
    | none | some op => simp only [assignStep, combined, bind_assoc, ih]

private theorem evaluateSteps_append (body : List Stmt → Run Ending) (target : Place) (v : Value)
    (steps more : List (Step Expr)) :
    evaluateSteps body target v (steps ++ more) =
      evaluateSteps body target v steps >>= fun w => evaluateSteps body target w more := by
  simp only [evaluateSteps_eq_foldlM, List.foldlM_append]

/-- If the target holds the value that the steps begin with, it holds the one that they end
with. -/
theorem visit_of_evaluateSteps {steps : List (Step Expr)}
    (hbegin : visit target m = .ok v m)
    (h : evaluateSteps body target v steps m = .ok w later) : visit target later = .ok w later := by
  rw [evaluateSteps_eq_foldlM] at h
  induction steps generalizing v m with
  | nil =>
    obtain ⟨rfl, rfl⟩ := pure_eq_ok.mp h
    exact hbegin
  | cons step rest ih =>
    rw [List.foldlM_cons] at h
    obtain ⟨kept, middle, hstep, hrest⟩ := bind_eq_ok.mp h
    exact ih (visit_of_assignStep hstep) hrest

end Steps

/-! ### Assignments -/

/-- An assignment begins at the value of its target. -/
theorem evaluate_assign (body : List Stmt → Run Ending) (target : Place)
    (steps : List (Step Expr)) :
    evaluate body (.assign target steps) =
      visit target >>= fun v => evaluateSteps body target v steps := by
  rw [evaluate]

/-- An assignment that answers leaves its target holding the answer. -/
theorem visit_of_evaluate_assign {body : List Stmt → Run Ending} {target : Place}
    {steps : List (Step Expr)} {w : Value} {m later : Machine}
    (h : evaluate body (.assign target steps) m = .ok w later) :
    visit target later = .ok w later := by
  rw [evaluate_assign] at h
  obtain ⟨v, visited, hvisit, hsteps⟩ := bind_eq_ok.mp h
  exact visit_of_evaluateSteps (visit_again hvisit) hsteps

/-- Behind an assignment that answers, another one to the same target goes on from the answer. -/
theorem evaluate_assign_of_ok {body : List Stmt → Run Ending} {target : Place}
    {steps : List (Step Expr)} {w : Value} {m later : Machine}
    (h : evaluate body (.assign target steps) m = .ok w later) (more : List (Step Expr)) :
    evaluate body (.assign target more) later = evaluateSteps body target w more later := by
  rw [evaluate_assign, bind_of_ok (visit_of_evaluate_assign h)]

/-- An assignment may be cut anywhere: it is the assignment of the steps in front, and behind it,
if that one answers, the assignment of the other steps to the same target. The two sides agree in
the answer or the failure and in the whole machine, whatever the operands do to the target. Behind
an assignment that answers, reading the target gives the answer and changes nothing; and a step
whose operation fails leaves what its operand has left of the stores in front of it. -/
theorem evaluate_assign_append (body : List Stmt → Run Ending) (target : Place) :
    (∀ steps more : List (Step Expr),
      evaluate body (.assign target (steps ++ more)) =
        evaluate body (.assign target steps) >>= fun _ => evaluate body (.assign target more)) ∧
    (∀ (steps : List (Step Expr)) (m later : Machine) (v : Value), steps ≠ [] →
      evaluate body (.assign target steps) m = .ok v later →
      evaluate body (.read target) later = .ok v later) ∧
    ∀ (steps more : List (Step Expr)) (m middle later last : Machine) (v r : Value)
      (op : Arithmetic) (operand : Expr) (line : Nat) (stop : Stop),
      evaluate body (.assign target steps) m = .ok v middle →
      evaluate body operand middle = .ok r later →
      arithmetic v op r line later = .error stop last →
      evaluate body (.assign target (steps ++ ⟨some op, operand, line⟩ :: more)) m =
        .error stop later := by
  have hcut : ∀ steps more : List (Step Expr),
      evaluate body (.assign target (steps ++ more)) =
        evaluate body (.assign target steps) >>= fun _ => evaluate body (.assign target more) := by
    intro steps more
    have hwhole : evaluate body (.assign target (steps ++ more)) =
        evaluate body (.assign target steps) >>= fun w => evaluateSteps body target w more := by
      simp only [evaluate_assign, evaluateSteps_append, bind_assoc]
    rw [hwhole]
    funext m
    rw [bind_apply, bind_apply]
    cases hsteps : evaluate body (.assign target steps) m with
    | error stop later => rfl
    | ok w later => exact (evaluate_assign_of_ok hsteps more).symm
  refine ⟨hcut, ?_, ?_⟩
  · intro steps m later v _ h
    rw [evaluate]
    exact visit_of_evaluate_assign h
  · intro steps more m middle later last v r op operand line stop hsteps hoperand hfails
    rw [hcut, bind_of_ok hsteps, evaluate_assign_of_ok hsteps, evaluateSteps_eq_foldlM,
      List.foldlM_cons, bind_apply, assignStep_of_arithmetic_error hoperand hfails]

/-- An unsigned byte, and a machine that holds it beside a zero. -/
def byteTarget : Place :=
  ⟨"a", [], .global 0, .scalar .u8⟩

def byteMachine (n : Int64) : Machine :=
  ⟨[.int n, .int 0], [], [], "", []⟩

/-- In `a = 300 + a++ / z` the first store narrows, the operand of the second step changes the
target, and the third step fails: the assignment may be cut in front of the sum, the sum can be
read, and it is still there behind the failure. -/
theorem evaluate_assign_append_byte :
    let run := evaluate (runBody none 0)
    let narrowed : List (Step Expr) := [⟨none, .literal (.int 300), 1⟩]
    let summed : List (Step Expr) := [⟨some .add, .bump byteTarget true false 1, 1⟩]
    let divided : Step Expr := ⟨some .divide, .read ⟨"z", [], .global 1, .scalar .u8⟩, 1⟩
    run (.assign byteTarget narrowed) (byteMachine 7) = .ok (.int 44) (byteMachine 44) ∧
      run (.assign byteTarget (narrowed ++ summed)) (byteMachine 7) =
        .ok (.int 88) (byteMachine 88) ∧
      run (.read byteTarget) (byteMachine 88) = .ok (.int 88) (byteMachine 88) ∧
      run (.assign byteTarget ((narrowed ++ summed) ++ [divided])) (byteMachine 7) =
        .error (.fault (.divisionByZero 1)) (byteMachine 88) := by
  intro run narrowed summed divided
  obtain ⟨hcut, hread, hfails⟩ := evaluate_assign_append (runBody none 0) byteTarget
  have hnarrowed : run (.assign byteTarget narrowed) (byteMachine 7) =
      .ok (.int 44) (byteMachine 44) := rfl
  have hsummed : run (.assign byteTarget (narrowed ++ summed)) (byteMachine 7) =
      .ok (.int 88) (byteMachine 88) := by
    simp only [run, hcut]
    rw [bind_of_ok hnarrowed]
    rfl
  exact ⟨hnarrowed, hsummed, hread _ _ _ _ (by simp [narrowed]) hsummed,
    hfails _ _ _ _ _ _ _ _ _ _ _ _ hsummed rfl rfl⟩

end Litany
