import Litany.Syntax.Stmt

/-!
# The acts of a program

What a part of a program may do to a machine, besides computing with values, are its acts: it looks
at places and writes them, starts variables afresh, calls procedures and installs them. They are
listed in the order in which they are written. The acts in the body of a procedure are not among
those of the statement that installs it, since they belong to another scope.
-/

namespace Litany

/-- What a part of a program does to a machine. -/
inductive Act where
  | read (p : Place)
  | write (p : Place)
  /-- Start a declared variable afresh. -/
  | reset (p : Place)
  | call (ordinal : Nat) (name : String) (count : Nat)
  | install (p : Procedure)

/-- The place that an act is about. -/
def Act.place? : Act → Option Place
  | read p => some p
  | write p => some p
  | reset p => some p
  | call _ _ _ => none
  | install _ => none

mutual

/-- The acts of an expression. -/
def Expr.acts : Expr → List Act
  | .literal _ => []
  | .read p => [.read p]
  | .call ordinal name arguments _ => .call ordinal name arguments.length :: actsOfAll arguments
  | .negate operand _ => operand.acts
  | .group inner => inner.acts
  | .binary left _ right _ => left.acts ++ right.acts
  | .assign target steps => .write target :: actsOfSteps steps
  | .bump target _ _ _ => [.write target]

/-- The acts of expressions. -/
def Expr.actsOfAll : List Expr → List Act
  | [] => []
  | e :: rest => e.acts ++ actsOfAll rest

/-- The acts of the operands of an assignment. -/
def Expr.actsOfSteps : List (Step Expr) → List Act
  | [] => []
  | ⟨_, operand, _⟩ :: rest => operand.acts ++ actsOfSteps rest

end

/-- The acts of a term. -/
def Term.acts (t : Term) : List Act :=
  t.left.acts ++ t.comparison.toList.flatMap fun side => side.2.acts

/-- The acts of a condition. -/
def Condition.acts (c : Condition) : List Act :=
  c.first.acts ++ c.rest.flatMap fun t => t.2.acts

/-- The acts of a declared name. -/
def Declarator.acts (d : Declarator) : List Act :=
  .reset d.target :: d.initial.toList.flatMap Expr.acts

mutual

/-- The acts of a statement. -/
def Stmt.acts : Stmt → List Act
  | .expr e => e.acts
  | .declare vars => vars.flatMap Declarator.acts
  | .procedure p => [.install p]
  | .classDef _ vars => vars.flatMap Declarator.acts
  | .print _ arguments _ => Expr.actsOfAll arguments
  | .loop initial test step body =>
    initial.toList.flatMap Expr.acts ++ test.toList.flatMap Condition.acts ++
      step.toList.flatMap Expr.acts ++ actsOfAll body
  | .branch test yes none => test.acts ++ actsOfAll yes
  | .branch test yes (some no) => test.acts ++ actsOfAll yes ++ actsOfAll no
  | .giveBack value _ => value.toList.flatMap Expr.acts
  | .foreign _ _ => []

/-- The acts of statements. -/
def Stmt.actsOfAll : List Stmt → List Act
  | [] => []
  | s :: rest => s.acts ++ actsOfAll rest

end

/-- The acts of expressions in a row are theirs one after the other. -/
theorem Expr.actsOfAll_eq (es : List Expr) : actsOfAll es = es.flatMap acts := by
  induction es with
  | nil => rfl
  | cons e es ih => rw [actsOfAll, ih, List.flatMap_cons]

/-- The acts of the steps of an assignment are those of their operands. -/
theorem Expr.actsOfSteps_eq (steps : List (Step Expr)) :
    actsOfSteps steps = steps.flatMap fun step => step.operand.acts := by
  induction steps with
  | nil => rfl
  | cons step steps ih => rw [actsOfSteps, ih, List.flatMap_cons]

/-- The acts of statements in a row are theirs one after the other. -/
theorem Stmt.actsOfAll_eq (ss : List Stmt) : actsOfAll ss = ss.flatMap acts := by
  induction ss with
  | nil => rfl
  | cons s ss ih => rw [actsOfAll, ih, List.flatMap_cons]

/-! ### Allowed acts -/

/-- All acts of a part of a program are allowed. -/
def Allowed (allows : Act → Prop) (acts : List Act) : Prop :=
  ∀ a ∈ acts, allows a

namespace Allowed

variable {allows allows' : Act → Prop} {as bs : List Act} {a : Act} {α : Type}

theorem nil : Allowed allows [] :=
  fun _ h => nomatch h

theorem cons_iff : Allowed allows (a :: as) ↔ allows a ∧ Allowed allows as :=
  List.forall_mem_cons

theorem append_iff : Allowed allows (as ++ bs) ↔ Allowed allows as ∧ Allowed allows bs :=
  List.forall_mem_append

theorem singleton_iff : Allowed allows [a] ↔ allows a :=
  List.forall_mem_singleton

/-- The acts of some parts are allowed if those of each part are. -/
theorem flatMap_iff {parts : List α} {f : α → List Act} :
    Allowed allows (parts.flatMap f) ↔ ∀ x ∈ parts, Allowed allows (f x) := by
  simp only [Allowed, List.mem_flatMap]
  exact ⟨fun h x hx a ha => h a ⟨x, hx, ha⟩, fun h a ⟨x, hx, ha⟩ => h x hx a ha⟩

/-- The acts of a part that may be missing. -/
theorem toList_iff {part : Option α} {f : α → List Act} :
    Allowed allows (part.toList.flatMap f) ↔ ∀ x ∈ part, Allowed allows (f x) := by
  rw [flatMap_iff]
  simp

/-- What is allowed is allowed where more is. -/
theorem mono (h : Allowed allows as) (hmono : ∀ a, allows a → allows' a) : Allowed allows' as :=
  fun a ha => hmono a (h a ha)

end Allowed

end Litany
