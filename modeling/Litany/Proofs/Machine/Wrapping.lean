import Litany.Proofs.Machine.Assignment
import Litany.Proofs.Machine.Typing
import Mathlib.Data.Int.ModEq

/-!
# Narrowing at every step

An assignment to a cell of integer type narrows what it stores after every step, on top of an
arithmetic that wraps in 64 bits. For sums, differences and products this shows nowhere: the chain
may be computed in unbounded integers and narrowed once, at its end. Every narrowing keeps the
number modulo the size of the type, every size divides the size of the arithmetic, and the three
operations respect congruence (`modEq_combine`, `assignStep_wraps`). A quotient does not.

The operands are to be numbers of their own, that is, they do not hang on the target or on each
other. `Steady` says so of the machines that the assignment comes through, so that an operand may be
a call, or a field that is visited for the first time.
-/

namespace Litany

open Run

/-! ### Integer types -/

namespace Scalar

/-- How many integers a cell of integer type tells apart. -/
def size? : Scalar → Option Nat
  | i8 | u8 => some 256
  | i16 | u16 => some 65536
  | i32 | u32 => some 4294967296
  | i64 | u64 => some 18446744073709551616
  | i0 | u0 | f64 | bool => none

/-- Whether the integers of a type begin at zero. In 64 bits they are always read with a sign. -/
def beginsAtZero : Scalar → Bool
  | u8 | u16 | u32 => true
  | _ => false

/-- The integer of a type of the given size that a number is narrowed to. -/
def narrow (t : Scalar) (size : Nat) (n : Int) : Int :=
  if t.beginsAtZero then n % size else n.bmod size

variable {t : Scalar} {size : Nat}

private theorem narrow_modEq (t : Scalar) (size : Nat) (n : Int) :
    t.narrow size n ≡ n [ZMOD size] := by
  unfold narrow
  split
  · exact Int.mod_modEq n size
  · exact Int.bmod_emod

private theorem narrow_congr {a b : Int} (t : Scalar) (h : a ≡ b [ZMOD size]) :
    t.narrow size a = t.narrow size b := by
  unfold narrow
  split
  · exact h
  · rw [Int.bmod_def, Int.bmod_def, h.eq]

/-- The arithmetic of 64 bits respects congruence modulo the size of every integer type. -/
private theorem size_dvd (h : t.size? = some size) : (size : Int) ∣ 18446744073709551616 := by
  cases t <;> cases h <;> decide

/-- What a cell of integer type keeps of an integer is the integer, narrowed. -/
theorem toInt_wrap (h : t.size? = some size) (n : Int64) :
    (t.wrap n).toInt = t.narrow size n.toInt := by
  have hsigned : ∀ half : Nat, 0 < half → half ≤ 2147483648 →
      (Int64.ofInt (n.toInt.bmod (2 * half))).toInt = n.toInt.bmod (2 * half) :=
    fun half hhalf hsmall =>
      toInt_ofInt_of_bounds (bmod_bounds n.toInt hhalf) (by omega) (by omega)
  have hunsigned : ∀ size : Int, 0 < size → size ≤ 4294967296 →
      (Int64.ofInt (n.toInt % size)).toInt = n.toInt % size :=
    fun size hsize hsmall =>
      toInt_ofInt_of_bounds (emod_bounds n.toInt hsize) (by omega) (by omega)
  have hwhole : n.toInt.bmod 18446744073709551616 = n.toInt := by
    have hlow := n.le_toInt
    have hhigh := n.toInt_lt
    exact Int.bmod_eq_of_le (by omega) (by omega)
  cases t with
  | i0 | u0 | f64 | bool => cases h
  | i8 =>
    cases h
    exact hsigned 128 (by omega) (by omega)
  | u8 =>
    cases h
    exact hunsigned 256 (by omega) (by omega)
  | i16 =>
    cases h
    exact hsigned 32768 (by omega) (by omega)
  | u16 =>
    cases h
    exact hunsigned 65536 (by omega) (by omega)
  | i32 =>
    cases h
    exact hsigned 2147483648 (by omega) (by omega)
  | u32 =>
    cases h
    exact hunsigned 4294967296 (by omega) (by omega)
  | i64 | u64 =>
    cases h
    exact hwhole.symm

/-- An integer cell keeps an integer of any integer. -/
private theorem stored_int (h : t.size? = some size) (n : Int64) :
    (Value.int n).stored (.scalar t) = .int (t.wrap n) := by
  cases t with
  | i0 | u0 | f64 | bool => cases h
  | _ => rfl

end Scalar

/-! ### Chains of unbounded integers -/

/-- What a step of a chain makes of two unbounded integers; without an operation, the second. -/
def exact (op : Option Arithmetic) (l r : Int) : Int :=
  match op with
  | none => r
  | some .add => l + r
  | some .subtract => l - r
  | some .multiply => l * r
  | some .divide => l.tdiv r

/-- Sums, differences and products of integers are those of unbounded ones, modulo the size of any
integer type. -/
theorem modEq_combine {t : Scalar} {size : Nat} (hsize : t.size? = some size)
    {op : Option Arithmetic} (hop : op ≠ some .divide) {v n : Int64} {x : Int}
    (hv : v.toInt ≡ x [ZMOD size]) (line : Nat) :
    ∃ c : Int64, (∀ m, combined (.int v) op (.int n) line m = .ok (.int c) m) ∧
      c.toInt ≡ exact op x n.toInt [ZMOD size] := by
  have hwrapped : ∀ a : Int, a.bmod 18446744073709551616 ≡ a [ZMOD size] := fun a =>
    Int.ModEq.of_dvd (Scalar.size_dvd hsize) Int.bmod_emod
  cases op with
  | none => exact ⟨n, fun _ => rfl, .rfl⟩
  | some op =>
    cases op with
    | add =>
      refine ⟨v + n, fun _ => rfl, ?_⟩
      rw [Int64.toInt_add]
      exact (hwrapped _).trans (hv.add .rfl)
    | subtract =>
      refine ⟨v - n, fun _ => rfl, ?_⟩
      rw [Int64.toInt_sub]
      exact (hwrapped _).trans (hv.sub .rfl)
    | multiply =>
      refine ⟨v * n, fun _ => rfl, ?_⟩
      rw [Int64.toInt_mul]
      exact (hwrapped _).trans (hv.mul .rfl)
    | divide => exact absurd rfl hop

/-! ### Steady operands -/

section Assignments

variable (body : List Stmt → Run Ending) (target : Place) (operands : List Expr)

/-- The machines that an assignment may come through: at any time one of its operands is evaluated,
or an integer is stored at its target. -/
inductive Assigning (start : Machine) : Machine → Prop where
  | start : Assigning start start
  | evaluated {e : Expr} {v : Value} {m later : Machine} (he : e ∈ operands)
      (hm : Assigning start m) (hv : evaluate body e m = .ok v later) : Assigning start later
  | stored {m : Machine} (n : Int64) (hm : Assigning start m) :
      Assigning start (overwrite target (.int n) m)

/-- An operand that is an integer of its own. Whatever has been stored at the target, and whichever
operands have been evaluated before, it evaluates to the same integer, and it leaves the target as
it is. -/
def Steady (start : Machine) (e : Expr) (n : Int64) : Prop :=
  ∀ m, Assigning body target operands start m →
    ∃ later, evaluate body e m = .ok (.int n) later ∧
      ∀ v, visit target m = .ok v m → visit target later = .ok v later

variable {body target operands} {start m : Machine}

/-- Operands that change nothing are steady if they evaluate to the same integers on some set of
machines that is closed under storing an integer at the target. -/
theorem steady_of_unchanging (P : Machine → Prop) (hstart : P start)
    (hstored : ∀ m n, P m → P (overwrite target (.int n) m)) {number : Expr → Int64}
    (hoperands : ∀ e ∈ operands, ∀ m, P m → evaluate body e m = .ok (.int (number e)) m)
    {e : Expr} (he : e ∈ operands) : Steady body target operands start e (number e) := by
  have hkeeps : ∀ m, Assigning body target operands start m → P m := by
    intro m hm
    induction hm with
    | start => exact hstart
    | evaluated hmem _ heval ih =>
      rw [hoperands _ hmem _ ih] at heval
      cases heval
      exact ih
    | stored n _ ih => exact hstored _ n ih
  intro m hm
  exact ⟨m, hoperands e he m (hkeeps m hm), fun _ hvisit => hvisit⟩

/-- Storing at a place that has been visited. -/
private theorem store_of_visit {p : Place} {old : Value} (hvisit : visit p m = .ok old m)
    (v : Value) : store p v m = .ok (v.stored p.type) (overwrite p (v.stored p.type) m) := by
  unfold store
  rw [bind_of_ok hvisit]
  rfl

/-- One step narrows what the step in unbounded integers makes of any number that is congruent to
the value in front of it. -/
theorem assignStep_wraps {t : Scalar} {size : Nat} (htype : target.type = .scalar t)
    (hsize : t.size? = some size) {step : Step Expr} (hop : step.op ≠ some .divide) {n : Int64}
    (hn : Steady body target operands start step.operand n) (hmem : step.operand ∈ operands)
    (hm : Assigning body target operands start m) {v : Int64} {x : Int} {old : Value}
    (hvisit : visit target m = .ok old m) (hv : v.toInt ≡ x [ZMOD size]) :
    ∃ kept later, assignStep body target (.int v) step m = .ok (.int kept) later ∧
      kept.toInt = t.narrow size (exact step.op x n.toInt) ∧
      Assigning body target operands start later := by
  obtain ⟨middle, heval, hleaves⟩ := hn m hm
  obtain ⟨c, hcombined, hc⟩ := modEq_combine (n := n) hsize hop hv step.line
  have hstore : store target (.int c) middle =
      .ok (.int (t.wrap c)) (overwrite target (.int (t.wrap c)) middle) := by
    rw [store_of_visit (hleaves old hvisit), htype, Scalar.stored_int hsize]
  refine ⟨t.wrap c, overwrite target (.int (t.wrap c)) middle, ?_, ?_,
    .stored _ (.evaluated hmem hm heval)⟩
  · rw [assignStep, bind_of_ok heval, bind_of_ok (hcombined middle), hstore]
  · rw [Scalar.toInt_wrap hsize, Scalar.narrow_congr t hc]

/-- The chain of an assignment in unbounded integers, where each operand is the given number. -/
def exactChain (number : Expr → Int64) (old : Int) (steps : List (Step Expr)) : Int :=
  steps.foldl (fun x step => exact step.op x (number step.operand).toInt) old

/-- All steps narrow what the chain in unbounded integers makes of any number that the value in
front of them is narrowed from. -/
theorem evaluateSteps_wraps {t : Scalar} {size : Nat} (htype : target.type = .scalar t)
    (hsize : t.size? = some size) {number : Expr → Int64} {steps : List (Step Expr)}
    (hop : ∀ step ∈ steps, step.op ≠ some .divide)
    (hsteady : ∀ step ∈ steps, step.operand ∈ operands ∧
      Steady body target operands start step.operand (number step.operand))
    (hm : Assigning body target operands start m) {v : Int64} {x : Int}
    (hvisit : visit target m = .ok (.int v) m) (hv : v.toInt = t.narrow size x) :
    ∃ kept later, evaluateSteps body target (.int v) steps m = .ok (.int kept) later ∧
      kept.toInt = t.narrow size (exactChain number x steps) := by
  rw [evaluateSteps_eq_foldlM]
  induction steps generalizing v x m with
  | nil => exact ⟨v, m, rfl, hv⟩
  | cons step rest ih =>
    obtain ⟨hopFirst, hopRest⟩ := List.forall_mem_cons.mp hop
    obtain ⟨⟨hmem, hfirst⟩, hrest⟩ := List.forall_mem_cons.mp hsteady
    have hcongr : v.toInt ≡ x [ZMOD size] := by
      rw [hv]
      exact t.narrow_modEq size x
    obtain ⟨kept, later, hstep, hkept, hlater⟩ :=
      assignStep_wraps htype hsize hopFirst hfirst hmem hm hvisit hcongr
    rw [List.foldlM_cons, bind_of_ok hstep]
    exact ih hopRest hrest hlater (visit_of_assignStep hstep) hkept

/-! ### Assignments -/

/-- Narrowing at every step is narrowing once. If its target is of an integer type and holds an
integer, its operands are integers of their own and none of its operations is a division, then an
assignment answers, and what it stores is the chain in unbounded integers, from the old value of the
target on, narrowed to the type of the target. -/
theorem evaluate_assign_wraps {t : Scalar} {size : Nat} (htype : target.type = .scalar t)
    (hsize : t.size? = some size) {old : Int64} (hold : visit target m = .ok (.int old) start)
    {steps : List (Step Expr)} (hne : steps ≠ [])
    (hop : ∀ step ∈ steps, step.op ≠ some .divide) {number : Expr → Int64}
    (hsteady : ∀ step ∈ steps, Steady body target (steps.map fun step => step.operand) start
      step.operand (number step.operand)) :
    ∃ kept later, evaluate body (.assign target steps) m = .ok (.int kept) later ∧
      evaluate body (.read target) later = .ok (.int kept) later ∧
      kept.toInt = t.narrow size (exactChain number old.toInt steps) := by
  obtain ⟨first, rest, rfl⟩ := List.exists_cons_of_ne_nil hne
  have hmem : ∀ step ∈ first :: rest, step.operand ∈
      (first :: rest).map fun step => step.operand := fun step hstep => List.mem_map_of_mem hstep
  obtain ⟨hopFirst, hopRest⟩ := List.forall_mem_cons.mp hop
  obtain ⟨hfirst, hrest⟩ := List.forall_mem_cons.mp hsteady
  obtain ⟨hmemFirst, hmemRest⟩ := List.forall_mem_cons.mp hmem
  -- the old value may be out of range, so the first step is apart from the others
  obtain ⟨kept, middle, hstep, hkept, hmiddle⟩ :=
    assignStep_wraps htype hsize hopFirst hfirst hmemFirst .start (visit_again hold) .rfl
  obtain ⟨last, later, hsteps, hlast⟩ := evaluateSteps_wraps htype hsize hopRest
    (fun step hstep => ⟨hmemRest step hstep, hrest step hstep⟩) hmiddle
    (visit_of_assignStep hstep) hkept
  have hassign : evaluate body (.assign target (first :: rest)) m = .ok (.int last) later := by
    rw [evaluate_assign, bind_of_ok hold, evaluateSteps_eq_foldlM, List.foldlM_cons,
      bind_of_ok hstep, ← evaluateSteps_eq_foldlM, hsteps]
  refine ⟨last, later, hassign, ?_, hlast⟩
  rw [evaluate]
  exact visit_of_evaluate_assign hassign

end Assignments

/-- A signed byte, and a machine that holds it beside a seven. -/
def signedTarget : Place :=
  ⟨"a", [], .global 0, .scalar .i8⟩

def signedMachine (n : Int64) : Machine :=
  ⟨[.int n, .int 7], [], [], "", []⟩

/-- The steps of `a += 50 * 3 - b`. -/
def signedSteps : List (Step Expr) :=
  [⟨some .add, .literal (.int 50), 1⟩, ⟨some .multiply, .literal (.int 3), 1⟩,
    ⟨some .subtract, .read ⟨"b", [], .global 1, .scalar .i8⟩, 1⟩]

/-- The integer that an operand of these steps evaluates to. -/
def signedNumber : Expr → Int64
  | .literal (.int n) => n
  | _ => 7

/-- In `a += 50 * 3 - b` from a hundred on, two of the three stores narrow. What is kept at the end
is `443` without its multiples of `256`. -/
theorem evaluate_assign_wraps_signed :
    ∃ kept later, evaluate (runBody none 0) (.assign signedTarget signedSteps)
        (signedMachine 100) = .ok (.int kept) later ∧
      evaluate (runBody none 0) (.read signedTarget) later = .ok (.int kept) later ∧
      exactChain signedNumber 100 signedSteps = 443 ∧ kept.toInt = -69 := by
  have hsteady : ∀ step ∈ signedSteps, Steady (runBody none 0) signedTarget
      (signedSteps.map fun step => step.operand) (signedMachine 100) step.operand
      (signedNumber step.operand) := by
    intro step hstep
    refine steady_of_unchanging (fun m => ∃ n, m = signedMachine n) ⟨100, rfl⟩ ?_ ?_
      (List.mem_map_of_mem hstep)
    · rintro _ n ⟨old, rfl⟩
      exact ⟨n, rfl⟩
    · rintro e he _ ⟨old, rfl⟩
      simp only [signedSteps, List.map_cons, List.map_nil, List.mem_cons, List.not_mem_nil,
        or_false] at he
      rcases he with rfl | rfl | rfl <;> rfl
  have htype : signedTarget.type = .scalar .i8 := rfl
  have hsize : Scalar.i8.size? = some 256 := rfl
  have hold : visit signedTarget (signedMachine 100) = .ok (.int 100) (signedMachine 100) := rfl
  obtain ⟨kept, later, hassign, hread, hkept⟩ := evaluate_assign_wraps htype hsize hold
    (by simp [signedSteps]) (by simp [signedSteps]) hsteady
  exact ⟨kept, later, hassign, hread, rfl, hkept⟩

/-- A quotient tells the chains apart: `a += 100 / 2` from a hundred on keeps `-28`, half of the
narrowed sum, where half of the whole sum is `100`. -/
example : evaluate (runBody none 0) (.assign signedTarget [⟨some .add, .literal (.int 100), 1⟩,
      ⟨some .divide, .literal (.int 2), 1⟩]) (signedMachine 100) =
    .ok (.int (-28)) (signedMachine (-28)) :=
  rfl

end Litany
