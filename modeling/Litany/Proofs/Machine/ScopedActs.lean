import Litany.Proofs.Machine.Invariant
import Litany.Proofs.Scope.Acts

/-!
# The acts of well-scoped programs

The judgements of scoping follow a program in the order it is written. What a run needs of them is
less: that each act of the program agrees with the tables at its end. An act is well scoped if its
place is, if it calls a registered procedure with one argument for each parameter, or if it installs
a procedure that fits its entry.
-/

namespace Litany

/-! ### Places and the types of their slots -/

namespace Run

variable {names : Names}

/-- A place with fields is reached from an object. -/
theorem object_of_path {p : Place} {rootType : CellType} {segment : String} {rest : List String}
    (hpath : p.path = segment :: rest) (hfield : names.fieldType? rootType p.path = some p.type) :
    ∃ number, rootType = .object number := by
  cases rootType with
  | object number => exact ⟨number, rfl⟩
  | scalar t =>
    rw [hpath] at hfield
    cases hfield

/-- A place without fields has the type of its slot. -/
theorem type_of_path_nil {p : Place} {rootType : CellType} (hpath : p.path = [])
    (hfield : names.fieldType? rootType p.path = some p.type) : p.type = rootType := by
  rw [hpath] at hfield
  cases rootType <;> exact (Option.some.inj hfield).symm

end Run

/-! ### Acts -/

/-- An act that agrees with the tables. Only scalars are written, a variable is started afresh as a
whole, and procedures are installed at top level. -/
def Act.Scoped (names : Names) (scope : Scope) : Act → Prop
  | .read p => p.Scoped names scope
  | .write p => p.Scoped names scope ∧ ∃ t, p.type = .scalar t
  | .reset p => p.Scoped names scope ∧ p.path = []
  | .call ordinal name count => ∃ signature, names.procedures[ordinal]? = some signature ∧
      signature.name = name ∧ count = signature.parameters.length
  | .install p => scope = .top ∧ p.Fits names

/-- The place of a well-scoped act is well scoped. -/
theorem Act.Scoped.place {names : Names} {scope : Scope} {a : Act} (h : a.Scoped names scope)
    {p : Place} (hp : a.place? = some p) : p.Scoped names scope := by
  cases a with
  | read q =>
    cases hp
    exact h
  | write q | reset q =>
    cases hp
    exact h.1
  | call ordinal name count | install q => cases hp

section Programs

variable {names opened closed : Names} {scope : Scope}

theorem Expr.Scoped.acts {e : Expr} (h : e.Scoped names scope) :
    Allowed (Act.Scoped names scope) e.acts := by
  induction h with
  | literal v => exact .nil
  | read hplace => exact Allowed.singleton_iff.mpr hplace
  | call line hp hname hlength _ ih =>
    rw [Expr.acts, Allowed.cons_iff, Expr.actsOfAll_eq]
    exact ⟨⟨_, hp, hname, hlength⟩, Allowed.flatMap_iff.mpr ih⟩
  | negate line _ ih | group _ ih => exact ih
  | binary op line _ _ ihLeft ihRight => exact Allowed.append_iff.mpr ⟨ihLeft, ihRight⟩
  | assign htarget htype _ ih =>
    rw [Expr.acts, Allowed.cons_iff, Expr.actsOfSteps_eq]
    exact ⟨⟨htarget, _, htype⟩, Allowed.flatMap_iff.mpr ih⟩
  | bump up after line htarget htype => exact Allowed.singleton_iff.mpr ⟨htarget, _, htype⟩

theorem Term.Scoped.acts {t : Term} (h : t.Scoped names scope) :
    Allowed (Act.Scoped names scope) t.acts :=
  Allowed.append_iff.mpr ⟨h.left.acts, Allowed.toList_iff.mpr fun c hc => (h.right c hc).acts⟩

theorem Condition.Scoped.acts {c : Condition} (h : c.Scoped names scope) :
    Allowed (Act.Scoped names scope) c.acts :=
  Allowed.append_iff.mpr ⟨h.first.acts, Allowed.flatMap_iff.mpr fun t ht => (h.rest t ht).acts⟩

/-- An expression that may be missing, under tables that those in front of it have grown into. -/
private theorem Expr.Scoped.acts_option {e : Option Expr} (h : ∀ e' ∈ e, e'.Scoped opened scope)
    (hgrows : opened.Grows names) :
    Allowed (Act.Scoped names scope) (e.toList.flatMap Expr.acts) :=
  Allowed.toList_iff.mpr fun e' he => ((h e' he).mono hgrows).acts

/-- Declared names, under any tables that theirs have grown into. -/
theorem Declarator.ScopedAll.acts {ds : List Declarator} (h : ScopedAll scope opened ds closed)
    (hgrows : closed.Grows names) :
    Allowed (Act.Scoped names scope) (ds.flatMap Declarator.acts) := by
  induction h with
  | nil names => exact .nil
  | cons hfirst hrest ih =>
    have hmiddle := hrest.declares.grows.trans hgrows
    rw [List.flatMap_cons, Allowed.append_iff]
    refine ⟨Allowed.cons_iff.mpr ⟨⟨hfirst.target.mono hmiddle, hfirst.whole⟩, ?_⟩, ih hgrows⟩
    exact Expr.Scoped.acts_option hfirst.initial hmiddle

/-- Statements of one scope, under any tables that theirs have grown into. -/
theorem Stmt.ScopedAll.acts {ss : List Stmt} (h : ScopedAll scope opened ss closed)
    (hgrows : closed.Grows names) : Allowed (Act.Scoped names scope) (Stmt.actsOfAll ss) := by
  induction h with
  | nil names => exact .nil
  | expr he hrest ih =>
    have hnames := hrest.declares.grows.trans hgrows
    exact Allowed.append_iff.mpr ⟨(he.mono hnames).acts, ih hgrows⟩
  | declare hvars hrest ih =>
    have hmiddle := hrest.declares.grows.trans hgrows
    exact Allowed.append_iff.mpr ⟨hvars.acts hmiddle, ih hgrows⟩
  | print template line harguments hrest ih =>
    have hnames := hrest.declares.grows.trans hgrows
    refine Allowed.append_iff.mpr ⟨?_, ih hgrows⟩
    rw [Stmt.acts, Expr.actsOfAll_eq, Allowed.flatMap_iff]
    exact fun e he => ((harguments e he).mono hnames).acts
  | loop hinitial htest hstep hloop hrest ihLoop ih =>
    have hmiddle := hrest.declares.grows.trans hgrows
    have hnames := hloop.declares.grows.trans hmiddle
    refine Allowed.append_iff.mpr ⟨?_, ih hgrows⟩
    rw [Stmt.acts, Allowed.append_iff, Allowed.append_iff, Allowed.append_iff]
    exact ⟨⟨⟨Expr.Scoped.acts_option hinitial hnames,
      Allowed.toList_iff.mpr fun c hc => ((htest c hc).mono hnames).acts⟩,
      Expr.Scoped.acts_option hstep hnames⟩, ihLoop hmiddle⟩
  | branch htest hyes hrest ihYes ih =>
    have hmiddle := hrest.declares.grows.trans hgrows
    have hnames := hyes.declares.grows.trans hmiddle
    refine Allowed.append_iff.mpr ⟨?_, ih hgrows⟩
    exact Allowed.append_iff.mpr ⟨(htest.mono hnames).acts, ihYes hmiddle⟩
  | branchElse htest hyes hno hrest ihYes ihNo ih =>
    have hmiddle := hrest.declares.grows.trans hgrows
    have hbetween := hno.declares.grows.trans hmiddle
    have hnames := hyes.declares.grows.trans hbetween
    refine Allowed.append_iff.mpr ⟨?_, ih hgrows⟩
    rw [Stmt.acts, Allowed.append_iff, Allowed.append_iff]
    exact ⟨⟨(htest.mono hnames).acts, ihYes hbetween⟩, ihNo hmiddle⟩
  | giveBack line hscope hvalue hrest ih =>
    have hnames := hrest.declares.grows.trans hgrows
    exact Allowed.append_iff.mpr ⟨Expr.Scoped.acts_option hvalue hnames, ih hgrows⟩
  | foreign code line hrest ih => exact ih hgrows

/-- The items of a program, under any tables that extend those it leads to. -/
theorem Program.Scoped.acts {ss : List Stmt} (h : Program.Scoped opened ss closed)
    (hextends : closed.Extends names) : Allowed (Act.Scoped names .top) (Stmt.actsOfAll ss) := by
  induction h with
  | nil names => exact .nil
  | procedure hp hrest ih =>
    have hfits := hp.fits.mono (hrest.extends.trans hextends)
    exact Allowed.append_iff.mpr ⟨Allowed.singleton_iff.mpr ⟨rfl, hfits⟩, ih hextends⟩
  | classDef hclass hvars hrest ih =>
    have hmiddle := (hrest.extends.trans hextends).grows
    exact Allowed.append_iff.mpr ⟨hvars.acts hmiddle, ih hextends⟩
  | statement hs hrest ih =>
    have hmiddle := (hrest.extends.trans hextends).grows
    have hacts := hs.acts hmiddle
    rw [Stmt.actsOfAll, Stmt.actsOfAll, List.append_nil] at hacts
    exact Allowed.append_iff.mpr ⟨hacts, ih hextends⟩

/-- The body of a procedure that fits its entry. -/
theorem ProcedureOf.Fits.acts {p : Procedure} (h : p.Fits names) :
    Allowed (Act.Scoped names (.procedure p.ordinal)) (Stmt.actsOfAll p.body) := by
  obtain ⟨opened, closed, hbody, hgrows⟩ := h.body
  exact hbody.acts hgrows

end Programs

end Litany
