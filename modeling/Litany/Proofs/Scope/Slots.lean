import Litany.Proofs.Grammar.Blame
import Litany.Proofs.Scope.Reading

/-!
# Numbers without gaps

The variables of a program are declared in many places: at top level, behind a class, in the bodies
of loops and branches at any depth. Their slots are nevertheless handed out in the order in which
the declarations are written, from the first one that is free, and none is left out. So a machine
that has cells for the old globals only has to add one cell for every new declaration.

`Declarator.Added` says this of the variables of one scope; it is put together as the program is
(`Stmt.ScopedAll.added`). Procedures and classes are numbered in the same way
(`Program.Scoped.ordinals`, `Program.Scoped.classNumbers`).
-/

namespace Litany

/-! ### Declarations in the order of the text -/

mutual

/-- The declarations that a statement makes in its own scope, in the order of the text. Those in the
body of a procedure belong to another scope. -/
def Stmt.declarators : Stmt → List Declarator
  | .expr _ => []
  | .declare vars => vars
  | .procedure _ => []
  | .classDef _ vars => vars
  | .print _ _ _ => []
  | .loop _ _ _ body => declaratorsOfAll body
  | .branch _ yes none => declaratorsOfAll yes
  | .branch _ yes (some no) => declaratorsOfAll yes ++ declaratorsOfAll no
  | .giveBack _ _ => []
  | .foreign _ _ => []

/-- The declarations that statements make in their own scope. -/
def Stmt.declaratorsOfAll : List Stmt → List Declarator
  | [] => []
  | s :: rest => s.declarators ++ declaratorsOfAll rest

end

/-- The procedure that an item of a program declares. -/
def Stmt.procedure? : Stmt → Option Procedure
  | .procedure p => some p
  | _ => none

/-- The number of the class that an item of a program declares. -/
def Stmt.classNumber? : Stmt → Option Nat
  | .classDef number _ => some number
  | _ => none

/-! ### The variables of a scope -/

/-- The variables declared in a scope so far, in the order of their slots. -/
def Names.variables (names : Names) : Scope → List Variable
  | .top => names.globals
  | .procedure ordinal => (names.procedures[ordinal]?.map (·.locals)).getD []

/-- The slot of a variable of a scope, by its position. -/
def Scope.slot : Scope → Nat → Slot
  | .top, i => .global i
  | .procedure _, i => .own i

/-- Some declarations are those of the given variables, one for one: their slots are consecutive and
begin with the given one, and name and type are the recorded ones. -/
structure Declarator.Numbered (scope : Scope) (first : Nat) (ds : List Declarator)
    (recorded : List Variable) : Prop where
  slots : ds.map (·.target.slot) = (List.range' first recorded.length).map scope.slot
  names : ds.map (·.target.root) = recorded.map (·.name)
  types : ds.map (·.target.type) = recorded.map (·.type)

/-- Some declarations lead from one table to another, and take the slots behind those in use. -/
def Declarator.Added (scope : Scope) (names : Names) (ds : List Declarator) (later : Names) :
    Prop :=
  ∃ new, later.variables scope = names.variables scope ++ new ∧
    Numbered scope (names.variables scope).length ds new

namespace Declarator

variable {scope : Scope} {names middle later : Names} {ds ds' : List Declarator}

/-- Declarations take slots in a row if the second ones take those behind the first. -/
theorem Numbered.append {first : Nat} {recorded recorded' : List Variable}
    (h : Numbered scope first ds recorded)
    (h' : Numbered scope (first + recorded.length) ds' recorded') :
    Numbered scope first (ds ++ ds') (recorded ++ recorded') := by
  refine ⟨?_, ?_, ?_⟩
  · rw [List.map_append, h.slots, h'.slots, ← List.map_append, List.range'_append_1,
      List.length_append]
  · rw [List.map_append, h.names, h'.names, List.map_append]
  · rw [List.map_append, h.types, h'.types, List.map_append]

/-- Tables with the same variables are reached without a declaration. -/
private theorem added_nil (h : later.variables scope = names.variables scope) :
    Added scope names [] later :=
  ⟨[], by rw [h, List.append_nil], rfl, rfl, rfl⟩

/-- Declarations are added in a row if the second ones are added to what the first leave. -/
theorem Added.append (h : Added scope names ds middle) (h' : Added scope middle ds' later) :
    Added scope names (ds ++ ds') later := by
  obtain ⟨new, hmiddle, hnumbered⟩ := h
  obtain ⟨new', hlater, hnumbered'⟩ := h'
  refine ⟨new ++ new', by rw [hlater, hmiddle, List.append_assoc], hnumbered.append ?_⟩
  rwa [hmiddle, List.length_append] at hnumbered'

/-- One declaration takes the first free slot. -/
private theorem Scoped.added {d : Declarator} (h : d.Scoped scope names later) :
    Added scope names [d] later := by
  obtain ⟨constant, hdeclare⟩ := h.declared
  refine ⟨[⟨d.target.root, d.target.type, constant⟩], ?_, ?_, rfl, rfl⟩
  · cases scope with
    | top =>
      obtain ⟨-, rfl⟩ := Names.declare_top hdeclare
      rfl
    | procedure ordinal =>
      obtain ⟨p, hp, -, rfl⟩ := Names.declare_procedure hdeclare
      simp [Names.variables, Names.getElem?_set_local hp, hp]
  · cases scope with
    | top =>
      obtain ⟨hslot, -⟩ := Names.declare_top hdeclare
      simp [hslot, Names.variables, Scope.slot]
    | procedure ordinal =>
      obtain ⟨p, hp, hslot, -⟩ := Names.declare_procedure hdeclare
      simp [hslot, Names.variables, Scope.slot, hp]

/-- The names of one declaration take slots in a row. -/
private theorem ScopedAll.added (h : ScopedAll scope names ds later) :
    Added scope names ds later := by
  induction h with
  | nil names => exact added_nil rfl
  | cons hfirst _ ih => exact hfirst.added.append ih

end Declarator

/-- The declarations of statements take the slots behind those in use, whatever the statements are
nested in. -/
theorem Stmt.ScopedAll.added {scope : Scope} {names later : Names} {ss : List Stmt}
    (h : ScopedAll scope names ss later) :
    Declarator.Added scope names (declaratorsOfAll ss) later := by
  induction h with
  | nil names => exact Declarator.added_nil rfl
  | expr _ _ ih | print _ _ _ _ ih | giveBack _ _ _ _ ih | foreign _ _ _ ih => exact ih
  | declare hvars _ ih => exact hvars.added.append ih
  | loop _ _ _ _ _ ihbody ih => exact ihbody.append ih
  | branch _ _ _ ihyes ih => exact ihyes.append ih
  | branchElse _ _ _ _ ihyes ihno ih => exact (ihyes.append ihno).append ih

/-! ### Procedures -/

section Procedures

variable {names later : Names} {p : Procedure}

/-- The declarations in the body of a procedure are those of all its locals. -/
theorem ProcedureOf.Scoped.locals (h : p.Scoped names later) :
    ∃ signature, later.procedures[p.ordinal]? = some signature ∧ signature.name = p.name ∧
      Declarator.Numbered (.procedure p.ordinal) 0 (Stmt.declaratorsOfAll p.body)
        signature.locals := by
  obtain ⟨signature, hsignature, hname, -⟩ := h.signature
  refine ⟨signature, hsignature, hname, ?_⟩
  obtain ⟨parameters, opened, hdeclare, hbody⟩ := h.body
  obtain ⟨hordinal, rfl⟩ := Names.declareProcedure_eq_some hdeclare
  obtain ⟨new, hlater, hnumbered⟩ := hbody.added
  -- the procedure is registered without locals, so all that it has in the end are new
  have hopened : Names.variables
      { names with procedures := names.procedures ++ [⟨p.name, p.returns, parameters, []⟩] }
      (.procedure p.ordinal) = [] := by
    simp [Names.variables, hordinal]
  have hlocals : later.variables (.procedure p.ordinal) = signature.locals := by
    simp [Names.variables, hsignature]
  rw [hopened, List.nil_append, hlocals] at hlater
  rw [hopened, ← hlater] at hnumbered
  exact hnumbered

end Procedures

/-! ### Programs -/

/-- The first of some consecutive numbers. -/
private theorem range'_sub_of_lt {a b : Nat} (h : a < b) :
    List.range' a (b - a) = a :: List.range' (a + 1) (b - (a + 1)) :=
  List.range'_eq_cons_iff.mpr ⟨rfl, Nat.sub_pos_of_lt h, by rw [Nat.sub_sub]⟩

namespace Program

variable {names later : Names} {ss : List Stmt}

/-- The globals that a program declares, inside of blocks or not, take slots in a row. -/
private theorem Scoped.added (h : Scoped names ss later) :
    Declarator.Added .top names (Stmt.declaratorsOfAll ss) later := by
  induction h with
  | nil names => exact Declarator.added_nil rfl
  | procedure hp _ ih => exact (@Declarator.added_nil .top _ _ hp.globals_classes.1).append ih
  | classDef hclass hvars _ ih =>
    obtain ⟨-, rfl⟩ := Names.declareClass_eq_some hclass
    exact Declarator.Added.append hvars.added ih
  | statement hs _ ih =>
    have hfirst := hs.added
    rw [Stmt.declaratorsOfAll, Stmt.declaratorsOfAll, List.append_nil] at hfirst
    exact hfirst.append ih

/-- A statement at top level is no procedure and no class. -/
private theorem not_item_of_scopedAll {s : Stmt} (h : Stmt.ScopedAll .top names [s] later) :
    s.procedure? = none ∧ s.classNumber? = none := by
  cases h <;> exact ⟨rfl, rfl⟩

/-- The procedures of a program take ordinals in a row. -/
private theorem Scoped.ordinals (h : Scoped names ss later) :
    (ss.filterMap Stmt.procedure?).map (·.ordinal) =
      List.range' names.procedures.length (later.procedures.length - names.procedures.length) := by
  induction h with
  | nil names => simp
  | procedure hp hrest ih =>
    obtain ⟨hordinal, hlength⟩ := hp.length
    have hle := hrest.extends.procedures.length_le
    rw [hlength] at ih hle
    -- the procedure takes the first number, and the rest begin at the next one
    rw [range'_sub_of_lt (by omega), ← ih, ← hordinal]
    rfl
  | classDef hclass hvars _ ih =>
    obtain ⟨-, rfl⟩ := Names.declareClass_eq_some hclass
    rw [hvars.declares.top.1] at ih
    exact ih
  | statement hs _ ih =>
    rw [hs.declares.top.1] at ih
    rw [List.filterMap_cons_none (not_item_of_scopedAll hs).1]
    exact ih

/-- The classes of a program take numbers in a row. -/
private theorem Scoped.classNumbers (h : Scoped names ss later) :
    ss.filterMap Stmt.classNumber? =
      List.range' names.classes.length (later.classes.length - names.classes.length) := by
  induction h with
  | nil names => simp
  | procedure hp _ ih =>
    rw [hp.globals_classes.2] at ih
    exact ih
  | classDef hclass hvars hrest ih =>
    obtain ⟨hnumber, rfl⟩ := Names.declareClass_eq_some hclass
    have hle := hrest.extends.classes.length_le
    rw [hvars.declares.top.2, List.length_append, List.length_singleton] at ih hle
    rw [range'_sub_of_lt (by omega), ← ih, ← hnumber]
    rfl
  | statement hs _ ih =>
    rw [hs.declares.top.2] at ih
    rw [List.filterMap_cons_none (not_item_of_scopedAll hs).2]
    exact ih

/-- What is new in the tables behind a program is numbered in the order of the text, without gaps:
the globals behind the old ones, the locals of each procedure from the first slot on, and the
procedures and classes behind the old ones. -/
structure Numbered (names : Names) (ss : List Stmt) (later : Names) : Prop where
  globals : ∃ new, later.globals = names.globals ++ new ∧
    Declarator.Numbered .top names.globals.length (Stmt.declaratorsOfAll ss) new
  locals : ∀ p, .procedure p ∈ ss →
    ∃ signature, later.procedures[p.ordinal]? = some signature ∧ signature.name = p.name ∧
      Declarator.Numbered (.procedure p.ordinal) 0 (Stmt.declaratorsOfAll p.body) signature.locals
  ordinals : (ss.filterMap Stmt.procedure?).map (·.ordinal) =
    List.range' names.procedures.length (later.procedures.length - names.procedures.length)
  classes : ss.filterMap Stmt.classNumber? =
    List.range' names.classes.length (later.classes.length - names.classes.length)

/-- Whatever a program declares is numbered in a row, in the order of its text. -/
private theorem Scoped.numbered (h : Scoped names ss later) : Numbered names ss later := by
  refine ⟨h.added, fun p hp => ?_, h.ordinals, h.classNumbers⟩
  obtain ⟨before, behind, hscoped, hkept⟩ := h.exists_procedure hp
  obtain ⟨signature, hsignature, hlocals⟩ := hscoped.locals
  exact ⟨signature, Names.Grows.getElem?_of_prefix hkept.procedures hsignature, hlocals⟩

end Program

namespace Grammar

/-- Parsing only appends to the tables, whether it succeeds or fails. If it succeeds, it numbers all
that it declares in the order of the text and without gaps. -/
theorem parse_appends {names later : Names} {fetch : Option Fetcher} {fetched : List String}
    {text : String} {stream : Stream} {outcome : Except ParseFailure (List Stmt)}
    (hscan : (Stream.ofText fetch fetched text).outcome = .ok stream)
    (hparse : parse names stream = (outcome, later)) :
    names.Extends later ∧
      ∀ statements, outcome = .ok statements → Program.Numbered names statements later := by
  refine ⟨(parse_adds hparse).extends, fun statements hok => ?_⟩
  subst hok
  exact (scoped_of_parse hscan hparse).numbered

/-- Tables that one global has been entered into. -/
def enteredOne : Names :=
  { Names.empty with globals := [⟨"g", .scalar .i64, false⟩] }

/-- Globals from a directive, a class, a loop and a branch, with a procedure between them. -/
def scatteredText : String :=
  "#define K 3\nclass P \x7b I64 x; \x7d a, b;\n" ++
  "U0 f(I64 n) \x7b I64 i; if (n < K) F64 j; \x7d\n" ++
  "for (;0;) \x7b I64 t; if (1) U8 u; else U8 v; \x7d I64 z;"

example :
    ((Stream.ofText none [] scatteredText).outcome.toOption.bind fun stream =>
        (parse enteredOne stream).1.toOption).map
      (fun statements => (Stmt.declaratorsOfAll statements).map (·.target.slot)) =
        some ((List.range' 1 7).map .global) := by
  decide +kernel

theorem parse_appends_scattered :
    ∃ stream statements later,
      (Stream.ofText none [] scatteredText).outcome = .ok stream ∧
        parse enteredOne stream = (.ok statements, later) ∧ statements.length = 5 ∧
        enteredOne.Extends later ∧ Program.Numbered enteredOne statements later := by
  obtain ⟨stream, statements, later, hscan, hparse, hlength⟩ :=
    exists_parse_of_length enteredOne none [] scatteredText 5 (by decide +kernel)
  obtain ⟨hextends, hnumbered⟩ := parse_appends hscan hparse
  exact ⟨stream, statements, later, hscan, hparse, hlength, hextends, hnumbered statements rfl⟩

end Grammar

end Litany
