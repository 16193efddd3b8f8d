import Litany.Value

/-!
# What names mean

The tables behind a program: its globals, its procedures with their parameters and locals, and its
classes. They say where a name is stored and what it can hold, never what it holds now.

Globals, procedures and classes share one set of names. Inside a procedure a name means a parameter
before it means a local, and a local before a global. Tables only grow: every slot, ordinal and
class number stays what it was when it was handed out.
-/

namespace Litany

/-- A declared global or local. -/
structure Variable where
  name : String
  type : CellType
  /-- Whether the variable may never be written. -/
  constant : Bool

/-- A parameter of a procedure, with the value of an argument left out. -/
structure Parameter where
  name : String
  type : Scalar
  default : Option Value

/-- What a call needs to know of a procedure, and the locals declared in it. -/
structure Signature where
  name : String
  returns : Scalar
  parameters : List Parameter
  locals : List Variable

/-- A field of a class. -/
structure Field where
  name : String
  type : CellType
deriving DecidableEq, Repr

/-- A class and its fields. -/
structure ClassShape where
  name : String
  fields : List Field
deriving DecidableEq, Repr

/-- Where a name is declared or looked up: at top level, or in the procedure with the given
ordinal. -/
inductive Scope where
  | top
  | procedure (ordinal : Nat)
deriving DecidableEq, Repr

/-- A storage cell. Arguments and locals are those of the innermost call. -/
inductive Slot where
  | global (index : Nat)
  | argument (index : Nat)
  | own (index : Nat)
deriving DecidableEq, Repr

/-- The text of a slot in a message. -/
def Slot.text : Slot → String
  | global i => "Global(" ++ Nat.repr i ++ ")"
  | argument i => "Argument(" ++ Nat.repr i ++ ")"
  | own i => "Local(" ++ Nat.repr i ++ ")"

/-- The slot of the parameter or local with the given name. -/
def Signature.slot? (p : Signature) (name : String) : Option Slot :=
  match p.parameters.findIdx? fun q => q.name == name with
  | some i => some (.argument i)
  | none => (p.locals.findIdx? fun v => v.name == name).map .own

/-- The tables of a program. Ordinals and class numbers are positions in these lists. -/
structure Names where
  globals : List Variable
  procedures : List Signature
  classes : List ClassShape

namespace Names

/-- Tables without any name. -/
def empty : Names :=
  ⟨[], [], []⟩

/-- The ordinal of the procedure with the given name. -/
def procedure? (names : Names) (name : String) : Option Nat :=
  names.procedures.findIdx? fun p => p.name == name

/-- The number of the class with the given name. -/
def class? (names : Names) (name : String) : Option Nat :=
  names.classes.findIdx? fun c => c.name == name

/-- Whether a name is in use at top level. -/
def taken (names : Names) (name : String) : Bool :=
  (names.globals.any fun v => v.name == name) || (names.procedure? name).isSome ||
    (names.class? name).isSome

/-- The signature of the procedure that a scope stands in. -/
def signature? (names : Names) : Scope → Option Signature
  | .top => none
  | .procedure ordinal => names.procedures[ordinal]?

/-! ### Declaring -/

/-- Declare a variable and hand out its slot, unless the scope already uses the name. A local may
hide a global, but neither a parameter nor a procedure nor a class. -/
def declare (names : Names) (scope : Scope) (v : Variable) : Option (Slot × Names) :=
  match scope with
  | .top =>
    if names.taken v.name then none
    else some (.global names.globals.length, { names with globals := names.globals ++ [v] })
  | .procedure ordinal =>
    if (names.procedure? v.name).isSome || (names.class? v.name).isSome then none
    else
      match names.procedures[ordinal]? with
      | none => none
      | some p =>
        if (p.parameters.any fun q => q.name == v.name) ||
            (p.locals.any fun l => l.name == v.name) then none
        else
          let procedures := names.procedures.set ordinal { p with locals := p.locals ++ [v] }
          some (.own p.locals.length, { names with procedures })

/-- Declare a procedure and hand out its ordinal, unless the name is in use. -/
def declareProcedure (names : Names) (p : Signature) : Option (Nat × Names) :=
  if names.taken p.name then none
  else some (names.procedures.length, { names with procedures := names.procedures ++ [p] })

/-- Declare a class and hand out its number, unless the name is in use. -/
def declareClass (names : Names) (c : ClassShape) : Option (Nat × Names) :=
  if names.taken c.name then none
  else some (names.classes.length, { names with classes := names.classes ++ [c] })

/-! ### Looking up -/

/-- The slot of the global with the given name. -/
def global? (names : Names) (name : String) : Option Slot :=
  (names.globals.findIdx? fun v => v.name == name).map .global

/-- The slot that a variable name means in a scope. -/
def resolve (names : Names) (scope : Scope) (name : String) : Option Slot :=
  match (names.signature? scope).bind fun p => p.slot? name with
  | some slot => some slot
  | none => names.global? name

/-- What a slot can hold, and whether it is a constant. -/
def slotType? (names : Names) (scope : Scope) (slot : Slot) : Option (CellType × Bool) :=
  match slot with
  | .global i => names.globals[i]?.map fun v => (v.type, v.constant)
  | .own i => do
    let p ← names.signature? scope
    let v ← p.locals[i]?
    return (v.type, v.constant)
  | .argument i => do
    let p ← names.signature? scope
    let q ← p.parameters[i]?
    return (.scalar q.type, false)

/-- Follow a path of fields from a type through the classes. -/
def fieldType? (names : Names) : CellType → List String → Option CellType
  | type, [] => some type
  | .scalar _, _ :: _ => none
  | .object number, segment :: rest => do
    let c ← names.classes[number]?
    let f ← c.fields.find? fun f => f.name == segment
    names.fieldType? f.type rest

/-- The types of all globals, by slot. -/
def globalTypes (names : Names) : List CellType :=
  names.globals.map (·.type)

end Names

end Litany
