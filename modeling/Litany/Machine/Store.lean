import Litany.Syntax.Stmt

/-!
# The store of a running program

A machine holds the globals, the installed procedures, one frame of arguments and locals for every
call that has not ended, the text printed so far, and the blocks of foreign code handed to the
host. Slots of arguments and locals mean the innermost frame.

A run keeps the machine when it stops early, so everything written before a fault stays written.
-/

namespace Litany

/-- The cells of one call. -/
structure Frame where
  arguments : List Value
  locals : List Value

/-- The state of a running program. -/
structure Machine where
  globals : List Value
  /-- The installed procedures, by ordinal. -/
  procedures : List (Option Procedure)
  /-- The frames of the calls that have not ended, the innermost first. -/
  frames : List Frame
  output : String
  /-- The blocks of foreign code handed over so far, the oldest first. -/
  blocks : List String

/-- An operation that its operands do not support. -/
inductive Operation where
  | arithmetic (left : Value) (op : Arithmetic) (right : Value)
  | comparison (left : Value) (c : Comparison) (right : Value)
  | negation (operand : Value)

/-- The text of an operation in a message. -/
def Operation.text : Operation → String
  | arithmetic l op r => l.display ++ " " ++ op.symbol ++ " " ++ r.display
  | comparison l c r => l.display ++ " " ++ c.symbol ++ " " ++ r.display
  | negation v => "-" ++ v.display

/-- What can go wrong while a program runs. The first three cases are disagreements between the
program and the store. -/
inductive Fault where
  | noBody (name : String) (line : Nat)
  | emptySlot (place : String) (slot : Slot)
  | notObject (place : String)
  | divisionByZero (line : Nat)
  | unsupported (operation : Operation) (line : Nat)
  | noExecutor (line : Nat)
  | foreign (line : Nat) (reason : String)

/-- Why a run stops early: at a fault, or because its fuel is used up. -/
inductive Stop where
  | fault (f : Fault)
  | outOfFuel

/-- A computation on a machine. -/
abbrev Run := EStateM Stop Machine

/-- A host for blocks of foreign code. Its answer to a block may depend on the blocks before. -/
abbrev Executor := List String → String → Except String Unit

namespace Machine

/-- A machine on which nothing has run. -/
def empty : Machine :=
  ⟨[], [], [], "", []⟩

/-- Forget values, procedures and output. The blocks belong to the host and stay. -/
def reset (m : Machine) : Machine :=
  { empty with blocks := m.blocks }

/-! ### Cells -/

/-- The content of a cell. -/
def cell? (m : Machine) : Slot → Option Value
  | .global i => m.globals[i]?
  | .argument i => m.frames.head?.bind fun f => f.arguments[i]?
  | .own i => m.frames.head?.bind fun f => f.locals[i]?

/-- Replace the content of a cell. -/
def setCell (m : Machine) (slot : Slot) (v : Value) : Machine :=
  match slot with
  | .global i => { m with globals := m.globals.set i v }
  | .argument i =>
    match m.frames with
    | [] => m
    | f :: rest => { m with frames := { f with arguments := f.arguments.set i v } :: rest }
  | .own i =>
    match m.frames with
    | [] => m
    | f :: rest => { m with frames := { f with locals := f.locals.set i v } :: rest }

/-- Add a zeroed global for every type beyond those the machine already holds. -/
def allocate (m : Machine) (types : List CellType) : Machine :=
  { m with globals := m.globals ++ (types.drop m.globals.length).map Value.zero }

/-! ### Procedures -/

/-- Install a procedure under its ordinal. -/
def install (m : Machine) (p : Procedure) : Machine :=
  let room := m.procedures ++ List.replicate (p.ordinal + 1 - m.procedures.length) none
  { m with procedures := room.set p.ordinal (some p) }

/-- Install the procedures among the statements of a program. -/
def installAll (m : Machine) (statements : List Stmt) : Machine :=
  statements.foldl (fun m s =>
    match s with
    | .procedure p => m.install p
    | _ => m) m

end Machine

namespace Run

/-- Stop at a fault. -/
def fault {α : Type} (f : Fault) : Run α :=
  throw (.fault f)

/-! ### Places -/

/-- The value at a place. A field visited for the first time gets a zeroed cell. -/
def visit (p : Place) : Run Value :=
  fun m =>
    match m.cell? p.slot with
    | none => fault (.emptySlot p.name p.slot) m
    | some content =>
      match p.path with
      | [] => .ok content m
      | _ :: _ =>
        match content.visit? p.key (Value.zero p.type) with
        | none => fault (.notObject p.name) m
        | some (found, grown) => .ok found (m.setCell p.slot grown)

/-- Replace the value at a place that has been visited. -/
def overwrite (p : Place) (v : Value) (m : Machine) : Machine :=
  match p.path with
  | [] => m.setCell p.slot v
  | _ :: _ =>
    match m.cell? p.slot with
    | none => m
    | some content => m.setCell p.slot (content.putField p.key v)

/-- Store at a place what its type keeps of a value, and answer what was stored. -/
def store (p : Place) (v : Value) : Run Value := do
  let kept := v.stored p.type
  let _ ← visit p
  modify (overwrite p kept)
  return kept

/-! ### Output and foreign code -/

/-- Print a text. -/
def write (text : String) : Run Unit :=
  modify fun m => { m with output := m.output ++ text }

/-- Hand a block of foreign code to the host. -/
def handOver (executor : Option Executor) (body : String) (line : Nat) : Run Unit :=
  fun m =>
    match executor with
    | none => fault (.noExecutor line) m
    | some answer =>
      let handed := { m with blocks := m.blocks ++ [body] }
      match answer m.blocks body with
      | .ok () => .ok () handed
      | .error reason => fault (.foreign line reason) handed

/-- Run a computation with a frame of its own, and drop that frame however it ends. -/
def inFrame {α : Type} (frame : Frame) (run : Run α) : Run α :=
  fun m =>
    match run { m with frames := frame :: m.frames } with
    | .ok a m => .ok a { m with frames := m.frames.tail }
    | .error stop m => .error stop { m with frames := m.frames.tail }

end Run

end Litany
