import Litany.Proofs.Machine.Cells
import Litany.Proofs.Machine.Storage
import Litany.Proofs.Scope.Fields

/-!
# Objects as total records

An object of the machine has cells only for the fields that were visited, in the order in which
they were. Here variables are kept in the plain way: the content of a variable is a `Record`, with a
value at every path of fields that leads to a scalar, also through classes within classes. All of
them are zero when the variable is declared, and a place is the one value at its path.
`Storage.records` is a storage of this kind.

An object with some cells stands for the record that holds zero where there is no cell
(`Value.record`). Visiting a field may make a cell and does not change the record; storing at a
field changes the record at one path.
-/

namespace Litany

/-! ### Records -/

/-- The content of a variable: a value at every path of fields that leads to a scalar. -/
abbrev Record := List String → Option Value

namespace Record

/-- What a variable of a type begins with. -/
def blank (names : Names) (type : CellType) : Record := fun path =>
  match names.fieldType? type path with
  | some (.scalar t) => some (Value.zero (.scalar t))
  | _ => none

/-- The content of a variable without fields. -/
def single (v : Value) : Record := fun path =>
  if path = [] then some v else none

/-- Replace the value at one path. -/
def put (c : Record) (path : List String) (v : Value) : Record := fun other =>
  if other = path then some v else c other

end Record

/-- The records of one call. -/
structure RecordFrame where
  arguments : List Record
  locals : List Record

/-- The state of a running program whose variables are records. -/
structure Records where
  globals : List Record
  procedures : List (Option Procedure)
  frames : List RecordFrame
  output : String
  blocks : List String

namespace Records

/-- A state in which nothing has run. -/
def empty : Records :=
  ⟨[], [], [], "", []⟩

/-- Forget values, procedures and output. -/
def reset (r : Records) : Records :=
  { empty with blocks := r.blocks }

/-- The content of a variable. -/
def cell? (r : Records) : Slot → Option Record
  | .global i => r.globals[i]?
  | .argument i => r.frames.head?.bind fun f => f.arguments[i]?
  | .own i => r.frames.head?.bind fun f => f.locals[i]?

/-- Replace the content of a variable. -/
def setCell (r : Records) (slot : Slot) (c : Record) : Records :=
  match slot with
  | .global i => { r with globals := r.globals.set i c }
  | .argument i =>
    match r.frames with
    | [] => r
    | f :: rest => { r with frames := { f with arguments := f.arguments.set i c } :: rest }
  | .own i =>
    match r.frames with
    | [] => r
    | f :: rest => { r with frames := { f with locals := f.locals.set i c } :: rest }

/-- Add a zeroed record for every global beyond those that have one. -/
def allocate (r : Records) (names : Names) : Records :=
  { r with globals :=
      r.globals ++ (names.globalTypes.drop r.globals.length).map (Record.blank names) }

/-- What is left without the variables. -/
def bare (r : Records) : Machine :=
  ⟨[], r.procedures, [], r.output, r.blocks⟩

/-- Put the variables back. -/
def dress (r : Records) (m : Machine) : Records :=
  { r with procedures := m.procedures, output := m.output, blocks := m.blocks }

/-- Install the procedures among the statements of a program. -/
def installAll (r : Records) (statements : List Stmt) : Records :=
  r.dress (r.bare.installAll statements)

/-- A computation that does not look at variables. -/
def onBare {α : Type} (x : Run α) : RunOn Records α :=
  fun r =>
    match x r.bare with
    | .ok a m => .ok a (r.dress m)
    | .error stop m => .error stop (r.dress m)

/-- The record that a place is in, and its value there. -/
def locate (p : Place) : RunOn Records (Record × Value) :=
  fun r =>
    match r.cell? p.slot with
    | none => .error (.fault (.emptySlot p.name p.slot)) r
    | some c =>
      match c p.path with
      | none => .error (.fault (.notObject p.name)) r
      | some v => .ok (c, v) r

/-- The value at a place. -/
def visit (p : Place) : RunOn Records Value := do
  return (← locate p).2

/-- Store at a place what its type keeps of a value, and answer what was stored. -/
def store (p : Place) (v : Value) : RunOn Records Value := do
  let kept := v.stored p.type
  let (c, _) ← locate p
  modify fun r => r.setCell p.slot (c.put p.path kept)
  return kept

/-- Give a declared variable a zeroed record of its type. -/
def declare (names : Names) (p : Place) : RunOn Records Unit :=
  fun r =>
    match r.cell? p.slot with
    | none => .error (.fault (.emptySlot p.name p.slot)) r
    | some _ => .ok () (r.setCell p.slot (Record.blank names p.type))

/-- Run a computation with a frame of its own, and drop that frame however it ends. -/
def inFrame {α : Type} (frame : RecordFrame) (run : RunOn Records α) : RunOn Records α :=
  fun r =>
    match run { r with frames := frame :: r.frames } with
    | .ok a r => .ok a { r with frames := r.frames.tail }
    | .error stop r => .error stop { r with frames := r.frames.tail }

end Records

/-- Variables kept as records, under tables that say what a class is. -/
def Storage.records (names : Names) : Storage Records where
  visit := Records.visit
  store := Records.store
  declare := Records.declare names
  procedure ordinal name line := Records.onBare (Run.procedure ordinal name line)
  install p := Records.onBare (modify fun m => m.install p)
  enter p arguments :=
    Records.inFrame ⟨arguments.map Record.single, p.locals.map (Record.blank names)⟩
  write text := Records.onBare (Run.write text)
  handOver executor code line := Records.onBare (Run.handOver executor code line)

/-- Execute the statements of a program and hand out what they printed, as the machine does. -/
def Records.interpret (names : Names) (executor : Option Executor) (fuel : Nat)
    (statements : List Stmt) (r : Records) : Except Stop String × Records :=
  match (Storage.records names).runBody executor fuel statements (r.installAll statements) with
  | .ok _ r => (.ok r.output, { r with frames := [], output := "" })
  | .error stop r => (.error stop, { r with frames := [], output := "" })

/-! ### The record that a value stands for -/

/-- The record that a value stands for: a field without a cell is zero. -/
def Value.record (names : Names) (type : CellType) (v : Value) : Record := fun path =>
  match names.fieldType? type path with
  | some (.scalar t) => some ((v.at? path).getD (Value.zero (.scalar t)))
  | _ => none

namespace Value

variable {names : Names} {type : CellType} {path : List String} {t : Scalar} {number : Nat}
  {cells : Cells}

theorem record_apply (v : Value) (h : names.fieldType? type path = some (.scalar t)) :
    v.record names type path = some ((v.at? path).getD (zero (.scalar t))) := by
  simp only [record, h]

private theorem record_apply_of_not_scalar (v : Value)
    (h : ∀ t, names.fieldType? type path ≠ some (.scalar t)) : v.record names type path = none := by
  unfold record
  split
  · rename_i t ht
    exact absurd ht (h t)
  · rfl

/-- Records are told apart at paths that lead to scalars. -/
private theorem record_eq_of_scalar {v : Value} {c : Record}
    (hscalar : ∀ path t, names.fieldType? type path = some (.scalar t) →
      some ((v.at? path).getD (zero (.scalar t))) = c path)
    (hnone : ∀ path, (∀ t, names.fieldType? type path ≠ some (.scalar t)) → c path = none) :
    v.record names type = c := by
  funext path
  by_cases h : ∃ t, names.fieldType? type path = some (.scalar t)
  · obtain ⟨t, ht⟩ := h
    rw [record_apply v ht, hscalar path t ht]
  · have h := not_exists.mp h
    rw [record_apply_of_not_scalar v h, hnone path h]

private theorem at?_object (cells : Cells) (h : path ≠ []) :
    (object cells).at? path = cells.lookup (".".intercalate path) := by
  cases path with
  | nil => exact absurd rfl h
  | cons segment rest => rfl

/-- Inside an object, a scalar is a field. -/
private theorem ne_nil_of_scalar (h : names.fieldType? (.object number) path = some (.scalar t)) :
    path ≠ [] := by
  rintro rfl
  cases h

/-- A fresh cell stands for a record of zeros. -/
theorem record_zero (names : Names) (type : CellType) :
    (zero type).record names type = Record.blank names type := by
  refine record_eq_of_scalar (fun path t ht => ?_) fun path h => ?_
  · simp only [Record.blank, ht]
    cases type with
    | scalar s =>
      cases path with
      | nil =>
        obtain rfl := CellType.scalar.inj (Option.some.inj ht)
        rfl
      | cons segment rest => cases ht
    | object number =>
      have hfresh : (zero (.object number)).at? path = none :=
        at?_object [] (ne_nil_of_scalar ht)
      rw [hfresh]
      rfl
  · unfold Record.blank
    split
    · rename_i t ht
      exact absurd ht (h t)
    · rfl

theorem record_scalar (v : Value) : v.record names (.scalar t) = Record.single v := by
  funext path
  cases path with
  | nil => rfl
  | cons segment rest => rfl

/-- A cell that is made for a field does not change the record. -/
theorem record_reserve (hdotless : names.Dotless)
    (hpath : names.fieldType? (.object number) path = some (.scalar t)) :
    (object (cells.reserve (".".intercalate path) (zero (.scalar t)))).record names
      (.object number) = (object cells).record names (.object number) := by
  refine record_eq_of_scalar (fun path' t' hpath' => ?_) fun _ h => record_apply_of_not_scalar _ h
  have hne := ne_nil_of_scalar hpath'
  rw [record_apply _ hpath', at?_object _ hne, at?_object _ hne]
  by_cases hkey : ".".intercalate path' = ".".intercalate path
  · -- keys tell paths apart, so this is the field that the cell was made for
    obtain rfl := hdotless.path_unique hne (ne_nil_of_scalar hpath) hpath' hpath hkey
    obtain rfl := CellType.scalar.inj (Option.some.inj (hpath'.symm.trans hpath))
    rw [cells.getD_lookup_reserve]
  · rw [cells.lookup_reserve_of_ne hkey]

/-- What is put into a cell changes the record at the path of the cell. -/
theorem record_put (hdotless : names.Dotless)
    (hpath : names.fieldType? (.object number) path = some (.scalar t)) {old : Value}
    (hold : cells.lookup (".".intercalate path) = some old) (w : Value) :
    (object (cells.put (".".intercalate path) w)).record names (.object number) =
      ((object cells).record names (.object number)).put path w := by
  refine record_eq_of_scalar (fun path' t' hpath' => ?_) fun path' h => ?_
  · have hne := ne_nil_of_scalar hpath'
    rw [at?_object _ hne, Record.put]
    by_cases hsame : path' = path
    · rw [if_pos hsame, hsame, Cells.lookup_put hold]
      rfl
    · have hkey : ".".intercalate path' ≠ ".".intercalate path :=
        fun hkey => hsame (hdotless.path_unique hne (ne_nil_of_scalar hpath) hpath' hpath hkey)
      rw [if_neg hsame, cells.lookup_put_of_ne hkey, record_apply _ hpath', at?_object _ hne]
  · have hother : path' ≠ path := by
      rintro rfl
      exact h t hpath
    rw [Record.put, if_neg hother, record_apply_of_not_scalar _ h]

/-- Later declarations do not change what a value of a known type stands for. -/
theorem record_grows {later : Names} (hclosed : names.Closed) (hgrows : names.Grows later)
    (htype : names.Knows type) (v : Value) : v.record later type = v.record names type := by
  funext path
  simp only [record, hclosed.fieldType?_eq hgrows htype path]

end Value

end Litany
