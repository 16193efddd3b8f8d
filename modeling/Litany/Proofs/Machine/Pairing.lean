import Litany.Proofs.Machine.Records
import Litany.Proofs.Machine.Safety
import Litany.Proofs.Machine.Simulation
import Litany.Proofs.Machine.Typing

/-!
# Cells and records do the same

A machine is paired with records if each of its variables stands for the record under the same slot,
in all frames of the calls that have not ended. Everything a program does keeps them paired: what is
visited, stored or declared on one side is so on the other, with the same value or the same fault.
So a well-scoped program whose operands are scalars comes to the same on cells and on records,
`Records.interpret_paired`.
-/

namespace Litany

/-! ### Machines and records -/

/-- Cells and records of variables of the given types that stand for the same. -/
structure Shown (names : Names) (types : List CellType) (cells : List Value)
    (records : List Record) : Prop where
  length : records.length = cells.length
  shown : ∀ {i : Nat} {type : CellType}, types[i]? = some type →
    records[i]? = cells[i]?.map (Value.record names type)

namespace Shown

variable {names : Names} {types : List CellType} {cells : List Value} {records : List Record}

theorem set (h : Shown names types cells records) {i : Nat} {type : CellType}
    (htype : types[i]? = some type) (v : Value) :
    Shown names types (cells.set i v) (records.set i (v.record names type)) := by
  refine ⟨by rw [List.length_set, List.length_set, h.length], fun {j type'} htype' => ?_⟩
  rw [List.getElem?_set, List.getElem?_set, h.length]
  by_cases hij : i = j
  · subst hij
    obtain rfl := Option.some.inj (htype.symm.trans htype')
    rw [if_pos rfl, if_pos rfl]
    split <;> rfl
  · rw [if_neg hij, if_neg hij]
    exact h.shown htype'

theorem zeros (names : Names) (types : List CellType) :
    Shown names types (types.map Value.zero) (types.map (Record.blank names)) := by
  refine ⟨by rw [List.length_map, List.length_map], fun {i type} htype => ?_⟩
  rw [List.getElem?_map, List.getElem?_map, htype]
  exact congrArg some (Value.record_zero names type).symm

private theorem singles (names : Names) (types : List Scalar) (vs : List Value) :
    Shown names (types.map .scalar) vs (vs.map Record.single) := by
  refine ⟨List.length_map _, fun {i type} htype => ?_⟩
  rw [List.getElem?_map] at htype
  obtain ⟨t, -, rfl⟩ := Option.map_eq_some_iff.mp htype
  rw [List.getElem?_map]
  exact congrArg (fun f => Option.map f vs[i]?) (funext fun v => (Value.record_scalar v).symm)

end Shown

/-- A frame and its records, in a call of the given procedure. -/
structure Frame.Shown (names : Names) (p : Signature) (f : Frame) (g : RecordFrame) : Prop where
  arguments : Litany.Shown names (p.parameters.map fun q => .scalar q.type) f.arguments g.arguments
  locals : Litany.Shown names (p.locals.map (·.type)) f.locals g.locals

/-- The frames of calls that have not ended and their records, the innermost first. -/
inductive FramesShown (names : Names) : List Nat → List Frame → List RecordFrame → Prop where
  | nil : FramesShown names [] [] []
  | cons {ordinal : Nat} {stack : List Nat} {p : Signature} {f : Frame} {g : RecordFrame}
      {frames : List Frame} {frames' : List RecordFrame}
      (hp : names.procedures[ordinal]? = some p) (hf : f.Shown names p g)
      (hrest : FramesShown names stack frames frames') :
      FramesShown names (ordinal :: stack) (f :: frames) (g :: frames')

theorem FramesShown.tail {names : Names} {ordinal : Nat} {stack : List Nat} {frames : List Frame}
    {frames' : List RecordFrame} (h : FramesShown names (ordinal :: stack) frames frames') :
    FramesShown names stack frames.tail frames'.tail := by
  cases h with
  | cons hp hf hrest => exact hrest

/-- No object is an operand in the bodies of installed procedures. -/
def ScalarBodies (procedures : List (Option Procedure)) : Prop :=
  ∀ ⦃ordinal : Nat⦄ ⦃p : Procedure⦄, procedures[ordinal]?.join = some p →
    Stmt.scalarOnlyAll p.body = true

theorem ScalarBodies.install {m : Machine} (h : ScalarBodies m.procedures) {p : Procedure}
    (honly : Stmt.scalarOnlyAll p.body = true) : ScalarBodies (m.install p).procedures := by
  intro ordinal q hq
  rw [Machine.install_procedures] at hq
  split at hq
  · obtain rfl := Option.some.inj hq
    exact honly
  · exact h hq

theorem ScalarBodies.installAll {m : Machine} (h : ScalarBodies m.procedures) {ss : List Stmt}
    (honly : Stmt.scalarOnlyAll ss = true) : ScalarBodies (m.installAll ss).procedures := by
  induction ss generalizing m with
  | nil => exact h
  | cons s ss ih =>
    obtain ⟨honly, hrest⟩ := Bool.and_eq_true_iff.mp honly
    cases s with
    | procedure p => exact ih (h.install honly) hrest
    | _ => exact ih h hrest

/-- A typed machine and the records that its cells stand for, while the given procedures are
called. -/
structure Paired (names : Names) (stack : List Nat) (m : Machine) (r : Records) : Prop where
  typed : m.Typed names stack
  scalarOnly : ScalarBodies m.procedures
  procedures : r.procedures = m.procedures
  output : r.output = m.output
  blocks : r.blocks = m.blocks
  globals : Shown names names.globalTypes m.globals r.globals
  frames : FramesShown names stack m.frames r.frames

namespace Paired

variable {names : Names} {stack : List Nat} {m : Machine} {r : Records} {slot : Slot}
  {type : CellType} {constant : Bool}

/-- The innermost frame and its records are those of the procedure whose scope it is. -/
theorem exists_frame (h : Paired names stack m r) {p : Signature}
    (hp : names.signature? (Scope.within stack) = some p) :
    ∃ ordinal below f rest g rest', stack = ordinal :: below ∧ m.frames = f :: rest ∧
      r.frames = g :: rest' ∧ names.procedures[ordinal]? = some p ∧ f.Shown names p g ∧
      FramesShown names below rest rest' := by
  have hframes := h.frames
  generalize m.frames = frames at hframes ⊢
  generalize r.frames = frames' at hframes ⊢
  cases hframes with
  | nil => cases hp
  | cons hq hf hrest =>
    obtain rfl := Option.some.inj (hq.symm.trans hp)
    exact ⟨_, _, _, _, _, _, rfl, rfl, rfl, hq, hf, hrest⟩

/-- The record of a variable is the one that its cell stands for. -/
theorem cell? (h : Paired names stack m r)
    (htype : names.slotType? (Scope.within stack) slot = some (type, constant)) :
    r.cell? slot = (m.cell? slot).map (Value.record names type) := by
  cases slot with
  | global i =>
    obtain ⟨x, hx, hpair⟩ := Option.map_eq_some_iff.mp htype
    obtain ⟨rfl, -⟩ := Prod.mk.inj hpair
    exact h.globals.shown (by simp [Names.globalTypes, hx])
  | argument i =>
    obtain ⟨p, hp, htype⟩ := Option.bind_eq_some_iff.mp htype
    obtain ⟨q, hq, hpair⟩ := Option.bind_eq_some_iff.mp htype
    obtain ⟨rfl, -⟩ := Prod.mk.inj (Option.some.inj hpair)
    obtain ⟨ordinal, below, f, rest, g, rest', -, hm, hr, -, hf, -⟩ := h.exists_frame hp
    simp only [Records.cell?, Machine.cell?, hm, hr, List.head?_cons, Option.bind_some]
    exact hf.arguments.shown (by simp [hq])
  | own i =>
    obtain ⟨p, hp, htype⟩ := Option.bind_eq_some_iff.mp htype
    obtain ⟨x, hx, hpair⟩ := Option.bind_eq_some_iff.mp htype
    obtain ⟨rfl, -⟩ := Prod.mk.inj (Option.some.inj hpair)
    obtain ⟨ordinal, below, f, rest, g, rest', -, hm, hr, -, hf, -⟩ := h.exists_frame hp
    simp only [Records.cell?, Machine.cell?, hm, hr, List.head?_cons, Option.bind_some]
    exact hf.locals.shown (by simp [hx])

/-- A variable may be given any content that suits its type. -/
theorem setCell (h : Paired names stack m r)
    (htype : names.slotType? (Scope.within stack) slot = some (type, constant)) {v : Value}
    (hv : v.Suits names type) :
    Paired names stack (m.setCell slot v) (r.setCell slot (v.record names type)) := by
  have htyped := h.typed.setCell htype hv
  cases slot with
  | global i =>
    obtain ⟨x, hx, hpair⟩ := Option.map_eq_some_iff.mp htype
    obtain ⟨rfl, -⟩ := Prod.mk.inj hpair
    have hi : names.globalTypes[i]? = some x.type := by simp [Names.globalTypes, hx]
    exact ⟨htyped, h.scalarOnly, h.procedures, h.output, h.blocks, h.globals.set hi v, h.frames⟩
  | argument i =>
    obtain ⟨p, hp, htype⟩ := Option.bind_eq_some_iff.mp htype
    obtain ⟨q, hq, hpair⟩ := Option.bind_eq_some_iff.mp htype
    obtain ⟨rfl, -⟩ := Prod.mk.inj (Option.some.inj hpair)
    obtain ⟨ordinal, below, f, rest, g, rest', rfl, hm, hr, hordinal, hf, hrest⟩ :=
      h.exists_frame hp
    have hi : (p.parameters.map fun q => CellType.scalar q.type)[i]? = some (.scalar q.type) := by
      simp [hq]
    have hset := hf.arguments.set hi v
    simp only [Records.setCell, Machine.setCell, hm, hr] at htyped ⊢
    exact ⟨htyped, h.scalarOnly, h.procedures, h.output, h.blocks, h.globals,
      .cons hordinal ⟨hset, hf.locals⟩ hrest⟩
  | own i =>
    obtain ⟨p, hp, htype⟩ := Option.bind_eq_some_iff.mp htype
    obtain ⟨x, hx, hpair⟩ := Option.bind_eq_some_iff.mp htype
    obtain ⟨rfl, -⟩ := Prod.mk.inj (Option.some.inj hpair)
    obtain ⟨ordinal, below, f, rest, g, rest', rfl, hm, hr, hordinal, hf, hrest⟩ :=
      h.exists_frame hp
    have hi : (p.locals.map (·.type))[i]? = some x.type := by simp [hx]
    have hset := hf.locals.set hi v
    simp only [Records.setCell, Machine.setCell, hm, hr] at htyped ⊢
    exact ⟨htyped, h.scalarOnly, h.procedures, h.output, h.blocks, h.globals,
      .cons hordinal ⟨hf.arguments, hset⟩ hrest⟩

end Paired

/-- Setting a variable to what it holds changes nothing. -/
theorem Records.setCell_of_cell? {r : Records} {slot : Slot} {c : Record}
    (hc : r.cell? slot = some c) : r.setCell slot c = r := by
  have hset : ∀ {l : List Record} {i : Nat}, l[i]? = some c → l.set i c = l := by
    intro l i hi
    obtain ⟨hlt, rfl⟩ := List.getElem?_eq_some_iff.mp hi
    exact List.set_getElem_self hlt
  obtain ⟨globals, procedures, frames, output, blocks⟩ := r
  cases slot with
  | global i => simp only [setCell, hset (show globals[i]? = some c from hc)]
  | argument i =>
    cases frames with
    | nil => cases hc
    | cons f rest => simp only [setCell, hset (show f.arguments[i]? = some c from hc)]
  | own i =>
    cases frames with
    | nil => cases hc
    | cons f rest => simp only [setCell, hset (show f.locals[i]? = some c from hc)]

/-! ### Places -/

namespace Records

open Storage

variable {names : Names} {stack : List Nat} {m : Machine} {r : Records} {p : Place} {t : Scalar}

/-- A place of scalar type has no cell on either side, or is found on both with the same value; the
cell that a visit may make does not show. -/
private theorem locate_visit (hdotless : names.Dotless) (hp : p.Scoped names (Scope.within stack))
    (htype : p.type = .scalar t) (h : Paired names stack m r) :
    (Run.visit p m = .error (.fault (.emptySlot p.name p.slot)) m ∧
        locate p r = .error (.fault (.emptySlot p.name p.slot)) r) ∨
      ∃ c v later, Run.visit p m = .ok v later ∧ locate p r = .ok (c, v) r ∧
        r.cell? p.slot = some c ∧ Paired names stack later r := by
  obtain ⟨rootType, constant, hslot, hfield⟩ := hp.type
  have hcell := h.cell? hslot
  cases hcontent : m.cell? p.slot with
  | none =>
    rw [hcontent] at hcell
    left
    constructor
    · simp only [Run.visit, hcontent]
      rfl
    · simp only [locate, hcell, Option.map_none]
  | some content =>
    rw [hcontent, Option.map_some] at hcell
    have hsuits := h.typed.cell hslot hcontent
    rw [htype] at hfield
    -- the path leads to a scalar, so the record has a value there whether there is a cell or not
    have hlocate : ∀ v, (content.at? p.path).getD (Value.zero (.scalar t)) = v →
        locate p r = .ok (content.record names rootType, v) r := by
      rintro v rfl
      simp only [locate, hcell, content.record_apply hfield]
    right
    cases hpath : p.path with
    | nil =>
      refine ⟨_, content, m, ?_, hlocate content (by rw [hpath]; rfl), hcell, h⟩
      simp only [Run.visit, hcontent, hpath]
    | cons segment rest =>
      obtain ⟨number, rfl⟩ := Run.object_of_path hpath (htype ▸ hfield)
      obtain ⟨cells, rfl⟩ := hsuits.exists_object
      have hne : p.path ≠ [] := by simp [hpath]
      have hpaired := h.setCell hslot (Run.suits_reserve hsuits hne hfield)
      rw [Value.record_reserve hdotless hfield, setCell_of_cell? hcell] at hpaired
      refine ⟨_, _, _, ?_, hlocate _ rfl, hcell, hpaired⟩
      simp only [Run.visit, hcontent, hpath, Value.visit?, htype, Value.at?, Place.key,
        Cells.getD_lookup_reserve]

private theorem inStep_visit (hdotless : names.Dotless) (hp : p.Scoped names (Scope.within stack))
    (htype : p.type = .scalar t) :
    InStep (Paired names stack) (cells.visit p) ((records names).visit p) := by
  intro m r h
  change Together _ (Run.visit p m) (EStateM.bind (locate p) _ r)
  rcases locate_visit hdotless hp htype h with
    ⟨hvisit, hlocate⟩ | ⟨c, v, later, hvisit, hlocate, -, hpaired⟩
  · rw [hvisit, EStateM.bind, hlocate]
    exact ⟨rfl, h⟩
  · rw [hvisit, EStateM.bind, hlocate]
    exact ⟨rfl, hpaired⟩

/-- What is stored at a visited place is stored at one path of the record. -/
private theorem paired_overwrite (hdotless : names.Dotless)
    (hp : p.Scoped names (Scope.within stack))
    (htype : p.type = .scalar t) {v : Value} {later : Machine}
    (hvisit : Run.visit p m = .ok v later) (h : Paired names stack later r) {c : Record}
    (hc : r.cell? p.slot = some c) {w : Value} (hw : w.HasScalar t) :
    Paired names stack (Run.overwrite p w later) (r.setCell p.slot (c.put p.path w)) := by
  obtain ⟨rootType, constant, hslot, hfield⟩ := hp.type
  have hcell := h.cell? hslot
  rw [htype] at hfield
  unfold Run.overwrite
  rcases Run.cases_of_visit hvisit with ⟨hpath, rfl, hv⟩ | ⟨cells, hpath, hv, rfl, hlookup⟩
  · rw [hpath] at hfield ⊢
    obtain rfl : .scalar t = rootType := by cases rootType <;> exact (Option.some.inj hfield).symm
    have hrecord : c.put [] w = w.record names (.scalar t) := by
      rw [hv, hc] at hcell
      rw [Option.some.inj hcell, Value.record_scalar, Value.record_scalar]
      funext path
      cases path <;> rfl
    rw [hrecord]
    exact h.setCell hslot hw
  · -- the visit has made the cell if there was none, so that there is one to put the value into
    obtain ⟨segment, rest, hcons⟩ := List.exists_cons_of_ne_nil hpath
    obtain ⟨number, rfl⟩ := Run.object_of_path hcons (htype ▸ hfield)
    generalize hreserved : Cells.reserve cells p.key (Value.zero p.type) = reserved at *
    have hcontent := Machine.cell?_setCell hv (.object reserved)
    have hsuits := Run.suits_put (h.typed.cell hslot hcontent) hpath hfield (v := w) <| by
      rintro t' ⟨⟩
      exact hw
    have hput := h.setCell hslot hsuits
    rw [hcontent, hc] at hcell
    rw [Value.record_put hdotless hfield hlookup, ← Option.some.inj hcell] at hput
    split
    · contradiction
    · rw [hcontent]
      exact hput

private theorem inStep_store (hdotless : names.Dotless) (hp : p.Scoped names (Scope.within stack))
    (htype : p.type = .scalar t) (v : Value) :
    InStep (Paired names stack) (cells.store p v) ((records names).store p v) := by
  intro m r h
  change Together _ (EStateM.bind (Run.visit p) _ m) (EStateM.bind (locate p) _ r)
  rcases locate_visit hdotless hp htype h with
    ⟨hvisit, hlocate⟩ | ⟨c, found, later, hvisit, hlocate, hc, hpaired⟩
  · rw [EStateM.bind, EStateM.bind, hvisit, hlocate]
    exact ⟨rfl, h⟩
  · rw [EStateM.bind, EStateM.bind, hvisit, hlocate]
    have hkept : (v.stored p.type).HasScalar t := by
      rw [htype]
      exact Value.hasScalar_coerce v t
    exact ⟨rfl, paired_overwrite hdotless hp htype hvisit hpaired hc hkept⟩

/-- A declared variable loses all that it held. -/
private theorem inStep_declare (hp : p.Scoped names (Scope.within stack)) (hpath : p.path = []) :
    InStep (Paired names stack) (cells.declare p) ((records names).declare p) := by
  intro m r h
  obtain ⟨rootType, constant, hslot, hfield⟩ := hp.type
  obtain rfl := Run.type_of_path_nil hpath hfield
  have hcell := h.cell? hslot
  have hzero : (Value.zero p.type).stored p.type = Value.zero p.type := by
    cases p.type with
    | scalar t => exact Value.coerce_of_hasScalar (Value.hasScalar_zero t)
    | object number => rfl
  change Together _ (EStateM.bind (EStateM.bind (Run.visit p) _) _ m) (declare names p r)
  cases hcontent : m.cell? p.slot with
  | none =>
    rw [hcontent] at hcell
    have hvisit : Run.visit p m = .error (.fault (.emptySlot p.name p.slot)) m := by
      simp only [Run.visit, hcontent]
      rfl
    simp only [EStateM.bind, hvisit, declare, hcell, Option.map_none]
    exact ⟨rfl, h⟩
  | some content =>
    rw [hcontent] at hcell
    have hvisit : Run.visit p m = .ok content m := by
      simp only [Run.visit, hcontent, hpath]
    simp only [EStateM.bind, hvisit, declare, hcell, Option.map_some]
    refine ⟨rfl, ?_⟩
    simp only [hzero, Run.overwrite, hpath, ← Value.record_zero]
    exact h.setCell hslot (Value.suits_zero names p.type)

/-! ### Procedures, output and foreign code -/

private theorem inStep_install {q : Procedure} (hq : q.Fits names)
    (honly : Stmt.scalarOnlyAll q.body = true) :
    InStep (Paired names stack) (cells.install q) ((records names).install q) := by
  intro m r h
  have htyped : Machine.Typed names stack (m.install q) := Run.typed_install hq h.typed
  refine ⟨rfl, htyped, h.scalarOnly.install honly, ?_, h.output, h.blocks, h.globals, h.frames⟩
  change (r.bare.install q).procedures = (m.install q).procedures
  simp only [Machine.install, bare, h.procedures]

private theorem inStep_write (text : String) :
    InStep (Paired names stack) (cells.write text) ((records names).write text) := by
  intro m r h
  have htyped : Machine.Typed names stack { m with output := m.output ++ text } :=
    ⟨h.typed.globals, h.typed.equipped, h.typed.frames⟩
  refine ⟨rfl, htyped, h.scalarOnly, h.procedures, ?_, h.blocks, h.globals, h.frames⟩
  change r.output ++ text = m.output ++ text
  rw [h.output]

private theorem inStep_handOver (executor : Option Executor) (code : String) (line : Nat) :
    InStep (Paired names stack) (cells.handOver executor code line)
      ((records names).handOver executor code line) := by
  intro m r h
  cases executor with
  | none => exact ⟨rfl, h⟩
  | some answer =>
    have hhanded : Paired names stack { m with blocks := m.blocks ++ [code] }
        { r with blocks := m.blocks ++ [code] } :=
      ⟨⟨h.typed.globals, h.typed.equipped, h.typed.frames⟩, h.scalarOnly, h.procedures, h.output,
        rfl, h.globals, h.frames⟩
    change Together _ (Run.handOver (some answer) code line m)
      (onBare (Run.handOver (some answer) code line) r)
    simp only [onBare, Run.handOver, bare, h.blocks]
    cases answer m.blocks code with
    | ok u => exact ⟨rfl, hhanded⟩
    | error reason => exact ⟨rfl, hhanded⟩

/-! ### Calls -/

/-- Procedures are run alike by two ways to run bodies, each in a frame of its own. -/
def BodiesInStep (names : Names) (body : List Stmt → Run Ending)
    (body' : List Stmt → RunOn Records Ending) : Prop :=
  ∀ {ordinal : Nat} {opened closed : Names} {ss : List Stmt},
    Stmt.ScopedAll (.procedure ordinal) opened ss closed → closed.Grows names →
      Stmt.scalarOnlyAll ss = true →
        ∀ below, InStep (Paired names (ordinal :: below)) (body ss) (body' ss)

/-- A body runs in a frame of its own, which begins with the arguments and with zeroed locals and is
dropped however the body ends. -/
private theorem inStep_enter {q : Procedure} (hq : q.Fits names) {vs : List Value}
    (hvs : Suited names vs (q.parameters.map .scalar)) {x : Run Ending} {y : RunOn Records Ending}
    (hbody : InStep (Paired names (q.ordinal :: stack)) x y) :
    InStep (Paired names stack) (cells.enter q vs x) ((records names).enter q vs y) := by
  intro m r h
  obtain ⟨signature, hsignature, -, hparameters, hlocals⟩ := hq.signature
  have hpush : Paired names (q.ordinal :: stack)
      { m with frames := ⟨vs, q.locals.map Value.zero⟩ :: m.frames }
      { r with frames :=
          ⟨vs.map Record.single, q.locals.map (Record.blank names)⟩ :: r.frames } := by
    refine ⟨Run.typed_push hq h.typed hvs, h.scalarOnly, h.procedures, h.output, h.blocks,
      h.globals, .cons hsignature ⟨?_, ?_⟩ h.frames⟩
    · have hshown := Shown.singles names q.parameters vs
      rw [← hparameters, List.map_map] at hshown
      exact hshown
    · rw [hlocals]
      exact .zeros names q.locals
  -- with an answer or at a stop, the frames of this call go and those below are the old ones
  have hpop : ∀ {m' : Machine} {r' : Records}, Paired names (q.ordinal :: stack) m' r' →
      Paired names stack { m' with frames := m'.frames.tail }
        { r' with frames := r'.frames.tail } := by
    intro m' r' h'
    exact ⟨Run.typed_pop h'.typed, h'.scalarOnly, h'.procedures, h'.output, h'.blocks, h'.globals,
      h'.frames.tail⟩
  change Together _ (Run.inFrame _ x m) (inFrame _ y r)
  unfold Run.inFrame inFrame
  rcases (hbody _ _ hpush).cases with
    ⟨ending, m', r', hx, hy, hends⟩ | ⟨stop, m', r', hx, hy, hends⟩
  · rw [hx, hy]
    exact ⟨rfl, hpop hends⟩
  · rw [hx, hy]
    exact ⟨rfl, hpop hends⟩

section Calls

variable {ordinal line : Nat} {name : String} {body : List Stmt → Run Ending}
  {body' : List Stmt → RunOn Records Ending}

/-- The procedure of a call is found on both sides or on neither. -/
private theorem cases_of_procedure (h : Paired names stack m r) (ordinal : Nat) (name : String)
    (line : Nat) :
    (∃ stop, cells.procedure ordinal name line m = .error stop m ∧
        (records names).procedure ordinal name line r = .error stop r) ∨
      ∃ q, cells.procedure ordinal name line m = .ok q m ∧
        (records names).procedure ordinal name line r = .ok q r := by
  have hbare : r.bare.procedures[ordinal]? = m.procedures[ordinal]? :=
    congrArg (·[ordinal]?) h.procedures
  rcases hentry : m.procedures[ordinal]? with _ | _ | q <;> rw [hentry] at hbare
  · refine Or.inl ⟨.fault (.noBody name line), ?_, ?_⟩
    · simp only [cells, Run.procedure, hentry]
      rfl
    · simp only [records, onBare, Run.procedure, hbare]
      rfl
  · refine Or.inl ⟨.fault (.noBody name line), ?_, ?_⟩
    · simp only [cells, Run.procedure, hentry]
      rfl
    · simp only [records, onBare, Run.procedure, hbare]
      rfl
  · refine Or.inr ⟨q, ?_, ?_⟩
    · simp only [cells, Run.procedure, hentry]
    · simp only [records, onBare, Run.procedure, hbare]
      rfl

private theorem inStep_call (hbody : BodiesInStep names body body') {arguments : List Expr}
    (hes : ∀ e ∈ arguments,
      InStep (Paired names stack) (cells.evaluate body e) ((records names).evaluate body' e)) :
    InStep (Paired names stack) (cells.evaluate body (.call ordinal name arguments line))
      ((records names).evaluate body' (.call ordinal name arguments line)) := by
  intro m r h
  rw [Storage.evaluate, Storage.evaluate, bind_apply, bind_apply]
  rcases cases_of_procedure h ordinal name line with ⟨stop, hm, hr⟩ | ⟨q, hm, hr⟩
  · rw [hm, hr]
    exact ⟨rfl, h⟩
  · rw [hm, hr]
    -- the procedure is an installed one, so that its body is well scoped and of scalar operands
    obtain ⟨-, hinstalled, -, hq⟩ := Run.fits_of_procedure h.typed hm
    have honly := h.scalarOnly (show m.procedures[ordinal]?.join = some q by rw [hinstalled]; rfl)
    obtain ⟨opened, closed, hscoped, hgrows⟩ := hq.body
    dsimp only
    rw [bind_apply, bind_apply]
    rcases (InStep.evaluateArguments hes m r h).cases with
      ⟨vs, m₁, r₁, hm₁, hr₁, h₁⟩ | ⟨stop, m₁, r₁, hm₁, hr₁, h₁⟩
    · rw [hm₁, hr₁]
      rw [evaluateArguments_cells] at hm₁
      have henter := inStep_enter hq (Run.suited_of_evaluateArguments hm₁)
        (hbody hscoped hgrows honly stack)
      exact (henter.bind fun _ => .pure _) m₁ r₁ h₁
    · rw [hm₁, hr₁]
      exact ⟨rfl, h₁⟩

end Calls

/-! ### Programs -/

/-- Cells and records are in step on every elementary step. -/
theorem simulation {body : List Stmt → Run Ending} {body' : List Stmt → RunOn Records Ending}
    (hdotless : names.Dotless) (hbody : BodiesInStep names body body') (stack : List Nat) :
    Simulation names (Scope.within stack) cells (records names) body body'
      (Paired names stack) where
  visit := inStep_visit hdotless
  store := fun v hp htype => inStep_store hdotless hp htype v
  declare := inStep_declare
  install := inStep_install
  write := inStep_write
  handOver := inStep_handOver
  call := inStep_call hbody

/-- With any fuel, the bodies of procedures are in step. -/
theorem bodiesInStep_runBody (hdotless : names.Dotless) (executor : Option Executor) (n : Nat) :
    BodiesInStep names (cells.runBody executor n) ((records names).runBody executor n) := by
  induction n with
  | zero =>
    intro ordinal opened closed ss hss hgrows honly below
    exact .throw .outOfFuel
  | succ n ih =>
    intro ordinal opened closed ss hss hgrows honly below
    rw [Storage.runBody, Storage.runBody]
    exact (simulation hdotless ih (ordinal :: below)).executeAll hss hgrows honly

/-- With any fuel, a well-scoped program whose operands are scalars does the same on cells and on
records. -/
theorem inStep_program (hdotless : names.Dotless) {opened closed : Names} {ss : List Stmt}
    (hss : Program.Scoped opened ss closed) (hextends : closed.Extends names)
    (honly : Stmt.scalarOnlyAll ss = true) (executor : Option Executor) (n : Nat) :
    InStep (Paired names []) (cells.runBody executor n ss)
      ((records names).runBody executor n ss) := by
  cases n with
  | zero => exact .throw .outOfFuel
  | succ n =>
    rw [Storage.runBody, Storage.runBody]
    exact (simulation hdotless (bodiesInStep_runBody hdotless executor n) []).program hss hextends
      honly

/-- A program that is run on cells and on records comes to the same, and leaves both paired. -/
theorem interpret_paired (hdotless : names.Dotless) {opened closed : Names} {ss : List Stmt}
    (hss : Program.Scoped opened ss closed) (hextends : closed.Extends names)
    (honly : Stmt.scalarOnlyAll ss = true) (executor : Option Executor) (fuel : Nat)
    (h : Paired names [] (m.installAll ss) (r.installAll ss)) :
    (r.interpret names executor fuel ss).1 = (m.interpret executor fuel ss).1 ∧
      Paired names [] (m.interpret executor fuel ss).2 (r.interpret names executor fuel ss).2 := by
  have hclear : ∀ {m : Machine} {r : Records}, Paired names [] m r →
      Paired names [] { m with frames := [], output := "" }
        { r with frames := [], output := "" } := by
    intro m r h
    exact ⟨⟨h.typed.globals, h.typed.equipped, .nil⟩, h.scalarOnly, h.procedures, rfl, h.blocks,
      h.globals, .nil⟩
  unfold interpret Machine.interpret
  rw [← runBody_cells]
  rcases (inStep_program hdotless hss hextends honly executor fuel _ _ h).cases with
    ⟨ending, m', r', hm, hr, hends⟩ | ⟨stop, m', r', hm, hr, hends⟩
  · rw [hm, hr]
    exact ⟨congrArg Except.ok hends.output, hclear hends⟩
  · rw [hm, hr]
    exact ⟨rfl, hclear hends⟩

end Records

/-! ### Later tables -/

/-- Globals that have no cell yet get a zeroed one, and a zeroed record. -/
theorem Shown.allocate {names later : Names} {m : Machine} {r : Records} (hclosed : names.Closed)
    (hextends : names.Extends later) (hroom : m.globals.length ≤ names.globals.length)
    (h : Shown names names.globalTypes m.globals r.globals) :
    Shown later later.globalTypes (m.allocate later.globalTypes).globals
      (r.allocate later).globals := by
  have hnew := Shown.zeros later (later.globalTypes.drop m.globals.length)
  simp only [Machine.allocate, Records.allocate, h.length]
  refine ⟨by simp [h.length], fun {i type} htype => ?_⟩
  by_cases hi : i < m.globals.length
  · -- an old global is of a known type, so its object has the same fields under the later tables
    rw [List.getElem?_append_left (h.length ▸ hi), List.getElem?_append_left hi]
    obtain ⟨x, hx⟩ : ∃ x, names.globals[i]? = some x := ⟨_, List.getElem?_eq_getElem (by omega)⟩
    have hlater := Names.Grows.getElem?_of_prefix hextends.globals hx
    obtain rfl : x.type = type := by simpa [Names.globalTypes, hlater] using htype
    have hknown := hclosed.globals x (List.mem_of_getElem? hx)
    rw [h.shown (show names.globalTypes[i]? = some x.type by simp [Names.globalTypes, hx])]
    refine congrArg (fun f => Option.map f m.globals[i]?) (funext fun v => ?_)
    exact (v.record_grows hclosed hextends.grows hknown).symm
  · have hle := Nat.le_of_not_lt hi
    rw [List.getElem?_append_right (h.length ▸ hle), List.getElem?_append_right hle, h.length]
    refine hnew.shown ?_
    rw [List.getElem?_drop, Nat.add_sub_cancel' hle]
    exact htype

/-- What is installed depends only on what was installed before. -/
private theorem Machine.installAll_procedures {m m' : Machine} (h : m.procedures = m'.procedures)
    (ss : List Stmt) : (m.installAll ss).procedures = (m'.installAll ss).procedures := by
  induction ss generalizing m m' with
  | nil => exact h
  | cons s ss ih =>
    cases s with
    | procedure p => exact ih (by simp only [install, h])
    | _ => exact ih h

/-- A machine and records stay paired when they are made ready for a program. -/
theorem Paired.ready {names later : Names} {m : Machine} {r : Records}
    (h : Paired names [] m r) (hclosed : names.Closed) (hextends : names.Extends later)
    (hroom : m.globals.length ≤ names.globals.length) {ss : List Stmt}
    (honly : Stmt.scalarOnlyAll ss = true)
    (htyped : ((m.allocate later.globalTypes).installAll ss).Typed later []) :
    Paired later [] ((m.allocate later.globalTypes).installAll ss)
      ((r.allocate later).installAll ss) := by
  have hbodies : ScalarBodies (m.allocate later.globalTypes).procedures := h.scalarOnly
  have hprocedures : (r.allocate later).bare.procedures =
      (m.allocate later.globalTypes).procedures := h.procedures
  have hframes : FramesShown later [] m.frames r.frames := by
    have hframes := h.frames
    generalize m.frames = frames at hframes ⊢
    generalize r.frames = frames' at hframes ⊢
    cases hframes
    exact .nil
  refine ⟨htyped, hbodies.installAll honly, Machine.installAll_procedures hprocedures ss,
    ?_, ?_, ?_, ?_⟩
  · simp only [Records.installAll, Records.dress]
    rw [Machine.installAll_eq, Machine.installAll_eq (m.allocate _)]
    exact h.output
  · simp only [Records.installAll, Records.dress]
    rw [Machine.installAll_eq, Machine.installAll_eq (m.allocate _)]
    exact h.blocks
  · rw [Machine.installAll_eq]
    exact h.globals.allocate hclosed hextends hroom
  · rw [Machine.installAll_eq]
    exact hframes

end Litany
