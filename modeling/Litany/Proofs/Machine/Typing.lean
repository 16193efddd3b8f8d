import Litany.Proofs.Machine.Cells
import Litany.Proofs.Machine.ScopedActs
import Litany.Proofs.Outcome
import Litany.Proofs.Scope.Fields
import Mathlib.Data.List.Forall2

/-!
# Typed stores

A cell of scalar type holds a text, an object, or a number that fits the type: a float in a float
cell, an integer within the range of the width otherwise. Nothing else gets in, because every value
is coerced to the type of the cell that takes it, and fresh cells hold zero. This is kept by every
well-scoped piece of a program, in all frames of the calls that have not ended, and also when the
program stops early.

The cells of an object are typed by their paths. That an object suits its class is stated so that it
survives later declarations: every cell of it is there for some path that the tables know.
-/

namespace Litany

/-! ### Numbers -/

/-- The integers that a cell of scalar type may hold. -/
def Scalar.Holds (t : Scalar) (n : Int64) : Prop :=
  match t with
  | i0 | u0 => n = 0
  | i8 => -128 ≤ n.toInt ∧ n.toInt < 128
  | u8 => 0 ≤ n.toInt ∧ n.toInt < 256
  | i16 => -32768 ≤ n.toInt ∧ n.toInt < 32768
  | u16 => 0 ≤ n.toInt ∧ n.toInt < 65536
  | i32 => -2147483648 ≤ n.toInt ∧ n.toInt < 2147483648
  | u32 => 0 ≤ n.toInt ∧ n.toInt < 4294967296
  | i64 | u64 => True
  | f64 => False
  | bool => n = 0 ∨ n = 1

/-- An integer within bounds that fit 64 bits is kept as it is. -/
theorem toInt_ofInt_of_bounds {n low high : Int} (h : low ≤ n ∧ n < high)
    (hlow : -9223372036854775808 ≤ low) (hhigh : high ≤ 9223372036854775808) :
    (Int64.ofInt n).toInt = n :=
  Int64.toInt_ofInt_of_le (by omega) (by omega)

theorem bmod_bounds (n : Int) {half : Nat} (hhalf : 0 < half) :
    -(half : Int) ≤ n.bmod (2 * half) ∧ n.bmod (2 * half) < half := by
  have hlow := Int.le_bmod (x := n) (m := 2 * half) (by omega)
  have hhigh := Int.bmod_lt (x := n) (m := 2 * half) (by omega)
  omega

theorem emod_bounds (n : Int) {size : Int} (hsize : 0 < size) : 0 ≤ n % size ∧ n % size < size :=
  ⟨Int.emod_nonneg n (by omega), Int.emod_lt_of_pos n hsize⟩

namespace Scalar

/-- What an integer cell keeps of an integer is in its range. -/
private theorem holds_wrap {t : Scalar} (ht : t ≠ .f64) (n : Int64) : t.Holds (t.wrap n) := by
  -- the seven narrow types are two cases, with the bounds as parameters
  have hsigned : ∀ half : Nat, 0 < half → half ≤ 2147483648 →
      -(half : Int) ≤ (Int64.ofInt (n.toInt.bmod (2 * half))).toInt ∧
        (Int64.ofInt (n.toInt.bmod (2 * half))).toInt < half := by
    intro half hhalf hsmall
    have hbounds := bmod_bounds n.toInt hhalf
    rw [toInt_ofInt_of_bounds hbounds (by omega) (by omega)]
    exact hbounds
  have hunsigned : ∀ size : Int, 0 < size → size ≤ 4294967296 →
      0 ≤ (Int64.ofInt (n.toInt % size)).toInt ∧ (Int64.ofInt (n.toInt % size)).toInt < size := by
    intro size hsize hsmall
    have hbounds := emod_bounds n.toInt hsize
    rw [toInt_ofInt_of_bounds hbounds (by omega) (by omega)]
    exact hbounds
  cases t with
  | i0 | u0 => rfl
  | i8 => exact hsigned 128 (by omega) (by omega)
  | u8 => exact hunsigned 256 (by omega) (by omega)
  | i16 => exact hsigned 32768 (by omega) (by omega)
  | u16 => exact hunsigned 65536 (by omega) (by omega)
  | i32 => exact hsigned 2147483648 (by omega) (by omega)
  | u32 => exact hunsigned 4294967296 (by omega) (by omega)
  | i64 | u64 => trivial
  | f64 => exact absurd rfl ht
  | bool =>
    simp only [wrap, Holds]
    split
    · exact Or.inl rfl
    · exact Or.inr rfl

/-- A cell keeps an integer in its range as it is. -/
private theorem wrap_of_holds {t : Scalar} {n : Int64} (h : t.Holds n) : t.wrap n = n := by
  have hsigned : ∀ half : Nat, 0 < half → -(half : Int) ≤ n.toInt ∧ n.toInt < half →
      Int64.ofInt (n.toInt.bmod (2 * half)) = n := by
    intro half hhalf hbounds
    rw [Int.bmod_eq_of_le (by omega) (by omega), Int64.ofInt_toInt]
  have hunsigned : ∀ size : Int, 0 ≤ n.toInt ∧ n.toInt < size →
      Int64.ofInt (n.toInt % size) = n := by
    intro size hbounds
    rw [Int.emod_eq_of_lt hbounds.1 hbounds.2, Int64.ofInt_toInt]
  cases t with
  | i0 | u0 => exact (show n = 0 from h).symm
  | i8 => exact hsigned 128 (by omega) h
  | u8 => exact hunsigned 256 h
  | i16 => exact hsigned 32768 (by omega) h
  | u16 => exact hunsigned 65536 h
  | i32 => exact hsigned 2147483648 (by omega) h
  | u32 => exact hunsigned 4294967296 h
  | i64 | u64 => rfl
  | f64 => exact h.elim
  | bool =>
    rcases h with rfl | rfl
    · rfl
    · rfl

end Scalar

/-! ### Values -/

/-- A value that a cell of scalar type may hold: a text, an object, or a number that fits. -/
def Value.HasScalar (t : Scalar) : Value → Prop
  | .int n => t.Holds n
  | .float _ => t = .f64
  | .text _ => True
  | .object _ => True

namespace Value

/-- What a cell keeps of a value is of its type. -/
theorem hasScalar_coerce (v : Value) (t : Scalar) : (v.coerce t).HasScalar t := by
  have htruth : ∀ b : Bool, HasScalar .bool (.int (if b then 1 else 0)) := by
    intro b
    cases b with
    | true => exact Or.inr rfl
    | false => exact Or.inl rfl
  have hwrap : t ≠ .f64 → ∀ n, HasScalar t (.int (t.wrap n)) := fun ht n => Scalar.holds_wrap ht n
  cases v with
  | int n =>
    cases t with
    | f64 => rfl
    | bool => exact htruth _
    | _ => exact hwrap (by decide) n
  | float x =>
    cases t with
    | f64 => rfl
    | bool => exact htruth _
    | _ => exact hwrap (by decide) _
  | text s => trivial
  | object cells => trivial

/-- A value of the type of a cell is kept as it is. -/
theorem coerce_of_hasScalar {v : Value} {t : Scalar} (h : v.HasScalar t) : v.coerce t = v := by
  cases v with
  | int n =>
    cases t with
    | f64 => exact h.elim
    | bool =>
      rcases h with rfl | rfl
      · rfl
      · rfl
    | _ => exact congrArg Value.int (Scalar.wrap_of_holds h)
  | float x =>
    obtain rfl : t = .f64 := h
    rfl
  | text s => rfl
  | object cells => rfl

theorem hasScalar_zero (t : Scalar) : (zero (.scalar t)).HasScalar t := by
  cases t with
  | f64 => rfl
  | bool => exact Or.inl rfl
  | i64 | u64 => trivial
  | i0 | u0 => rfl
  | _ => exact ⟨by decide, by decide⟩

/-- A value that a cell of a type may hold. Every cell of an object is there for a path of its
class, and holds what the type at the end of the path allows. -/
def Suits (names : Names) : CellType → Value → Prop
  | .scalar t, v => v.HasScalar t
  | .object number, v => ∃ cells, v = .object cells ∧ ∀ cell ∈ cells, ∃ path type, path ≠ [] ∧
      names.fieldType? (.object number) path = some type ∧ cell.1 = ".".intercalate path ∧
      ∀ t, type = .scalar t → cell.2.HasScalar t

theorem suits_zero (names : Names) (type : CellType) : (zero type).Suits names type := by
  cases type with
  | scalar t => exact hasScalar_zero t
  | object number => exact ⟨[], rfl, by simp⟩

/-- A cell of a class holds an object. -/
theorem Suits.exists_object {names : Names} {number : Nat} {v : Value}
    (h : v.Suits names (.object number)) : ∃ cells, v = .object cells := by
  obtain ⟨cells, heq, -⟩ := h
  exact ⟨cells, heq⟩

/-- Later declarations leave the types of the cells that are there as they are. -/
theorem Suits.mono {names later : Names} {type : CellType} {v : Value} (h : v.Suits names type)
    (hgrows : names.Grows later) : v.Suits later type := by
  cases type with
  | scalar t => exact h
  | object number =>
    obtain ⟨cells, rfl, hcells⟩ := h
    refine ⟨cells, rfl, fun cell hcell => ?_⟩
    obtain ⟨path, type, hpath, htype, hkey, hholds⟩ := hcells cell hcell
    exact ⟨path, type, hpath, hgrows.fieldType? htype, hkey, hholds⟩

/-- The cell of a path that leads to a scalar holds what the scalar allows. -/
theorem Suits.hasScalar {names : Names} (hdotless : names.Dotless) {number : Nat} {cells : Cells}
    (h : (object cells).Suits names (.object number)) {path : List String} {t : Scalar}
    (hpath : names.fieldType? (.object number) path = some (.scalar t)) {w : Value}
    (hw : (".".intercalate path, w) ∈ cells) : w.HasScalar t := by
  have hne : path ≠ [] := by
    rintro rfl
    cases hpath
  obtain ⟨cells', heq, hcells⟩ := h
  obtain rfl := Value.object.inj heq
  -- the cell is there for some path with the same key, which is the same path
  obtain ⟨path', type, hpath', htype, hkey, hholds⟩ := hcells _ hw
  exact hholds t (hdotless.type_unique hpath' hne htype hpath hkey.symm)

end Value

/-! ### Machines -/

/-- Each cell suits the type at its position. -/
def Suited (names : Names) (cells : List Value) (types : List CellType) : Prop :=
  ∀ ⦃i : Nat⦄ ⦃v : Value⦄ ⦃type : CellType⦄, cells[i]? = some v → types[i]? = some type →
    v.Suits names type

namespace Suited

variable {names : Names} {cells : List Value} {types : List CellType}

theorem set (h : Suited names cells types) {i : Nat} {v : Value}
    (hv : ∀ type, types[i]? = some type → v.Suits names type) :
    Suited names (cells.set i v) types := by
  intro j w type hw htype
  by_cases hij : i = j
  · subst hij
    have hi : i < cells.length := by
      have := (List.getElem?_eq_some_iff.mp hw).1
      rwa [List.length_set] at this
    rw [List.getElem?_set_self hi] at hw
    obtain rfl := Option.some.inj hw
    exact hv type htype
  · rw [List.getElem?_set_ne hij] at hw
    exact h hw htype

theorem zeros (names : Names) (types : List CellType) :
    Suited names (types.map Value.zero) types := by
  intro i v type hv htype
  rw [List.getElem?_map, htype] at hv
  obtain rfl := Option.some.inj hv
  exact Value.suits_zero names type

theorem mono {later : Names} (h : Suited names cells types) (hgrows : names.Grows later) :
    Suited later cells types :=
  fun _ _ _ hv htype => (h hv htype).mono hgrows

end Suited

/-- A frame holds values of the types that a procedure gives its parameters and locals. -/
structure Frame.Typed (names : Names) (p : Signature) (f : Frame) : Prop where
  arguments : Suited names f.arguments (p.parameters.map fun q => .scalar q.type)
  locals : Suited names f.locals (p.locals.map (·.type))

/-- The frames of calls that have not ended, one for each of the procedures called, the innermost
first. -/
def Stacked (names : Names) (stack : List Nat) (frames : List Frame) : Prop :=
  List.Forall₂ (fun ordinal f => ∃ p, names.procedures[ordinal]? = some p ∧ f.Typed names p) stack
    frames

/-- The scope of the innermost of some calls. -/
def Scope.within : List Nat → Scope
  | [] => .top
  | ordinal :: _ => .procedure ordinal

/-- A machine whose cells suit their types, while the given procedures are called. -/
structure Machine.Typed (names : Names) (stack : List Nat) (m : Machine) : Prop where
  globals : Suited names m.globals names.globalTypes
  equipped : ∃ k, Equipped names k m.procedures
  frames : Stacked names stack m.frames

namespace Machine.Typed

variable {names : Names} {stack : List Nat} {m : Machine} {slot : Slot} {type : CellType}
  {constant : Bool} {v : Value}

/-- The innermost frame is that of the procedure whose scope it is. -/
theorem exists_frame (h : m.Typed names stack) {p : Signature}
    (hp : names.signature? (Scope.within stack) = some p) :
    ∃ ordinal below f rest, stack = ordinal :: below ∧ m.frames = f :: rest ∧
      names.procedures[ordinal]? = some p ∧ f.Typed names p ∧ Stacked names below rest := by
  have hframes := h.frames
  cases stack with
  | nil => cases hp
  | cons ordinal below =>
    obtain ⟨f, rest, ⟨q, hq, hf⟩, hrest, heq⟩ := List.forall₂_cons_left_iff.mp hframes
    obtain rfl := Option.some.inj (hq.symm.trans hp)
    exact ⟨ordinal, below, f, rest, rfl, heq, hq, hf, hrest⟩

/-- The content of a cell suits the type that the tables give its slot. -/
theorem cell (h : m.Typed names stack)
    (htype : names.slotType? (Scope.within stack) slot = some (type, constant))
    (hv : m.cell? slot = some v) : v.Suits names type := by
  cases slot with
  | global i =>
    obtain ⟨x, hx, hpair⟩ := Option.map_eq_some_iff.mp htype
    obtain ⟨rfl, -⟩ := Prod.mk.inj hpair
    exact h.globals hv (by simp [Names.globalTypes, hx])
  | argument i =>
    obtain ⟨p, hp, htype⟩ := Option.bind_eq_some_iff.mp htype
    obtain ⟨q, hq, hpair⟩ := Option.bind_eq_some_iff.mp htype
    obtain ⟨rfl, -⟩ := Prod.mk.inj (Option.some.inj hpair)
    obtain ⟨ordinal, below, f, rest, -, hframes, -, hf, -⟩ := h.exists_frame hp
    simp only [cell?, hframes, List.head?_cons, Option.bind_some] at hv
    exact hf.arguments hv (by simp [hq])
  | own i =>
    obtain ⟨p, hp, htype⟩ := Option.bind_eq_some_iff.mp htype
    obtain ⟨x, hx, hpair⟩ := Option.bind_eq_some_iff.mp htype
    obtain ⟨rfl, -⟩ := Prod.mk.inj (Option.some.inj hpair)
    obtain ⟨ordinal, below, f, rest, -, hframes, -, hf, -⟩ := h.exists_frame hp
    simp only [cell?, hframes, List.head?_cons, Option.bind_some] at hv
    exact hf.locals hv (by simp [hx])

/-- A cell may be given any content that suits the type of its slot. -/
theorem setCell (h : m.Typed names stack)
    (htype : names.slotType? (Scope.within stack) slot = some (type, constant))
    (hv : v.Suits names type) : (m.setCell slot v).Typed names stack := by
  cases slot with
  | global i =>
    obtain ⟨x, hx, hpair⟩ := Option.map_eq_some_iff.mp htype
    obtain ⟨rfl, -⟩ := Prod.mk.inj hpair
    refine ⟨h.globals.set fun type' htype' => ?_, h.equipped, h.frames⟩
    simp only [Names.globalTypes, List.getElem?_map, hx, Option.map_some] at htype'
    exact Option.some.inj htype' ▸ hv
  | argument i =>
    obtain ⟨p, hp, htype⟩ := Option.bind_eq_some_iff.mp htype
    obtain ⟨q, hq, hpair⟩ := Option.bind_eq_some_iff.mp htype
    obtain ⟨rfl, -⟩ := Prod.mk.inj (Option.some.inj hpair)
    obtain ⟨ordinal, below, f, rest, rfl, hframes, hordinal, hf, hrest⟩ := h.exists_frame hp
    have hset : Frame.Typed names p { f with arguments := f.arguments.set i v } := by
      refine ⟨hf.arguments.set fun type' htype' => ?_, hf.locals⟩
      simp only [List.getElem?_map, hq, Option.map_some] at htype'
      exact Option.some.inj htype' ▸ hv
    simp only [Machine.setCell, hframes]
    exact ⟨h.globals, h.equipped, .cons ⟨p, hordinal, hset⟩ hrest⟩
  | own i =>
    obtain ⟨p, hp, htype⟩ := Option.bind_eq_some_iff.mp htype
    obtain ⟨x, hx, hpair⟩ := Option.bind_eq_some_iff.mp htype
    obtain ⟨rfl, -⟩ := Prod.mk.inj (Option.some.inj hpair)
    obtain ⟨ordinal, below, f, rest, rfl, hframes, hordinal, hf, hrest⟩ := h.exists_frame hp
    have hset : Frame.Typed names p { f with locals := f.locals.set i v } := by
      refine ⟨hf.arguments, hf.locals.set fun type' htype' => ?_⟩
      simp only [List.getElem?_map, hx, Option.map_some] at htype'
      exact Option.some.inj htype' ▸ hv
    simp only [Machine.setCell, hframes]
    exact ⟨h.globals, h.equipped, .cons ⟨p, hordinal, hset⟩ hrest⟩

/-- What is installed under an ordinal is the procedure that the tables know there. -/
theorem installed (h : m.Typed names stack) {ordinal : Nat} {q : Procedure}
    (hq : m.procedures[ordinal]? = some (some q)) : q.ordinal = ordinal ∧ q.Fits names := by
  obtain ⟨k, hequipped⟩ := h.equipped
  exact hequipped.fits (by rw [hq]; rfl)

end Machine.Typed

namespace Run

variable {names : Names} {stack : List Nat} {m later : Machine} {p : Place} {v : Value}

/-! ### Places -/

/-- An object that suits its class still does with a cell of one of its paths, new or not. -/
theorem suits_reserve {number : Nat} {cells : Cells}
    (h : (Value.object cells).Suits names (.object number)) {path : List String}
    {type : CellType} (hpath : path ≠ [])
    (htype : names.fieldType? (.object number) path = some type) :
    (Value.object (cells.reserve (".".intercalate path) (Value.zero type))).Suits names
      (.object number) := by
  rcases cells.lookup_reserve (".".intercalate path) (Value.zero type) with
    ⟨-, hnew, -⟩ | ⟨w, -, hold⟩
  · obtain ⟨cells', heq, hcells⟩ := h
    obtain rfl := Value.object.inj heq
    rw [hnew]
    refine ⟨_, rfl, fun cell hcell => ?_⟩
    rcases List.mem_append.mp hcell with hcell | hcell
    · exact hcells cell hcell
    · rw [List.mem_singleton.mp hcell]
      refine ⟨path, type, hpath, htype, rfl, fun t ht => ?_⟩
      rw [ht]
      exact Value.hasScalar_zero t
  · rw [hold]
    exact h

/-- An object that suits its class still does with the content of one of its cells replaced. -/
theorem suits_put {number : Nat} {cells : Cells}
    (h : (Value.object cells).Suits names (.object number)) {path : List String}
    {type : CellType} (hpath : path ≠ [])
    (htype : names.fieldType? (.object number) path = some type)
    (hv : ∀ t, type = .scalar t → v.HasScalar t) :
    (Value.object (cells.put (".".intercalate path) v)).Suits names (.object number) := by
  obtain ⟨cells', heq, hcells⟩ := h
  obtain rfl := Value.object.inj heq
  refine ⟨_, rfl, fun cell hcell => ?_⟩
  rcases Cells.mem_put hcell with rfl | hcell
  · exact ⟨path, type, hpath, htype, rfl, hv⟩
  · exact hcells cell hcell

/-- A visit finds what the place may hold, and leaves the machine typed. -/
theorem typed_of_visit (hdotless : names.Dotless) (hp : p.Scoped names (Scope.within stack))
    (hm : m.Typed names stack) (h : visit p m = .ok v later) :
    later.Typed names stack ∧ ∀ t, p.type = .scalar t → v.HasScalar t := by
  obtain ⟨rootType, constant, htype, hfield⟩ := hp.type
  unfold visit at h
  split at h
  · cases h
  · rename_i content hcell
    have hcontent := hm.cell htype hcell
    split at h
    · rename_i hpath
      cases h
      refine ⟨hm, fun t ht => ?_⟩
      rw [← type_of_path_nil hpath hfield, ht] at hcontent
      exact hcontent
    · rename_i segment rest hpath
      have hne : p.path ≠ [] := by simp [hpath]
      obtain ⟨number, rfl⟩ := object_of_path hpath hfield
      obtain ⟨cells, rfl⟩ := hcontent.exists_object
      -- a first visit makes the cell, so the object that is found may be a grown one
      have hgrown := suits_reserve hcontent hne hfield
      cases h
      refine ⟨hm.setCell htype hgrown, fun t ht => ?_⟩
      rw [ht] at hfield hgrown ⊢
      cases hfound : (Cells.reserve cells p.key (Value.zero (.scalar t))).lookup p.key with
      | none => exact Value.hasScalar_zero t
      | some w => exact hgrown.hasScalar hdotless hfield (Cells.mem_of_lookup hfound)

/-- A visited place may be overwritten with what its type allows. -/
private theorem typed_overwrite (hp : p.Scoped names (Scope.within stack))
    (hm : m.Typed names stack)
    (hv : v.Suits names p.type) : (overwrite p v m).Typed names stack := by
  obtain ⟨rootType, constant, htype, hfield⟩ := hp.type
  unfold overwrite
  split
  · rename_i hpath
    exact hm.setCell htype (type_of_path_nil hpath hfield ▸ hv)
  · rename_i segment rest hpath
    have hne : p.path ≠ [] := by simp [hpath]
    obtain ⟨number, rfl⟩ := object_of_path hpath hfield
    split
    · exact hm
    · rename_i content hcell
      have hcontent := hm.cell htype hcell
      obtain ⟨cells, rfl⟩ := hcontent.exists_object
      refine hm.setCell htype (suits_put hcontent hne hfield fun t ht => ?_)
      rw [ht] at hv
      exact hv

/-- A scalar takes what its type keeps of anything, and an object is zeroed. -/
theorem typed_of_store (hdotless : names.Dotless) (hp : p.Scoped names (Scope.within stack))
    (hv : v = Value.zero p.type ∨ ∃ t, p.type = .scalar t) (hm : m.Typed names stack) {kept : Value}
    (h : store p v m = .ok kept later) : later.Typed names stack := by
  have hsuits : (v.stored p.type).Suits names p.type := by
    rcases hv with rfl | ⟨t, htype⟩
    · cases p.type with
      | scalar t => exact Value.hasScalar_coerce _ t
      | object number => exact Value.suits_zero names (.object number)
    · rw [htype]
      exact Value.hasScalar_coerce v t
  unfold store at h
  obtain ⟨found, visited, hvisit, h⟩ := bind_eq_ok.mp h
  cases h
  exact typed_overwrite hp (typed_of_visit hdotless hp hm hvisit).1 hsuits

theorem typed_install {q : Procedure} (hq : q.Fits names) (hm : m.Typed names stack) :
    (m.install q).Typed names stack := by
  obtain ⟨k, hequipped⟩ := hm.equipped
  have hlater := hequipped.install (.refl names) hq fun _ hlt _ => hlt
  exact ⟨hm.globals, ⟨k, hlater⟩, hm.frames⟩

/-! ### Calls -/

section Calls

variable {body : List Stmt → Run Ending} {ordinal line : Nat} {name : String}

/-- The procedure of a call, if it has a body, is the one that the tables know. -/
theorem fits_of_procedure {q : Procedure} (hm : m.Typed names stack)
    (h : procedure ordinal name line m = .ok q later) :
    later = m ∧ m.procedures[ordinal]? = some (some q) ∧ q.ordinal = ordinal ∧ q.Fits names := by
  obtain ⟨hentry, rfl⟩ := procedure_eq_ok.mp h
  exact ⟨rfl, hentry, hm.installed hentry⟩

/-- The values of arguments are of the types of their parameters. -/
theorem suited_of_evaluateArguments {types : List Scalar} {es : List Expr} {vs : List Value}
    (h : evaluateArguments body types es m = .ok vs later) :
    Suited names vs (types.map .scalar) := by
  have hnone : ∀ types : List CellType, Suited names [] types := by
    intro types i v type hv
    cases hv
  induction es generalizing types vs m later with
  | nil => cases types <;> (cases h; exact hnone _)
  | cons e es ih =>
    cases types with
    | nil =>
      cases h
      exact hnone _
    | cons type types =>
      rw [evaluateArguments] at h
      obtain ⟨v, m₁, -, h⟩ := bind_eq_ok.mp h
      obtain ⟨rest, m₂, hrest, h⟩ := bind_eq_ok.mp h
      obtain ⟨rfl, -⟩ := pure_eq_ok.mp h
      intro i w type' hw htype'
      cases i with
      | zero =>
        obtain rfl := Option.some.inj hw
        obtain rfl := Option.some.inj htype'
        exact Value.hasScalar_coerce v type
      | succ i => exact ih hrest hw htype'

/-- The frame that a call begins with holds what its procedure asks for. -/
theorem typed_push {q : Procedure} (hq : q.Fits names) (hm : m.Typed names stack)
    {arguments : List Value} (harguments : Suited names arguments (q.parameters.map .scalar)) :
    Machine.Typed names (q.ordinal :: stack)
      { m with frames := ⟨arguments, q.locals.map Value.zero⟩ :: m.frames } := by
  obtain ⟨signature, hsignature, -, hparameters, hlocals⟩ := hq.signature
  refine ⟨hm.globals, hm.equipped, .cons ⟨signature, hsignature, ?_, ?_⟩ hm.frames⟩
  · rw [← hparameters, List.map_map] at harguments
    exact harguments
  · rw [hlocals]
    exact .zeros names q.locals

/-- The frame of a call may be dropped. -/
theorem typed_pop (hm : m.Typed names (ordinal :: stack)) :
    Machine.Typed names stack { m with frames := m.frames.tail } := by
  obtain ⟨f, rest, -, hrest, heq⟩ := List.forall₂_cons_left_iff.mp hm.frames
  refine ⟨hm.globals, hm.equipped, ?_⟩
  dsimp only
  rw [heq]
  exact hrest

end Calls

end Run

end Litany
