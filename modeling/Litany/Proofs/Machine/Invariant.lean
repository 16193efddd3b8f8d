import Litany.Machine.Store
import Litany.Proofs.Scope.Judgement

/-!
# Machines that agree with the tables

A machine agrees with the tables when there is a cell for every slot they hand out, an object in
every cell of a class, and a fitting body for every procedure from some ordinal on. The first
ordinals are left out on purpose: a program that does not parse may leave entries in the tables
that no body belongs to.

`Agrees` is about what all calls share; `Within` adds the frame of the running one. Both survive
every change that a well-scoped program makes to a cell.
-/

namespace Litany

/-! ### Cells -/

/-- A cell of a class holds an object. Cells of scalar types hold anything. -/
inductive Value.Fits : Value → CellType → Prop where
  | scalar (v : Value) (t : Scalar) : Fits v (.scalar t)
  | object (cells : Cells) (number : Nat) : Fits (.object cells) (.object number)

private theorem Value.fits_zero (type : CellType) : (Value.zero type).Fits type := by
  cases type with
  | scalar t => exact .scalar _ t
  | object number => exact .object [] number

/-- There is one cell for each type, and it fits. -/
structure Filled (cells : List Value) (types : List CellType) : Prop where
  length : cells.length = types.length
  fits : ∀ {i : Nat} {v : Value} {t : CellType}, cells[i]? = some v → types[i]? = some t → v.Fits t

namespace Filled

variable {cells : List Value} {types : List CellType}

theorem nil : Filled [] [] :=
  ⟨rfl, fun h => by simp at h⟩

/-- The cell of a type. -/
theorem exists_cell (h : Filled cells types) {i : Nat} {t : CellType} (ht : types[i]? = some t) :
    ∃ v, cells[i]? = some v ∧ v.Fits t := by
  have hi : i < cells.length := h.length ▸ (List.getElem?_eq_some_iff.mp ht).1
  exact ⟨cells[i], List.getElem?_eq_getElem hi, h.fits (List.getElem?_eq_getElem hi) ht⟩

theorem set (h : Filled cells types) {i : Nat} {v : Value}
    (hv : ∀ t, types[i]? = some t → v.Fits t) : Filled (cells.set i v) types := by
  refine ⟨(List.length_set ..).trans h.length, fun {j w t} hw ht => ?_⟩
  by_cases hij : i = j
  · subst hij
    have hi : i < cells.length := h.length ▸ (List.getElem?_eq_some_iff.mp ht).1
    rw [List.getElem?_set_self hi] at hw
    exact Option.some.inj hw ▸ hv t ht
  · rw [List.getElem?_set_ne hij] at hw
    exact h.fits hw ht

theorem zeros (types : List CellType) : Filled (types.map Value.zero) types := by
  refine ⟨List.length_map .., fun {i v t} hv ht => ?_⟩
  rw [List.getElem?_map, ht] at hv
  exact Option.some.inj hv ▸ Value.fits_zero t

theorem append {cells' : List Value} {types' : List CellType} (h : Filled cells types)
    (h' : Filled cells' types') : Filled (cells ++ cells') (types ++ types') := by
  refine ⟨by simp [h.length, h'.length], fun {i v t} hv ht => ?_⟩
  by_cases hi : i < cells.length
  · rw [List.getElem?_append_left hi] at hv
    rw [List.getElem?_append_left (h.length ▸ hi)] at ht
    exact h.fits hv ht
  · rw [List.getElem?_append_right (Nat.le_of_not_lt hi)] at hv
    rw [List.getElem?_append_right (h.length ▸ Nat.le_of_not_lt hi), ← h.length] at ht
    exact h'.fits hv ht

/-- All globals have their cells when the types beyond those that have one are added. -/
theorem allocate {m : Machine} {early : List CellType} (h : Filled m.globals early)
    (hearly : early <+: types) : Filled (m.allocate types).globals types := by
  obtain ⟨late, rfl⟩ := hearly
  simp only [Machine.allocate, h.length, List.drop_left]
  exact h.append (.zeros late)

end Filled

/-! ### Agreement -/

/-- A procedure fits its entry in the tables, and its body is well scoped under tables that have
grown into them. -/
structure ProcedureOf.Fits (names : Names) (p : Procedure) : Prop where
  signature : ∃ signature, names.procedures[p.ordinal]? = some signature ∧
    signature.returns = p.returns ∧ signature.parameters.map (·.type) = p.parameters ∧
    signature.locals.map (·.type) = p.locals
  body : ∃ opened closed, Stmt.ScopedAll (.procedure p.ordinal) opened p.body closed ∧
    closed.Grows names

theorem ProcedureOf.Fits.mono {names later : Names} {p : Procedure} (h : p.Fits names)
    (hextends : names.Extends later) : p.Fits later := by
  obtain ⟨signature, hsignature, hagrees⟩ := h.signature
  obtain ⟨opened, closed, hscoped, hgrows⟩ := h.body
  exact ⟨⟨signature, Names.Grows.getElem?_of_prefix hextends.procedures hsignature, hagrees⟩,
    opened, closed, hscoped, hgrows.trans hextends.grows⟩

/-- Installed procedures fit the tables, and there is one for every entry from ordinal `k` on. -/
structure Equipped (names : Names) (k : Nat) (procedures : List (Option Procedure)) : Prop where
  fits : ∀ {ordinal : Nat} {p : Procedure}, procedures[ordinal]?.join = some p →
    p.ordinal = ordinal ∧ p.Fits names
  complete : ∀ ordinal, k ≤ ordinal → ordinal < names.procedures.length →
    ∃ p, procedures[ordinal]?.join = some p

/-- A machine agrees with the tables: every global has its cell, and every procedure from ordinal
`k` on its body. -/
structure Machine.Agrees (names : Names) (k : Nat) (m : Machine) : Prop where
  globals : Filled m.globals names.globalTypes
  equipped : Equipped names k m.procedures

/-- A frame has the arguments and locals of a procedure. -/
structure Frame.Fits (signature : Signature) (f : Frame) : Prop where
  arguments : f.arguments.length = signature.parameters.length
  locals : Filled f.locals (signature.locals.map (·.type))

/-- What the frames are in a scope, above those of the calls that wait: nothing more at top level,
and one fitting frame in a procedure. -/
inductive Within (names : Names) (below : List Frame) : Scope → List Frame → Prop where
  | top {frames : List Frame} (hframes : frames = below) : Within names below .top frames
  | procedure {ordinal : Nat} {frames : List Frame} {signature : Signature} {f : Frame}
      (hsignature : names.procedures[ordinal]? = some signature) (hfits : f.Fits signature)
      (hframes : frames = f :: below) : Within names below (.procedure ordinal) frames

/-- What holds at every moment of a run: the machine agrees with the tables, and its frames are
those of the scope. -/
structure Machine.Running (names : Names) (k : Nat) (scope : Scope) (below : List Frame)
    (m : Machine) : Prop where
  agrees : m.Agrees names k
  within : Within names below scope m.frames

namespace Machine

variable {names : Names} {k : Nat} {scope : Scope} {below : List Frame} {m : Machine}

/-! ### Reading and writing cells -/

/-- Every slot that the tables know in a scope has its cell, and its content fits. -/
theorem Running.exists_cell (h : m.Running names k scope below) {slot : Slot} {type : CellType}
    {constant : Bool} (htype : names.slotType? scope slot = some (type, constant)) :
    ∃ v, m.cell? slot = some v ∧ v.Fits type := by
  cases slot with
  | global i =>
    obtain ⟨v, hv, hpair⟩ := Option.map_eq_some_iff.mp htype
    obtain ⟨rfl, -⟩ := Prod.mk.inj hpair
    have hi : names.globalTypes[i]? = some v.type := by simp [Names.globalTypes, hv]
    exact h.agrees.globals.exists_cell hi
  | argument i =>
    obtain ⟨p, hp, htype⟩ := Option.bind_eq_some_iff.mp htype
    obtain ⟨q, hq, hpair⟩ := Option.bind_eq_some_iff.mp htype
    obtain ⟨rfl, -⟩ := Prod.mk.inj (Option.some.inj hpair)
    cases h.within with
    | top hframes => cases hp
    | procedure hsignature hfits hframes =>
      obtain rfl := Option.some.inj (hsignature.symm.trans hp)
      have hi := hfits.arguments ▸ (List.getElem?_eq_some_iff.mp hq).1
      simp only [cell?, hframes, List.head?_cons, Option.bind_some]
      exact ⟨_, List.getElem?_eq_getElem hi, .scalar _ q.type⟩
  | own i =>
    obtain ⟨p, hp, htype⟩ := Option.bind_eq_some_iff.mp htype
    obtain ⟨v, hv, hpair⟩ := Option.bind_eq_some_iff.mp htype
    obtain ⟨rfl, -⟩ := Prod.mk.inj (Option.some.inj hpair)
    cases h.within with
    | top hframes => cases hp
    | procedure hsignature hfits hframes =>
      obtain rfl := Option.some.inj (hsignature.symm.trans hp)
      simp only [cell?, hframes, List.head?_cons, Option.bind_some]
      exact hfits.locals.exists_cell (by simp [hv])

/-- A cell may be given any content that fits. -/
theorem Running.setCell (h : m.Running names k scope below) {slot : Slot} {type : CellType}
    {constant : Bool} (htype : names.slotType? scope slot = some (type, constant)) {v : Value}
    (hv : v.Fits type) : (m.setCell slot v).Running names k scope below := by
  cases slot with
  | global i =>
    obtain ⟨w, hw, hpair⟩ := Option.map_eq_some_iff.mp htype
    obtain ⟨rfl, -⟩ := Prod.mk.inj hpair
    refine ⟨⟨h.agrees.globals.set fun t ht => ?_, h.agrees.equipped⟩, h.within⟩
    simp only [Names.globalTypes, List.getElem?_map, hw, Option.map_some] at ht
    exact Option.some.inj ht ▸ hv
  | argument i =>
    cases h.within with
    | top hframes => cases htype
    | procedure hsignature hfits hframes =>
      simp only [Machine.setCell, hframes]
      refine ⟨⟨h.agrees.globals, h.agrees.equipped⟩, .procedure hsignature ⟨?_, ?_⟩ rfl⟩
      · exact (List.length_set ..).trans hfits.arguments
      · exact hfits.locals
  | own i =>
    obtain ⟨p, hp, htype⟩ := Option.bind_eq_some_iff.mp htype
    obtain ⟨w, hw, hpair⟩ := Option.bind_eq_some_iff.mp htype
    obtain ⟨rfl, -⟩ := Prod.mk.inj (Option.some.inj hpair)
    cases h.within with
    | top hframes => cases hp
    | procedure hsignature hfits hframes =>
      obtain rfl := Option.some.inj (hsignature.symm.trans hp)
      simp only [Machine.setCell, hframes]
      refine ⟨⟨h.agrees.globals, h.agrees.equipped⟩, .procedure hsignature ⟨?_, ?_⟩ rfl⟩
      · exact hfits.arguments
      · refine hfits.locals.set fun t ht => ?_
        simp only [List.getElem?_map, hw, Option.map_some] at ht
        exact Option.some.inj ht ▸ hv

/-! ### Installing -/

/-- A procedure is found under its ordinal, and the others where they were. -/
theorem install_procedures (m : Machine) (p : Procedure) (i : Nat) :
    (m.install p).procedures[i]?.join =
      if i = p.ordinal then some p else m.procedures[i]?.join := by
  simp only [install]
  have hlength : p.ordinal <
      (m.procedures ++ List.replicate (p.ordinal + 1 - m.procedures.length) none).length := by
    simp only [List.length_append, List.length_replicate]
    omega
  split
  · rename_i hi
    rw [hi, List.getElem?_set_self hlength]
    rfl
  · rename_i hi
    rw [List.getElem?_set_ne (Ne.symm hi)]
    by_cases hlt : i < m.procedures.length
    · rw [List.getElem?_append_left hlt]
    · have hle := Nat.le_of_not_lt hlt
      rw [List.getElem?_append_right hle, List.getElem?_eq_none hle, List.getElem?_replicate]
      split <;> rfl

end Machine

namespace Equipped

variable {names later : Names} {k : Nat} {m : Machine}

/-- There is no procedure beyond the entries of the tables. -/
theorem eq_none (h : Equipped names k m.procedures) {ordinal : Nat}
    (hle : names.procedures.length ≤ ordinal) : m.procedures[ordinal]?.join = none := by
  cases hp : m.procedures[ordinal]?.join with
  | none => rfl
  | some p =>
    obtain ⟨rfl, hfits⟩ := h.fits hp
    obtain ⟨signature, hsignature, -⟩ := hfits.signature
    exact absurd (List.getElem?_eq_some_iff.mp hsignature).1 (Nat.not_lt_of_le hle)

/-- A fitting procedure may be installed, and it makes up for a new entry. -/
theorem install (h : Equipped names k m.procedures) (hextends : names.Extends later)
    {p : Procedure} (hp : p.Fits later)
    (hnew : ∀ ordinal, ordinal < later.procedures.length → ordinal ≠ p.ordinal →
      ordinal < names.procedures.length) : Equipped later k (m.install p).procedures := by
  refine ⟨fun {ordinal q} hq => ?_, fun ordinal hk hlt => ?_⟩
  · rw [Machine.install_procedures] at hq
    split at hq
    · obtain rfl := Option.some.inj hq
      rename_i hordinal
      exact ⟨hordinal.symm, hp⟩
    · exact ⟨(h.fits hq).1, (h.fits hq).2.mono hextends⟩
  · rw [Machine.install_procedures]
    split
    · exact ⟨p, rfl⟩
    · rename_i hordinal
      exact h.complete ordinal hk (hnew ordinal hlt hordinal)

/-- Tables may be added to, as long as no procedure is. -/
theorem mono {procedures : List (Option Procedure)} (h : Equipped names k procedures)
    (hextends : names.Extends later) (hsame : later.procedures = names.procedures) :
    Equipped later k procedures := by
  refine ⟨fun hp => ⟨(h.fits hp).1, (h.fits hp).2.mono hextends⟩, fun ordinal hk hlt => ?_⟩
  exact h.complete ordinal hk (hsame ▸ hlt)

end Equipped

/-- A procedure that is well scoped fits the tables behind it. -/
theorem ProcedureOf.Scoped.fits {names later : Names} {p : Procedure} (h : p.Scoped names later) :
    p.Fits later := by
  obtain ⟨signature, hsignature, -, hagrees⟩ := h.signature
  obtain ⟨parameters, opened, -, hbody⟩ := h.body
  exact ⟨⟨signature, hsignature, hagrees⟩, opened, later, hbody, .refl later⟩

/-- Installing the procedures of a well-scoped program gives every new entry its body. -/
theorem Program.Scoped.equipped {names later : Names} {k : Nat} {m : Machine} {ss : List Stmt}
    (hss : Program.Scoped names ss later) (h : Equipped names k m.procedures) :
    Equipped later k (m.installAll ss).procedures := by
  induction hss generalizing m with
  | nil names => exact h
  | procedure hp _ ih =>
    obtain ⟨hordinal, hlength⟩ := hp.length
    exact ih (h.install hp.extends hp.fits fun ordinal hlt hne => by omega)
  | classDef hclass hvars _ ih =>
    obtain ⟨-, rfl⟩ := Names.declareClass_eq_some hclass
    have hextends := (Names.extends_of_declareClass hclass).trans hvars.declares.extends
    exact ih (h.mono hextends hvars.declares.top.1)
  | statement hs _ ih =>
    have hmiddle := h.mono hs.declares.extends hs.declares.top.1
    cases hs <;> exact ih hmiddle

end Litany
