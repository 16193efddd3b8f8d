import Litany.Names

/-!
# How tables grow

A declaration adds to one list of the tables and leaves the rest as it is. Three relations say how
two tables that a program meets one after the other are related, each a special case of the next:
`Declares` for the variables of one scope, `Extends` for whole items at top level, and `Grows` for
any two moments of a parse. Growth keeps what a slot is called and what it can hold, and it keeps
the path of a field.
-/

namespace Litany

/-! ### Slots -/

namespace Names

/-- The name stored under a slot. -/
def slotName? (names : Names) (scope : Scope) : Slot → Option String
  | .global i => names.globals[i]?.map (·.name)
  | .argument i => (names.signature? scope).bind fun p => p.parameters[i]?.map (·.name)
  | .own i => (names.signature? scope).bind fun p => p.locals[i]?.map (·.name)

/-- Whether a slot is one of those handed out so far. Slots of arguments and locals belong to the
procedure that the scope stands in, and there are none at top level. -/
inductive Bound (names : Names) : Scope → Slot → Prop where
  | global {scope : Scope} {i : Nat} (hi : i < names.globals.length) : Bound names scope (.global i)
  | argument {ordinal i : Nat} {p : Signature} (hp : names.procedures[ordinal]? = some p)
      (hi : i < p.parameters.length) : Bound names (.procedure ordinal) (.argument i)
  | own {ordinal i : Nat} {p : Signature} (hp : names.procedures[ordinal]? = some p)
      (hi : i < p.locals.length) : Bound names (.procedure ordinal) (.own i)

/-- Only a procedure has a signature. -/
theorem signature?_eq_some {names : Names} {scope : Scope} {p : Signature}
    (h : names.signature? scope = some p) :
    ∃ ordinal, scope = .procedure ordinal ∧ names.procedures[ordinal]? = some p := by
  cases scope with
  | top => cases h
  | procedure ordinal => exact ⟨ordinal, rfl, h⟩

/-- A slot that has a name is handed out. -/
theorem bound_of_slotName? {names : Names} {scope : Scope} {slot : Slot} {name : String}
    (h : names.slotName? scope slot = some name) : names.Bound scope slot := by
  cases slot with
  | global i =>
    obtain ⟨v, hv, -⟩ := Option.map_eq_some_iff.mp h
    exact .global (List.getElem?_eq_some_iff.mp hv).1
  | argument i =>
    obtain ⟨p, hp, hname⟩ := Option.bind_eq_some_iff.mp h
    obtain ⟨q, hq, -⟩ := Option.map_eq_some_iff.mp hname
    obtain ⟨ordinal, rfl, hsignature⟩ := signature?_eq_some hp
    exact .argument hsignature (List.getElem?_eq_some_iff.mp hq).1
  | own i =>
    obtain ⟨p, hp, hname⟩ := Option.bind_eq_some_iff.mp h
    obtain ⟨v, hv, -⟩ := Option.map_eq_some_iff.mp hname
    obtain ⟨ordinal, rfl, hsignature⟩ := signature?_eq_some hp
    exact .own hsignature (List.getElem?_eq_some_iff.mp hv).1

/-- A slot that has a name can hold something. -/
theorem exists_slotType? {names : Names} {scope : Scope} {slot : Slot} {name : String}
    (h : names.slotName? scope slot = some name) :
    ∃ type constant, names.slotType? scope slot = some (type, constant) := by
  cases slot with
  | global i =>
    obtain ⟨v, hv, -⟩ := Option.map_eq_some_iff.mp h
    exact ⟨v.type, v.constant, by simp [slotType?, hv]⟩
  | argument i =>
    obtain ⟨p, hp, hname⟩ := Option.bind_eq_some_iff.mp h
    obtain ⟨q, hq, -⟩ := Option.map_eq_some_iff.mp hname
    exact ⟨.scalar q.type, false, by simp [slotType?, hp, hq]⟩
  | own i =>
    obtain ⟨p, hp, hname⟩ := Option.bind_eq_some_iff.mp h
    obtain ⟨v, hv, -⟩ := Option.map_eq_some_iff.mp hname
    exact ⟨v.type, v.constant, by simp [slotType?, hp, hv]⟩

/-! ### Looking names up -/

/-- What is found by its name has that name. -/
private theorem name_of_findIdx? {α : Type} {as : List α} {name : String} {f : α → String} {i : Nat}
    (h : (as.findIdx? fun a => f a == name) = some i) : as[i]?.map f = some name := by
  obtain ⟨hi, hname, -⟩ := List.findIdx?_eq_some_iff_getElem.mp h
  rw [List.getElem?_eq_getElem hi, Option.map_some, eq_of_beq hname]

/-- The slot that a name means is stored under that name. -/
theorem slotName?_of_resolve {names : Names} {scope : Scope} {name : String} {slot : Slot}
    (h : names.resolve scope name = some slot) : names.slotName? scope slot = some name := by
  unfold resolve at h
  split at h
  · rename_i slot' hown
    obtain rfl := Option.some.inj h
    obtain ⟨p, hp, hslot⟩ := Option.bind_eq_some_iff.mp hown
    unfold Signature.slot? at hslot
    split at hslot
    · rename_i i hi
      obtain rfl := Option.some.inj hslot
      simp only [slotName?, hp, Option.bind_some]
      exact name_of_findIdx? hi
    · obtain ⟨i, hi, rfl⟩ := Option.map_eq_some_iff.mp hslot
      simp only [slotName?, hp, Option.bind_some]
      exact name_of_findIdx? hi
  · obtain ⟨i, hi, rfl⟩ := Option.map_eq_some_iff.mp h
    exact name_of_findIdx? hi

/-- The procedure found by its name is registered under that name. -/
theorem signature_of_procedure? {names : Names} {name : String} {ordinal : Nat}
    (h : names.procedure? name = some ordinal) :
    ∃ p, names.procedures[ordinal]? = some p ∧ p.name = name :=
  Option.map_eq_some_iff.mp (name_of_findIdx? h)

end Names

/-! ### Growth -/

/-- A signature keeps everything but its locals, and these are only added to. -/
structure Signature.Grows (p q : Signature) : Prop where
  name : q.name = p.name
  returns : q.returns = p.returns
  parameters : q.parameters = p.parameters
  locals : p.locals <+: q.locals

theorem Signature.Grows.refl (p : Signature) : p.Grows p :=
  ⟨rfl, rfl, rfl, List.prefix_rfl⟩

theorem Signature.Grows.trans {p q r : Signature} (h : p.Grows q) (h' : q.Grows r) : p.Grows r :=
  ⟨h'.name.trans h.name, h'.returns.trans h.returns, h'.parameters.trans h.parameters,
    h.locals.trans h'.locals⟩

/-- Tables grow if every entry stays where it was. -/
structure Names.Grows (names later : Names) : Prop where
  globals : names.globals <+: later.globals
  procedures : ∀ {ordinal : Nat} {p : Signature}, names.procedures[ordinal]? = some p →
    ∃ q, later.procedures[ordinal]? = some q ∧ p.Grows q
  classes : names.classes <+: later.classes

namespace Names.Grows

theorem refl (names : Names) : names.Grows names :=
  ⟨List.prefix_rfl, fun h => ⟨_, h, .refl _⟩, List.prefix_rfl⟩

theorem trans {names middle later : Names} (h : names.Grows middle) (h' : middle.Grows later) :
    names.Grows later := by
  refine ⟨h.globals.trans h'.globals, fun hp => ?_, h.classes.trans h'.classes⟩
  obtain ⟨q, hq, hpq⟩ := h.procedures hp
  obtain ⟨r, hr, hqr⟩ := h'.procedures hq
  exact ⟨r, hr, hpq.trans hqr⟩

variable {names later : Names}

/-- An entry of a list stays what it is when the list is added to. -/
theorem getElem?_of_prefix {α : Type} {as bs : List α} (h : as <+: bs) {i : Nat} {a : α}
    (ha : as[i]? = some a) : bs[i]? = some a := by
  obtain ⟨rest, rfl⟩ := h
  rw [List.getElem?_append_left (List.getElem?_eq_some_iff.mp ha).1]
  exact ha

/-- The procedure that a scope stands in stays the same up to its locals. -/
theorem signature? (h : names.Grows later) {scope : Scope} {p : Signature}
    (hp : names.signature? scope = some p) :
    ∃ q, later.signature? scope = some q ∧ p.Grows q := by
  obtain ⟨ordinal, rfl, hsignature⟩ := Names.signature?_eq_some hp
  exact h.procedures hsignature

/-- A slot keeps its name. -/
theorem slotName? (h : names.Grows later) {scope : Scope} {slot : Slot} {name : String}
    (hname : names.slotName? scope slot = some name) :
    later.slotName? scope slot = some name := by
  cases slot with
  | global i =>
    obtain ⟨v, hv, rfl⟩ := Option.map_eq_some_iff.mp hname
    exact Option.map_eq_some_iff.mpr ⟨v, getElem?_of_prefix h.globals hv, rfl⟩
  | argument i =>
    obtain ⟨p, hp, hname⟩ := Option.bind_eq_some_iff.mp hname
    obtain ⟨q, hq, hgrows⟩ := h.signature? hp
    exact Option.bind_eq_some_iff.mpr ⟨q, hq, by rw [hgrows.parameters]; exact hname⟩
  | own i =>
    obtain ⟨p, hp, hname⟩ := Option.bind_eq_some_iff.mp hname
    obtain ⟨v, hv, rfl⟩ := Option.map_eq_some_iff.mp hname
    obtain ⟨q, hq, hgrows⟩ := h.signature? hp
    exact Option.bind_eq_some_iff.mpr
      ⟨q, hq, Option.map_eq_some_iff.mpr ⟨v, getElem?_of_prefix hgrows.locals hv, rfl⟩⟩

/-- A slot keeps what it can hold. -/
theorem slotType? (h : names.Grows later) {scope : Scope} {slot : Slot} {r : CellType × Bool}
    (htype : names.slotType? scope slot = some r) : later.slotType? scope slot = some r := by
  cases slot with
  | global i =>
    obtain ⟨v, hv, rfl⟩ := Option.map_eq_some_iff.mp htype
    exact Option.map_eq_some_iff.mpr ⟨v, getElem?_of_prefix h.globals hv, rfl⟩
  | argument i =>
    obtain ⟨p, hp, htype⟩ := Option.bind_eq_some_iff.mp htype
    obtain ⟨q, hq, hgrows⟩ := h.signature? hp
    exact Option.bind_eq_some_iff.mpr ⟨q, hq, by rw [hgrows.parameters]; exact htype⟩
  | own i =>
    obtain ⟨p, hp, htype⟩ := Option.bind_eq_some_iff.mp htype
    obtain ⟨v, hv, htype⟩ := Option.bind_eq_some_iff.mp htype
    obtain ⟨q, hq, hgrows⟩ := h.signature? hp
    exact Option.bind_eq_some_iff.mpr
      ⟨q, hq, Option.bind_eq_some_iff.mpr ⟨v, getElem?_of_prefix hgrows.locals hv, htype⟩⟩

/-- A path of fields leads to the same type. -/
theorem fieldType? (h : names.Grows later) {type found : CellType} {path : List String}
    (hfound : names.fieldType? type path = some found) :
    later.fieldType? type path = some found := by
  induction path generalizing type with
  | nil => cases type <;> exact hfound
  | cons segment rest ih =>
    cases type with
    | scalar t => cases hfound
    | object number =>
      obtain ⟨c, hc, hfound⟩ := Option.bind_eq_some_iff.mp hfound
      obtain ⟨f, hf, hfound⟩ := Option.bind_eq_some_iff.mp hfound
      exact Option.bind_eq_some_iff.mpr ⟨c, getElem?_of_prefix h.classes hc,
        Option.bind_eq_some_iff.mpr ⟨f, hf, ih hfound⟩⟩

end Names.Grows

/-! ### Known classes -/

/-- The tables have the class that a type names, if it names one. -/
def Names.Knows (names : Names) : CellType → Prop
  | .scalar _ => True
  | .object number => number < names.classes.length

/-- All fields and all globals are of types that the tables know. -/
structure Names.Closed (names : Names) : Prop where
  fields : ∀ c ∈ names.classes, ∀ f ∈ c.fields, names.Knows f.type
  globals : ∀ v ∈ names.globals, names.Knows v.type

namespace Names

theorem closed_empty : Names.empty.Closed := by
  constructor
  · intro c hc
    cases hc
  · intro v hv
    cases hv

theorem knows_scalar (names : Names) (t : Scalar) : names.Knows (.scalar t) :=
  trivial

theorem Knows.mono {names later : Names} {type : CellType} (h : names.Knows type)
    (hgrows : names.Grows later) : later.Knows type := by
  cases type with
  | scalar t => trivial
  | object number => exact Nat.lt_of_lt_of_le h hgrows.classes.length_le

/-- A class found by its name is known. -/
theorem knows_of_class? {names : Names} {name : String} {number : Nat}
    (h : names.class? name = some number) : names.Knows (.object number) :=
  (List.findIdx?_eq_some_iff_getElem.mp h).1

/-- From a known type, later declarations open no new path of fields. -/
theorem Closed.fieldType?_eq {names later : Names} (h : names.Closed) (hgrows : names.Grows later)
    {type : CellType} (htype : names.Knows type) (path : List String) :
    later.fieldType? type path = names.fieldType? type path := by
  induction path generalizing type with
  | nil => cases type <;> rfl
  | cons segment rest ih =>
    cases type with
    | scalar t => rfl
    | object number =>
      have hclass : names.classes[number]? = some names.classes[number] :=
        List.getElem?_eq_getElem htype
      simp only [Names.fieldType?, hclass, Grows.getElem?_of_prefix hgrows.classes hclass,
        Option.bind_eq_bind, Option.bind_some]
      refine Option.bind_congr fun f hf => ih ?_
      exact h.fields _ (List.getElem_mem htype) f (List.mem_of_find?_eq_some hf)

end Names

/-! ### One declaration -/

namespace Names

/-- A variable declared at top level is a new global. -/
theorem declare_top {names later : Names} {v : Variable} {slot : Slot}
    (h : names.declare .top v = some (slot, later)) :
    slot = .global names.globals.length ∧
      later = { names with globals := names.globals ++ [v] } := by
  simp only [declare] at h
  split at h
  · cases h
  · obtain ⟨rfl, rfl⟩ := Prod.mk.inj (Option.some.inj h)
    exact ⟨rfl, rfl⟩

/-- A variable declared in a procedure is a new local of that procedure. -/
theorem declare_procedure {names later : Names} {ordinal : Nat} {v : Variable} {slot : Slot}
    (h : names.declare (.procedure ordinal) v = some (slot, later)) :
    ∃ p, names.procedures[ordinal]? = some p ∧ slot = .own p.locals.length ∧
      later = { names with
        procedures := names.procedures.set ordinal { p with locals := p.locals ++ [v] } } := by
  simp only [declare] at h
  split at h
  · cases h
  · split at h
    · cases h
    · rename_i p hp
      split at h
      · cases h
      · obtain ⟨rfl, rfl⟩ := Prod.mk.inj (Option.some.inj h)
        exact ⟨p, hp, rfl, rfl⟩

/-- The signature that a local was added to. -/
theorem getElem?_set_local {names : Names} {ordinal : Nat} {p q : Signature}
    (hp : names.procedures[ordinal]? = some p) :
    (names.procedures.set ordinal q)[ordinal]? = some q :=
  List.getElem?_set_self (List.getElem?_eq_some_iff.mp hp).1

/-- A declared variable is stored under its slot, by its name and with its type. -/
theorem slot_of_declare {names later : Names} {scope : Scope} {v : Variable} {slot : Slot}
    (h : names.declare scope v = some (slot, later)) :
    later.slotName? scope slot = some v.name ∧
      later.slotType? scope slot = some (v.type, v.constant) := by
  cases scope with
  | top =>
    obtain ⟨rfl, rfl⟩ := declare_top h
    simp [slotName?, slotType?]
  | procedure ordinal =>
    obtain ⟨p, hp, rfl, rfl⟩ := declare_procedure h
    simp [slotName?, slotType?, signature?, getElem?_set_local hp]

theorem grows_of_declare {names later : Names} {scope : Scope} {v : Variable} {slot : Slot}
    (h : names.declare scope v = some (slot, later)) : names.Grows later := by
  cases scope with
  | top =>
    obtain ⟨-, rfl⟩ := declare_top h
    exact ⟨List.prefix_append _ _, fun hp => ⟨_, hp, .refl _⟩, List.prefix_rfl⟩
  | procedure ordinal =>
    obtain ⟨p, hp, -, rfl⟩ := declare_procedure h
    refine ⟨List.prefix_rfl, fun {i q} hq => ?_, List.prefix_rfl⟩
    by_cases hi : ordinal = i
    · subst hi
      obtain rfl := Option.some.inj (hp.symm.trans hq)
      exact ⟨_, getElem?_set_local hp, rfl, rfl, rfl, List.prefix_append _ _⟩
    · exact ⟨q, by rw [List.getElem?_set_ne hi]; exact hq, .refl q⟩

/-! ### The declarations of one scope -/

/-- Tables that some declarations of variables in one scope lead to. -/
inductive Declares (scope : Scope) : Names → Names → Prop where
  | refl (names : Names) : Declares scope names names
  | step {names middle later : Names} {v : Variable} {slot : Slot}
      (hstep : names.declare scope v = some (slot, middle)) (hrest : Declares scope middle later) :
      Declares scope names later

namespace Declares

variable {names middle later : Names} {scope : Scope}

theorem trans (h : Declares scope names middle) (h' : Declares scope middle later) :
    Declares scope names later := by
  induction h with
  | refl names => exact h'
  | step hstep _ ih => exact .step hstep (ih h')

theorem grows (h : Declares scope names later) : names.Grows later := by
  induction h with
  | refl names => exact .refl names
  | step hstep _ ih => exact (grows_of_declare hstep).trans ih

/-- Variables declared at top level leave procedures and classes as they are. -/
theorem top (h : Declares .top names later) :
    later.procedures = names.procedures ∧ later.classes = names.classes := by
  induction h with
  | refl names => exact ⟨rfl, rfl⟩
  | step hstep _ ih =>
    obtain ⟨-, rfl⟩ := declare_top hstep
    exact ih

/-- Variables declared in a procedure leave everything but that procedure as it is. -/
theorem procedure {ordinal : Nat} (h : Declares (.procedure ordinal) names later) :
    later.globals = names.globals ∧ later.classes = names.classes ∧
      later.procedures.length = names.procedures.length ∧
      ∀ i, i ≠ ordinal → later.procedures[i]? = names.procedures[i]? := by
  induction h with
  | refl names => exact ⟨rfl, rfl, rfl, fun i _ => rfl⟩
  | step hstep _ ih =>
    obtain ⟨p, hp, -, rfl⟩ := declare_procedure hstep
    obtain ⟨hglobals, hclasses, hlength, hothers⟩ := ih
    refine ⟨hglobals, hclasses, hlength.trans (List.length_set ..), fun i hi => ?_⟩
    rw [hothers i hi, List.getElem?_set_ne (Ne.symm hi)]

end Declares

/-! ### Items at top level -/

/-- Tables extend others if entries are only added behind those of each list. -/
structure Extends (names later : Names) : Prop where
  globals : names.globals <+: later.globals
  procedures : names.procedures <+: later.procedures
  classes : names.classes <+: later.classes

namespace Extends

variable {names middle later : Names}

theorem refl (names : Names) : names.Extends names :=
  ⟨List.prefix_rfl, List.prefix_rfl, List.prefix_rfl⟩

theorem trans (h : names.Extends middle) (h' : middle.Extends later) : names.Extends later :=
  ⟨h.globals.trans h'.globals, h.procedures.trans h'.procedures, h.classes.trans h'.classes⟩

theorem grows (h : names.Extends later) : names.Grows later :=
  ⟨h.globals, fun hp => ⟨_, Grows.getElem?_of_prefix h.procedures hp, .refl _⟩, h.classes⟩

end Extends

theorem Declares.extends {names later : Names} (h : Declares .top names later) :
    names.Extends later := by
  obtain ⟨hprocedures, hclasses⟩ := h.top
  exact ⟨h.grows.globals, hprocedures ▸ List.prefix_rfl, hclasses ▸ List.prefix_rfl⟩

/-- A new class goes behind the others. -/
theorem declareClass_eq_some {names later : Names} {c : ClassShape} {number : Nat}
    (h : names.declareClass c = some (number, later)) :
    number = names.classes.length ∧ later = { names with classes := names.classes ++ [c] } := by
  unfold declareClass at h
  split at h
  · cases h
  · obtain ⟨rfl, rfl⟩ := Prod.mk.inj (Option.some.inj h)
    exact ⟨rfl, rfl⟩

/-- A new procedure goes behind the others. -/
theorem declareProcedure_eq_some {names later : Names} {p : Signature} {ordinal : Nat}
    (h : names.declareProcedure p = some (ordinal, later)) :
    ordinal = names.procedures.length ∧
      later = { names with procedures := names.procedures ++ [p] } := by
  unfold declareProcedure at h
  split at h
  · cases h
  · obtain ⟨rfl, rfl⟩ := Prod.mk.inj (Option.some.inj h)
    exact ⟨rfl, rfl⟩

theorem extends_of_declareClass {names later : Names} {c : ClassShape} {number : Nat}
    (h : names.declareClass c = some (number, later)) : names.Extends later := by
  obtain ⟨-, rfl⟩ := declareClass_eq_some h
  exact ⟨List.prefix_rfl, List.prefix_rfl, List.prefix_append _ _⟩

/-- A procedure and the locals of its body add one entry to the tables. -/
theorem extends_of_procedure {names opened closed : Names} {p : Signature} {ordinal : Nat}
    (h : names.declareProcedure p = some (ordinal, opened))
    (hbody : Declares (.procedure ordinal) opened closed) : names.Extends closed := by
  obtain ⟨rfl, rfl⟩ := declareProcedure_eq_some h
  obtain ⟨hglobals, hclasses, -, hothers⟩ := hbody.procedure
  refine ⟨hglobals ▸ List.prefix_rfl, ?_, hclasses ▸ List.prefix_rfl⟩
  refine List.prefix_iff_getElem?.mpr fun i hi => ?_
  rw [hothers i (Nat.ne_of_lt hi), List.getElem?_append_left hi, List.getElem?_eq_getElem hi]

end Names

end Litany
