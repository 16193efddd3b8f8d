import Mathlib.Logic.Relation
import Litany.Proofs.Scope.Parameters
import Litany.Proofs.Scope.Tables

/-!
# What parsing enters into the tables

Parsing adds globals, classes and procedures to the tables, one after the other, and the locals of a
procedure while its body is read. The type of a global or of a field is known before it is used, the
fields of a class are named by tokens of the text, and the defaults of a procedure are values of
literals that are written there. `Names.Enters` is one such entry and `Names.Adds` any number of
them.

A name is entered as soon as it is read and stays if the parse fails behind it. So a procedure is
entered with the locals of a body that may have broken off. What one entry keeps, a whole parse
keeps: the entries that were there (`Names.Adds.extends`), closed tables (`Names.Adds.closed`),
fields with names from the text (`Names.Adds.classes`) and defaults that are written
(`Names.Adds.defaultsWritten`).
-/

namespace Litany

/-! ### Written fields -/

/-- Fields that are named by names among some tokens. -/
def NamedBy (tokens : List Token) (fields : List Field) : Prop :=
  ∀ f ∈ fields, ∃ t ∈ tokens, (Kind.ident? t.kind).isSome ∧ t.lexeme = f.name

/-- Fields that are named by some tokens, and of types that the tables know. -/
structure FieldsOf (tokens : List Token) (names : Names) (fields : List Field) : Prop where
  named : NamedBy tokens fields
  known : ∀ f ∈ fields, names.Knows f.type

theorem FieldsOf.mono {tokens : List Token} {names later : Names} {fields : List Field}
    (h : FieldsOf tokens names fields) (hgrows : names.Grows later) :
    FieldsOf tokens later fields :=
  ⟨h.named, fun f hf => (h.known f hf).mono hgrows⟩

namespace Grammar

variable {tokens : List Token} {names : Names}

private theorem TypeTree.knows {t : TypeTree} {type : CellType} (h : t.reading names = some type) :
    names.Knows type := by
  cases t with
  | scalar leaf =>
    obtain rfl := Option.some.inj h
    exact names.knows_scalar _
  | object name =>
    obtain ⟨number, hnumber, rfl⟩ := Option.map_eq_some_iff.mp h
    exact Names.knows_of_class? hnumber

/-- The fields of one type are named by tokens of their own. -/
private theorem FieldGroupTree.fieldsOf {t : FieldGroupTree} {fields : List Field}
    (h : t.reading names = some fields) (ht : ∀ token ∈ t.yield, token ∈ tokens) :
    FieldsOf tokens names fields := by
  obtain ⟨type, htype, hfields⟩ := Option.bind_eq_some_iff.mp h
  obtain rfl := Option.some.inj hfields
  refine ⟨fun f hf => ?_, fun f hf => ?_⟩
  · obtain ⟨name, hname, rfl⟩ := List.mem_map.mp hf
    refine ⟨name.token, ht _ ?_, by rw [name.fits]; rfl, rfl⟩
    rcases List.mem_cons.mp hname with rfl | hname
    · simp [yield]
    · obtain ⟨item, hitem, rfl⟩ := List.mem_map.mp hname
      have hlater : item.2.token ∈ yieldBehind (fun name : Name => [name.token]) t.rest :=
        mem_yieldBehind.mpr ⟨item, hitem, .inr (List.mem_singleton_self _)⟩
      simp [yield, hlater]
  · obtain ⟨name, -, rfl⟩ := List.mem_map.mp hf
    exact TypeTree.knows htype

theorem fieldsOf_of_readings {groups : List FieldGroupTree} {found : List (List Field)}
    (h : groups.mapM (FieldGroupTree.reading names) = some found)
    (hgroups : ∀ token ∈ groups.flatMap FieldGroupTree.yield, token ∈ tokens) :
    FieldsOf tokens names found.flatten := by
  have heach : ∀ fields ∈ found, FieldsOf tokens names fields :=
    forall_mem_of_mapM h fun t ht fields hread =>
      t.fieldsOf hread fun token htoken => hgroups token (List.mem_flatMap.mpr ⟨t, ht, htoken⟩)
  refine ⟨fun f hf => ?_, fun f hf => ?_⟩ <;> obtain ⟨fields, hfields, hf⟩ := List.mem_flatten.mp hf
  · exact (heach fields hfields).named f hf
  · exact (heach fields hfields).known f hf

/-! ### Written defaults -/

/-- The default of a parameter, if it has one, is the value of some literal of such tokens. -/
def DefaultWritten (P : Token → Prop) (q : Parameter) : Prop :=
  ∀ v, q.default = some v → ∃ d : LiteralTree, d.reading = some v ∧ ∀ t ∈ d.yield, P t

/-- The defaults of all procedures are values of literals of such tokens. -/
def DefaultsWritten (P : Token → Prop) (names : Names) : Prop :=
  ∀ p ∈ names.procedures, ∀ q ∈ p.parameters, DefaultWritten P q

variable {P Q : Token → Prop}

theorem defaultsWritten_empty : DefaultsWritten P Names.empty :=
  fun _ hp => absurd hp List.not_mem_nil

theorem DefaultWritten.mono {q : Parameter} (h : DefaultWritten P q) (hPQ : ∀ t, P t → Q t) :
    DefaultWritten Q q := by
  intro v hv
  obtain ⟨d, hread, hd⟩ := h v hv
  exact ⟨d, hread, fun t ht => hPQ t (hd t ht)⟩

/-- A parameter has its default from its own tokens. -/
private theorem defaultWritten_of_reading {t : ParameterTree} {q : Parameter}
    (h : t.reading = some q) (ht : ∀ token ∈ t.yield, P token) : DefaultWritten P q := by
  obtain ⟨type, name, default⟩ := t
  obtain ⟨v, hdefault, hsome⟩ := Option.bind_eq_some_iff.mp h
  obtain rfl := Option.some.inj hsome
  intro w hw
  cases default with
  | none =>
    obtain rfl := Option.some.inj hdefault
    cases hw
  | some written =>
    obtain ⟨u, hu, hsome⟩ := Option.map_eq_some_iff.mp hdefault
    subst hsome
    obtain rfl := Option.some.inj hw
    refine ⟨written.2, hu, fun token htoken => ht token ?_⟩
    simp [ParameterTree.yield, htoken]

/-- The parameters of a procedure have their defaults from the tokens between its parentheses. -/
theorem defaultsWritten_of_readingAll
    {tree : Option (ParameterTree × List (Punct .comma × ParameterTree))} {qs : List Parameter}
    (h : ParameterTree.readingAll tree = some qs)
    (htree : ∀ token ∈ ParameterTree.yieldAll tree, P token) : ∀ q ∈ qs, DefaultWritten P q := by
  cases tree with
  | none =>
    obtain rfl := Option.some.inj h
    exact fun _ hq => absurd hq List.not_mem_nil
  | some trees =>
    obtain ⟨first, rest⟩ := trees
    refine forall_mem_of_mapM (ParameterTree.readingAll_some h).1 fun t ht q hread =>
      defaultWritten_of_reading hread fun token htoken => htree token ?_
    rw [ParameterTree.yieldAll, List.mem_append]
    rcases List.mem_cons.mp ht with rfl | ht
    · exact .inl htoken
    · obtain ⟨item, hitem, rfl⟩ := List.mem_map.mp ht
      exact .inr (mem_yieldBehind.mpr ⟨item, hitem, .inr htoken⟩)

end Grammar

/-! ### Entries -/

open Grammar

/-- One entry into the tables that is read from some tokens: a global, a class, or a procedure with
the locals that its body has declared so far. -/
inductive Names.Enters (tokens : List Token) (names : Names) : Names → Prop where
  | global {v : Variable} {slot : Slot} {later : Names} (hknown : names.Knows v.type)
      (h : names.declare .top v = some (slot, later)) : Enters tokens names later
  | classDef {c : ClassShape} {number : Nat} {later : Names}
      (hfields : FieldsOf tokens names c.fields)
      (h : names.declareClass c = some (number, later)) : Enters tokens names later
  | procedure {p : Signature} {ordinal : Nat} {opened later : Names}
      (hdefaults : ∀ q ∈ p.parameters, DefaultWritten (· ∈ tokens) q)
      (h : names.declareProcedure p = some (ordinal, opened))
      (hbody : opened.Declares (.procedure ordinal) later) : Enters tokens names later

namespace Names

variable {tokens : List Token} {names later : Names}

/-- Entries are added behind those that are there. The locals of a body go to the last procedure,
which was not there before. -/
theorem Enters.extends (h : names.Enters tokens later) : names.Extends later := by
  cases h with
  | global _ h => exact (Declares.step h (.refl later)).extends
  | classDef _ h => exact extends_of_declareClass h
  | procedure _ h hbody => exact extends_of_procedure h hbody

/-- A new class has its fields from the tokens. -/
theorem Enters.classes (h : names.Enters tokens later) {c : ClassShape} (hc : c ∈ later.classes) :
    c ∈ names.classes ∨ NamedBy tokens c.fields := by
  cases h with
  | global _ h =>
    obtain ⟨-, rfl⟩ := declare_top h
    exact .inl hc
  | classDef hfields h =>
    obtain ⟨-, rfl⟩ := declareClass_eq_some h
    rcases List.mem_append.mp hc with hold | hnew
    · exact .inl hold
    · rw [List.mem_singleton.mp hnew]
      exact .inr hfields.named
  | procedure _ h hbody =>
    obtain ⟨-, rfl⟩ := declareProcedure_eq_some h
    rw [hbody.procedure.2.1] at hc
    exact .inl hc

/-- A new field or global is of a type that was known before. -/
theorem Enters.closed (h : names.Enters tokens later) (hclosed : names.Closed) : later.Closed := by
  have hgrows := h.extends.grows
  have hfields : ∀ c ∈ names.classes, ∀ f ∈ c.fields, later.Knows f.type :=
    fun c hc f hf => (hclosed.fields c hc f hf).mono hgrows
  have hglobals : ∀ v ∈ names.globals, later.Knows v.type :=
    fun v hv => (hclosed.globals v hv).mono hgrows
  cases h with
  | global hknown h =>
    obtain ⟨-, rfl⟩ := declare_top h
    refine ⟨hfields, fun v hv => ?_⟩
    rcases List.mem_append.mp hv with hold | hnew
    · exact hglobals v hold
    · rw [List.mem_singleton.mp hnew]
      exact hknown.mono hgrows
  | classDef hread h =>
    obtain ⟨-, rfl⟩ := declareClass_eq_some h
    refine ⟨fun c hc f hf => ?_, hglobals⟩
    rcases List.mem_append.mp hc with hold | hnew
    · exact hfields c hold f hf
    · rw [List.mem_singleton.mp hnew] at hf
      exact (hread.known f hf).mono hgrows
  | procedure _ h hbody =>
    obtain ⟨-, rfl⟩ := declareProcedure_eq_some h
    obtain ⟨hsameGlobals, hsameClasses, -⟩ := hbody.procedure
    exact ⟨hsameClasses ▸ hfields, hsameGlobals ▸ hglobals⟩

/-- A variable is no parameter. -/
theorem Declares.defaultsWritten {P : Token → Prop} {scope : Scope}
    (h : names.Declares scope later) (hnames : DefaultsWritten P names) :
    DefaultsWritten P later := by
  induction h with
  | refl names => exact hnames
  | step hstep _ ih =>
    refine ih ?_
    cases scope with
    | top =>
      obtain ⟨-, rfl⟩ := declare_top hstep
      exact hnames
    | procedure ordinal =>
      obtain ⟨p, hp, -, rfl⟩ := declare_procedure hstep
      intro p' hp'
      rcases List.mem_or_eq_of_mem_set hp' with hold | rfl
      · exact hnames p' hold
      · exact hnames p (List.mem_of_getElem? hp)

/-- A procedure adds its own parameters, and they have their defaults from the tokens. -/
theorem Enters.defaultsWritten {P : Token → Prop} (h : names.Enters tokens later)
    (htokens : ∀ t ∈ tokens, P t) (hnames : DefaultsWritten P names) :
    DefaultsWritten P later := by
  cases h with
  | global _ h => exact (Declares.step h (.refl later)).defaultsWritten hnames
  | classDef _ h =>
    obtain ⟨-, rfl⟩ := declareClass_eq_some h
    exact hnames
  | procedure hdefaults h hbody =>
    refine hbody.defaultsWritten ?_
    obtain ⟨-, rfl⟩ := declareProcedure_eq_some h
    intro p hp
    rcases List.mem_append.mp hp with hold | hnew
    · exact hnames p hold
    · rw [List.mem_singleton.mp hnew]
      exact fun q hq => (hdefaults q hq).mono htokens

/-! ### Any number of entries -/

/-- Tables that some entries read from the tokens lead to. -/
def Adds (tokens : List Token) : Names → Names → Prop :=
  Relation.ReflTransGen (Enters tokens)

theorem Adds.extends (h : names.Adds tokens later) : names.Extends later := by
  induction h with
  | refl => exact .refl names
  | tail _ hlast ih => exact ih.trans hlast.extends

/-- The classes that are added have their fields from the tokens. -/
theorem Adds.classes (h : names.Adds tokens later) {c : ClassShape} (hc : c ∈ later.classes) :
    c ∈ names.classes ∨ NamedBy tokens c.fields := by
  induction h with
  | refl => exact .inl hc
  | tail _ hlast ih =>
    rcases hlast.classes hc with hold | hnamed
    · exact ih hold
    · exact .inr hnamed

theorem Adds.closed (h : names.Adds tokens later) (hclosed : names.Closed) : later.Closed := by
  induction h with
  | refl => exact hclosed
  | tail _ hlast ih => exact hlast.closed ih

/-- The defaults of the procedures that are added are written in the tokens. -/
theorem Adds.defaultsWritten (h : names.Adds tokens later) {P : Token → Prop}
    (htokens : ∀ t ∈ tokens, P t) (hnames : DefaultsWritten P names) : DefaultsWritten P later := by
  induction h with
  | refl => exact hnames
  | tail _ hlast ih => exact hlast.defaultsWritten htokens ih

end Names

end Litany
