import Mathlib.Data.List.Nodup
import Litany.Proofs.Scope.Tables

/-!
# Every name means one thing

Tables that are filled by declarations alone are unambiguous: globals, procedures and classes have
names of their own, and so have the locals of a procedure, among themselves and beside its
parameters. A slot, an ordinal or a number that was handed out for a name is therefore what the name
is found under ever after, whatever is declared later and in whatever scope.

The two halves are kept apart. `Unambiguous.enter` says what one declaration keeps, and
`Unambiguous.attemptAll` what any row of them keeps, refused ones included. Growth of tables says
that an entry stays where it is (`Names.Grows`); in unambiguous tables this is also where its name
leads (`Unambiguous.resolve_own`, `Unambiguous.resolve_global`, `Unambiguous.procedure?_eq`,
`Unambiguous.class?_eq`).
-/

namespace Litany

/-! ### Declarations in a row -/

/-- A declaration: a variable in a scope, a procedure, which comes without locals, or a class. -/
inductive Declaration where
  | cell (scope : Scope) (v : Variable)
  | procedure (name : String) (returns : Scalar) (parameters : List Parameter)
  | shape (c : ClassShape)

namespace Names

/-- The tables with a declaration entered, unless it is refused. -/
def enter (names : Names) : Declaration → Option Names
  | .cell scope v => (names.declare scope v).map (·.2)
  | .procedure name returns parameters =>
    (names.declareProcedure ⟨name, returns, parameters, []⟩).map (·.2)
  | .shape c => (names.declareClass c).map (·.2)

/-- The tables behind a declaration: those in front of it if it is refused. -/
def attempt (names : Names) (d : Declaration) : Names :=
  (names.enter d).getD names

/-- The tables behind declarations made one after the other. -/
def attemptAll (names : Names) (ds : List Declaration) : Names :=
  ds.foldl attempt names

/-- The names in use at top level. -/
def used (names : Names) : List String :=
  names.globals.map (·.name) ++ names.procedures.map (·.name) ++ names.classes.map (·.name)

end Names

/-- The names of the parameters and locals of a procedure. -/
def Signature.used (p : Signature) : List String :=
  p.parameters.map (·.name) ++ p.locals.map (·.name)

/-- The declarations that are refused: names in use, and locals of a procedure that is not
there. -/
def Names.Refuses (names : Names) : Declaration → Prop
  | .cell .top v => v.name ∈ names.used
  | .cell (.procedure ordinal) v =>
    v.name ∈ names.procedures.map (·.name) ∨ v.name ∈ names.classes.map (·.name) ∨
      ∀ p, names.procedures[ordinal]? = some p → v.name ∈ p.used
  | .procedure name _ _ => name ∈ names.used
  | .shape c => c.name ∈ names.used

/-- The locals of a procedure have names of their own, which are none of its parameters' names. -/
structure Signature.Unambiguous (p : Signature) : Prop where
  locals : (p.locals.map (·.name)).Nodup
  apart : ∀ v ∈ p.locals, v.name ∉ p.parameters.map (·.name)

/-- Globals, procedures and classes have names of their own, and so have the locals of every
procedure. -/
structure Names.Unambiguous (names : Names) : Prop where
  distinct : names.used.Nodup
  signatures : ∀ p ∈ names.procedures, p.Unambiguous

/-! ### Finding by name -/

section Finding

variable {α : Type} {as : List α} {f : α → String} {name : String}

private theorem any_name : (as.any fun a => f a == name) = true ↔ name ∈ as.map f := by
  simp

/-- Something is found by a name if and only if something has it. -/
private theorem isSome_findIdx?_name :
    (as.findIdx? fun a => f a == name).isSome ↔ name ∈ as.map f := by
  simp [List.findIdx?_isSome]

private theorem findIdx?_name_eq_none (h : name ∉ as.map f) :
    (as.findIdx? fun a => f a == name) = none := by
  rw [← Option.not_isSome_iff_eq_none, isSome_findIdx?_name]
  exact h

/-- What has a name of its own is found by it. -/
private theorem findIdx?_name_of_nodup (hnodup : (as.map f).Nodup) {i : Nat} {a : α}
    (ha : as[i]? = some a) : (as.findIdx? fun b => f b == f a) = some i := by
  obtain ⟨hi, rfl⟩ := List.getElem?_eq_some_iff.mp ha
  refine List.findIdx?_eq_some_iff_getElem.mpr ⟨hi, beq_self_eq_true _, fun j hj hsame => ?_⟩
  have hi' : i < (as.map f).length := by simpa using hi
  have hj' : j < (as.map f).length := by omega
  -- two entries with one name would be one entry
  have hmap : (as.map f)[j] = (as.map f)[i] := by simpa using eq_of_beq hsame
  exact absurd (hnodup.getElem_inj_iff.mp hmap) (Nat.ne_of_lt hj)

end Finding

namespace Names

variable {names later : Names}

private theorem taken_iff {name : String} : names.taken name = true ↔ name ∈ names.used := by
  simp only [taken, used, Bool.or_eq_true, List.mem_append, procedure?, class?,
    isSome_findIdx?_name, any_name]

/-! ### When a declaration is refused -/

/-- A local is refused if its name is that of a procedure, a class, a parameter or another local,
or if its procedure is not there. -/
theorem declare_procedure_eq_none_iff {ordinal : Nat} {v : Variable} :
    names.declare (.procedure ordinal) v = none ↔
      v.name ∈ names.procedures.map (·.name) ∨ v.name ∈ names.classes.map (·.name) ∨
        ∀ p, names.procedures[ordinal]? = some p → v.name ∈ p.used := by
  simp only [declare, procedure?, class?, Bool.or_eq_true, isSome_findIdx?_name, any_name]
  by_cases htaken : v.name ∈ names.procedures.map (·.name) ∨ v.name ∈ names.classes.map (·.name)
  · rw [if_pos htaken]
    exact iff_of_true rfl (or_assoc.mp (Or.inl htaken))
  · rw [if_neg htaken, ← or_assoc, or_iff_right htaken]
    cases hp : names.procedures[ordinal]? with
    | none => simp
    | some p =>
      simp only [Option.some.injEq, forall_eq', Signature.used, List.mem_append]
      split
      · rename_i hused
        exact iff_of_true rfl hused
      · rename_i hfree
        exact iff_of_false (by simp) hfree

/-- A declaration is refused if and only if its name is in use or its procedure is not there. -/
theorem enter_eq_none_iff {d : Declaration} : names.enter d = none ↔ names.Refuses d := by
  cases d with
  | procedure name returns parameters =>
    simp only [enter, declareProcedure, Refuses, ← taken_iff, Option.map_eq_none_iff]
    simp
  | shape c =>
    simp only [enter, declareClass, Refuses, ← taken_iff, Option.map_eq_none_iff]
    simp
  | cell scope v =>
    rw [enter, Option.map_eq_none_iff]
    cases scope with
    | top =>
      simp only [declare, Refuses, ← taken_iff]
      simp
    | procedure ordinal => exact declare_procedure_eq_none_iff

/-- Cases of a declaration that is entered. -/
private theorem cases_of_enter {d : Declaration} (h : names.enter d = some later) :
    (∃ scope v slot, d = .cell scope v ∧ names.declare scope v = some (slot, later)) ∨
    (∃ name returns parameters ordinal, d = .procedure name returns parameters ∧
      names.declareProcedure ⟨name, returns, parameters, []⟩ = some (ordinal, later)) ∨
    ∃ c number, d = .shape c ∧ names.declareClass c = some (number, later) := by
  cases d with
  | cell scope v =>
    obtain ⟨⟨slot, opened⟩, hdeclare, rfl⟩ := Option.map_eq_some_iff.mp h
    exact Or.inl ⟨scope, v, slot, rfl, hdeclare⟩
  | procedure name returns parameters =>
    obtain ⟨⟨ordinal, opened⟩, hdeclare, rfl⟩ := Option.map_eq_some_iff.mp h
    exact Or.inr (Or.inl ⟨name, returns, parameters, ordinal, rfl, hdeclare⟩)
  | shape c =>
    obtain ⟨⟨number, opened⟩, hdeclare, rfl⟩ := Option.map_eq_some_iff.mp h
    exact Or.inr (Or.inr ⟨c, number, rfl, hdeclare⟩)

/-! ### Growth -/

private theorem grows_of_enter {d : Declaration} (h : names.enter d = some later) :
    names.Grows later := by
  rcases cases_of_enter h with ⟨scope, v, slot, -, hdeclare⟩ | ⟨_, _, _, _, -, hdeclare⟩ |
    ⟨c, number, -, hdeclare⟩
  · exact grows_of_declare hdeclare
  · exact (extends_of_procedure hdeclare (.refl later)).grows
  · exact (extends_of_declareClass hdeclare).grows

private theorem grows_attempt (names : Names) (d : Declaration) :
    names.Grows (names.attempt d) := by
  unfold attempt
  cases hentered : names.enter d with
  | none => exact .refl names
  | some later => exact grows_of_enter hentered

private theorem grows_attemptAll (names : Names) (ds : List Declaration) :
    names.Grows (names.attemptAll ds) := by
  induction ds generalizing names with
  | nil => exact .refl names
  | cons d ds ih => exact (names.grows_attempt d).trans (ih (names.attempt d))

/-! ### Declarations keep the tables unambiguous -/

/-- A local that is added leaves the names of the procedures as they are. -/
private theorem map_name_set_local {ordinal : Nat} {p : Signature}
    (hp : names.procedures[ordinal]? = some p) (locals : List Variable) :
    (names.procedures.set ordinal { p with locals }).map (·.name) =
      names.procedures.map (·.name) := by
  refine List.ext_getElem? fun i => ?_
  rw [List.getElem?_map, List.getElem?_map, List.getElem?_set]
  split
  · rename_i hi
    subst hi
    rw [if_pos (List.getElem?_eq_some_iff.mp hp).1, hp]
    rfl
  · rfl

/-- A name that is free may stand anywhere among the others. -/
private theorem nodup_insert {front behind : List String} {name : String}
    (h : (front ++ behind).Nodup) (hfree : name ∉ front ++ behind) :
    (front ++ name :: behind).Nodup :=
  List.nodup_middle.mpr (List.nodup_cons.mpr ⟨hfree, h⟩)

/-- A new local keeps the names in its procedure apart. -/
private theorem unambiguous_addLocal {p : Signature} (h : p.Unambiguous) {v : Variable}
    (hfree : v.name ∉ p.used) : Signature.Unambiguous { p with locals := p.locals ++ [v] } := by
  rw [Signature.used, List.mem_append, not_or] at hfree
  constructor
  · rw [List.map_append]
    exact nodup_insert (by simpa using h.locals) (by simpa using hfree.2)
  · intro w hw
    rcases List.mem_append.mp hw with hold | hnew
    · exact h.apart w hold
    · rw [List.mem_singleton.mp hnew]
      exact hfree.1

namespace Unambiguous

theorem empty : Names.empty.Unambiguous :=
  ⟨List.nodup_nil, fun _ hp => nomatch hp⟩

/-- A local goes to a procedure of unambiguous tables. -/
theorem declare_procedure (h : names.Unambiguous) {ordinal : Nat} {v : Variable} {slot : Slot}
    (hdeclare : names.declare (.procedure ordinal) v = some (slot, later)) : later.Unambiguous := by
  have haccepted : ¬names.Refuses (.cell (.procedure ordinal) v) := by
    rw [← enter_eq_none_iff, enter, hdeclare]
    simp
  obtain ⟨p, hp, -, rfl⟩ := Names.declare_procedure hdeclare
  have hfree : v.name ∉ p.used := by
    intro hused
    refine haccepted (Or.inr (Or.inr fun q hq => ?_))
    rwa [← Option.some.inj (hp.symm.trans hq)]
  refine ⟨?_, fun q hq => ?_⟩
  · simp only [used, map_name_set_local hp]
    exact h.distinct
  · rcases List.mem_or_eq_of_mem_set hq with hold | rfl
    · exact h.signatures q hold
    · exact unambiguous_addLocal (h.signatures p (List.mem_of_getElem? hp)) hfree

/-- A declaration keeps tables unambiguous. -/
theorem enter (h : names.Unambiguous) {d : Declaration} (hd : names.enter d = some later) :
    later.Unambiguous := by
  have haccepted : ¬names.Refuses d := by
    rw [← enter_eq_none_iff, hd]
    simp
  have hdistinct := h.distinct
  rcases cases_of_enter hd with ⟨scope, v, slot, rfl, hdeclare⟩ | ⟨_, _, _, _, rfl, hdeclare⟩ |
    ⟨c, number, rfl, hdeclare⟩
  · cases scope with
    | top =>
      obtain ⟨-, rfl⟩ := declare_top hdeclare
      refine ⟨?_, h.signatures⟩
      rw [used, List.append_assoc] at hdistinct
      rw [Refuses, used, List.append_assoc] at haccepted
      simpa [used] using nodup_insert hdistinct haccepted
    | procedure ordinal => exact h.declare_procedure hdeclare
  · obtain ⟨-, rfl⟩ := declareProcedure_eq_some hdeclare
    refine ⟨?_, fun p hp => ?_⟩
    · simpa [used] using nodup_insert hdistinct haccepted
    · rcases List.mem_append.mp hp with hold | hnew
      · exact h.signatures p hold
      · rw [List.mem_singleton.mp hnew]
        exact ⟨List.nodup_nil, fun _ hv => nomatch hv⟩
  · obtain ⟨-, rfl⟩ := declareClass_eq_some hdeclare
    refine ⟨?_, h.signatures⟩
    rw [← List.append_nil names.used] at hdistinct
    rw [Refuses, ← List.append_nil names.used] at haccepted
    simpa [used] using nodup_insert hdistinct haccepted

theorem attempt (h : names.Unambiguous) (d : Declaration) : (names.attempt d).Unambiguous := by
  unfold Names.attempt
  cases hentered : names.enter d with
  | none => exact h
  | some later => exact h.enter hentered

/-- Declarations in a row keep tables unambiguous, refused ones included. -/
private theorem attemptAll (h : names.Unambiguous) (ds : List Declaration) :
    (names.attemptAll ds).Unambiguous := by
  induction ds generalizing names with
  | nil => exact h
  | cons d ds ih => exact ih (h.attempt d)

/-! ### In unambiguous tables a name leads to its entry -/

theorem globals (h : names.Unambiguous) : (names.globals.map (·.name)).Nodup :=
  (List.nodup_append.mp (List.nodup_append.mp h.distinct).1).1

theorem procedures (h : names.Unambiguous) : (names.procedures.map (·.name)).Nodup :=
  (List.nodup_append.mp (List.nodup_append.mp h.distinct).1).2.1

theorem classes (h : names.Unambiguous) : (names.classes.map (·.name)).Nodup :=
  (List.nodup_append.mp h.distinct).2.1

/-- A local is what its name means in its procedure. -/
private theorem resolve_own (h : names.Unambiguous) {scope : Scope} {i : Nat} {name : String}
    (hname : names.slotName? scope (.own i) = some name) :
    names.resolve scope name = some (.own i) := by
  obtain ⟨p, hp, hlocal⟩ := Option.bind_eq_some_iff.mp hname
  obtain ⟨v, hv, rfl⟩ := Option.map_eq_some_iff.mp hlocal
  obtain ⟨ordinal, rfl, hsignature⟩ := signature?_eq_some hp
  have hp' := h.signatures p (List.mem_of_getElem? hsignature)
  have hparameters := findIdx?_name_eq_none (hp'.apart v (List.mem_of_getElem? hv))
  simp only [resolve, hp, Option.bind_some, Signature.slot?, hparameters,
    findIdx?_name_of_nodup hp'.locals hv, Option.map_some]

/-- A global is what its name means at top level, and in every procedure that does not use the
name. -/
private theorem resolve_global (h : names.Unambiguous) {scope : Scope} {i : Nat} {name : String}
    (hname : names.slotName? scope (.global i) = some name)
    (hfree : ∀ p, names.signature? scope = some p → name ∉ p.used) :
    names.resolve scope name = some (.global i) := by
  obtain ⟨v, hv, rfl⟩ := Option.map_eq_some_iff.mp hname
  have hglobal : names.global? v.name = some (.global i) := by
    simp only [global?, findIdx?_name_of_nodup h.globals hv, Option.map_some]
  unfold resolve
  cases hsignature : names.signature? scope with
  | none => exact hglobal
  | some p =>
    have hunused := hfree p hsignature
    rw [Signature.used, List.mem_append, not_or] at hunused
    simp only [Option.bind_some, Signature.slot?, findIdx?_name_eq_none hunused.1,
      findIdx?_name_eq_none hunused.2, Option.map_none]
    exact hglobal

private theorem procedure?_eq (h : names.Unambiguous) {ordinal : Nat} {p : Signature}
    (hp : names.procedures[ordinal]? = some p) : names.procedure? p.name = some ordinal :=
  findIdx?_name_of_nodup h.procedures hp

private theorem class?_eq (h : names.Unambiguous) {number : Nat} {c : ClassShape}
    (hc : names.classes[number]? = some c) : names.class? c.name = some number :=
  findIdx?_name_of_nodup h.classes hc

end Unambiguous

/-! ### What is handed out stays -/

/-- In a scope a variable is found by its name under a slot, which holds what it was declared to
hold. -/
structure Finds (names : Names) (scope : Scope) (v : Variable) (slot : Slot) : Prop where
  resolve : names.resolve scope v.name = some slot
  type : names.slotType? scope slot = some (v.type, v.constant)

/-- A declared variable is found in its scope ever after, and a global also in every procedure that
does not use its name. -/
private theorem finds_of_declare {last : Names} {scope : Scope} {v : Variable} {slot : Slot}
    (hdeclare : names.declare scope v = some (slot, later)) (hgrows : later.Grows last)
    (hlast : last.Unambiguous) :
    last.Finds scope v slot ∧ (scope = .top → ∀ ordinal,
      (∀ p, last.procedures[ordinal]? = some p → v.name ∉ p.used) →
        last.Finds (.procedure ordinal) v slot) := by
  obtain ⟨hname, htype⟩ := slot_of_declare hdeclare
  have hname := hgrows.slotName? hname
  have htype := hgrows.slotType? htype
  cases scope with
  | top =>
    obtain ⟨rfl, -⟩ := declare_top hdeclare
    refine ⟨⟨hlast.resolve_global hname (fun _ hp => nomatch hp), htype⟩, fun _ ordinal hfree => ?_⟩
    exact ⟨hlast.resolve_global hname hfree, htype⟩
  | procedure ordinal =>
    obtain ⟨p, -, rfl, -⟩ := Names.declare_procedure hdeclare
    exact ⟨⟨hlast.resolve_own hname, htype⟩, fun htop => nomatch htop⟩

/-- Tables that declarations alone have filled, in any order, in any scopes and refused ones
included, are unambiguous. A declaration is refused just when its name is in use or its procedure is
not there, and then it changes nothing. What one hands out stays: after any further declarations a
variable is found by its name under its slot, with its type, in its own scope and for a global also
in every procedure that does not use the name; and a procedure and a class are found under their
ordinal and their number. -/
theorem declarations_unambiguous (earlier : List Declaration) :
    let names := Names.empty.attemptAll earlier
    names.Unambiguous ∧
    (∀ d, (names.enter d = none ↔ names.Refuses d) ∧
      (names.enter d = none → names.attempt d = names)) ∧
    (∀ scope v slot opened, names.declare scope v = some (slot, opened) → ∀ more,
      let last := opened.attemptAll more
      last.Finds scope v slot ∧ (scope = .top → ∀ ordinal,
        (∀ p, last.procedures[ordinal]? = some p → v.name ∉ p.used) →
          last.Finds (.procedure ordinal) v slot)) ∧
    (∀ name returns parameters ordinal opened,
      names.declareProcedure ⟨name, returns, parameters, []⟩ = some (ordinal, opened) → ∀ more,
        let last := opened.attemptAll more
        last.procedure? name = some ordinal ∧ ∃ locals,
          last.procedures[ordinal]? = some ⟨name, returns, parameters, locals⟩) ∧
    ∀ c number opened, names.declareClass c = some (number, opened) → ∀ more,
      let last := opened.attemptAll more
      last.class? c.name = some number ∧ last.classes[number]? = some c := by
  intro names
  have hnames : names.Unambiguous := Unambiguous.empty.attemptAll earlier
  refine ⟨hnames, fun d => ⟨enter_eq_none_iff, fun hrefused => ?_⟩, ?_, ?_, ?_⟩
  · rw [attempt, hrefused, Option.getD_none]
  · intro scope v slot opened hdeclare more last
    have hopened : opened.Unambiguous :=
      hnames.enter (d := .cell scope v) (by rw [enter, hdeclare, Option.map_some])
    exact finds_of_declare hdeclare (opened.grows_attemptAll more) (hopened.attemptAll more)
  · intro name returns parameters ordinal opened hdeclare more last
    have hopened : opened.Unambiguous := hnames.enter (d := .procedure name returns parameters)
      (by rw [enter, hdeclare, Option.map_some])
    have hlast : last.Unambiguous := hopened.attemptAll more
    have hentry : opened.procedures[ordinal]? = some ⟨name, returns, parameters, []⟩ := by
      obtain ⟨rfl, rfl⟩ := declareProcedure_eq_some hdeclare
      exact List.getElem?_concat_length
    obtain ⟨⟨name', returns', parameters', locals⟩, hq, hgrows⟩ :=
      (opened.grows_attemptAll more).procedures hentry
    obtain rfl : name' = name := hgrows.name
    obtain rfl : returns' = returns := hgrows.returns
    obtain rfl : parameters' = parameters := hgrows.parameters
    exact ⟨hlast.procedure?_eq hq, locals, hq⟩
  · intro c number opened hdeclare more last
    have hopened : opened.Unambiguous :=
      hnames.enter (d := .shape c) (by rw [enter, hdeclare, Option.map_some])
    have hlast : last.Unambiguous := hopened.attemptAll more
    obtain ⟨rfl, rfl⟩ := declareClass_eq_some hdeclare
    have hc : last.classes[names.classes.length]? = some c :=
      Grows.getElem?_of_prefix (grows_attemptAll _ more).classes List.getElem?_concat_length
    exact ⟨hlast.class?_eq hc, hc⟩

/-- A global and a procedure with a parameter. -/
def someDeclarations : List Declaration :=
  [.cell .top ⟨"g", .scalar .i64, false⟩, .procedure "f" .u0 [⟨"a", .i64, none⟩]]

/-- Declarations behind them. The third, the fourth and the fifth are refused: a name in use, a
parameter's name, and a procedure that is not there. -/
def moreDeclarations : List Declaration :=
  [.cell .top ⟨"l", .scalar .i8, false⟩, .shape ⟨"C", []⟩, .procedure "g" .u0 [],
    .cell (.procedure 0) ⟨"a", .scalar .i8, false⟩, .cell (.procedure 1) ⟨"b", .scalar .i8, false⟩,
    .procedure "h" .u0 [], .cell (.procedure 0) ⟨"l", .object 0, false⟩]

/-- A local that hides a global is found in its procedure, behind later declarations as well. -/
theorem declarations_unambiguous_hiding :
    ∃ opened, (Names.empty.attemptAll someDeclarations).declare (.procedure 0)
        ⟨"g", .scalar .f64, false⟩ = some (.own 0, opened) ∧
      (opened.attemptAll moreDeclarations).Finds (.procedure 0) ⟨"g", .scalar .f64, false⟩
        (.own 0) ∧
      (opened.attemptAll moreDeclarations).used = ["g", "l", "f", "h", "C"] := by
  have hslot : ((Names.empty.attemptAll someDeclarations).declare (.procedure 0)
      ⟨"g", .scalar .f64, false⟩).map (·.1) = some (.own 0) := by decide +kernel
  obtain ⟨⟨_, opened⟩, hdeclare, rfl⟩ := Option.map_eq_some_iff.mp hslot
  have hused : (((Names.empty.attemptAll someDeclarations).declare (.procedure 0)
      ⟨"g", .scalar .f64, false⟩).map fun r => (r.2.attemptAll moreDeclarations).used) =
        some ["g", "l", "f", "h", "C"] := by decide +kernel
  rw [hdeclare] at hused
  obtain ⟨-, -, hvariables, -⟩ := declarations_unambiguous someDeclarations
  exact ⟨opened, hdeclare, (hvariables _ _ _ _ hdeclare moreDeclarations).1,
    Option.some.inj hused⟩

end Names

end Litany
