import Litany.Proofs.Grammar.Reaching.Program
import Litany.Proofs.Machine.ScopedActs
import Litany.Proofs.Scope.Reading

/-!
# Dotted paths

A place with fields begins at a variable that holds an object, and its path goes from class to
class along declared fields. In an accepted program all places are such, and those that are written
end in a scalar. A text with any other path is refused with a fault that names the path. The main
statement is `dotted_paths`.

A place that is only looked at may also end in a nested object (`nested_object_read`).
-/

namespace Litany

/-! ### Paths through classes -/

/-- A path from a type to another along declared fields. -/
inductive Names.FieldPath (names : Names) : CellType → List String → CellType → Prop where
  | done (type : CellType) : FieldPath names type [] type
  | field {number : Nat} {c : ClassShape} {f : Field} {rest : List String} {found : CellType}
      (hclass : names.classes[number]? = some c) (hfield : f ∈ c.fields)
      (hrest : FieldPath names f.type rest found) :
      FieldPath names (.object number) (f.name :: rest) found

private theorem Names.fieldPath_of_fieldType? {names : Names} {type found : CellType}
    {path : List String}
    (h : names.fieldType? type path = some found) : names.FieldPath type path found := by
  induction path generalizing type with
  | nil =>
    obtain rfl : type = found := by cases type <;> exact Option.some.inj h
    exact .done type
  | cons segment rest ih =>
    cases type with
    | scalar t => cases h
    | object number =>
      obtain ⟨c, hc, hfound⟩ := Option.bind_eq_some_iff.mp h
      obtain ⟨f, hf, hrest⟩ := Option.bind_eq_some_iff.mp hfound
      obtain rfl : f.name = segment := by simpa using List.find?_some hf
      exact .field hc (List.mem_of_find?_eq_some hf) (ih hrest)

/-- The root of a place is a variable that holds an object, and its path follows fields from the
class of the object to the type of the place. -/
structure Place.Dotted (names : Names) (scope : Scope) (p : Place) : Prop where
  name : names.slotName? scope p.slot = some p.root
  path : ∃ number constant, names.slotType? scope p.slot = some (.object number, constant) ∧
    names.FieldPath (.object number) p.path p.type

private theorem Place.Scoped.dotted {names : Names} {scope : Scope} {p : Place}
    (h : p.Scoped names scope) (hpath : p.path ≠ []) : p.Dotted names scope := by
  obtain ⟨rootType, constant, hroot, hfield⟩ := h.type
  obtain ⟨segment, rest, hcons⟩ := List.exists_cons_of_ne_nil hpath
  obtain ⟨number, rfl⟩ := Run.object_of_path hcons hfield
  exact ⟨h.name, number, constant, hroot, Names.fieldPath_of_fieldType? hfield⟩

/-- If an act is about a place with a path, that path follows fields; where it is written, it ends
in a scalar. -/
def Act.FollowsFields (names : Names) (scope : Scope) (a : Act) : Prop :=
  ∀ p, a.place? = some p → p.path ≠ [] →
    p.Dotted names scope ∧ (a = .write p → ∃ t, p.type = .scalar t)

private theorem Act.Scoped.followsFields {names : Names} {scope : Scope} {a : Act}
    (h : a.Scoped names scope) : a.FollowsFields names scope := by
  intro p hp hpath
  refine ⟨(h.place hp).dotted hpath, ?_⟩
  rintro rfl
  exact h.2

namespace Grammar

/-- All places of a program follow fields, in its statements and in the bodies of its procedures. -/
structure PathsFollowed (names : Names) (statements : List Stmt) : Prop where
  top : Allowed (Act.FollowsFields names .top) (Stmt.actsOfAll statements)
  bodies : ∀ p, Stmt.procedure p ∈ statements →
    Allowed (Act.FollowsFields names (.procedure p.ordinal)) (Stmt.actsOfAll p.body)

private theorem pathsFollowed_of_scoped {names later : Names} {statements : List Stmt}
    (h : Program.Scoped names statements later) : PathsFollowed later statements := by
  have hacts := h.acts (.refl later)
  refine ⟨hacts.mono fun _ ha => ha.followsFields, fun p hp => ?_⟩
  have hinstall : Act.install p ∈ Stmt.actsOfAll statements := by
    rw [Stmt.actsOfAll_eq]
    exact List.mem_flatMap.mpr ⟨_, hp, List.mem_singleton_self _⟩
  exact (hacts _ hinstall).2.acts.mono fun _ ha => ha.followsFields

/-- Dotted paths follow declared fields. If a text is accepted, then all its places with a path are
fields of objects, reached through nested classes, and those that are written are scalars. If the
reading of a text reaches a place whose path cannot be followed, or which is to be written and holds
an object, then the text is refused, and the fault names the dotted path and its line. -/
theorem dotted_paths {fetch : Option Fetcher} {fetched : List String} {text : String}
    {stream : Stream} {names : Names}
    (hscan : (Stream.ofText fetch fetched text).outcome = .ok stream) :
    (∀ statements later, parse names stream = (.ok statements, later) →
        PathsFollowed later statements) ∧
      ∀ spot : Spot, ProgramReaches spot names stream.tokens → spot.Refused →
        (parse names stream).1 = .error (.error spot.fault) := by
  refine ⟨fun statements later hparse => ?_, fun spot hreaches hrefused => ?_⟩
  · exact pathsFollowed_of_scoped (scoped_of_parse hscan hparse)
  · exact parse_of_reaches hreaches hrefused

/-- An accepted text has an act that passes a test, if looking for one finds it. -/
theorem exists_act_of_text (text : String) (test : Act → Bool)
    (h : ((Stream.ofText none [] text).outcome.toOption.bind fun stream =>
      (parse Names.empty stream).1.toOption.bind fun statements =>
        (Stmt.actsOfAll statements).find? test).isSome = true) :
    ∃ stream statements later a, (Stream.ofText none [] text).outcome = .ok stream ∧
      parse Names.empty stream = (.ok statements, later) ∧
      a ∈ Stmt.actsOfAll statements ∧ test a = true := by
  obtain ⟨a, hrun⟩ := Option.isSome_iff_exists.mp h
  obtain ⟨stream, hscan, hrun⟩ := Option.bind_eq_some_iff.mp hrun
  obtain ⟨statements, hparse, hfind⟩ := Option.bind_eq_some_iff.mp hrun
  exact ⟨stream, statements, _, a, eq_ok_of_toOption hscan,
    Prod.ext (eq_ok_of_toOption hparse) rfl, List.mem_of_find?_eq_some hfind,
    List.find?_some hfind⟩

/-- The place `b.a.y`, on the first line of a text. -/
def nestedField : PlaceTree :=
  let name (word : String) : Name := ⟨⟨.ident word, word, 1⟩, word, rfl⟩
  let dot : Punct .dot := ⟨⟨.mark .dot, ".", 1⟩, (), rfl⟩
  ⟨name "b", [(dot, name "a"), (dot, name "y")]⟩

/-- A field of a nested object is written, and looking for another one is refused. -/
theorem dotted_paths_nested :
    let classes := "class A \x7b I32 x; \x7d; class B \x7b A a; \x7d b; "
    (∃ stream statements later p,
      (Stream.ofText none [] (classes ++ "b.a.x = 7;")).outcome = .ok stream ∧
      parse Names.empty stream = (.ok statements, later) ∧
      Act.write p ∈ Stmt.actsOfAll statements ∧ p.path = ["a", "x"] ∧ p.Dotted later .top ∧
      ∃ t, p.type = .scalar t) ∧
    ∃ stream spot, (Stream.ofText none [] (classes ++ "b.a.y;")).outcome = .ok stream ∧
      ProgramReaches spot Names.empty stream.tokens ∧ spot.Refused ∧
      spot.fault = ⟨.unknownField, "b.a.y", 1⟩ ∧
      (parse Names.empty stream).1 = .error (.error ⟨.unknownField, "b.a.y", 1⟩) := by
  intro classes
  refine ⟨?_, ?_⟩
  · obtain ⟨stream, statements, later, a, hscan, hparse, ha, hwrite⟩ :=
      exists_act_of_text (classes ++ "b.a.x = 7;")
        (fun
          | .write p => p.path = ["a", "x"]
          | _ => false) (by decide +kernel)
    cases a with
    | write p =>
      have hpath : p.path = ["a", "x"] := of_decide_eq_true hwrite
      obtain ⟨hdotted, hscalar⟩ :=
        ((dotted_paths hscan).1 _ _ hparse).top _ ha p rfl (by simp [hpath])
      exact ⟨stream, statements, later, p, hscan, hparse, ha, hpath, hdotted, hscalar rfl⟩
    | _ => cases hwrite
  · have hrun : ((Stream.ofText none [] classes).outcome.toOption.bind fun front =>
        (Stream.ofText none [] (classes ++ "b.a.y;")).outcome.toOption.filter fun stream =>
          (parse Names.empty front).1.toOption.isSome &&
          let later := (parse Names.empty front).2
          decide (stream.tokens =
              front.tokens ++ (nestedField.yield ++ [⟨.mark .semicolon, ";", 1⟩]) ∧
            later.procedure? "b" = none ∧ later.class? "b" = none ∧
            later.resolve .top "b" = some (.global 0) ∧
            later.slotType? .top (.global 0) = some (.object 1, false) ∧
            later.fieldType? (.object 1) ["a", "y"] = none)).isSome = true := by
      decide +kernel
    obtain ⟨stream, hrun⟩ := Option.isSome_iff_exists.mp hrun
    obtain ⟨front, hfront, hrun⟩ := Option.bind_eq_some_iff.mp hrun
    obtain ⟨hscan, hrun⟩ := Option.filter_eq_some_iff.mp hrun
    obtain ⟨haccepted, hrun⟩ := Bool.and_eq_true_iff.mp hrun
    obtain ⟨htokens, hprocedure, hclass, hslot, hroot, hfield⟩ := of_decide_eq_true hrun
    obtain ⟨statements, hparse⟩ := Option.isSome_iff_exists.mp haccepted
    have hparse : parse Names.empty front = (.ok statements, (parse Names.empty front).2) :=
      Prod.ext (eq_ok_of_toOption hparse) rfl
    obtain ⟨d, -, hlater⟩ := exists_derivation_of_parse hparse
    rw [← hlater] at hprocedure hclass hslot hroot hfield
    have hscan := eq_ok_of_toOption hscan
    have hreaches : ProgramReaches ⟨d.later, .top, nestedField, false⟩ Names.empty
        stream.tokens := by
      refine ⟨d.items, d.statements, d.later, _, d.reads, by rw [d.yields, htokens], ?_⟩
      refine .statement rfl (.expr ?_ (.plain (.first (.read hprocedure rfl ?_ ?_))))
      · simp [nestedField, PlaceTree.yield, opensExpression, hclass]
      · exact .of_cons rfl
      · exact .of_cons rfl
    have hrefused : Spot.Refused ⟨d.later, .top, nestedField, false⟩ :=
      ⟨_, _, _, hslot, hroot, .inl hfield⟩
    have htext : ".".intercalate (nestedField.root.lexeme :: nestedField.path) = "b.a.y" := by
      decide +kernel
    have hfault : Spot.fault ⟨d.later, .top, nestedField, false⟩ =
        ⟨.unknownField, "b.a.y", 1⟩ :=
      congrArg (SyntaxError.mk .unknownField · 1) htext
    refine ⟨stream, _, hscan, hreaches, hrefused, hfault, ?_⟩
    rw [← hfault]
    exact (dotted_paths hscan).2 _ hreaches hrefused

/-- A program is accepted that looks at a nested object as a whole. -/
theorem nested_object_read :
    let text := "class A \x7b I32 x; \x7d; class B \x7b A a; \x7d b; b.a;"
    ∃ stream statements later p, (Stream.ofText none [] text).outcome = .ok stream ∧
      parse Names.empty stream = (.ok statements, later) ∧
      Act.read p ∈ Stmt.actsOfAll statements ∧ p.path = ["a"] ∧ p.type = .object 0 := by
  intro text
  obtain ⟨stream, statements, later, a, hscan, hparse, ha, hread⟩ :=
    exists_act_of_text text
      (fun
        | .read p => p.path = ["a"] ∧ p.type = .object 0
        | _ => false) (by decide +kernel)
  cases a with
  | read p =>
    obtain ⟨hpath, htype⟩ := of_decide_eq_true hread
    exact ⟨stream, statements, later, p, hscan, hparse, ha, hpath, htype⟩
  | _ => cases hread

end Grammar

end Litany
