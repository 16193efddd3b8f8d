import Litany.Proofs.Grammar.Lookahead
import Litany.Proofs.Grammar.Soundness.Statement

/-!
# Parsed programs have derivations

The productions that stand at top level: literals, parameters and procedures, fields and classes,
constants, and a whole program. Parameters and fields are read with the earlier ones at hand, so
that each name can be refused at once; the derivation asks only at the end that all names differ.
`exists_derivation_of_parse` is the conclusion.
-/

namespace Litany

namespace Grammar

open Parse

variable {s s' : Cursor}

/-- What is read as a literal is one, with its sign. -/
private theorem literal_sound {v : Value} (h : literal s = .ok v s') :
    ∃ tree : LiteralTree, s.Past tree.yield s' ∧ s'.names = s.names ∧ tree.reading = some v := by
  obtain ⟨negative, s₁, haccept, h⟩ := bind_eq_ok.mp h
  obtain ⟨t, s₂, hadvance, hvalue⟩ := bind_eq_ok.mp h
  obtain ⟨hpast, hnames⟩ := advance_eq_ok hadvance
  cases negative with
  | false =>
    obtain rfl := accept_eq_false haccept
    have hleaf : ∀ w, t.kind.literal? = some w → v = w ∧ s₂ = s' → ∃ tree : LiteralTree,
        s.Past tree.yield s' ∧ s'.names = s.names ∧ tree.reading = some v := by
      rintro w hfits ⟨rfl, rfl⟩
      exact ⟨.plain ⟨t, v, hfits⟩, hpast, hnames, rfl⟩
    cases hkind : t.kind with
    | int n | float x | quoted raw =>
      rw [hkind] at hvalue
      exact hleaf _ (by rw [hkind]; rfl) (pure_eq_ok.mp hvalue)
    | keyword k =>
      rw [hkind] at hvalue
      cases k with
      | yes | no => exact hleaf _ (by rw [hkind]; rfl) (pure_eq_ok.mp hvalue)
      | _ => cases hvalue
    | _ =>
      rw [hkind] at hvalue
      cases hvalue
  | true =>
    obtain ⟨minus, hminus, hminusNames⟩ := accept_eq_true haccept
    have hleaf : ∀ w, t.kind.number? = some w → w.negate? = some v → s₂ = s' →
        ∃ tree : LiteralTree, s.Past tree.yield s' ∧ s'.names = s.names ∧
          tree.reading = some v := by
      rintro w hfits hnegate rfl
      exact ⟨.negated minus ⟨t, w, hfits⟩, hminus.cons hpast, hnames.trans hminusNames, hnegate⟩
    cases hkind : t.kind with
    | int n | float x =>
      rw [hkind] at hvalue
      obtain ⟨rfl, rfl⟩ := pure_eq_ok.mp hvalue
      exact hleaf _ (by rw [hkind]; rfl) rfl rfl
    | keyword k =>
      rw [hkind] at hvalue
      cases k <;> cases hvalue
    | _ =>
      rw [hkind] at hvalue
      cases hvalue

/-! ### Procedures -/

/-- What is read as a parameter is one, and no earlier one has its name. -/
private theorem parameter_sound {earlier : List Parameter} {p : Parameter}
    (h : parameter earlier s = .ok p s') :
    ∃ tree : ParameterTree, s.Past tree.yield s' ∧ s'.names = s.names ∧
      tree.reading = some p ∧ ∀ q ∈ earlier, q.name ≠ p.name := by
  obtain ⟨found, s₁, htype, h⟩ := bind_eq_ok.mp h
  obtain ⟨type, rfl, htypePast, htypeNames⟩ := take_eq_ok htype
  obtain ⟨t, s₂, hident, h⟩ := bind_eq_ok.mp h
  obtain ⟨name, rfl, hname, hnameNames⟩ := ident_eq_ok hident
  split at h
  · obtain ⟨_, _, h, -⟩ := bind_eq_ok.mp h
    exact absurd h throw_ne_ok
  · rename_i hfresh
    have hdistinct : ∀ q ∈ earlier, q.name ≠ name.lexeme := by
      simpa using hfresh
    obtain ⟨r, s₃, htake, h⟩ := bind_eq_ok.mp h
    have hpast := htypePast.cons hname
    cases r with
    | none =>
      obtain rfl := take?_eq_none htake
      obtain ⟨rfl, rfl⟩ := pure_eq_ok.mp h
      exact ⟨⟨type, name, none⟩, hpast, hnameNames.trans htypeNames, rfl, hdistinct⟩
    | some r =>
      obtain ⟨mark, -, hmark, hmarkNames⟩ := take?_eq_some htake
      obtain ⟨v, s₄, hliteral, h⟩ := bind_eq_ok.mp h
      obtain ⟨rfl, rfl⟩ := pure_eq_ok.mp h
      obtain ⟨value, hvalue, hvalueNames, hvalueReading⟩ := literal_sound hliteral
      refine ⟨⟨type, name, some (mark, value)⟩, hpast.trans (hmark.cons hvalue), ?_, ?_, hdistinct⟩
      · rw [hvalueNames, hmarkNames, hnameNames, htypeNames]
      · simp [ParameterTree.reading, readOption, hvalueReading]

/-- A list of different names stays one when a new name is put behind it. -/
private theorem nodup_map_append_singleton {α : Type} {f : α → String} {as : List α} {a : α}
    (h : (as.map f).Nodup) (hnew : ∀ b ∈ as, f b ≠ f a) : ((as ++ [a]).map f).Nodup := by
  rw [List.map_append, List.nodup_append]
  refine ⟨h, by simp, ?_⟩
  intro x hx y hy
  obtain ⟨b, hb, rfl⟩ := List.mem_map.mp hx
  obtain rfl : y = f a := by simpa using hy
  exact hnew b hb

/-- What is read behind the first parameter are parameters with a comma in front of each, all of
different names. -/
private theorem laterParameters_sound {ps qs : List Parameter}
    (h : fold laterParameter ps s = .ok qs s') :
    ∃ (trees : List (Punct .comma × ParameterTree)) (later : List Parameter),
      s.Past (yieldBehind ParameterTree.yield trees) s' ∧ s'.names = s.names ∧
        (trees.map (·.2)).mapM ParameterTree.reading = some later ∧ qs = ps ++ later ∧
        ((ps.map (·.name)).Nodup → (qs.map (·.name)).Nodup) := by
  refine fold_induction (P := fun s ps s' qs =>
    ∃ (trees : List (Punct .comma × ParameterTree)) (later : List Parameter),
      s.Past (yieldBehind ParameterTree.yield trees) s' ∧ s'.names = s.names ∧
        (trees.map (·.2)).mapM ParameterTree.reading = some later ∧ qs = ps ++ later ∧
        ((ps.map (·.name)).Nodup → (qs.map (·.name)).Nodup))
    (fun s ps => ⟨[], [], .refl s, rfl, rfl, by simp, id⟩) ?_ ?_ h
  · intro s s' ps hnone
    obtain ⟨r, s₁, hbehind, hnone⟩ := bind_eq_ok.mp hnone
    cases r with
    | none =>
      obtain ⟨-, rfl⟩ := pure_eq_ok.mp hnone
      exact behind_eq_none hbehind
    | some r => exact absurd (pure_eq_ok.mp hnone).1 (by simp)
  · rintro s s₁ s₂ ps qs rs hstep ⟨trees, later, htrees, htreesNames, htreesReading, rfl, hnodup⟩
    obtain ⟨r, s₃, hbehind, hstep⟩ := bind_eq_ok.mp hstep
    cases r with
    | none => exact absurd (pure_eq_ok.mp hstep).1 (by simp)
    | some p =>
      obtain ⟨hqs, rfl⟩ := pure_eq_ok.mp hstep
      obtain rfl := Option.some.inj hqs
      obtain ⟨comma, s₄, hcomma, hcommaNames, hparameter⟩ := behind_eq_some hbehind
      obtain ⟨tree, htree, htreeNames, htreeReading, hdistinct⟩ := parameter_sound hparameter
      refine ⟨(comma, tree) :: trees, p :: later, hcomma.cons (htree.trans htrees), ?_, ?_, ?_, ?_⟩
      · rw [htreesNames, htreeNames, hcommaNames]
      · simp [List.mapM_cons, htreeReading, htreesReading]
      · simp
      · exact fun hps => hnodup (nodup_map_append_singleton hps hdistinct)

/-- What is read between the parentheses of a procedure are parameters of different names. -/
theorem parameters_sound {ps : List Parameter} (h : parameters s = .ok ps s') :
    ∃ (tree : Option (ParameterTree × List (Punct .comma × ParameterTree)))
      (closing : Punct .rightParen),
      s.Past (ParameterTree.yieldAll tree ++ [closing.token]) s' ∧ s'.names = s.names ∧
        ParameterTree.readingAll tree = some ps := by
  obtain ⟨closes, s₁, haccept, h⟩ := bind_eq_ok.mp h
  cases closes with
  | true =>
    obtain ⟨rfl, rfl⟩ := pure_eq_ok.mp h
    obtain ⟨closing, hpast, hnames⟩ := accept_eq_true haccept
    exact ⟨none, closing, hpast, hnames, rfl⟩
  | false =>
    obtain rfl := accept_eq_false haccept
    obtain ⟨first, s₂, hfirst, h⟩ := bind_eq_ok.mp h
    obtain ⟨qs, s₃, hrest, h⟩ := bind_eq_ok.mp h
    obtain ⟨_, s₄, hclosing, h⟩ := bind_eq_ok.mp h
    obtain ⟨rfl, rfl⟩ := pure_eq_ok.mp h
    obtain ⟨tree, htree, htreeNames, htreeReading, -⟩ := parameter_sound hfirst
    obtain ⟨trees, later, htrees, htreesNames, htreesReading, rfl, hnodup⟩ :=
      laterParameters_sound hrest
    obtain ⟨closing, hclose, hcloseNames⟩ := expect_eq_ok hclosing
    refine ⟨some (tree, trees), closing, (htree.trans htrees).trans hclose, ?_, ?_⟩
    · rw [hcloseNames, htreesNames, htreeNames]
    · have hdifferent : ((first :: later).map (·.name)).Nodup := hnodup (by simp)
      have hall : (tree :: trees.map (·.2)).mapM ParameterTree.reading = some (first :: later) := by
        simp [List.mapM_cons, htreeReading, htreesReading]
      simp only [ParameterTree.readingAll, hall, Option.bind_eq_bind, Option.bind_some,
        if_pos hdifferent, Option.pure_def, List.singleton_append]

/-- What is read as a procedure is one: it is entered behind its parameters, and its body is read in
its own scope. -/
private theorem procedure_sound {n : Nat} {a : Stmt} (h : procedure n s = .ok a s') :
    ∃ tree : ItemTree, s.Past tree.yield s' ∧ tree.reading s.names = some (a, s'.names) := by
  obtain ⟨found, s₁, htype, h⟩ := bind_eq_ok.mp h
  obtain ⟨type, rfl, htypePast, htypeNames⟩ := take_eq_ok htype
  obtain ⟨t, s₂, hident, h⟩ := bind_eq_ok.mp h
  obtain ⟨name, rfl, hname, hnameNames⟩ := ident_eq_ok hident
  obtain ⟨_, s₃, hopening, h⟩ := bind_eq_ok.mp h
  obtain ⟨opening, hopen, hopenNames⟩ := expect_eq_ok hopening
  obtain ⟨ps, s₄, hparameters, h⟩ := bind_eq_ok.mp h
  obtain ⟨tree, closing, htree, htreeNames, htreeReading⟩ := parameters_sound hparameters
  obtain ⟨ordinal, s₅, henter, h⟩ := bind_eq_ok.mp h
  obtain ⟨hdeclare, hrest, hend⟩ := enter_eq_ok henter
  rw [htreeNames, hopenNames, hnameNames, htypeNames] at hdeclare
  obtain ⟨b, s₆, hblock, h⟩ := bind_eq_ok.mp h
  obtain ⟨begins, body, ends, hbody, hbodyReading⟩ := block_sound statement_sound hblock
  rw [names_bind] at h
  cases hprocedure : s₆.names.procedures[ordinal]? with
  | none =>
    rw [hprocedure] at h
    exact absurd h throw_ne_ok
  | some p =>
    simp only [hprocedure] at h
    obtain ⟨rfl, rfl⟩ := pure_eq_ok.mp h
    have hhead := htypePast.trans (hname.trans (hopen.trans htree))
    have hentered : s₄.Past [] s₅ := ⟨by simp [hrest], hend⟩
    refine ⟨.procedure type name opening tree closing begins body ends, ?_, ?_⟩
    · simpa [ItemTree.yield] using (hhead.trans hentered).trans hbody
    · simp [ItemTree.reading, htreeReading, hdeclare, hbodyReading, hprocedure]

/-! ### Classes -/

/-- What is read as the type of fields is a scalar type or a known class. -/
private theorem fieldType_sound {type : CellType} (h : fieldType s = .ok type s') :
    ∃ tree : TypeTree, s.Past [tree.token] s' ∧ s'.names = s.names ∧
      tree.reading s.names = some type := by
  obtain ⟨t, s₁, hadvance, htype⟩ := bind_eq_ok.mp h
  obtain ⟨hpast, hnames⟩ := advance_eq_ok hadvance
  cases hkind : t.kind with
  | scalar scalar =>
    rw [hkind] at htype
    obtain ⟨rfl, rfl⟩ := pure_eq_ok.mp htype
    exact ⟨.scalar ⟨t, scalar, by rw [hkind]; rfl⟩, hpast, hnames, rfl⟩
  | ident name =>
    rw [hkind] at htype
    simp only [names_bind] at htype
    cases hclass : s₁.names.class? name with
    | none =>
      rw [hclass] at htype
      exact absurd htype throw_ne_ok
    | some number =>
      rw [hclass] at htype
      obtain ⟨rfl, rfl⟩ := pure_eq_ok.mp htype
      rw [hnames] at hclass
      exact ⟨.object ⟨t, name, by rw [hkind]; rfl⟩, hpast, hnames,
        by simp [TypeTree.reading, hclass]⟩
  | _ =>
    rw [hkind] at htype
    cases htype

/-- What is read as a field is a name that no earlier field has. -/
private theorem field_sound {type : CellType} {earlier fields : List Field}
    (h : field type earlier s = .ok fields s') :
    ∃ name : Name, s.Past [name.token] s' ∧ s'.names = s.names ∧
      fields = earlier ++ [⟨name.lexeme, type⟩] ∧
        ((earlier.map (·.name)).Nodup → (fields.map (·.name)).Nodup) := by
  obtain ⟨t, s₁, hident, h⟩ := bind_eq_ok.mp h
  obtain ⟨name, rfl, hname, hnameNames⟩ := ident_eq_ok hident
  split at h
  · obtain ⟨_, _, h, -⟩ := bind_eq_ok.mp h
    exact absurd h throw_ne_ok
  · rename_i hfresh
    obtain ⟨rfl, rfl⟩ := pure_eq_ok.mp h
    have hdistinct : ∀ f ∈ earlier, f.name ≠ name.lexeme := by
      simpa using hfresh
    exact ⟨name, hname, hnameNames, rfl, fun h => nodup_map_append_singleton h hdistinct⟩

/-- What is read behind the first field of a group are names with a comma in front of each. -/
private theorem laterFields_sound {type : CellType} {earlier fields : List Field}
    (h : fold (fun earlier => behind .comma (field type earlier)) earlier s = .ok fields s') :
    ∃ names : List (Punct .comma × Name),
      s.Past (yieldBehind (fun name : Name => [name.token]) names) s' ∧ s'.names = s.names ∧
        fields = earlier ++ (names.map (·.2)).map (fun name => ⟨name.lexeme, type⟩) ∧
        ((earlier.map (·.name)).Nodup → (fields.map (·.name)).Nodup) := by
  refine fold_induction (P := fun s earlier s' fields => ∃ names : List (Punct .comma × Name),
      s.Past (yieldBehind (fun name : Name => [name.token]) names) s' ∧ s'.names = s.names ∧
        fields = earlier ++ (names.map (·.2)).map (fun name => ⟨name.lexeme, type⟩) ∧
        ((earlier.map (·.name)).Nodup → (fields.map (·.name)).Nodup))
    (fun s earlier => ⟨[], .refl s, rfl, by simp, id⟩) behind_eq_none ?_ h
  rintro s s₁ s₂ earlier more fields hstep ⟨names, hlater, hlaterNames, rfl, hnodup⟩
  obtain ⟨comma, s₃, hcomma, hcommaNames, hfield⟩ := behind_eq_some hstep
  obtain ⟨name, hname, hnameNames, rfl, hdistinct⟩ := field_sound hfield
  refine ⟨(comma, name) :: names, hcomma.cons (hname.trans hlater), ?_, by simp, ?_⟩
  · rw [hlaterNames, hnameNames, hcommaNames]
  · exact fun h => hnodup (hdistinct h)

/-- What is read as a group of fields is a type with names behind it. -/
theorem fieldGroup_sound {earlier fields : List Field}
    (h : fieldGroup earlier s = .ok fields s') :
    ∃ (tree : FieldGroupTree) (more : List Field), s.Past tree.yield s' ∧ s'.names = s.names ∧
      tree.reading s.names = some more ∧ fields = earlier ++ more ∧
        ((earlier.map (·.name)).Nodup → (fields.map (·.name)).Nodup) := by
  obtain ⟨type, s₁, htype, h⟩ := bind_eq_ok.mp h
  obtain ⟨typeTree, htypePast, htypeNames, htypeReading⟩ := fieldType_sound htype
  obtain ⟨begun, s₂, hfirst, h⟩ := bind_eq_ok.mp h
  obtain ⟨first, hfirstPast, hfirstNames, rfl, hfirstDistinct⟩ := field_sound hfirst
  obtain ⟨all, s₃, hlater, h⟩ := bind_eq_ok.mp h
  obtain ⟨rest, hrestPast, hrestNames, rfl, hrestDistinct⟩ := laterFields_sound hlater
  obtain ⟨_, s₄, hsemicolon, h⟩ := bind_eq_ok.mp h
  obtain ⟨rfl, rfl⟩ := pure_eq_ok.mp h
  obtain ⟨semicolon, hsemicolonPast, hsemicolonNames⟩ := expect_eq_ok hsemicolon
  refine ⟨⟨typeTree, first, rest, semicolon⟩,
    (first :: rest.map (·.2)).map fun name => ⟨name.lexeme, type⟩, ?_, ?_, ?_, by simp, ?_⟩
  · exact htypePast.cons (hfirstPast.cons (hrestPast.trans hsemicolonPast))
  · rw [hsemicolonNames, hrestNames, hfirstNames, htypeNames]
  · simp [FieldGroupTree.reading, htypeReading]
  · exact fun h => hrestDistinct (hfirstDistinct h)

/-- What is read between the braces of a class are groups of fields, all of different names. -/
theorem fieldGroups_sound {earlier fields : List Field}
    (h : fold (fun earlier => unlessAt .rightBrace (fieldGroup earlier)) earlier s =
      .ok fields s') :
    ∃ (groups : List FieldGroupTree) (more : List (List Field)),
      s.Past (groups.flatMap FieldGroupTree.yield) s' ∧ s'.names = s.names ∧
        groups.mapM (FieldGroupTree.reading s.names) = some more ∧
        fields = earlier ++ more.flatten ∧
        ((earlier.map (·.name)).Nodup → (fields.map (·.name)).Nodup) := by
  refine fold_induction (P := fun s earlier s' fields =>
      ∃ (groups : List FieldGroupTree) (more : List (List Field)),
        s.Past (groups.flatMap FieldGroupTree.yield) s' ∧ s'.names = s.names ∧
          groups.mapM (FieldGroupTree.reading s.names) = some more ∧
          fields = earlier ++ more.flatten ∧
          ((earlier.map (·.name)).Nodup → (fields.map (·.name)).Nodup))
    (fun s earlier => ⟨[], [], .refl s, rfl, rfl, by simp, id⟩) unlessAt_eq_none ?_ h
  rintro s s₁ s₂ earlier begun fields hstep ⟨groups, more, hlater, hnames, hreading, rfl, hnodup⟩
  obtain ⟨tree, own, htree, htreeNames, htreeReading, rfl, hdistinct⟩ :=
    fieldGroup_sound (unlessAt_eq_some hstep)
  rw [htreeNames] at hreading
  refine ⟨tree :: groups, own :: more, htree.trans hlater, hnames.trans htreeNames, ?_, by simp, ?_⟩
  · simp [List.mapM_cons, htreeReading, hreading]
  · exact fun h => hnodup (hdistinct h)

/-- What is read behind the word of a class is a class with its fields, and with objects declared
behind it or not. -/
private theorem classDef_sound {n : Nat} {a : Stmt} (word : Word .classDef)
    (h : classDef n s = .ok a s') :
    ∃ (tree : ItemTree) (behind : List Token), tree.yield = word.token :: behind ∧
      s.Past behind s' ∧ tree.reading s.names = some (a, s'.names) := by
  obtain ⟨t, s₁, hident, h⟩ := bind_eq_ok.mp h
  obtain ⟨name, rfl, hname, hnameNames⟩ := ident_eq_ok hident
  obtain ⟨_, s₂, hopening, h⟩ := bind_eq_ok.mp h
  obtain ⟨opening, hopen, hopenNames⟩ := expect_eq_ok hopening
  obtain ⟨fields, s₃, hfields, h⟩ := bind_eq_ok.mp h
  obtain ⟨groups, more, hgroups, hgroupsNames, hgroupsReading, rfl, hdistinct⟩ :=
    fieldGroups_sound hfields
  obtain ⟨_, s₄, hclosing, h⟩ := bind_eq_ok.mp h
  obtain ⟨closing, hclose, hcloseNames⟩ := expect_eq_ok hclosing
  obtain ⟨number, s₅, henter, h⟩ := bind_eq_ok.mp h
  obtain ⟨hdeclare, hrest, hend⟩ := enter_eq_ok henter
  have hentered : s₄.Past [] s₅ := ⟨by simp [hrest], hend⟩
  have hhead := hname.trans (hopen.trans (hgroups.trans (hclose.trans hentered)))
  have hall : FieldGroupTree.readingAll s.names groups = some more.flatten := by
    rw [hopenNames, hnameNames] at hgroupsReading
    have hdifferent : (more.flatten.map (·.name)).Nodup := hdistinct List.nodup_nil
    simp only [FieldGroupTree.readingAll, hgroupsReading, Option.bind_eq_bind, Option.bind_some,
      if_pos hdifferent, Option.pure_def]
  rw [hcloseNames, hgroupsNames, hopenNames, hnameNames, List.nil_append] at hdeclare
  obtain ⟨vars, s₆, hobjects, h⟩ := bind_eq_ok.mp h
  obtain ⟨rfl, rfl⟩ := pure_eq_ok.mp h
  rw [classObjects, peek_bind] at hobjects
  cases hnext : s₅.rest.head?.bind fun t => Kind.ident? t.kind with
  | none =>
    simp only [hnext] at hobjects
    obtain ⟨_, s₇, hsemicolon, hobjects⟩ := bind_eq_ok.mp hobjects
    obtain ⟨rfl, rfl⟩ := pure_eq_ok.mp hobjects
    obtain ⟨semicolon, hsemicolonPast, hsemicolonNames⟩ := expect_eq_ok hsemicolon
    refine ⟨.classDef word name opening groups closing semicolon, _, rfl, ?_, ?_⟩
    · simpa using hhead.trans hsemicolonPast
    · simp [ItemTree.reading, hall, hdeclare, hsemicolonNames]
  | some next =>
    simp only [hnext] at hobjects
    obtain ⟨tree, htree, htreeReading⟩ := declarators_sound operand_sound hobjects
    refine ⟨.classDefWith word name opening groups closing tree, _, rfl, ?_, ?_⟩
    · simpa using hhead.trans htree
    · simp [ItemTree.reading, hall, hdeclare, htreeReading]

/-! ### Constants -/

/-- What is read behind the directive of a constant is a name with a literal, and a semicolon or
none. -/
private theorem define_sound {a : Stmt} (directive : Leaf Kind.define?) (h : define s = .ok a s') :
    ∃ (tree : ItemTree) (behind : List Token), tree.yield = directive.token :: behind ∧
      s.Past behind s' ∧ tree.reading s.names = some (a, s'.names) := by
  obtain ⟨t, s₁, hident, h⟩ := bind_eq_ok.mp h
  obtain ⟨name, rfl, hname, hnameNames⟩ := ident_eq_ok hident
  obtain ⟨v, s₂, hliteral, h⟩ := bind_eq_ok.mp h
  obtain ⟨value, hvalue, hvalueNames, hvalueReading⟩ := literal_sound hliteral
  obtain ⟨ends, s₃, haccept, h⟩ := bind_eq_ok.mp h
  obtain ⟨slot, s₄, henter, h⟩ := bind_eq_ok.mp h
  obtain ⟨rfl, rfl⟩ := pure_eq_ok.mp h
  obtain ⟨hdeclare, hrest, hend⟩ := enter_eq_ok henter
  have hentered : s₃.Past [] s₄ := ⟨by simp [hrest], hend⟩
  have hsemicolon : ∃ semicolon : Option (Punct .semicolon),
      s₂.Past (StmtTree.yieldOption (fun mark : Punct .semicolon => [mark.token]) semicolon) s₃ ∧
        s₃.names = s₂.names := by
    cases ends with
    | true =>
      obtain ⟨mark, hmark, hmarkNames⟩ := accept_eq_true haccept
      exact ⟨some mark, hmark, hmarkNames⟩
    | false =>
      obtain rfl := accept_eq_false haccept
      exact ⟨none, .refl _, rfl⟩
  obtain ⟨semicolon, hsemicolonPast, hsemicolonNames⟩ := hsemicolon
  rw [hsemicolonNames, hvalueNames, hnameNames] at hdeclare
  refine ⟨.define directive name value semicolon, _, rfl, ?_, ?_⟩
  · simpa using hname.trans (hvalue.trans (hsemicolonPast.trans hentered))
  · simp [ItemTree.reading, hvalueReading, hdeclare]

/-! ### Programs -/

/-- What is read as an item of a program is one, whichever of its productions the first tokens
choose. -/
theorem topLevel_sound {n : Nat} {a : Stmt} (h : topLevel n s = .ok a s') :
    ∃ tree : ItemTree, s.Past tree.yield s' ∧ tree.reading s.names = some (a, s'.names) := by
  have hstatement : statement .top n s = .ok a s' → ∃ tree : ItemTree,
      s.Past tree.yield s' ∧ tree.reading s.names = some (a, s'.names) := by
    intro h
    obtain ⟨tree, htree, htreeReading, -⟩ := statement_sound h
    exact ⟨.statement tree, htree, htreeReading⟩
  rw [topLevel, peek_bind] at h
  cases hhead : s.rest.head? with
  | none =>
    rw [hhead] at h
    exact absurd h unexpected_ne_ok
  | some t =>
    rw [hhead] at h
    have hadvance : ∀ {t' s₁}, advance s = .ok t' s₁ → s.Past [t] s₁ ∧ s₁.names = s.names := by
      intro t' s₁ hadv
      obtain ⟨hpast, hnames⟩ := advance_eq_ok hadv
      obtain rfl : t' = t := by simpa [hpast.1] using hhead
      exact ⟨hpast, hnames⟩
    cases hkind : t.kind with
    | scalar type =>
      simp only [hkind] at h
      obtain ⟨opens, s₁, hprocedure, h⟩ := bind_eq_ok.mp h
      obtain rfl := procedureHead_eq_ok hprocedure
      cases opens with
      | true => exact procedure_sound h
      | false => exact hstatement h
    | keyword k =>
      cases k with
      | classDef =>
        simp only [hkind] at h
        obtain ⟨_, s₁, hadv, h⟩ := bind_eq_ok.mp h
        obtain ⟨hpast, hnames⟩ := hadvance hadv
        obtain ⟨tree, behind, hyield, htree, hreading⟩ :=
          classDef_sound ⟨t, (), by rw [hkind]; rfl⟩ h
        rw [hnames] at hreading
        exact ⟨tree, by rw [hyield]; exact hpast.cons htree, hreading⟩
      | _ =>
        simp only [hkind] at h
        exact hstatement h
    | define =>
      simp only [hkind] at h
      obtain ⟨_, s₁, hadv, h⟩ := bind_eq_ok.mp h
      obtain ⟨hpast, hnames⟩ := hadvance hadv
      obtain ⟨tree, behind, hyield, htree, hreading⟩ :=
        define_sound ⟨t, (), by rw [hkind]; rfl⟩ h
      rw [hnames] at hreading
      exact ⟨tree, by rw [hyield]; exact hpast.cons htree, hreading⟩
    | _ =>
      simp only [hkind] at h
      exact hstatement h

/-- One item of a program, or nothing at the end of the tokens. -/
theorem item_eq_ok {n : Nat} {r : Option Stmt} (h : item n s = .ok r s') :
    (r = none ∧ s.rest = [] ∧ s = s') ∨
      ∃ a, r = some a ∧ topLevel n s = .ok a s' := by
  rw [item, peek_bind] at h
  cases hrest : s.rest with
  | nil =>
    rw [hrest] at h
    obtain ⟨rfl, rfl⟩ := pure_eq_ok.mp h
    exact .inl ⟨rfl, rfl, rfl⟩
  | cons t rest =>
    rw [hrest] at h
    obtain ⟨a, s₁, htop, h⟩ := bind_eq_ok.mp h
    obtain ⟨rfl, rfl⟩ := pure_eq_ok.mp h
    exact .inr ⟨a, rfl, htop⟩

/-- What is read as a program is a list of items up to the end of the text. -/
private theorem program_sound {statements : List Stmt} (h : program s = .ok statements s') :
    ∃ trees : List ItemTree, s.Past (trees.flatMap ItemTree.yield) s' ∧
      readAll ItemTree.reading trees s.names = some (statements, s'.names) := by
  rw [program, get_bind] at h
  refine many_induction (P := fun s statements s' => ∃ trees : List ItemTree,
      s.Past (trees.flatMap ItemTree.yield) s' ∧
        readAll ItemTree.reading trees s.names = some (statements, s'.names))
    (fun s => ⟨[], .refl s, rfl⟩) ?_ ?_ h
  · intro s s' hnone
    obtain ⟨-, -, rfl⟩ | ⟨a, ha, -⟩ := item_eq_ok hnone
    · rfl
    · cases ha
  · rintro s s₁ s₂ a as hitem ⟨trees, htrees, htreesReading⟩
    obtain ⟨hr, -, -⟩ | ⟨b, hb, htop⟩ := item_eq_ok hitem
    · cases hr
    · obtain rfl := Option.some.inj hb
      obtain ⟨tree, htree, htreeReading⟩ := topLevel_sound htop
      exact ⟨tree :: trees, htree.trans htrees, by simp [readAll, htreeReading, htreesReading]⟩

/-- A program is read to the end of its tokens. -/
theorem program_rest {statements : List Stmt} (h : program s = .ok statements s') :
    s'.rest = [] := by
  rw [program, get_bind] at h
  have hdone := many_done (fun hnone => ?_) (fun hitem => ?_) h
  · obtain ⟨-, hrest, -⟩ | ⟨a, ha, -⟩ := item_eq_ok hdone
    · exact hrest
    · cases ha
  · obtain ⟨-, -, rfl⟩ | ⟨a, ha, -⟩ := item_eq_ok hnone
    · rfl
    · cases ha
  · obtain ⟨hr, -, -⟩ | ⟨b, -, htop⟩ := item_eq_ok hitem
    · cases hr
    · obtain ⟨tree, htree, -⟩ := topLevel_sound htop
      have hpos := tree.heads.length_pos
      rw [htree.1, List.length_append]
      omega

/-- What the parser accepts has a derivation, with the statements and the tables it answers. -/
theorem exists_derivation_of_parse {names later : Names} {stream : Stream}
    {statements : List Stmt} (h : parse names stream = (.ok statements, later)) :
    ∃ d : Derivation names stream.tokens, d.statements = statements ∧ d.later = later := by
  rw [parse] at h
  split at h
  · rename_i as s' hprogram
    obtain ⟨rfl, rfl⟩ : as = statements ∧ s'.names = later := by simpa using h
    obtain ⟨trees, htrees, htreesReading⟩ := program_sound hprogram
    have hyield : trees.flatMap ItemTree.yield = stream.tokens := by
      simpa [program_rest hprogram] using htrees.1.symm
    exact ⟨⟨trees, as, s'.names, hyield, htreesReading⟩, rfl, rfl⟩
  · simp at h

end Grammar

end Litany
