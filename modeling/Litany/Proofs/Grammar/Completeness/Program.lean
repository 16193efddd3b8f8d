import Litany.Proofs.Grammar.Completeness.Statement
import Litany.Proofs.Grammar.Soundness.Program

/-!
# Derived programs are parsed

The productions at top level, and a whole program. Parameters and fields are parsed with the
earlier ones at hand: as the names of a derivation all differ, none is refused on the way. An item
is followed by another item or by the end, so neither an `else` nor the optional semicolon of a
constant can stand behind it by mistake.
-/

namespace Litany

namespace Grammar

open Parse

variable {names later : Names} {rest : List Token} {l : Nat}

/-- A literal is read with its sign. -/
private theorem literal_complete {t : LiteralTree} {v : Value} (hread : t.reading = some v) :
    literal ⟨t.yield ++ rest, l, names⟩ = .ok v ⟨rest, l, names⟩ := by
  cases t with
  | plain value =>
    obtain rfl := Option.some.inj hread
    obtain ⟨⟨kind, lexeme, line⟩, v, hfits⟩ := value
    cases kind with
    | int n | float x | quoted raw =>
      obtain rfl := Option.some.inj hfits
      rfl
    | keyword k =>
      cases k with
      | yes | no =>
        obtain rfl := Option.some.inj hfits
        rfl
      | _ => cases hfits
    | _ => cases hfits
  | negated minus number =>
    obtain ⟨⟨kind, lexeme, line⟩, w, hfits⟩ := number
    rw [literal, LiteralTree.yield, List.cons_append, bind_of_ok (accept_punct minus)]
    cases kind with
    | int n | float x =>
      obtain rfl := Option.some.inj hfits
      obtain rfl := Option.some.inj hread
      rfl
    | _ => cases hfits

/-! ### Procedures -/

/-- A parameter is read if no earlier one has its name. -/
private theorem parameter_complete {t : ParameterTree} {p : Parameter} {earlier : List Parameter}
    (hread : t.reading = some p) (hdistinct : ∀ q ∈ earlier, q.name ≠ p.name)
    (hequal : Lacks (Kind.mark? .equal) rest) :
    parameter earlier ⟨t.yield ++ rest, l, names⟩ = .ok p ⟨rest, l, names⟩ := by
  obtain ⟨type, name, value⟩ := t
  obtain ⟨v, hv, hread⟩ := Option.bind_eq_some_iff.mp hread
  obtain rfl := Option.some.inj hread
  have hfresh : ¬ (earlier.any fun p => p.name == name.token.lexeme) = true := by
    simpa using hdistinct
  rw [parameter, ParameterTree.yield, List.cons_append, List.cons_append,
    bind_of_ok (take_leaf type)]
  simp only
  rw [bind_of_ok (ident_name name), if_neg hfresh]
  cases value with
  | none =>
    obtain rfl := Option.some.inj hv
    simp only [List.nil_append]
    rw [bind_of_ok (take?_lacks hequal)]
    rfl
  | some value =>
    obtain ⟨mark, value⟩ := value
    obtain ⟨w, hw, rfl⟩ := Option.map_eq_some_iff.mp hv
    simp only [List.cons_append]
    rw [bind_of_ok (take?_leaf mark)]
    simp only
    rw [bind_of_ok (literal_complete hw)]
    rfl

/-- Where all names differ, an earlier one is not a later one. -/
private theorem ne_of_nodup_map_append {α : Type} {f : α → String} {as bs : List α} {a b : α}
    (h : ((as ++ bs).map f).Nodup) (ha : a ∈ as) (hb : b ∈ bs) : f a ≠ f b := by
  rw [List.map_append, List.nodup_append] at h
  exact h.2.2 (f a) (List.mem_map_of_mem ha) (f b) (List.mem_map_of_mem hb)

/-- What may stand behind a parameter. -/
def endsParameter (k : Kind) : Bool :=
  k.isMark [.comma, .rightParen]

/-- Parameters behind commas are read one by one if all names differ. -/
private theorem laterParameters_run {trees : List (Punct .comma × ParameterTree)}
    {earlier ps : List Parameter}
    (hread : (trees.map (·.2)).mapM ParameterTree.reading = some ps)
    (hnodup : ((earlier ++ ps).map (·.name)).Nodup)
    (hends : Heads (fun k => k.isMark [.rightParen]) rest) :
    Folds laterParameter ⟨yieldBehind ParameterTree.yield trees ++ rest, l, names⟩ earlier
      ⟨rest, l, names⟩ (earlier ++ ps) := by
  induction trees generalizing earlier ps with
  | nil =>
    obtain rfl : ps = [] := by simpa [eq_comm] using hread
    have hcomma : Lacks (Kind.mark? .comma) rest :=
      hends.lacks fun k hk => Kind.eq_none_of_isMark (by decide) hk
    rw [List.append_nil, yieldBehind, List.nil_append]
    refine .done ?_
    rw [laterParameter, bind_of_ok (behind_lacks hcomma)]
    rfl
  | cons tree trees ih =>
    obtain ⟨comma, tree⟩ := tree
    rw [List.map_cons] at hread
    obtain ⟨p, ps', hp, hps', rfl⟩ := mapM_cons_eq_some.mp hread
    have hnext : Heads endsParameter (yieldBehind ParameterTree.yield trees ++ rest) := by
      cases trees with
      | nil => exact hends.imp fun k hk => Kind.isMark_of_subset (by decide) hk
      | cons other trees => exact Heads.of_cons (by rw [other.1.kind_mark]; rfl)
    have hdistinct : ∀ q ∈ earlier, q.name ≠ p.name :=
      fun q hq => ne_of_nodup_map_append hnodup hq List.mem_cons_self
    have hequal : Lacks (Kind.mark? .equal) (yieldBehind ParameterTree.yield trees ++ rest) :=
      hnext.lacks fun k hk => Kind.eq_none_of_isMark (by decide) hk
    rw [List.append_cons] at hnodup ⊢
    refine .step ?_ ?_ (ih hps' hnodup)
    · simp only [yieldBehind, List.cons_append, List.append_assoc]
      rw [laterParameter,
        bind_of_ok (behind_punct comma (parameter_complete hp hdistinct hequal))]
      rfl
    · simp only [yieldBehind, List.cons_append, List.length_cons, List.length_append]
      omega

/-- Parameters are read up to the closing parenthesis. -/
theorem parameters_complete {t : Option (ParameterTree × List (Punct .comma × ParameterTree))}
    {ps : List Parameter} (closing : Punct .rightParen)
    (hread : ParameterTree.readingAll t = some ps) :
    parameters ⟨ParameterTree.yieldAll t ++ closing.token :: rest, l, names⟩ =
      .ok ps ⟨rest, l, names⟩ := by
  cases t with
  | none =>
    obtain rfl := Option.some.inj hread
    rw [parameters, ParameterTree.yieldAll, List.nil_append, bind_of_ok (accept_punct closing),
      if_pos rfl]
    rfl
  | some t =>
    obtain ⟨first, others⟩ := t
    obtain ⟨hall, hnodup⟩ := ParameterTree.readingAll_some hread
    obtain ⟨p, ps, hp, hps, rfl⟩ := mapM_cons_eq_some.mp hall
    have hclosing : Heads (fun k => k.isMark [.rightParen]) (closing.token :: rest) :=
      Heads.of_cons (by rw [closing.kind_mark]; rfl)
    have hnext : Heads endsParameter
        (yieldBehind ParameterTree.yield others ++ closing.token :: rest) := by
      cases others with
      | nil => exact Heads.of_cons (by rw [closing.kind_mark]; rfl)
      | cons other others => exact Heads.of_cons (by rw [other.1.kind_mark]; rfl)
    have hlacks : Lacks (Kind.mark? .rightParen) (first.yield ++
        (yieldBehind ParameterTree.yield others ++ closing.token :: rest)) :=
      Lacks.of_cons (by rw [first.type.kind_scalar]; rfl)
    have hequal : Lacks (Kind.mark? .equal)
        (yieldBehind ParameterTree.yield others ++ closing.token :: rest) :=
      hnext.lacks fun k hk => Kind.eq_none_of_isMark (by decide) hk
    rw [parameters, ParameterTree.yieldAll, List.append_assoc, bind_of_ok (accept_lacks hlacks),
      if_neg (by simp), bind_of_ok (parameter_complete hp (by simp) hequal),
      bind_of_ok (laterParameters_run hps hnodup hclosing).fold_eq_ok,
      bind_of_ok (expect_punct closing)]
    rfl

/-- Statements are read between their braces. -/
private theorem block_complete {scope : Scope} {t : StmtTree .statements} {n : Nat} {b : List Stmt}
    (opening : Punct .leftBrace) (closing : Punct .rightBrace)
    (hread : t.reading scope names = some (b, later)) (hdepth : t.yield.length ≤ n) :
    block (statement scope n)
      ⟨opening.token :: (t.yield ++ closing.token :: rest), l, names⟩ =
        .ok b ⟨rest, l, later⟩ := by
  have hclosing : t.Stops (closing.token :: rest) :=
    Heads.of_cons (by rw [closing.kind_mark]; rfl)
  have hrun := t.parses (l := l) hread hdepth hclosing
  rw [block, bind_of_ok (expect_punct opening), bind_of_ok hrun.many_eq_ok,
    bind_of_ok (expect_punct closing)]
  rfl

/-! ### Classes -/

/-- The type of fields is read if it is known. -/
private theorem fieldType_complete {t : TypeTree} {type : CellType}
    (hread : t.reading names = some type) :
    fieldType ⟨t.token :: rest, l, names⟩ = .ok type ⟨rest, l, names⟩ := by
  rw [fieldType, bind_of_ok advance_cons]
  cases t with
  | scalar scalar =>
    obtain rfl := Option.some.inj hread
    rw [TypeTree.token, scalar.kind_scalar]
    rfl
  | object name =>
    obtain ⟨number, hclass, rfl⟩ := Option.map_eq_some_iff.mp hread
    rw [TypeTree.token, name.kind_ident]
    change (Parse.names >>= fun names => _) _ = _
    rw [names_bind]
    simp only [hclass]
    rfl

/-- A field is read if no earlier one has its name. -/
private theorem field_complete {type : CellType} {earlier : List Field} (name : Name)
    (hdistinct : ∀ f ∈ earlier, f.name ≠ name.lexeme) :
    field type earlier ⟨name.token :: rest, l, names⟩ =
      .ok (earlier ++ [⟨name.lexeme, type⟩]) ⟨rest, l, names⟩ := by
  have hfresh : ¬ (earlier.any fun f => f.name == name.token.lexeme) = true := by
    simpa using hdistinct
  rw [field, bind_of_ok (ident_name name), if_neg hfresh]
  rfl

/-- Fields behind commas are read one by one if all names differ. -/
private theorem laterFields_run {type : CellType} {others : List (Punct .comma × Name)}
    {earlier : List Field}
    (hnodup : ((earlier ++ others.map fun other => Field.mk other.2.lexeme type).map
      (·.name)).Nodup)
    (hcomma : Lacks (Kind.mark? .comma) rest) :
    Folds (fun earlier => behind .comma (field type earlier))
      ⟨yieldBehind (fun name : Name => [name.token]) others ++ rest, l, names⟩ earlier
      ⟨rest, l, names⟩ (earlier ++ others.map fun other => Field.mk other.2.lexeme type) := by
  induction others generalizing earlier with
  | nil =>
    rw [List.map_nil, List.append_nil]
    exact .done (behind_lacks hcomma)
  | cons other others ih =>
    obtain ⟨comma, name⟩ := other
    have hdistinct : ∀ f ∈ earlier, f.name ≠ name.lexeme :=
      fun f hf => ne_of_nodup_map_append hnodup hf List.mem_cons_self
    rw [List.map_cons, List.append_cons] at hnodup ⊢
    simp only [yieldBehind, List.cons_append, List.nil_append]
    refine .step (behind_punct comma (field_complete name hdistinct)) ?_ (ih hnodup)
    simp only [List.length_cons]
    omega

/-- The fields of one type are read if no earlier field has one of their names. -/
private theorem fieldGroup_complete {t : FieldGroupTree} {earlier more : List Field}
    (hread : t.reading names = some more) (hnodup : ((earlier ++ more).map (·.name)).Nodup) :
    fieldGroup earlier ⟨t.yield ++ rest, l, names⟩ = .ok (earlier ++ more) ⟨rest, l, names⟩ := by
  obtain ⟨typeTree, first, others, semicolon⟩ := t
  obtain ⟨type, htype, hread⟩ := Option.bind_eq_some_iff.mp hread
  obtain rfl := Option.some.inj hread
  have hdistinct : ∀ f ∈ earlier, f.name ≠ first.lexeme :=
    fun f hf => ne_of_nodup_map_append hnodup hf List.mem_cons_self
  have hcomma : Lacks (Kind.mark? .comma) (semicolon.token :: rest) :=
    Lacks.of_cons (by rw [semicolon.kind_mark]; rfl)
  have hall : earlier ++ (first :: others.map (·.2)).map (fun name => Field.mk name.lexeme type) =
      earlier ++ [⟨first.lexeme, type⟩] ++ others.map fun other => ⟨other.2.lexeme, type⟩ := by
    simp
  have hyield : FieldGroupTree.yield ⟨typeTree, first, others, semicolon⟩ ++ rest =
      typeTree.token :: first.token :: (yieldBehind (fun name : Name => [name.token]) others ++
        semicolon.token :: rest) := by
    simp [FieldGroupTree.yield]
  rw [hall] at hnodup ⊢
  rw [hyield, fieldGroup, bind_of_ok (fieldType_complete htype),
    bind_of_ok (field_complete first hdistinct),
    bind_of_ok (laterFields_run hnodup hcomma).fold_eq_ok, bind_of_ok (expect_punct semicolon)]
  rfl

/-- Groups of fields are read one by one if all names differ. -/
private theorem fieldGroups_run {groups : List FieldGroupTree} {earlier : List Field}
    {more : List (List Field)} (hread : groups.mapM (FieldGroupTree.reading names) = some more)
    (hnodup : ((earlier ++ more.flatten).map (·.name)).Nodup) (closing : Punct .rightBrace) :
    Folds (fun earlier => unlessAt .rightBrace (fieldGroup earlier))
      ⟨groups.flatMap FieldGroupTree.yield ++ closing.token :: rest, l, names⟩ earlier
      ⟨closing.token :: rest, l, names⟩ (earlier ++ more.flatten) := by
  induction groups generalizing earlier more with
  | nil =>
    obtain rfl : more = [] := by simpa [eq_comm] using hread
    rw [List.flatten_nil, List.append_nil]
    exact .done (unlessAt_punct closing)
  | cons group groups ih =>
    obtain ⟨own, more, hown, hmore, rfl⟩ := mapM_cons_eq_some.mp hread
    rw [List.flatten_cons, ← List.append_assoc] at hnodup ⊢
    have hfirst : ((earlier ++ own).map (·.name)).Nodup := by
      rw [List.map_append, List.nodup_append] at hnodup
      exact hnodup.1
    have hbrace : Lacks (Kind.mark? .rightBrace) (group.yield ++
        (groups.flatMap FieldGroupTree.yield ++ closing.token :: rest)) := by
      refine Lacks.of_cons ?_
      cases group.type with
      | scalar type => rw [TypeTree.token, type.kind_scalar]; rfl
      | object name => rw [TypeTree.token, name.kind_ident]; rfl
    rw [List.flatMap_cons, List.append_assoc]
    refine .step (unlessAt_lacks hbrace (fieldGroup_complete hown hfirst)) ?_ (ih hmore hnodup)
    simp only [FieldGroupTree.yield, List.cons_append, List.length_cons, List.length_append]
    omega

/-- A class is read with its fields, and with what stands behind its closing brace. -/
private theorem classDef_complete {n : Nat} {groups : List FieldGroupTree} {fields : List Field}
    {number : Nat} {declared : Names} {tokens : List Token} {s : Cursor} {vars : List Declarator}
    (name : Name) (opening : Punct .leftBrace) (closing : Punct .rightBrace)
    (hread : FieldGroupTree.readingAll names groups = some fields)
    (hdeclare : names.declareClass ⟨name.lexeme, fields⟩ = some (number, declared))
    (hobjects : classObjects n number ⟨tokens, l, declared⟩ = .ok vars s) :
    classDef n ⟨name.token :: opening.token :: (groups.flatMap FieldGroupTree.yield ++
      closing.token :: tokens), l, names⟩ = .ok (.classDef number vars) s := by
  obtain ⟨more, hmore, hread⟩ := Option.bind_eq_some_iff.mp hread
  split at hread
  · rename_i hnodup
    obtain rfl := Option.some.inj hread
    rw [classDef, bind_of_ok (ident_name name), bind_of_ok (expect_punct opening),
      bind_of_ok (fieldGroups_run hmore hnodup closing).fold_eq_ok,
      bind_of_ok (expect_punct closing), bind_of_ok (enter_of_eq_some hdeclare),
      bind_of_ok hobjects]
    rfl
  · cases hread

/-- A semicolon behind a class declares nothing. -/
private theorem classObjects_none {n number : Nat} (semicolon : Punct .semicolon) :
    classObjects n number ⟨semicolon.token :: rest, l, names⟩ = .ok [] ⟨rest, l, names⟩ := by
  have hname : (semicolon.token :: rest).head?.bind (fun t => Kind.ident? t.kind) = none := by
    simp [semicolon.kind_mark, Kind.ident?]
  rw [classObjects, peek_bind]
  simp only [hname]
  rw [bind_of_ok (expect_punct semicolon)]
  rfl

/-- Names behind a class declare objects of it. -/
private theorem classObjects_some {n number : Nat} {vars : DeclaratorsTree} {ds : List Declarator}
    (hread : vars.reading .top (.object number) names = some (ds, later))
    (hdepth : vars.yield.length ≤ n) :
    classObjects n number ⟨vars.yield ++ rest, l, names⟩ = .ok ds ⟨rest, l, later⟩ := by
  have hname : (vars.yield ++ rest).head?.bind (fun t => Kind.ident? t.kind) =
      some vars.first.name.value := vars.first.name.fits
  rw [classObjects, peek_bind]
  simp only [hname]
  exact declarators_complete hread hdepth

/-! ### Programs -/

/-- Behind an item stands another one, or nothing. -/
def AtItem (tokens : List Token) : Prop :=
  tokens = [] ∨ Heads Kind.opensItem tokens

/-- Where an item begins or the text ends there is nothing that no item begins with. -/
theorem AtItem.lacks {α : Type} {f : Kind → Option α} (h : AtItem rest)
    (hf : ∀ k, k.opensItem = true → f k = none) : Lacks f rest := by
  rcases h with rfl | h
  · nofun
  · exact h.lacks hf

/-- In front of items there is an item or the end of the text. -/
theorem atItem_items (items : List ItemTree) : AtItem (items.flatMap ItemTree.yield) := by
  cases items with
  | nil => exact .inl rfl
  | cons item items =>
    rw [List.flatMap_cons]
    exact .inr (item.heads.append _)

/-- A constant is read with its semicolon, or without where an item follows. -/
private theorem define_complete {name : Name} {value : LiteralTree}
    {semicolon : Option (Punct .semicolon)} {directive : Leaf Kind.define?} {a : Stmt}
    (hread : (ItemTree.define directive name value semicolon).reading names = some (a, later))
    (hnext : AtItem rest) :
    define ⟨name.token :: value.yield ++ StmtTree.yieldOption
      (fun mark : Punct .semicolon => [mark.token]) semicolon ++ rest, l, names⟩ =
        .ok a ⟨rest, l, later⟩ := by
  obtain ⟨v, slot, hv, hdeclare, rfl⟩ := ItemTree.reading_define hread
  have haccept : ∃ ends, accept .semicolon ⟨StmtTree.yieldOption
      (fun mark : Punct .semicolon => [mark.token]) semicolon ++ rest, l, names⟩ =
        .ok ends ⟨rest, l, names⟩ := by
    cases semicolon with
    | some mark => exact ⟨true, accept_punct mark⟩
    | none => exact ⟨false, accept_lacks (hnext.lacks (Kind.mark?_of_opensItem (by decide)))⟩
  obtain ⟨ends, haccept⟩ := haccept
  rw [define, List.cons_append, List.cons_append, List.append_assoc, bind_of_ok (ident_name name),
    bind_of_ok (literal_complete hv), bind_of_ok haccept, bind_of_ok (enter_of_eq_some hdeclare)]
  rfl

/-- A procedure is entered between its parameters and its body, and read with both. -/
private theorem procedure_complete {n : Nat} {type : Leaf Kind.scalar?} {name : Name}
    {opening : Punct .leftParen}
    {params : Option (ParameterTree × List (Punct .comma × ParameterTree))}
    {closing : Punct .rightParen} {begins : Punct .leftBrace} {body : StmtTree .statements}
    {ends : Punct .rightBrace} {a : Stmt}
    (hread : (ItemTree.procedure type name opening params closing begins body ends).reading names =
      some (a, later)) (hdepth : body.yield.length ≤ n) :
    procedure n ⟨type.token :: name.token :: opening.token :: (ParameterTree.yieldAll params ++
      closing.token :: begins.token :: (body.yield ++ ends.token :: rest)), l, names⟩ =
        .ok a ⟨rest, l, later⟩ := by
  obtain ⟨ps, ordinal, declared, b, p, hps, hdeclare, hbody, hp, rfl⟩ :=
    ItemTree.reading_procedure hread
  rw [procedure, bind_of_ok (take_leaf type)]
  simp only
  rw [bind_of_ok (ident_name name), bind_of_ok (expect_punct opening),
    bind_of_ok (parameters_complete closing hps), bind_of_ok (enter_of_eq_some hdeclare),
    bind_of_ok (block_complete begins ends hbody hdepth), names_bind]
  simp only [hp]
  rfl

section FirstToken

variable {n : Nat} {tokens : List Token}

/-- A scalar type begins a procedure or a declaration, as the next two tokens say. -/
theorem topLevel_scalar {opens : Bool} (type : Leaf Kind.scalar?)
    (hhead : procedureHead ⟨type.token :: tokens, l, names⟩ =
      .ok opens ⟨type.token :: tokens, l, names⟩) :
    topLevel n ⟨type.token :: tokens, l, names⟩ =
      (if opens then procedure n else statement .top n) ⟨type.token :: tokens, l, names⟩ := by
  rw [topLevel, peek_bind]
  simp only [List.head?_cons, type.kind_scalar]
  rw [bind_of_ok hhead]

/-- The word in front of a class begins one. -/
private theorem topLevel_classDef (word : Word .classDef) :
    topLevel n ⟨word.token :: tokens, l, names⟩ = classDef n ⟨tokens, l, names⟩ := by
  rw [topLevel, peek_bind]
  simp only [List.head?_cons, word.kind_keyword]
  rw [bind_of_ok advance_cons]

/-- The directive in front of a constant begins one. -/
private theorem topLevel_define (directive : Leaf Kind.define?) :
    topLevel n ⟨directive.token :: tokens, l, names⟩ = define ⟨tokens, l, names⟩ := by
  rw [topLevel, peek_bind]
  simp only [List.head?_cons, directive.kind_define]
  rw [bind_of_ok advance_cons]

/-- What begins a statement but is no type is read as a statement. -/
theorem topLevel_statement {t : Token} (hopens : t.kind.opensStatement = true)
    (htype : t.kind.scalar? = none) :
    topLevel n ⟨t :: tokens, l, names⟩ = statement .top n ⟨t :: tokens, l, names⟩ := by
  rw [topLevel, peek_bind]
  cases hkind : t.kind with
  | scalar type =>
    rw [hkind] at htype
    cases htype
  | keyword k =>
    cases k with
    | classDef =>
      rw [hkind] at hopens
      cases hopens
    | _ => simp only [List.head?_cons, hkind]
  | define =>
    rw [hkind] at hopens
    cases hopens
  | _ => simp only [List.head?_cons, hkind]

end FirstToken

/-- Every statement but the declaration of a scalar begins with something else than a type. -/
theorem StmtTree.head_not_scalar {t : StmtTree .statement}
    (h : ∀ type vars, t ≠ .declare (.scalar type) vars) :
    Heads (fun k => k.opensStatement && k.scalar?.isNone) t.yield := by
  have hopens := t.heads_statement
  cases t with
  | declare type vars =>
    cases type with
    | scalar type => exact absurd rfl (h type vars)
    | object name => exact Heads.of_cons (by rw [TypeTree.token, name.kind_ident]; rfl)
  | print template => exact Heads.of_cons (by rw [template.kind_quoted]; rfl)
  | loop word => exact Heads.of_cons (by rw [word.kind_keyword]; rfl)
  | branch word => exact Heads.of_cons (by rw [word.kind_keyword]; rfl)
  | branchElse word => exact Heads.of_cons (by rw [word.kind_keyword]; rfl)
  | giveBack word => exact Heads.of_cons (by rw [word.kind_keyword]; rfl)
  | foreign code => exact Heads.of_cons (by rw [code.kind_foreign]; rfl)
  | expr e semicolon =>
    refine (e.heads.append _).imp fun k hk => ?_
    have hscalar : k.scalar? = none := by
      cases k with
      | scalar type => cases hk
      | _ => rfl
    simp [Kind.opensStatement, hk, hscalar]

/-- Every item that can be read is read as what it is. -/
private theorem ItemTree.topLevel_complete (t : ItemTree) {n : Nat} {a : Stmt}
    (hread : t.reading names = some (a, later)) (hdepth : t.yield.length ≤ n)
    (hnext : AtItem rest) :
    topLevel n ⟨t.yield ++ rest, l, names⟩ = .ok a ⟨rest, l, later⟩ := by
  cases t with
  | procedure type name opening params closing begins body ends =>
    have hyield : (ItemTree.procedure type name opening params closing begins body ends).yield ++
        rest = type.token :: name.token :: opening.token :: (ParameterTree.yieldAll params ++
          closing.token :: begins.token :: (body.yield ++ ends.token :: rest)) := by
      simp [yield]
    have hbody : body.yield.length ≤ n := by
      simp only [yield, List.length_append, List.length_cons] at hdepth
      omega
    have hhead : ∀ tokens, procedureHead
        ⟨type.token :: name.token :: opening.token :: tokens, l, names⟩ =
          .ok true ⟨type.token :: name.token :: opening.token :: tokens, l, names⟩ := by
      intro tokens
      simp [procedureHead, name.fits, opening.fits]
    rw [hyield, topLevel_scalar type (hhead _)]
    exact procedure_complete hread hbody
  | classDef word name opening groups closing semicolon =>
    obtain ⟨fields, number, hfields, hdeclare, rfl⟩ := reading_classDef hread
    have hyield : (ItemTree.classDef word name opening groups closing semicolon).yield ++ rest =
        word.token :: name.token :: opening.token :: (groups.flatMap FieldGroupTree.yield ++
          closing.token :: semicolon.token :: rest) := by
      simp [yield]
    rw [hyield, topLevel_classDef]
    exact classDef_complete name opening closing hfields hdeclare (classObjects_none semicolon)
  | classDefWith word name opening groups closing vars =>
    obtain ⟨fields, number, declared, ds, hfields, hdeclare, hvars, rfl⟩ :=
      reading_classDefWith hread
    have hyield : (ItemTree.classDefWith word name opening groups closing vars).yield ++ rest =
        word.token :: name.token :: opening.token :: (groups.flatMap FieldGroupTree.yield ++
          closing.token :: (vars.yield ++ rest)) := by
      simp [yield]
    have hbound : vars.yield.length ≤ n := by
      simp only [yield, List.length_append, List.length_cons] at hdepth
      omega
    rw [hyield, topLevel_classDef]
    exact classDef_complete name opening closing hfields hdeclare (classObjects_some hvars hbound)
  | define directive name value semicolon =>
    have hrun := define_complete (l := l) hread hnext
    rw [yield, List.cons_append, List.cons_append, topLevel_define]
    exact hrun
  | statement s =>
    have hstops : s.Stops rest := fun _ => hnext.lacks Kind.otherwise_of_opensItem
    have hrun := s.parses (l := l) hread hdepth hstops
    by_cases hscalar : ∃ type vars, s = .declare (.scalar type) vars
    · obtain ⟨type, vars, rfl⟩ := hscalar
      exact (topLevel_scalar type (procedureHead_declarators type.token vars)).trans hrun
    · have hheads := StmtTree.head_not_scalar fun type vars heq => hscalar ⟨type, vars, heq⟩
      obtain ⟨t, tokens, hyield, hkind⟩ := hheads
      rw [Bool.and_eq_true, Option.isNone_iff_eq_none] at hkind
      change Grammar.statement .top n ⟨s.yield ++ rest, l, names⟩ = _ at hrun
      rw [hyield] at hrun
      rw [yield, hyield]
      exact (topLevel_statement hkind.1 hkind.2).trans hrun

/-- An item that can be read is read where the text is not at its end. -/
theorem ItemTree.item_complete (t : ItemTree) {n : Nat} {a : Stmt}
    (hread : t.reading names = some (a, later)) (hdepth : t.yield.length ≤ n)
    (hnext : AtItem rest) : item n ⟨t.yield ++ rest, l, names⟩ = .ok (some a) ⟨rest, l, later⟩ := by
  have htop := t.topLevel_complete (n := n) (l := l) hread hdepth hnext
  obtain ⟨first, tokens, hyield, -⟩ := t.heads
  rw [hyield] at htop ⊢
  rw [item, peek_bind]
  simp only [List.cons_append, List.head?_cons] at htop ⊢
  rw [bind_of_ok htop]
  rfl

/-- Items that can be read are read one by one to the end of the text. -/
private theorem items_run {items : List ItemTree} {n : Nat} {statements : List Stmt}
    (hread : readAll ItemTree.reading items names = some (statements, later))
    (hdepth : (items.flatMap ItemTree.yield).length ≤ n) :
    Repeats (item n) ⟨items.flatMap ItemTree.yield, l, names⟩ statements ⟨[], l, later⟩ := by
  induction items generalizing names statements with
  | nil =>
    cases hread
    exact .done rfl
  | cons tree items ih =>
    obtain ⟨a, names', as, hfirst, hrest, rfl⟩ := readAll_cons_eq_some.mp hread
    rw [List.flatMap_cons, List.length_append] at hdepth
    have hpos := tree.heads.length_pos
    rw [List.flatMap_cons]
    refine .item (tree.item_complete hfirst (by omega) (atItem_items items)) ?_
      (ih hrest (by omega))
    simp only [List.length_append]
    omega

/-- What has a derivation is parsed, to the statements and the tables of the derivation. -/
theorem parse_of_derivation {stream : Stream} (d : Derivation names stream.tokens) :
    parse names stream = (.ok d.statements, d.later) := by
  have hrun : program ⟨stream.tokens, stream.endLine, names⟩ =
      .ok d.statements ⟨[], stream.endLine, d.later⟩ := by
    rw [program, get_bind]
    apply Repeats.many_eq_ok
    have hitems := items_run (l := stream.endLine) d.reads (Nat.le_refl _)
    rwa [d.yields] at hitems
  rw [parse, EStateM.run, hrun]

end Grammar

end Litany
