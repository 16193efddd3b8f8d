import Litany.Proofs.Grammar.Lookahead

/-!
# Parsed expressions have derivations

Every production of an expression that succeeds has read the yield of a tree of its sort, and
answers the reading of that tree. It leaves the tables as they are.

The order is that of the grammar. A production that takes the parser of nested operands as an
argument is sound when that parser is, and an induction on the depth of nesting ties the knot
(`operand_sound`).
-/

namespace Litany

namespace Grammar

open Parse

variable {s s' : Cursor} {scope : Scope}

/-! ### Places -/

/-- What is read behind the root of a place are names with a dot in front of each. -/
theorem segments_sound {path : List String} (h : many segment s = .ok path s') :
    ∃ fields : List (Punct .dot × Name),
      s.Past (yieldBehind (fun name : Name => [name.token]) fields) s' ∧
        s'.names = s.names ∧ path = fields.map fun field => field.2.lexeme := by
  refine many_induction (P := fun s path s' => ∃ fields : List (Punct .dot × Name),
    s.Past (yieldBehind (fun name : Name => [name.token]) fields) s' ∧
      s'.names = s.names ∧ path = fields.map fun field => field.2.lexeme)
    (fun s => ⟨[], .refl s, rfl, rfl⟩) behind_eq_none ?_ h
  rintro s s₁ s₂ a as hitem ⟨fields, hpast, hnames, rfl⟩
  obtain ⟨dot, s₃, hdot, hdotNames, hitem⟩ := behind_eq_some hitem
  obtain ⟨t, s₄, hident, hitem⟩ := bind_eq_ok.mp hitem
  obtain ⟨rfl, rfl⟩ := pure_eq_ok.mp hitem
  obtain ⟨name, rfl, hname, hnameNames⟩ := ident_eq_ok hident
  refine ⟨(dot, name) :: fields, hdot.cons (hname.trans hpast), ?_, rfl⟩
  rw [hnames, hnameNames, hdotNames]

/-- What is read as a place is one, on the line of its root. -/
theorem place_sound {p : Place} {line : Nat} (h : place scope s = .ok (p, line) s') :
    ∃ t : PlaceTree, s.Past t.yield s' ∧ s'.names = s.names ∧
      t.reading s.names scope = some p ∧ line = t.root.token.line := by
  obtain ⟨t, s₁, hident, h⟩ := bind_eq_ok.mp h
  obtain ⟨root, rfl, hroot, hrootNames⟩ := ident_eq_ok hident
  rw [names_bind, hrootNames] at h
  cases hslot : s.names.resolve scope root.lexeme with
  | none =>
    rw [hslot] at h
    exact absurd h throw_ne_ok
  | some slot =>
    simp only [hslot] at h
    cases htype : s.names.slotType? scope slot with
    | none =>
      rw [htype] at h
      exact absurd h throw_ne_ok
    | some found =>
      obtain ⟨rootType, constant⟩ := found
      simp only [htype] at h
      obtain ⟨path, s₂, hpath, h⟩ := bind_eq_ok.mp h
      obtain ⟨fields, hfields, hfieldNames, rfl⟩ := segments_sound hpath
      cases hfield : s.names.fieldType? rootType (fields.map fun field => field.2.lexeme) with
      | none =>
        rw [hfield] at h
        exact absurd h throw_ne_ok
      | some type =>
        simp only [hfield] at h
        obtain ⟨hp, rfl⟩ := pure_eq_ok.mp h
        obtain ⟨rfl, rfl⟩ := Prod.mk.inj hp
        refine ⟨⟨root, fields⟩, hroot.cons hfields, hfieldNames.trans hrootNames, ?_, rfl⟩
        simp [PlaceTree.reading, PlaceTree.path, hslot, htype, hfield]

/-- A location that passes the check for writing is writable, and nothing is read. -/
theorem assignable_eq_ok {p : Place} {line : Nat} {u : Unit}
    (h : assignable scope p line s = .ok u s') : s = s' ∧ writable s.names scope p = true := by
  rw [assignable, names_bind] at h
  split at h
  · obtain ⟨_, _, h, -⟩ := bind_eq_ok.mp h
    exact absurd h throw_ne_ok
  · rename_i hconstant
    cases htype : p.type with
    | object number =>
      simp only [htype] at h
      exact absurd h throw_ne_ok
    | scalar type =>
      simp only [htype] at h
      obtain ⟨-, rfl⟩ := pure_eq_ok.mp h
      exact ⟨rfl, by simp [writable, htype, hconstant]⟩

/-! ### Chains -/

/-- Some tokens in front are a phrase of the given sort with the given reading, and the tables
stay. -/
def ReadsExpr (scope : Scope) (k : ExprSort) (s : Cursor) (a : ExprReading k) (s' : Cursor) :
    Prop :=
  ∃ t : ExprTree k, s.Past t.yield s' ∧ s'.names = s.names ∧ t.reading s.names scope = some a

section Nested

variable {operand : Parse Expr}
  (hop : ∀ {s s' : Cursor} {e : Expr}, operand s = .ok e s' → ReadsExpr scope .operand s e s')

include hop

/-- What is read behind the first operand of a chain are operations with their operands. -/
private theorem links_sound {links : List Link} (h : many (link operand) s = .ok links s') :
    ReadsExpr scope .links s links s' := by
  refine many_induction (P := fun s links s' => ReadsExpr scope .links s links s')
    (fun s => ⟨.noLink, .refl s, rfl, rfl⟩) ?_ ?_ h
  · intro s s' hnone
    obtain ⟨r, s₁, htake, hnone⟩ := bind_eq_ok.mp hnone
    cases r with
    | none =>
      obtain ⟨-, rfl⟩ := pure_eq_ok.mp hnone
      exact take?_eq_none htake
    | some r =>
      obtain ⟨_, _, -, hnone⟩ := bind_eq_ok.mp hnone
      exact absurd (pure_eq_ok.mp hnone).1 (by simp)
  · rintro s s₁ s₂ a as hitem ⟨rest, hrest, hrestNames, hrestReading⟩
    obtain ⟨r, s₃, htake, hitem⟩ := bind_eq_ok.mp hitem
    cases r with
    | none => exact absurd (pure_eq_ok.mp hitem).1 (by simp)
    | some r =>
      obtain ⟨op, rfl, hopPast, hopNames⟩ := take?_eq_some htake
      obtain ⟨e, s₄, he, hitem⟩ := bind_eq_ok.mp hitem
      obtain ⟨ha, rfl⟩ := pure_eq_ok.mp hitem
      obtain rfl := Option.some.inj ha
      obtain ⟨t, ht, htNames, htReading⟩ := hop he
      refine ⟨.link op t rest, hopPast.cons (ht.trans hrest), ?_, ?_⟩
      · rw [hrestNames, htNames, hopNames]
      · rw [htNames, hopNames] at hrestReading
        rw [hopNames] at htReading
        simp [ExprTree.reading, htReading, hrestReading]

/-- What is read as a chain is one. -/
theorem chain_sound {e : Expr} (h : chain operand s = .ok e s') :
    ReadsExpr scope .chain s e s' := by
  obtain ⟨first, s₁, hfirst, h⟩ := bind_eq_ok.mp h
  obtain ⟨links, s₂, hlinks, h⟩ := bind_eq_ok.mp h
  obtain ⟨rfl, rfl⟩ := pure_eq_ok.mp h
  obtain ⟨t, ht, htNames, htReading⟩ := hop hfirst
  obtain ⟨rest, hrest, hrestNames, hrestReading⟩ := links_sound hop hlinks
  refine ⟨.chain t rest, ht.trans hrest, hrestNames.trans htNames, ?_⟩
  rw [htNames] at hrestReading
  simp [ExprTree.reading, htReading, hrestReading]

/-- What is read behind the mark of an assignment is a chain, taken apart into steps. -/
theorem assignment_sound {target : Place} {op : Option Arithmetic} {line : Nat} {e : Expr}
    (h : assignment operand target op line s = .ok e s') :
    ∃ t : ExprTree .chain, s.Past t.yield s' ∧ s'.names = s.names ∧
      t.assigned s.names scope target op line = some e := by
  obtain ⟨first, s₁, hfirst, h⟩ := bind_eq_ok.mp h
  obtain ⟨links, s₂, hlinks, h⟩ := bind_eq_ok.mp h
  obtain ⟨rfl, rfl⟩ := pure_eq_ok.mp h
  obtain ⟨t, ht, htNames, htReading⟩ := hop hfirst
  obtain ⟨rest, hrest, hrestNames, hrestReading⟩ := links_sound hop hlinks
  refine ⟨.chain t rest, ht.trans hrest, hrestNames.trans htNames, ?_⟩
  rw [htNames] at hrestReading
  simp [ExprTree.assigned, htReading, hrestReading]

end Nested

/-! ### Calls -/

/-- The first parameter takes the first position, or else its default. -/
theorem arrange_cons_eq_ok {p : Parameter} {parameters : List Parameter}
    {given : List (Option Expr)} {es : List Expr} :
    arrange (p :: parameters) given = .ok es ↔
      ∃ e rest, (given.head?.join <|> p.default.map Expr.literal) = some e ∧
        arrange parameters given.tail = .ok rest ∧ es = e :: rest := by
  have hmap : ∀ (e : Expr) (r : Except SyntaxCause (List Expr)),
      List.cons e <$> r = .ok es ↔ ∃ rest, r = .ok rest ∧ es = e :: rest := by
    intro e r
    cases r <;> simp [Functor.map, Except.map, eq_comm]
  rcases given with _ | ⟨_ | e, given⟩
  · cases hdefault : p.default <;> simp [arrange, hdefault, hmap]
  · cases hdefault : p.default <;> simp [arrange, hdefault, hmap]
  · simp [arrange, hmap]

/-- Positions from the one with the given number on are arranged as they are supplied. -/
private theorem arrange_drop_eq_ok {parameters : List Parameter} {given : List (Option Expr)}
    {k : Nat} {es : List Expr} : arrange parameters (given.drop k) = .ok es ↔
      ((parameters.zipIdx k).mapM fun (p, i) => given[i]?.join <|> p.default.map Expr.literal) =
        some es := by
  induction parameters generalizing k es with
  | nil => simp [arrange, eq_comm]
  | cons p parameters ih =>
    rw [arrange_cons_eq_ok, List.zipIdx_cons, List.mapM_cons, List.tail_drop, List.head?_drop]
    simp only [ih, Option.bind_eq_bind, Option.bind_eq_some_iff, Option.pure_def,
      Option.some.injEq, eq_comm (a := es)]
    grind

/-- The arguments of a call are what its positions supply. -/
theorem arguments_eq_ok_iff {parameters : List Parameter} {given : List (Option Expr)}
    {es : List Expr} :
    arguments parameters given = .ok es ↔ supplied parameters given = some es := by
  rw [arguments, supplied]
  by_cases h : given.length ≤ parameters.length
  · rw [if_neg (by omega), if_pos h]
    exact arrange_drop_eq_ok (k := 0)
  · rw [if_pos (by omega), if_neg h]
    simp

section Nested

variable {operand : Parse Expr}
  (hop : ∀ {s s' : Cursor} {e : Expr}, operand s = .ok e s' → ReadsExpr scope .operand s e s')

include hop

/-- What is read as a position of a call is a chain, or nothing. -/
private theorem position_sound {e : Option Expr} (h : position operand s = .ok e s') :
    ReadsExpr scope .position s e s' := by
  obtain ⟨comma, s₁, hcomma, h⟩ := bind_eq_ok.mp h
  obtain rfl := sees_eq_ok hcomma
  obtain ⟨closing, s₂, hclosing, h⟩ := bind_eq_ok.mp h
  obtain rfl := sees_eq_ok hclosing
  split at h
  · obtain ⟨rfl, rfl⟩ := pure_eq_ok.mp h
    exact ⟨.vacant, .refl _, rfl, rfl⟩
  · obtain ⟨e, s₃, hchain, h⟩ := bind_eq_ok.mp h
    obtain ⟨rfl, rfl⟩ := pure_eq_ok.mp h
    obtain ⟨t, ht, htNames, htReading⟩ := chain_sound hop hchain
    exact ⟨.filled t, ht, htNames, by simp [ExprTree.reading, htReading]⟩

/-- What is read behind the first position are positions with a comma in front of each. -/
private theorem laterPositions_sound {given : List (Option Expr)}
    (h : many (behind .comma (position operand)) s = .ok given s') :
    ReadsExpr scope .positions s given s' := by
  refine many_induction (P := fun s given s' => ReadsExpr scope .positions s given s')
    (fun s => ⟨.noPosition, .refl s, rfl, rfl⟩) behind_eq_none ?_ h
  rintro s s₁ s₂ a as hitem ⟨rest, hrest, hrestNames, hrestReading⟩
  obtain ⟨comma, s₃, hcomma, hcommaNames, hitem⟩ := behind_eq_some hitem
  obtain ⟨t, ht, htNames, htReading⟩ := position_sound hop hitem
  refine ⟨.position comma t rest, hcomma.cons (ht.trans hrest), ?_, ?_⟩
  · rw [hrestNames, htNames, hcommaNames]
  · rw [htNames, hcommaNames] at hrestReading
    rw [hcommaNames] at htReading
    simp [ExprTree.reading, htReading, hrestReading]

/-- The positions of a call are none, or those between parentheses that are not empty. -/
private theorem positions_sound {given : List (Option Expr)}
    (h : positions operand s = .ok given s') : s'.names = s.names ∧
      ((given = [] ∧ s = s') ∨
        (given = [] ∧ ∃ (opening : Punct .leftParen) (closing : Punct .rightParen),
          s.Past [opening.token, closing.token] s') ∨
        ∃ (opening : Punct .leftParen) (closing : Punct .rightParen) (e : Option Expr)
          (es : List (Option Expr)) (first : ExprTree .position) (rest : ExprTree .positions),
          given = e :: es ∧ given ≠ [none] ∧
            s.Past (opening.token :: first.yield ++ rest.yield ++ [closing.token]) s' ∧
            first.reading s.names scope = some e ∧ rest.reading s.names scope = some es) := by
  obtain ⟨opens, s₁, hopening, h⟩ := bind_eq_ok.mp h
  cases opens with
  | false =>
    obtain ⟨rfl, rfl⟩ := pure_eq_ok.mp h
    obtain rfl := accept_eq_false hopening
    exact ⟨rfl, .inl ⟨rfl, rfl⟩⟩
  | true =>
    obtain ⟨opening, hopen, hopenNames⟩ := accept_eq_true hopening
    obtain ⟨closes, s₂, hclosing, h⟩ := bind_eq_ok.mp h
    cases closes with
    | true =>
      obtain ⟨rfl, rfl⟩ := pure_eq_ok.mp h
      obtain ⟨closing, hclose, hcloseNames⟩ := accept_eq_true hclosing
      exact ⟨hcloseNames.trans hopenNames, .inr (.inl ⟨rfl, opening, closing, hopen.cons hclose⟩)⟩
    | false =>
      have hlacks := lacks_of_accept_eq_false hclosing
      obtain rfl := accept_eq_false hclosing
      obtain ⟨e, s₃, hfirst, h⟩ := bind_eq_ok.mp h
      obtain ⟨es, s₄, hrest, h⟩ := bind_eq_ok.mp h
      obtain ⟨_, s₅, hclosing, h⟩ := bind_eq_ok.mp h
      obtain ⟨rfl, rfl⟩ := pure_eq_ok.mp h
      obtain ⟨first, hfirstPast, hfirstNames, hfirstReading⟩ := position_sound hop hfirst
      obtain ⟨rest, hrestPast, hrestNames, hrestReading⟩ := laterPositions_sound hop hrest
      obtain ⟨closing, hclose, hcloseNames⟩ := expect_eq_ok hclosing
      refine ⟨by rw [hcloseNames, hrestNames, hfirstNames, hopenNames],
        .inr (.inr ⟨opening, closing, e, es, first, rest, rfl, ?_,
          hopen.cons ((hfirstPast.trans hrestPast).trans hclose), ?_, ?_⟩)⟩
      · -- one vacant position would mean that the closing parenthesis was next
        intro hgiven
        obtain ⟨rfl, rfl⟩ := List.cons.inj hgiven
        have hfirstYield : first.yield = [] := by
          cases first with
          | vacant => rfl
          | filled value =>
            obtain ⟨_, -, hsome⟩ := Option.bind_eq_some_iff.mp hfirstReading
            cases hsome
        have hrestYield : rest.yield = [] := by
          cases rest with
          | noPosition => rfl
          | position comma first rest =>
            obtain ⟨_, -, hcons⟩ := Option.bind_eq_some_iff.mp hrestReading
            obtain ⟨_, -, hcons⟩ := Option.bind_eq_some_iff.mp hcons
            cases hcons
        have hnext := ((hfirstPast.trans hrestPast).trans hclose).1
        rw [hfirstYield, hrestYield] at hnext
        rw [hnext] at hlacks
        exact not_lacks_leaf closing hlacks
      · rwa [hopenNames] at hfirstReading
      · rwa [hfirstNames, hopenNames] at hrestReading

/-- What is read behind the name of a procedure is the rest of a call, and its positions supply the
parameters. -/
private theorem call_sound {ordinal : Nat} {e : Expr} {t : Token} {rest : List Token}
    {name : String} (hrest : s.rest = t :: rest) (hkind : t.kind = .ident name)
    (hordinal : s.names.procedure? name = some ordinal)
    (h : call operand ordinal s = .ok e s') : ReadsExpr scope .operand s e s' := by
  obtain ⟨t', s₁, hident, h⟩ := bind_eq_ok.mp h
  obtain ⟨leaf, rfl, hleaf, hleafNames⟩ := ident_eq_ok hident
  obtain ⟨given, s₂, hgiven, h⟩ := bind_eq_ok.mp h
  obtain ⟨hgivenNames, hshape⟩ := positions_sound hop hgiven
  have hvalue : leaf.value = name := by
    have htoken : leaf.token = t := (List.cons.inj (hleaf.1.symm.trans hrest)).1
    have hfits := leaf.fits
    rw [htoken, hkind] at hfits
    exact (Option.some.inj hfits).symm
  rw [names_bind, hgivenNames, hleafNames] at h
  cases hprocedure : s.names.procedures[ordinal]? with
  | none =>
    rw [hprocedure] at h
    exact absurd h throw_ne_ok
  | some p =>
    simp only [hprocedure] at h
    cases harguments : arguments p.parameters given with
    | error cause =>
      rw [harguments] at h
      exact absurd h throw_ne_ok
    | ok es =>
      simp only [harguments] at h
      obtain ⟨rfl, rfl⟩ := pure_eq_ok.mp h
      have hcall : ExprTree.callReading s.names leaf given =
          some (.call ordinal leaf.lexeme es leaf.token.line) := by
        simp [ExprTree.callReading, hvalue, hordinal, hprocedure,
          arguments_eq_ok_iff.mp harguments]
      have hnames := hgivenNames.trans hleafNames
      rw [hleafNames] at hshape
      rcases hshape with ⟨rfl, rfl⟩ | ⟨rfl, opening, closing, hpast⟩ |
        ⟨opening, closing, e, es, first, rest, rfl, hne, hpast, hfirst, hrest⟩
      · exact ⟨.bareCall leaf, hleaf, hnames, hcall⟩
      · exact ⟨.emptyCall leaf opening closing, hleaf.cons hpast, hnames, hcall⟩
      · refine ⟨.call leaf opening first rest closing, hleaf.cons hpast, hnames, ?_⟩
        simp only [ExprTree.reading, hfirst, hrest, Option.bind_eq_bind, Option.bind_some]
        split
        · exact absurd rfl hne
        · exact hcall

end Nested

/-! ### Operands -/

/-- What is read behind the name of a variable is a place, with a mark behind it or without. -/
private theorem placeOperand_sound {e : Expr} {t : Token} {rest : List Token} {name : String}
    (hrest : s.rest = t :: rest) (hkind : t.kind = .ident name)
    (hvariable : s.names.procedure? name = none) (h : placeOperand scope s = .ok e s') :
    ReadsExpr scope .operand s e s' := by
  obtain ⟨⟨p, line⟩, s₁, hplace, h⟩ := bind_eq_ok.mp h
  obtain ⟨tree, htree, htreeNames, htreeReading, rfl⟩ := place_sound hplace
  have hvalue : tree.root.value = name := by
    have htoken : tree.root.token = t := (List.cons.inj (htree.1.symm.trans hrest)).1
    have hfits := tree.root.fits
    rw [htoken, hkind] at hfits
    exact (Option.some.inj hfits).symm
  have hlocation : ExprTree.variableReading s.names scope tree = some p := by
    simp [ExprTree.variableReading, hvalue, hvariable, htreeReading]
  obtain ⟨r, s₂, htake, h⟩ := bind_eq_ok.mp h
  cases r with
  | none =>
    obtain rfl := take?_eq_none htake
    obtain ⟨rfl, rfl⟩ := pure_eq_ok.mp h
    exact ⟨.read tree, htree, htreeNames, by simp [ExprTree.reading, hlocation]⟩
  | some r =>
    obtain ⟨mark, rfl, hmark, hmarkNames⟩ := take?_eq_some htake
    obtain ⟨_, s₃, hassignable, h⟩ := bind_eq_ok.mp h
    obtain ⟨rfl, hwritable⟩ := assignable_eq_ok hassignable
    obtain ⟨rfl, rfl⟩ := pure_eq_ok.mp h
    rw [hmarkNames, htreeNames] at hwritable
    refine ⟨.bumpAfter tree mark, htree.trans hmark, hmarkNames.trans htreeNames, ?_⟩
    simp [ExprTree.reading, hlocation, hwritable]

/-- What is read behind a mark that changes a place is a place that may be written. -/
private theorem bumped_sound (mark : Leaf Kind.bump?) {e : Expr}
    (h : bumped scope mark.value mark.token.line s = .ok e s') :
    ∃ tree : PlaceTree, s.Past tree.yield s' ∧ s'.names = s.names ∧
      (ExprTree.bumpBefore mark tree).reading s.names scope = some e := by
  obtain ⟨⟨p, line⟩, s₁, hplace, h⟩ := bind_eq_ok.mp h
  obtain ⟨tree, htree, htreeNames, htreeReading, rfl⟩ := place_sound hplace
  obtain ⟨_, s₂, hassignable, h⟩ := bind_eq_ok.mp h
  obtain ⟨rfl, hwritable⟩ := assignable_eq_ok hassignable
  obtain ⟨rfl, rfl⟩ := pure_eq_ok.mp h
  rw [htreeNames] at hwritable
  exact ⟨tree, htree, htreeNames, by simp [ExprTree.reading, htreeReading, hwritable]⟩

/-- Going past the first token leaves the tables as they are. -/
private theorem advance_first {t t' : Token} {rest : List Token} {s₁ : Cursor}
    (hrest : s.rest = t :: rest) (h : advance s = .ok t' s₁) :
    s.Past [t] s₁ ∧ s₁.names = s.names := by
  obtain ⟨hpast, hnames⟩ := advance_eq_ok h
  obtain rfl : t' = t := (List.cons.inj (hpast.1.symm.trans hrest)).1
  exact ⟨hpast, hnames⟩

/-- A token that stands for a value is an operand by itself. -/
private theorem literalOperand_sound {t : Token} {rest : List Token} {v : Value} {e : Expr}
    (hrest : s.rest = t :: rest) (hfit : t.kind.literal? = some v)
    (h : (do
      let _ ← advance
      return .literal v : Parse Expr) s = .ok e s') : ReadsExpr scope .operand s e s' := by
  obtain ⟨_, s₁, hadvance, h⟩ := bind_eq_ok.mp h
  obtain ⟨rfl, rfl⟩ := pure_eq_ok.mp h
  obtain ⟨hpast, hnames⟩ := advance_first hrest hadvance
  exact ⟨.literal ⟨t, v, hfit⟩, hpast, hnames, rfl⟩

/-- A change in front of a place, with its mark. -/
private theorem bumpBefore_sound (mark : Leaf Kind.bump?) {rest : List Token} {e : Expr}
    (hrest : s.rest = mark.token :: rest)
    (h : (do
      let _ ← advance
      bumped scope mark.value mark.token.line : Parse Expr) s = .ok e s') :
    ReadsExpr scope .operand s e s' := by
  obtain ⟨_, s₁, hadvance, h⟩ := bind_eq_ok.mp h
  obtain ⟨hpast, hnames⟩ := advance_first hrest hadvance
  obtain ⟨tree, htree, htreeNames, htreeReading⟩ := bumped_sound mark h
  rw [hnames] at htreeReading
  exact ⟨.bumpBefore mark tree, hpast.cons htree, htreeNames.trans hnames, htreeReading⟩

section Nested

variable {operand : Parse Expr}
  (hop : ∀ {s s' : Cursor} {e : Expr}, operand s = .ok e s' → ReadsExpr scope .operand s e s')

include hop

/-- An operand behind a minus sign. -/
private theorem negate_sound (minus : Punct .minus) {rest : List Token} {e : Expr}
    (hrest : s.rest = minus.token :: rest)
    (h : (do
      let _ ← advance
      return .negate (← operand) minus.token.line : Parse Expr) s = .ok e s') :
    ReadsExpr scope .operand s e s' := by
  obtain ⟨_, s₁, hadvance, h⟩ := bind_eq_ok.mp h
  obtain ⟨inner, s₂, hinner, h⟩ := bind_eq_ok.mp h
  obtain ⟨rfl, rfl⟩ := pure_eq_ok.mp h
  obtain ⟨hpast, hnames⟩ := advance_first hrest hadvance
  obtain ⟨tree, htree, htreeNames, htreeReading⟩ := hop hinner
  rw [hnames] at htreeReading
  exact ⟨.negate minus tree, hpast.cons htree, htreeNames.trans hnames,
    by simp [ExprTree.reading, htreeReading]⟩

/-- A chain in parentheses. -/
private theorem group_sound (opening : Punct .leftParen) {rest : List Token} {e : Expr}
    (hrest : s.rest = opening.token :: rest)
    (h : (do
      let _ ← advance
      let inner ← chain operand
      expect .rightParen
      return .group inner : Parse Expr) s = .ok e s') : ReadsExpr scope .operand s e s' := by
  obtain ⟨_, s₁, hadvance, h⟩ := bind_eq_ok.mp h
  obtain ⟨inner, s₂, hinner, h⟩ := bind_eq_ok.mp h
  obtain ⟨_, s₃, hclosing, h⟩ := bind_eq_ok.mp h
  obtain ⟨rfl, rfl⟩ := pure_eq_ok.mp h
  obtain ⟨hpast, hnames⟩ := advance_first hrest hadvance
  obtain ⟨tree, htree, htreeNames, htreeReading⟩ := chain_sound hop hinner
  obtain ⟨closing, hclose, hcloseNames⟩ := expect_eq_ok hclosing
  rw [hnames] at htreeReading
  refine ⟨.group opening tree closing, hpast.cons (htree.trans hclose), ?_,
    by simp [ExprTree.reading, htreeReading]⟩
  rw [hcloseNames, htreeNames, hnames]

end Nested

/-- A parsed operand has a derivation. -/
theorem operand_sound {n : Nat} {e : Expr} (h : operand scope n s = .ok e s') :
    ReadsExpr scope .operand s e s' := by
  induction n generalizing s s' e with
  | zero => exact absurd h unexpected_ne_ok
  | succ n ih =>
    rw [operand, peek_bind] at h
    cases hrest : s.rest with
    | nil =>
      rw [hrest] at h
      exact absurd h unexpected_ne_ok
    | cons t rest =>
      simp only [hrest, List.head?_cons] at h
      rw [operandFrom] at h
      cases hkind : t.kind with
      | int v | float v | quoted v =>
        simp only [hkind] at h
        exact literalOperand_sound hrest (by rw [hkind]; rfl) h
      | ident name =>
        simp only [hkind, names_bind] at h
        cases hordinal : s.names.procedure? name with
        | some ordinal =>
          simp only [hordinal] at h
          exact call_sound ih hrest hkind hordinal h
        | none =>
          simp only [hordinal] at h
          exact placeOperand_sound hrest hkind hordinal h
      | keyword k =>
        cases k with
        | yes | no =>
          simp only [hkind] at h
          exact literalOperand_sound hrest (by rw [hkind]; rfl) h
        | _ =>
          simp only [hkind] at h
          exact absurd h unexpected_ne_ok
      | mark m =>
        cases m with
        | minus =>
          simp only [hkind] at h
          exact negate_sound ih ⟨t, (), by rw [hkind]; rfl⟩ hrest h
        | leftParen =>
          simp only [hkind] at h
          exact group_sound ih ⟨t, (), by rw [hkind]; rfl⟩ hrest h
        | plusPlus | minusMinus =>
          simp only [hkind] at h
          exact bumpBefore_sound ⟨t, _, by rw [hkind]; rfl⟩ hrest h
        | _ =>
          simp only [hkind] at h
          exact absurd h unexpected_ne_ok
      | _ =>
        simp only [hkind] at h
        exact absurd h unexpected_ne_ok

/-! ### Conditions -/

section Nested

variable {operand : Parse Expr}
  (hop : ∀ {s s' : Cursor} {e : Expr}, operand s = .ok e s' → ReadsExpr scope .operand s e s')

/-- What is read in front of a term is a row of `!`. -/
private theorem bangs_sound {found : List (Unit × Token)}
    (h : many (take? (Kind.mark? .bang)) s = .ok found s') :
    ∃ bangs : List (Punct .bang), s.Past (bangs.map (·.token)) s' ∧ s'.names = s.names ∧
      bangs.length = found.length := by
  refine many_induction (P := fun s (found : List (Unit × Token)) s' =>
    ∃ bangs : List (Punct .bang), s.Past (bangs.map (·.token)) s' ∧ s'.names = s.names ∧
      bangs.length = found.length)
    (fun s => ⟨[], .refl s, rfl, rfl⟩) take?_eq_none ?_ h
  rintro s s₁ s₂ a as hitem ⟨bangs, hbangs, hbangsNames, hlength⟩
  obtain ⟨bang, -, hbang, hbangNames⟩ := take?_eq_some hitem
  exact ⟨bang :: bangs, hbang.cons hbangs, hbangsNames.trans hbangNames, by simp [hlength]⟩

include hop

/-- What is read as a term is one, and an odd number of `!` turns it around. -/
private theorem term_sound {r : Term} (h : term operand s = .ok r s') :
    ∃ tree : TermTree, s.Past tree.yield s' ∧ s'.names = s.names ∧
      tree.reading s.names scope = some r := by
  rw [term, peek_bind, get_bind] at h
  obtain ⟨found, s₁, hfound, h⟩ := bind_eq_ok.mp h
  obtain ⟨left, s₂, hleft, h⟩ := bind_eq_ok.mp h
  obtain ⟨compared, s₃, hcompared, h⟩ := bind_eq_ok.mp h
  obtain ⟨bangs, hbangs, hbangsNames, hlength⟩ := bangs_sound hfound
  obtain ⟨leftTree, hleftPast, hleftNames, hleftReading⟩ := chain_sound hop hleft
  rw [hbangsNames] at hleftReading
  -- the first token of the term is the next one, so the lines agree
  have hline : ∀ {tree : TermTree}, s.Past tree.yield s' →
      firstLine tree.yield = s.rest.head?.elim s.endLine (·.line) := by
    intro tree hpast
    obtain ⟨t, ts, hyield, -⟩ := tree.heads
    rw [hpast.1, hyield]
    rfl
  cases compared with
  | none =>
    obtain rfl := take?_eq_none hcompared
    obtain ⟨rfl, rfl⟩ := pure_eq_ok.mp h
    have hpast : s.Past (TermTree.yield ⟨bangs, leftTree, none⟩) s₂ := by
      simpa [TermTree.yield] using hbangs.trans hleftPast
    refine ⟨⟨bangs, leftTree, none⟩, hpast, hleftNames.trans hbangsNames, ?_⟩
    simp [TermTree.reading, TermTree.comparisonReading, hleftReading, hlength, hline hpast]
  | some compared =>
    obtain ⟨mark, rfl, hmark, hmarkNames⟩ := take?_eq_some hcompared
    obtain ⟨right, s₄, hright, h⟩ := bind_eq_ok.mp h
    obtain ⟨rfl, rfl⟩ := pure_eq_ok.mp h
    obtain ⟨rightTree, hrightPast, hrightNames, hrightReading⟩ := chain_sound hop hright
    rw [hmarkNames, hleftNames, hbangsNames] at hrightReading
    have hpast : s.Past (TermTree.yield ⟨bangs, leftTree, some (mark, rightTree)⟩) s₄ :=
      (hbangs.trans hleftPast).trans (hmark.cons hrightPast)
    refine ⟨⟨bangs, leftTree, some (mark, rightTree)⟩, hpast, ?_, ?_⟩
    · rw [hrightNames, hmarkNames, hleftNames, hbangsNames]
    · simp [TermTree.reading, TermTree.comparisonReading, hleftReading, hrightReading, hlength,
        hline hpast]

/-- What is read behind the first term are terms with a connective in front of each. -/
private theorem laterTerms_sound {found : List (Connective × Term)}
    (h : many (laterTerm operand) s = .ok found s') :
    ∃ trees : List (Leaf Kind.connective? × TermTree),
      s.Past (yieldBehind TermTree.yield trees) s' ∧ s'.names = s.names ∧
        trees.mapM (ConditionTree.laterReading s.names scope) = some found := by
  refine many_induction (P := fun s found s' =>
    ∃ trees : List (Leaf Kind.connective? × TermTree),
      s.Past (yieldBehind TermTree.yield trees) s' ∧ s'.names = s.names ∧
        trees.mapM (ConditionTree.laterReading s.names scope) = some found)
    (fun s => ⟨[], .refl s, rfl, rfl⟩) ?_ ?_ h
  · intro s s' hnone
    obtain ⟨r, s₁, htake, hnone⟩ := bind_eq_ok.mp hnone
    cases r with
    | none =>
      obtain ⟨-, rfl⟩ := pure_eq_ok.mp hnone
      exact take?_eq_none htake
    | some r =>
      obtain ⟨_, _, -, hnone⟩ := bind_eq_ok.mp hnone
      exact absurd (pure_eq_ok.mp hnone).1 (by simp)
  · rintro s s₁ s₂ a as hitem ⟨trees, htrees, htreesNames, htreesReading⟩
    obtain ⟨r, s₃, htake, hitem⟩ := bind_eq_ok.mp hitem
    cases r with
    | none => exact absurd (pure_eq_ok.mp hitem).1 (by simp)
    | some r =>
      obtain ⟨mark, rfl, hmark, hmarkNames⟩ := take?_eq_some htake
      obtain ⟨t, s₄, hterm, hitem⟩ := bind_eq_ok.mp hitem
      obtain ⟨ha, rfl⟩ := pure_eq_ok.mp hitem
      obtain rfl := Option.some.inj ha
      obtain ⟨tree, htree, htreeNames, htreeReading⟩ := term_sound hop hterm
      rw [htreeNames, hmarkNames] at htreesReading
      rw [hmarkNames] at htreeReading
      refine ⟨(mark, tree) :: trees, hmark.cons (htree.trans htrees), ?_, ?_⟩
      · rw [htreesNames, htreeNames, hmarkNames]
      · simp [List.mapM_cons, ConditionTree.laterReading, htreeReading, htreesReading]

/-- What is read as a condition is one. -/
theorem condition_sound {r : Condition} (h : condition operand s = .ok r s') :
    ∃ tree : ConditionTree, s.Past tree.yield s' ∧ s'.names = s.names ∧
      tree.reading s.names scope = some r := by
  obtain ⟨first, s₁, hfirst, h⟩ := bind_eq_ok.mp h
  obtain ⟨rest, s₂, hrest, h⟩ := bind_eq_ok.mp h
  obtain ⟨rfl, rfl⟩ := pure_eq_ok.mp h
  obtain ⟨firstTree, hfirstPast, hfirstNames, hfirstReading⟩ := term_sound hop hfirst
  obtain ⟨trees, htrees, htreesNames, htreesReading⟩ := laterTerms_sound hop hrest
  rw [hfirstNames] at htreesReading
  exact ⟨⟨firstTree, trees⟩, hfirstPast.trans htrees, htreesNames.trans hfirstNames,
    by simp [ConditionTree.reading, hfirstReading, htreesReading]⟩

end Nested

end Grammar

end Litany
