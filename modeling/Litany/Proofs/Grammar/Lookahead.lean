import Litany.Proofs.Grammar.Runs

/-!
# First tokens, and tokens behind a phrase

Where a phrase may go on or end, its parser decides by the next token. This works because the
kinds that a phrase begins with and the kinds that may stand behind it are disjoint: a chain is
never followed by an operation, a place by a dot, a call by an opening parenthesis. The two classes
are named here (`opensChain`, `endsChain`, …), each phrase is shown to begin with a token of its
class, and the classes are shown to be disjoint where a parser has to choose.
-/

namespace Litany

namespace Kind

/-! ### Classes -/

/-- One of the given marks. -/
def isMark (marks : List Mark) : Kind → Bool
  | mark m => marks.contains m
  | _ => false

/-- One of the given reserved words. -/
def isWord (words : List Keyword) : Kind → Bool
  | keyword k => words.contains k
  | _ => false

/-- The kinds an operand begins with. -/
def opensChain (k : Kind) : Bool :=
  k.literal?.isSome || k.ident?.isSome ||
    k.isMark [.minus, .leftParen, .plusPlus, .minusMinus]

/-- The kinds a term of a condition begins with. -/
def opensTerm (k : Kind) : Bool :=
  k.opensChain || k.isMark [.bang]

/-- The kinds a statement begins with. -/
def opensStatement (k : Kind) : Bool :=
  k.opensChain || k.scalar?.isSome || k.foreign?.isSome ||
    k.isWord [.loop, .branch, .giveBack]

/-- The kinds an item of a program begins with. -/
def opensItem (k : Kind) : Bool :=
  k.opensStatement || k.define?.isSome || k.isWord [.classDef]

/-- The kinds that may stand behind a condition. -/
def endsCondition (k : Kind) : Bool :=
  k.isMark [.semicolon, .rightParen]

/-- The kinds that may stand behind a term. -/
def endsTerm (k : Kind) : Bool :=
  k.isMark [.semicolon, .rightParen, .andAnd, .orOr]

/-- The kinds that may stand behind a chain. -/
def endsChain (k : Kind) : Bool :=
  k.isMark [.semicolon, .rightParen, .andAnd, .orOr, .comma, .less, .lessEqual, .greater,
    .greaterEqual, .equalEqual, .bangEqual]

/-- The kinds that may stand behind an operand. -/
def endsOperand (k : Kind) : Bool :=
  k.isMark [.semicolon, .rightParen, .andAnd, .orOr, .comma, .less, .lessEqual, .greater,
    .greaterEqual, .equalEqual, .bangEqual, .plus, .minus, .star, .slash]

/-! ### Disjoint classes -/

/-- A kind that is one of some marks is one of them. -/
theorem exists_of_isMark {marks : List Mark} {k : Kind} (h : k.isMark marks = true) :
    ∃ m ∈ marks, k = .mark m := by
  cases k with
  | mark m => exact ⟨m, by simpa [isMark] using h, rfl⟩
  | _ => cases h

/-- One of some marks is one of more of them. -/
theorem isMark_of_subset {marks more : List Mark} (hsub : marks ⊆ more) {k : Kind}
    (h : k.isMark marks = true) : k.isMark more = true := by
  obtain ⟨m, hm, rfl⟩ := exists_of_isMark h
  simpa [isMark] using hsub hm

/-- A function that is undefined on some marks is undefined on what is one of them. -/
theorem eq_none_of_isMark {α : Type} {f : Kind → Option α} {marks : List Mark}
    (hf : ∀ m ∈ marks, f (.mark m) = none) {k : Kind} (h : k.isMark marks = true) :
    f k = none := by
  obtain ⟨m, hm, rfl⟩ := exists_of_isMark h
  exact hf m hm

/-- What changes a place by one is one of two marks. -/
theorem isMark_of_bump? {k : Kind} (h : k.bump?.isSome = true) :
    k.isMark [.plusPlus, .minusMinus] = true := by
  cases k with
  | mark m => cases m <;> first | rfl | cases h
  | _ => cases h

/-- The operations of arithmetic are marks. -/
theorem isMark_of_arithmetic? {k : Kind} (h : k.arithmetic?.isSome = true) :
    k.isMark [.plus, .minus, .star, .slash] = true := by
  cases k with
  | mark m => cases m <;> first | rfl | cases h
  | _ => cases h

/-- What assigns is a mark. -/
theorem isMark_of_assignment? {k : Kind} (h : k.assignment?.isSome = true) :
    k.isMark [.equal, .plusEqual, .minusEqual, .starEqual, .slashEqual] = true := by
  cases k with
  | mark m => cases m <;> first | rfl | cases h
  | _ => cases h

/-- What compares is a mark. -/
theorem isMark_of_comparison? {k : Kind} (h : k.comparison?.isSome = true) :
    k.isMark [.less, .lessEqual, .greater, .greaterEqual, .equalEqual, .bangEqual] = true := by
  cases k with
  | mark m => cases m <;> first | rfl | cases h
  | _ => cases h

/-- What connects terms is a mark. -/
theorem isMark_of_connective? {k : Kind} (h : k.connective?.isSome = true) :
    k.isMark [.andAnd, .orOr] = true := by
  cases k with
  | mark m => cases m <;> first | rfl | cases h
  | _ => cases h

/-- What may stand behind a condition may stand behind its last term. -/
theorem endsTerm_of_endsCondition (k : Kind) (h : k.endsCondition = true) :
    k.endsTerm = true :=
  isMark_of_subset (by decide) h

/-- What may stand behind a term may stand behind its last chain. -/
theorem endsChain_of_endsTerm (k : Kind) (h : k.endsTerm = true) : k.endsChain = true :=
  isMark_of_subset (by decide) h

/-- What may stand behind a chain may stand behind its last operand. -/
theorem endsOperand_of_endsChain (k : Kind) (h : k.endsChain = true) : k.endsOperand = true :=
  isMark_of_subset (by decide) h

/-- A term may begin with a chain. -/
theorem opensTerm_of_opensChain (k : Kind) (h : k.opensChain = true) : k.opensTerm = true := by
  simp [opensTerm, h]

/-- A statement may begin with a chain. -/
theorem opensStatement_of_opensChain (k : Kind) (h : k.opensChain = true) :
    k.opensStatement = true := by
  simp [opensStatement, h]

/-- An item may begin with a statement. -/
theorem opensItem_of_opensStatement (k : Kind) (h : k.opensStatement = true) :
    k.opensItem = true := by
  simp [opensItem, h]

/-- No place goes on with a field where an operand may end. -/
theorem dot_of_endsOperand (k : Kind) (h : k.endsOperand = true) : k.mark? .dot = none :=
  eq_none_of_isMark (by decide) h

/-- No name is that of a call where an operand may end. -/
theorem leftParen_of_endsOperand (k : Kind) (h : k.endsOperand = true) :
    k.mark? .leftParen = none :=
  eq_none_of_isMark (by decide) h

/-- No place is changed by a mark behind it where an operand may end. -/
theorem bump?_of_endsOperand (k : Kind) (h : k.endsOperand = true) : k.bump? = none :=
  eq_none_of_isMark (by decide) h

/-- No place is assigned to where an operand may end. -/
theorem assignment?_of_endsOperand (k : Kind) (h : k.endsOperand = true) :
    k.assignment? = none :=
  eq_none_of_isMark (by decide) h

/-- No chain goes on with an operation where one may end. -/
theorem arithmetic?_of_endsChain (k : Kind) (h : k.endsChain = true) : k.arithmetic? = none :=
  eq_none_of_isMark (by decide) h

/-- No term goes on with a comparison where one may end. -/
theorem comparison?_of_endsTerm (k : Kind) (h : k.endsTerm = true) : k.comparison? = none :=
  eq_none_of_isMark (by decide) h

/-- No condition goes on with a connective where one may end. -/
theorem connective?_of_endsCondition (k : Kind) (h : k.endsCondition = true) :
    k.connective? = none :=
  eq_none_of_isMark (by decide) h

/-- What is none of some marks is not a given one of them. -/
private theorem mark?_of_not_isMark {m : Mark} {marks : List Mark} (hm : m ∈ marks) {k : Kind}
    (h : k.isMark marks = false) : k.mark? m = none := by
  cases k with
  | mark n =>
    have hne : n ≠ m := by
      rintro rfl
      simp [isMark, hm] at h
    simp [mark?, hne]
  | _ => rfl

/-- The marks that begin no statement, and no phrase of one. -/
def closers : List Mark :=
  [.rightParen, .leftBrace, .rightBrace, .comma, .dot, .semicolon]

private theorem isMark_closers_of_opensTerm {k : Kind} (h : k.opensTerm = true) :
    k.isMark closers = false := by
  cases k with
  | mark m => cases m <;> first | rfl | cases h
  | _ => rfl

private theorem isMark_closers_of_opensItem {k : Kind} (h : k.opensItem = true) :
    k.isMark closers = false := by
  cases k with
  | mark m => cases m <;> first | rfl | cases h
  | _ => rfl

/-- No phrase begins with one of the closing marks. -/
theorem mark?_of_opensItem {m : Mark} (hm : m ∈ closers) (k : Kind) (h : k.opensItem = true) :
    k.mark? m = none :=
  mark?_of_not_isMark hm (isMark_closers_of_opensItem h)

/-- No term begins with one of the closing marks. -/
theorem mark?_of_opensTerm {m : Mark} (hm : m ∈ closers) (k : Kind) (h : k.opensTerm = true) :
    k.mark? m = none :=
  mark?_of_not_isMark hm (isMark_closers_of_opensTerm h)

/-- No item begins with the word in front of the second body of a branch. -/
theorem otherwise_of_opensItem (k : Kind) (h : k.opensItem = true) :
    k.keyword? .otherwise = none := by
  cases k with
  | keyword w => cases w <;> first | rfl | cases h
  | _ => rfl

/-- No chain begins with a `!`, so that one in front of a term is part of the term. -/
theorem bang_of_opensChain (k : Kind) (h : k.opensChain = true) : k.mark? .bang = none := by
  cases k with
  | mark m => cases m <;> first | rfl | cases h
  | _ => rfl

end Kind

namespace Grammar

open Parse

/-- The tokens begin with one whose kind is in the class. -/
def Heads (p : Kind → Bool) (tokens : List Token) : Prop :=
  ∃ t rest, tokens = t :: rest ∧ p t.kind = true

namespace Heads

variable {p q : Kind → Bool} {ts us : List Token} {α : Type} {f : Kind → Option α}

/-- The first token decides. -/
theorem of_cons {t : Token} (h : p t.kind = true) : Heads p (t :: ts) :=
  ⟨t, ts, rfl, h⟩

/-- What stands behind does not matter. -/
theorem append (h : Heads p ts) (us : List Token) : Heads p (ts ++ us) := by
  obtain ⟨t, rest, rfl, ht⟩ := h
  exact ⟨t, rest ++ us, rfl, ht⟩

/-- What begins with a token of one class begins with one of any larger class. -/
theorem imp (h : Heads p ts) (hpq : ∀ k, p k = true → q k = true) : Heads q ts := by
  obtain ⟨t, rest, rfl, ht⟩ := h
  exact ⟨t, rest, rfl, hpq _ ht⟩

/-- What begins with a token of a class does not begin with one that the class leaves out. -/
theorem lacks (h : Heads p ts) (hpf : ∀ k, p k = true → f k = none) : Lacks f ts := by
  obtain ⟨t, rest, rfl, ht⟩ := h
  exact Lacks.of_cons (hpf _ ht)

/-- What begins with a token is not empty. -/
theorem ne_nil (h : Heads p ts) : ts ≠ [] := by
  obtain ⟨t, rest, rfl, -⟩ := h
  exact List.cons_ne_nil t rest

/-- What begins with a token takes at least one. -/
theorem length_pos (h : Heads p ts) : 0 < ts.length :=
  List.length_pos_iff.mpr h.ne_nil

/-- A leaf is a first token. -/
theorem of_leaf (leaf : Leaf f) (hfp : ∀ k, (f k).isSome → p k = true) :
    Heads p (leaf.token :: ts) :=
  of_cons (hfp _ (by rw [leaf.fits]; rfl))

end Heads

/-! ### Kinds of leaves -/

/-- The token of a leaf is of the kind that the leaf asks for. -/
theorem Leaf.isSome {α : Type} {f : Kind → Option α} (l : Leaf f) :
    (f l.token.kind).isSome = true := by
  rw [l.fits]
  rfl

/-- Where only one kind gives the value of a leaf, the token of the leaf is of this kind. -/
private theorem Leaf.kind_of_fits {α : Type} {f : Kind → Option α} {kind : α → Kind}
    (h : ∀ k a, f k = some a → k = kind a) (l : Leaf f) : l.token.kind = kind l.value :=
  h _ _ l.fits

/-- The token of a mark is that mark. -/
theorem Leaf.kind_mark {m : Mark} (l : Punct m) : l.token.kind = .mark m := by
  have hfits := l.fits
  unfold Kind.mark? at hfits
  split at hfits
  · rename_i n hkind
    split at hfits
    · rename_i hn
      rw [hkind, hn]
    · cases hfits
  · cases hfits

/-- The token of a reserved word is that word. -/
theorem Leaf.kind_keyword {k : Keyword} (l : Word k) : l.token.kind = .keyword k := by
  have hfits := l.fits
  unfold Kind.keyword? at hfits
  split at hfits
  · rename_i n hkind
    split at hfits
    · rename_i hn
      rw [hkind, hn]
    · cases hfits
  · cases hfits

/-- The token of a name is a name, with the text that the leaf holds. -/
theorem Leaf.kind_ident (l : Name) : l.token.kind = .ident l.value :=
  l.kind_of_fits fun k a h => by cases k <;> cases h <;> rfl

/-- The token of a type is that type. -/
theorem Leaf.kind_scalar (l : Leaf Kind.scalar?) : l.token.kind = .scalar l.value :=
  l.kind_of_fits fun k a h => by cases k <;> cases h <;> rfl

/-- The token of a quoted text is that text. -/
theorem Leaf.kind_quoted (l : Leaf Kind.quoted?) : l.token.kind = .quoted l.value :=
  l.kind_of_fits fun k a h => by cases k <;> cases h <;> rfl

/-- The token of foreign code is that code. -/
theorem Leaf.kind_foreign (l : Leaf Kind.foreign?) : l.token.kind = .foreign l.value :=
  l.kind_of_fits fun k a h => by cases k <;> cases h <;> rfl

/-- The token in front of a constant is the directive. -/
theorem Leaf.kind_define (l : Leaf Kind.define?) : l.token.kind = .define :=
  l.kind_of_fits fun k a h => by cases k <;> cases h <;> rfl

/-! ### The first token of a phrase -/

/-- A place begins with the name of its root. -/
theorem PlaceTree.heads (t : PlaceTree) : Heads Kind.opensChain t.yield := by
  refine Heads.of_leaf t.root fun k hk => ?_
  simp [Kind.opensChain, hk]

/-- Every operand begins with a literal, a name or a mark that opens one. -/
theorem ExprTree.heads_operand (t : ExprTree .operand) : Heads Kind.opensChain t.yield := by
  cases t with
  | literal value => exact Heads.of_leaf value fun k hk => by simp [Kind.opensChain, hk]
  | negate minus inner => exact Heads.of_cons (by rw [minus.kind_mark]; rfl)
  | group opening inner closing => exact Heads.of_cons (by rw [opening.kind_mark]; rfl)
  | bareCall name => exact Heads.of_leaf name fun k hk => by simp [Kind.opensChain, hk]
  | emptyCall name => exact Heads.of_leaf name fun k hk => by simp [Kind.opensChain, hk]
  | call name => exact Heads.of_leaf name fun k hk => by simp [Kind.opensChain, hk]
  | bumpBefore mark place =>
    refine Heads.of_leaf mark fun k hk => ?_
    have hmark : k.isMark [.minus, .leftParen, .plusPlus, .minusMinus] = true :=
      Kind.isMark_of_subset (by decide) (Kind.isMark_of_bump? hk)
    simp [Kind.opensChain, hmark]
  | read place => exact place.heads
  | bumpAfter place mark => exact place.heads.append _

/-- A chain begins with its first operand. -/
theorem ExprTree.heads_chain (t : ExprTree .chain) : Heads Kind.opensChain t.yield := by
  cases t with
  | chain first rest => exact first.heads_operand.append _

/-- A term begins with its first `!`, or else with its chain. -/
theorem TermTree.heads (t : TermTree) : Heads Kind.opensTerm t.yield := by
  unfold TermTree.yield
  cases t.bangs with
  | nil => exact (t.left.heads_chain.imp Kind.opensTerm_of_opensChain).append _
  | cons bang bangs => exact Heads.of_cons (by rw [bang.kind_mark]; rfl)

/-- A condition begins with its first term. -/
theorem ConditionTree.heads (t : ConditionTree) : Heads Kind.opensTerm t.yield :=
  t.first.heads.append _

/-- An assignment begins with its target, a chain with its first operand. -/
theorem StmtExprTree.heads (t : StmtExprTree) : Heads Kind.opensChain t.yield := by
  cases t with
  | assign target mark value => exact target.heads.append _
  | plain value => exact value.heads_chain

/-- Every statement begins with a word, a type, foreign code or a chain. -/
theorem StmtTree.heads_statement (t : StmtTree .statement) :
    Heads Kind.opensStatement t.yield := by
  cases t with
  | declare type vars =>
    cases type with
    | scalar type => exact Heads.of_leaf type fun k hk => by simp [Kind.opensStatement, hk]
    | object name =>
      exact Heads.of_leaf name fun k hk => by simp [Kind.opensStatement, Kind.opensChain, hk]
  | print template => exact Heads.of_cons (by rw [template.kind_quoted]; rfl)
  | loop word => exact Heads.of_cons (by rw [word.kind_keyword]; rfl)
  | branch word => exact Heads.of_cons (by rw [word.kind_keyword]; rfl)
  | branchElse word => exact Heads.of_cons (by rw [word.kind_keyword]; rfl)
  | giveBack word => exact Heads.of_cons (by rw [word.kind_keyword]; rfl)
  | foreign code => exact Heads.of_leaf code fun k hk => by simp [Kind.opensStatement, hk]
  | expr e semicolon => exact (e.heads.imp Kind.opensStatement_of_opensChain).append _

/-- Every item begins with a token by which its production is chosen. -/
theorem ItemTree.heads (t : ItemTree) : Heads Kind.opensItem t.yield := by
  cases t with
  | procedure type =>
    exact Heads.of_leaf type fun k hk => by simp [Kind.opensItem, Kind.opensStatement, hk]
  | classDef word => exact Heads.of_cons (by rw [word.kind_keyword]; rfl)
  | classDefWith word => exact Heads.of_cons (by rw [word.kind_keyword]; rfl)
  | define directive => exact Heads.of_cons (by rw [directive.kind_define]; rfl)
  | statement s => exact s.heads_statement.imp Kind.opensItem_of_opensStatement

end Grammar

end Litany
