import Litany.Proofs.Grammar.Completeness.Expression
import Litany.Proofs.Grammar.Completeness.Statement

/-!
# An expression has one derivation

Two trees with a reading whose yields are both in front of the same tokens, and each of which is
followed by something that cannot go on with it, are the same tree and leave the same tokens. The
argument is by the shape of the tree: which production an operand is of can be told from the
tables and at most three tokens, so two trees in front of the same tokens are of the same
production, and their parts agree one after the other.
-/

namespace Litany

namespace Grammar

open Parse

variable {names : Names} {scope : Scope} {r r' : List Token}

/-! ### Repeated items -/

section Repeated

variable {α β γ : Type} {f : Kind → Option γ} {yield : α → List Token}

/-- If each item is determined by the tokens it is in front of, then so is a row of them. -/
theorem yieldBehind_unique (read : Leaf f × α → Names → Option (β × Names))
    (stops : List Token → Prop)
    (hitem : ∀ {leaf a a' b b' names later later' r r'}, read (leaf, a) names = some (b, later) →
      read (leaf, a') names = some (b', later') → stops r → stops r' →
      yield a ++ r = yield a' ++ r' → a = a' ∧ r = r')
    (hleaf : ∀ (leaf : Leaf f) (rest : List Token), stops (leaf.token :: rest))
    {trees trees' : List (Leaf f × α)} {bs bs' : List β} {later later' : Names}
    (hread : readAll read trees names = some (bs, later))
    (hread' : readAll read trees' names = some (bs', later'))
    (hstops : stops r) (hstops' : stops r') (hlacks : Lacks f r) (hlacks' : Lacks f r')
    (h : yieldBehind yield trees ++ r = yieldBehind yield trees' ++ r') :
    trees = trees' ∧ r = r' := by
  induction trees generalizing trees' names bs bs' with
  | nil =>
    cases trees' with
    | nil => exact ⟨rfl, h⟩
    | cons tree' trees' =>
      obtain rfl : r = _ := h
      exact absurd hlacks (not_lacks_leaf tree'.1)
  | cons tree trees ih =>
    cases trees' with
    | nil =>
      obtain rfl : _ = r' := h
      exact absurd hlacks' (not_lacks_leaf tree.1)
    | cons tree' trees' =>
      obtain ⟨leaf, a⟩ := tree
      obtain ⟨leaf', a'⟩ := tree'
      obtain ⟨b, names₁, bs, hfirst, hrest, rfl⟩ := readAll_cons_eq_some.mp hread
      obtain ⟨b', names₁', bs', hfirst', hrest', rfl⟩ := readAll_cons_eq_some.mp hread'
      simp only [yieldBehind, List.cons_append, List.append_assoc, List.cons.injEq] at h
      obtain ⟨htoken, h⟩ := h
      obtain rfl := Leaf.ext_token htoken
      have hnext : ∀ {trees : List (Leaf f × α)} {r : List Token}, stops r →
          stops (yieldBehind yield trees ++ r) := by
        intro trees r hstops
        cases trees with
        | nil => exact hstops
        | cons tree trees => exact hleaf tree.1 _
      obtain ⟨rfl, hbehind⟩ := hitem hfirst hfirst' (hnext hstops) (hnext hstops') h
      obtain ⟨rfl, rfl⟩ : b = b' ∧ names₁ = names₁' := by simpa [hfirst] using hfirst'
      obtain ⟨rfl, rfl⟩ := ih hrest hrest' hbehind
      exact ⟨rfl, rfl⟩

/-- The same for items that are determined whether they have a reading or not. -/
theorem yieldBehind_unique_of_forall (stops : List Token → Prop)
    (hitem : ∀ {a a' r r'}, stops r → stops r' → yield a ++ r = yield a' ++ r' → a = a' ∧ r = r')
    (hleaf : ∀ (leaf : Leaf f) (rest : List Token), stops (leaf.token :: rest))
    {trees trees' : List (Leaf f × α)} (hstops : stops r) (hstops' : stops r')
    (hlacks : Lacks f r) (hlacks' : Lacks f r')
    (h : yieldBehind yield trees ++ r = yieldBehind yield trees' ++ r') :
    trees = trees' ∧ r = r' := by
  have hread : ∀ trees : List (Leaf f × α), readAll (fun _ names => some ((), names))
      trees Names.empty = some (trees.map fun _ => (), Names.empty) :=
    fun trees => readAll_some _ _
  exact yieldBehind_unique (fun _ names => some ((), names)) stops (fun _ _ => hitem) hleaf
    (hread trees) (hread trees') hstops hstops' hlacks hlacks' h

end Repeated

theorem PlaceTree.unique {t t' : PlaceTree} (hdot : Lacks (Kind.mark? .dot) r)
    (hdot' : Lacks (Kind.mark? .dot) r') (h : t.yield ++ r = t'.yield ++ r') :
    t = t' ∧ r = r' := by
  obtain ⟨root, fields⟩ := t
  obtain ⟨root', fields'⟩ := t'
  simp only [yield, List.cons_append, List.cons.injEq] at h
  obtain ⟨htoken, h⟩ := h
  obtain rfl := Leaf.ext_token htoken
  have hfields : fields = fields' ∧ r = r' := by
    refine yieldBehind_unique_of_forall (fun _ => True) ?_ (fun _ _ => trivial) trivial trivial
      hdot hdot' h
    intro name name' r r' _ _ h
    simp only [List.cons_append, List.nil_append, List.cons.injEq] at h
    exact ⟨Leaf.ext_token h.1, h.2⟩
  obtain ⟨rfl, rfl⟩ := hfields
  exact ⟨rfl, rfl⟩

/-! ### Operands and chains -/

/-- The productions of an operand, reading a place and changing it behind its name taken
together. -/
inductive OperandShape where
  | literal
  | negate
  | group
  | bareCall
  | emptyCall
  | call
  | bumpBefore
  | place

/-- The production of a tree. -/
def ExprTree.shape : ExprTree .operand → OperandShape
  | literal _ => .literal
  | negate _ _ => .negate
  | group _ _ _ => .group
  | bareCall _ => .bareCall
  | emptyCall _ _ _ => .emptyCall
  | call _ _ _ _ _ => .call
  | bumpBefore _ _ => .bumpBefore
  | read _ => .place
  | bumpAfter _ _ => .place

/-- Whether the first token is the given mark. -/
def begins (m : Mark) (tokens : List Token) : Bool :=
  (tokens.head?.bind fun t => Kind.mark? m t.kind).isSome

theorem begins_punct {m : Mark} (mark : Punct m) : begins m (mark.token :: r) = true := by
  simp [begins, mark.fits]

theorem begins_of_lacks {m : Mark} (h : Lacks (Kind.mark? m) r) : begins m r = false := by
  cases r with
  | nil => rfl
  | cons t r =>
    have hnone : Kind.mark? m t.kind = none := h t rfl
    simp [begins, hnone]

/-- The production of the operand that some tokens begin with. -/
def operandShape (names : Names) : List Token → OperandShape
  | [] => .literal
  | t :: rest =>
    match t.kind with
    | .mark .minus => .negate
    | .mark .leftParen => .group
    | .mark .plusPlus => .bumpBefore
    | .mark .minusMinus => .bumpBefore
    | .ident name =>
      if (names.procedure? name).isNone then .place
      else if begins .leftParen rest then
        if begins .rightParen rest.tail then .emptyCall else .call
      else .bareCall
    | _ => .literal

private theorem operandShape_mark {m : Mark} (mark : Punct m) :
    operandShape names (mark.token :: r) =
      match m with
      | .minus => .negate
      | .leftParen => .group
      | .plusPlus => .bumpBefore
      | .minusMinus => .bumpBefore
      | _ => .literal := by
  rw [operandShape, mark.kind_mark]
  cases m <;> rfl

private theorem operandShape_call {name : Name} {ordinal : Nat}
    (h : names.procedure? name.value = some ordinal) :
    operandShape names (name.token :: r) =
      if begins .leftParen r then
        if begins .rightParen r.tail then .emptyCall else .call
      else .bareCall := by
  rw [operandShape, name.kind_ident]
  simp [h]

private theorem operandShape_place {name : Name} (h : names.procedure? name.value = none) :
    operandShape names (name.token :: r) = .place := by
  rw [operandShape, name.kind_ident]
  simp [h]

/-- The production of a readable operand can be told from the tokens it is in front of. -/
theorem ExprTree.shape_eq {t : ExprTree .operand} {e : Expr}
    (hread : t.reading names scope = some e) (hstops : Heads Kind.endsOperand r) :
    t.shape = operandShape names (t.yield ++ r) := by
  have hcall : ∀ {name : Name} {given : List (Option Expr)},
      callReading names name given = some e →
        ∃ ordinal, names.procedure? name.value = some ordinal := by
    intro name given hcall
    obtain ⟨ordinal, -, -, hordinal, -⟩ := callReading_eq_some hcall
    exact ⟨ordinal, hordinal⟩
  cases t with
  | literal value =>
    obtain ⟨⟨kind, lexeme, line⟩, v, hfits⟩ := value
    cases kind with
    | mark m => cases hfits
    | ident name => cases hfits
    | _ => rfl
  | negate minus inner => exact (operandShape_mark minus).symm
  | group opening inner closing => exact (operandShape_mark opening).symm
  | bareCall name =>
    obtain ⟨ordinal, hordinal⟩ := hcall hread
    have hopens := begins_of_lacks (hstops.lacks Kind.leftParen_of_endsOperand)
    rw [yield, List.singleton_append, operandShape_call hordinal, hopens]
    rfl
  | emptyCall name opening closing =>
    obtain ⟨ordinal, hordinal⟩ := hcall hread
    rw [yield, List.cons_append, operandShape_call hordinal, List.cons_append,
      begins_punct opening, List.tail_cons, List.cons_append, begins_punct closing]
    rfl
  | call name opening first others closing =>
    obtain ⟨f, fs, -, -, hread, hlacks⟩ := reading_call r hread
    obtain ⟨ordinal, hordinal⟩ := hcall hread
    simp only [yield, List.cons_append, List.append_assoc, List.nil_append]
    rw [operandShape_call hordinal, begins_punct opening, List.tail_cons, begins_of_lacks hlacks]
    rfl
  | bumpBefore mark place =>
    obtain ⟨⟨kind, lexeme, line⟩, v, hfits⟩ := mark
    cases kind with
    | mark m => cases m <;> first | rfl | cases hfits
    | _ => cases hfits
  | read place =>
    obtain ⟨p, hp, -⟩ := reading_read hread
    exact (operandShape_place (variableReading_eq_some hp).1).symm
  | bumpAfter place mark =>
    obtain ⟨p, hp, -⟩ := reading_bumpAfter hread
    exact (operandShape_place (variableReading_eq_some hp).1).symm

/-- Two operands that begin with a place: what is behind the place tells them apart. -/
theorem ExprTree.unique_place {t t' : ExprTree .operand} (hshape : t.shape = .place)
    (hshape' : t'.shape = .place) (hstops : Heads Kind.endsOperand r)
    (hstops' : Heads Kind.endsOperand r') (h : t.yield ++ r = t'.yield ++ r') :
    t = t' ∧ r = r' := by
  have hbump : ∀ (mark : Leaf Kind.bump?) (r : List Token),
      Lacks (Kind.mark? .dot) (mark.token :: r) := by
    intro mark r
    exact Lacks.of_cons (Kind.eq_none_of_isMark (by decide) (Kind.isMark_of_bump? mark.isSome))
  have hdot := hstops.lacks Kind.dot_of_endsOperand
  have hdot' := hstops'.lacks Kind.dot_of_endsOperand
  cases t with
  | read place =>
    cases t' with
    | read place' =>
      obtain ⟨rfl, rfl⟩ := PlaceTree.unique hdot hdot' h
      exact ⟨rfl, rfl⟩
    | bumpAfter place' mark =>
      rw [yield, yield, List.append_assoc] at h
      obtain ⟨-, rfl⟩ := PlaceTree.unique hdot (hbump mark r') h
      exact absurd (hstops.lacks Kind.bump?_of_endsOperand) (not_lacks_leaf mark)
    | _ => cases hshape'
  | bumpAfter place mark =>
    cases t' with
    | read place' =>
      rw [yield, yield, List.append_assoc] at h
      obtain ⟨-, rfl⟩ := PlaceTree.unique (hbump mark r) hdot' h
      exact absurd (hstops'.lacks Kind.bump?_of_endsOperand) (not_lacks_leaf mark)
    | bumpAfter place' mark' =>
      rw [yield, yield, List.append_assoc, List.append_assoc] at h
      obtain ⟨rfl, hbehind⟩ := PlaceTree.unique (hbump mark r) (hbump mark' r') h
      obtain ⟨htoken, rfl⟩ := List.cons.inj hbehind
      obtain rfl := Leaf.ext_token htoken
      exact ⟨rfl, rfl⟩
    | _ => cases hshape'
  | _ => cases hshape

/-- A position that is filled does not begin with what ends a position. -/
private theorem not_heads_position (hopens : Heads Kind.opensChain r)
    (hends : Heads (fun k => k.isMark [.comma, .rightParen]) r) : False := by
  obtain ⟨t, rest, rfl, hopens⟩ := hopens
  obtain ⟨t', rest', heq, hends⟩ := hends
  obtain ⟨rfl, rfl⟩ := List.cons.inj heq
  obtain ⟨m, hm, hkind⟩ := Kind.exists_of_isMark hends
  have hclosed : ∀ m ∈ [Mark.comma, .rightParen], (Kind.mark m).opensChain = false := by decide
  rw [hkind, hclosed m hm] at hopens
  cases hopens

/-- Readable operands in front of the same tokens are of the same production. -/
private theorem ExprTree.shape_unique {t t' : ExprTree .operand} {e e' : Expr}
    (hread : t.reading names scope = some e) (hread' : t'.reading names scope = some e')
    (hstops : Heads Kind.endsOperand r) (hstops' : Heads Kind.endsOperand r')
    (h : t.yield ++ r = t'.yield ++ r') : t.shape = t'.shape := by
  rw [shape_eq hread hstops, shape_eq hread' hstops', h]

/-! ### Phrases

One lemma for each production, with what holds of the parts as its hypotheses. -/

namespace ExprTree

variable (names scope) in
/-- A phrase is fixed by the tokens it is in front of: where it can be read and stops, no other
phrase of its sort can be read and stop. -/
def Determined {k : ExprSort} (t : ExprTree k) : Prop :=
  ∀ ⦃t' : ExprTree k⦄ ⦃a a' : ExprReading k⦄ ⦃r r' : List Token⦄,
    t.reading names scope = some a → t'.reading names scope = some a' → k.Stops r → k.Stops r' →
      t.yield ++ r = t'.yield ++ r' → t = t' ∧ r = r'

/-- An operand has to be told from operands of its own production only. -/
private theorem Determined.of_shape {t : ExprTree .operand}
    (h : ∀ ⦃t' : ExprTree .operand⦄ ⦃e e' : Expr⦄ ⦃r r' : List Token⦄, t.shape = t'.shape →
      t.reading names scope = some e → t'.reading names scope = some e' →
      Heads Kind.endsOperand r → Heads Kind.endsOperand r' →
      t.yield ++ r = t'.yield ++ r' → t = t' ∧ r = r') : t.Determined names scope :=
  fun _ _ _ _ _ hread hread' hstops hstops' hyield =>
    h (shape_unique hread hread' hstops hstops' hyield) hread hread' hstops hstops' hyield

/-- A literal is a single token. -/
private theorem determined_literal (value : Leaf Kind.literal?) :
    (literal value).Determined names scope := by
  refine Determined.of_shape fun t' e e' r r' hshape hread hread' hstops hstops' h => ?_
  cases t' with
  | literal value' =>
    obtain ⟨htoken, rfl⟩ := List.cons.inj h
    obtain rfl := Leaf.ext_token htoken
    exact ⟨rfl, rfl⟩
  | _ => cases hshape

/-- Behind the minus sign a negation is its operand. -/
private theorem determined_negate (minus : Punct .minus) {inner : ExprTree .operand}
    (ih : inner.Determined names scope) : (negate minus inner).Determined names scope := by
  refine Determined.of_shape fun t' e e' r r' hshape hread hread' hstops hstops' h => ?_
  cases t' with
  | negate minus' inner' =>
    obtain ⟨v, hv, -⟩ := reading_negate hread
    obtain ⟨v', hv', -⟩ := reading_negate hread'
    obtain ⟨htoken, hinner⟩ := List.cons.inj h
    obtain rfl := Leaf.ext_token htoken
    obtain ⟨rfl, rfl⟩ := ih hv hv' hstops hstops' hinner
    exact ⟨rfl, rfl⟩
  | _ => cases hshape

/-- The chain in parentheses stops at the closing one. -/
private theorem determined_group (opening : Punct .leftParen) {inner : ExprTree .chain}
    (closing : Punct .rightParen) (ih : inner.Determined names scope) :
    (group opening inner closing).Determined names scope := by
  refine Determined.of_shape fun t' e e' r r' hshape hread hread' hstops hstops' h => ?_
  cases t' with
  | group opening' inner' closing' =>
    obtain ⟨v, hv, -⟩ := reading_group hread
    obtain ⟨v', hv', -⟩ := reading_group hread'
    have hends : ∀ (closing : Punct .rightParen) (r : List Token),
        ExprSort.chain.Stops (closing.token :: r) :=
      fun closing r => Heads.of_cons (by rw [closing.kind_mark]; rfl)
    simp only [yield, List.cons_append, List.append_assoc, List.nil_append,
      List.cons.injEq] at h
    obtain ⟨htoken, hinner⟩ := h
    obtain rfl := Leaf.ext_token htoken
    obtain ⟨rfl, hclosing⟩ := ih hv hv' (hends closing r) (hends closing' r') hinner
    obtain ⟨htoken, rfl⟩ := List.cons.inj hclosing
    obtain rfl := Leaf.ext_token htoken
    exact ⟨rfl, rfl⟩
  | _ => cases hshape

/-- A call without parentheses is a single token. -/
private theorem determined_bareCall (name : Name) :
    (bareCall name).Determined names scope := by
  refine Determined.of_shape fun t' e e' r r' hshape hread hread' hstops hstops' h => ?_
  cases t' with
  | bareCall name' =>
    obtain ⟨htoken, rfl⟩ := List.cons.inj h
    obtain rfl := Leaf.ext_token htoken
    exact ⟨rfl, rfl⟩
  | _ => cases hshape

/-- A call with nothing in its parentheses is three tokens. -/
private theorem determined_emptyCall (name : Name) (opening : Punct .leftParen)
    (closing : Punct .rightParen) : (emptyCall name opening closing).Determined names scope := by
  refine Determined.of_shape fun t' e e' r r' hshape hread hread' hstops hstops' h => ?_
  cases t' with
  | emptyCall name' opening' closing' =>
    simp only [yield, List.cons_append, List.nil_append, List.cons.injEq] at h
    obtain ⟨hname, hopening, hclosing, rfl⟩ := h
    obtain rfl := Leaf.ext_token hname
    obtain rfl := Leaf.ext_token hopening
    obtain rfl := Leaf.ext_token hclosing
    exact ⟨rfl, rfl⟩
  | _ => cases hshape

/-- The positions of a call stop at commas and at the closing parenthesis. -/
private theorem determined_call (name : Name) (opening : Punct .leftParen)
    {first : ExprTree .position} {others : ExprTree .positions} (closing : Punct .rightParen)
    (ihFirst : first.Determined names scope) (ihOthers : others.Determined names scope) :
    (call name opening first others closing).Determined names scope := by
  refine Determined.of_shape fun t' e e' r r' hshape hread hread' hstops hstops' h => ?_
  cases t' with
  | call name' opening' first' others' closing' =>
    obtain ⟨f, fs, hf, hfs, -⟩ := reading_call r hread
    obtain ⟨f', fs', hf', hfs', -⟩ := reading_call r' hread'
    have hends : ∀ (closing : Punct .rightParen) (r : List Token),
        ExprSort.positions.Stops (closing.token :: r) :=
      fun closing r => Heads.of_cons (by rw [closing.kind_mark]; rfl)
    simp only [yield, List.cons_append, List.append_assoc, List.nil_append,
      List.cons.injEq] at h
    obtain ⟨hname, hopening, hfirst⟩ := h
    obtain rfl := Leaf.ext_token hname
    obtain rfl := Leaf.ext_token hopening
    obtain ⟨rfl, hothers⟩ := ihFirst hf hf' (stops_positions (hends closing r))
      (stops_positions (hends closing' r')) hfirst
    obtain ⟨rfl, hclosing⟩ := ihOthers hfs hfs' (hends closing r) (hends closing' r') hothers
    obtain ⟨htoken, rfl⟩ := List.cons.inj hclosing
    obtain rfl := Leaf.ext_token htoken
    exact ⟨rfl, rfl⟩
  | _ => cases hshape

/-- Behind its mark a change in front of a place is the place. -/
private theorem determined_bumpBefore (mark : Leaf Kind.bump?) (place : PlaceTree) :
    (bumpBefore mark place).Determined names scope := by
  refine Determined.of_shape fun t' e e' r r' hshape hread hread' hstops hstops' h => ?_
  cases t' with
  | bumpBefore mark' place' =>
    obtain ⟨htoken, hplace⟩ := List.cons.inj h
    obtain rfl := Leaf.ext_token htoken
    obtain ⟨rfl, rfl⟩ := PlaceTree.unique (hstops.lacks Kind.dot_of_endsOperand)
      (hstops'.lacks Kind.dot_of_endsOperand) hplace
    exact ⟨rfl, rfl⟩
  | _ => cases hshape

/-- A place that is read is told from one that is changed by what is behind it. -/
private theorem determined_read (place : PlaceTree) : (read place).Determined names scope :=
  Determined.of_shape fun _ _ _ _ _ hshape _ _ hstops hstops' h =>
    unique_place rfl hshape.symm hstops hstops' h

/-- A place that is changed is told from one that is read by what is behind it. -/
private theorem determined_bumpAfter (place : PlaceTree) (mark : Leaf Kind.bump?) :
    (bumpAfter place mark).Determined names scope :=
  Determined.of_shape fun _ _ _ _ _ hshape _ _ hstops hstops' h =>
    unique_place rfl hshape.symm hstops hstops' h

/-- The first operand of a chain stops at a link or where the chain does. -/
private theorem determined_chain {first : ExprTree .operand} {links : ExprTree .links}
    (ihFirst : first.Determined names scope) (ihLinks : links.Determined names scope) :
    (chain first links).Determined names scope := by
  intro t' e e' r r' hread hread' hstops hstops' h
  cases t' with
  | chain first' links' =>
    obtain ⟨v, ls, hv, hls, -⟩ := reading_chain hread
    obtain ⟨v', ls', hv', hls', -⟩ := reading_chain hread'
    simp only [yield, List.append_assoc] at h
    obtain ⟨rfl, hlinks⟩ := ihFirst hv hv' (stops_links hstops) (stops_links hstops') h
    obtain ⟨rfl, rfl⟩ := ihLinks hls hls' hstops hstops' hlinks
    exact ⟨rfl, rfl⟩

/-- Where a chain stops there is no further link. -/
private theorem determined_noLink : noLink.Determined names scope := by
  intro t' e e' r r' hread hread' hstops hstops' h
  cases t' with
  | noLink => exact ⟨rfl, h⟩
  | link op' next' links' =>
    obtain rfl : r = _ := h
    exact absurd (hstops.lacks Kind.arithmetic?_of_endsChain) (not_lacks_leaf op')

/-- The operand of a link stops at the next link or where the chain does. -/
private theorem determined_link (op : Leaf Kind.arithmetic?) {next : ExprTree .operand}
    {links : ExprTree .links} (ihNext : next.Determined names scope)
    (ihLinks : links.Determined names scope) : (link op next links).Determined names scope := by
  intro t' ls ls' r r' hread hread' hstops hstops' h
  cases t' with
  | noLink =>
    obtain rfl : _ = r' := h
    exact absurd (hstops'.lacks Kind.arithmetic?_of_endsChain) (not_lacks_leaf op)
  | link op' next' links' =>
    obtain ⟨e, ls, he, hls, -⟩ := reading_link hread
    obtain ⟨e', ls', he', hls', -⟩ := reading_link hread'
    simp only [yield, List.cons_append, List.append_assoc, List.cons.injEq] at h
    obtain ⟨htoken, hnext⟩ := h
    obtain rfl := Leaf.ext_token htoken
    obtain ⟨rfl, hlinks⟩ := ihNext he he' (stops_links hstops) (stops_links hstops') hnext
    obtain ⟨rfl, rfl⟩ := ihLinks hls hls' hstops hstops' hlinks
    exact ⟨rfl, rfl⟩

/-- A vacant position is in front of what ends one, and no chain begins with that. -/
private theorem determined_vacant : vacant.Determined names scope := by
  intro t' v v' r r' hread hread' hstops hstops' h
  cases t' with
  | vacant => exact ⟨rfl, h⟩
  | filled value' =>
    obtain rfl : r = _ := h
    exact (not_heads_position (value'.heads_chain.append r') hstops).elim

/-- A filled position is the chain in it. -/
private theorem determined_filled {value : ExprTree .chain} (ih : value.Determined names scope) :
    (filled value).Determined names scope := by
  intro t' v v' r r' hread hread' hstops hstops' h
  cases t' with
  | vacant =>
    obtain rfl : _ = r' := h
    exact (not_heads_position (value.heads_chain.append r) hstops').elim
  | filled value' =>
    obtain ⟨e, he, -⟩ := reading_filled hread
    obtain ⟨e', he', -⟩ := reading_filled hread'
    have hends : ∀ {r : List Token}, ExprSort.position.Stops r → ExprSort.chain.Stops r :=
      fun hr => Heads.imp hr fun k hk => Kind.isMark_of_subset (by decide) hk
    obtain ⟨rfl, rfl⟩ := ih he he' (hends hstops) (hends hstops') h
    exact ⟨rfl, rfl⟩

/-- At the closing parenthesis there is no further position. -/
private theorem determined_noPosition : noPosition.Determined names scope := by
  intro t' es es' r r' hread hread' hstops hstops' h
  cases t' with
  | noPosition => exact ⟨rfl, h⟩
  | position comma' first' others' =>
    obtain rfl : r = _ := h
    have hlacks : Lacks (Kind.mark? .comma) _ :=
      hstops.lacks fun k hk => Kind.eq_none_of_isMark (by decide) hk
    exact absurd hlacks (not_lacks_leaf comma')

/-- A further position stops at the next comma or at the closing parenthesis. -/
private theorem determined_position (comma : Punct .comma) {first : ExprTree .position}
    {others : ExprTree .positions} (ihFirst : first.Determined names scope)
    (ihOthers : others.Determined names scope) :
    (position comma first others).Determined names scope := by
  intro t' es es' r r' hread hread' hstops hstops' h
  cases t' with
  | noPosition =>
    obtain rfl : _ = r' := h
    have hlacks : Lacks (Kind.mark? .comma) _ :=
      hstops'.lacks fun k hk => Kind.eq_none_of_isMark (by decide) hk
    exact absurd hlacks (not_lacks_leaf comma)
  | position comma' first' others' =>
    obtain ⟨e, es, he, hes, -⟩ := reading_position hread
    obtain ⟨e', es', he', hes', -⟩ := reading_position hread'
    simp only [yield, List.cons_append, List.append_assoc, List.cons.injEq] at h
    obtain ⟨htoken, hfirst⟩ := h
    obtain rfl := Leaf.ext_token htoken
    obtain ⟨rfl, hothers⟩ := ihFirst he he' (stops_positions hstops) (stops_positions hstops')
      hfirst
    obtain ⟨rfl, rfl⟩ := ihOthers hes hes' hstops hstops' hothers
    exact ⟨rfl, rfl⟩

/-- Every phrase is fixed by the tokens it is in front of. -/
theorem determined {k : ExprSort} (t : ExprTree k) : t.Determined names scope := by
  induction t with
  | literal value => exact determined_literal value
  | negate minus inner ih => exact determined_negate minus ih
  | group opening inner closing ih => exact determined_group opening closing ih
  | bareCall name => exact determined_bareCall name
  | emptyCall name opening closing => exact determined_emptyCall name opening closing
  | call name opening first others closing ihFirst ihOthers =>
    exact determined_call name opening closing ihFirst ihOthers
  | bumpBefore mark place => exact determined_bumpBefore mark place
  | read place => exact determined_read place
  | bumpAfter place mark => exact determined_bumpAfter place mark
  | chain first links ihFirst ihLinks => exact determined_chain ihFirst ihLinks
  | noLink => exact determined_noLink
  | link op next links ihNext ihLinks => exact determined_link op ihNext ihLinks
  | vacant => exact determined_vacant
  | filled value ih => exact determined_filled ih
  | noPosition => exact determined_noPosition
  | position comma first others ihFirst ihOthers =>
    exact determined_position comma ihFirst ihOthers

/-- A readable phrase is determined by the tokens it is in front of. -/
theorem unique {k : ExprSort} {t t' : ExprTree k} {a a' : ExprReading k}
    (hread : t.reading names scope = some a) (hread' : t'.reading names scope = some a')
    (hstops : k.Stops r) (hstops' : k.Stops r') (h : t.yield ++ r = t'.yield ++ r') :
    t = t' ∧ r = r' :=
  t.determined hread hread' hstops hstops' h

end ExprTree

/-! ### Conditions -/

private theorem bangs_unique {bangs bangs' : List (Punct .bang)}
    (hlacks : Lacks (Kind.mark? .bang) r) (hlacks' : Lacks (Kind.mark? .bang) r')
    (h : bangs.map (·.token) ++ r = bangs'.map (·.token) ++ r') : bangs = bangs' ∧ r = r' := by
  induction bangs generalizing bangs' with
  | nil =>
    cases bangs' with
    | nil => exact ⟨rfl, h⟩
    | cons bang' bangs' =>
      obtain rfl : r = _ := h
      exact absurd hlacks (not_lacks_leaf bang')
  | cons bang bangs ih =>
    cases bangs' with
    | nil =>
      obtain rfl : _ = r' := h
      exact absurd hlacks' (not_lacks_leaf bang)
    | cons bang' bangs' =>
      obtain ⟨htoken, hrest⟩ := List.cons.inj h
      obtain rfl := Leaf.ext_token htoken
      obtain ⟨rfl, rfl⟩ := ih hrest
      exact ⟨rfl, rfl⟩

/-- The tokens of the right side of a comparison. -/
def TermTree.comparisonYield : Option (Leaf Kind.comparison? × ExprTree .chain) → List Token
  | none => []
  | some (mark, right) => mark.token :: right.yield

private theorem TermTree.comparison_unique {c c' : Option (Leaf Kind.comparison? × ExprTree .chain)}
    {v v' : Option (Comparison × Expr)} (hread : comparisonReading names scope c = some v)
    (hread' : comparisonReading names scope c' = some v') (hstops : Heads Kind.endsTerm r)
    (hstops' : Heads Kind.endsTerm r') (h : comparisonYield c ++ r = comparisonYield c' ++ r') :
    c = c' ∧ r = r' := by
  cases c with
  | none =>
    cases c' with
    | none => exact ⟨rfl, h⟩
    | some c' =>
      obtain rfl : r = _ := h
      exact absurd (hstops.lacks Kind.comparison?_of_endsTerm) (not_lacks_leaf c'.1)
  | some c =>
    cases c' with
    | none =>
      obtain rfl : _ = r' := h
      exact absurd (hstops'.lacks Kind.comparison?_of_endsTerm) (not_lacks_leaf c.1)
    | some c' =>
      obtain ⟨mark, right⟩ := c
      obtain ⟨mark', right'⟩ := c'
      obtain ⟨e, he, -⟩ := Option.bind_eq_some_iff.mp hread
      obtain ⟨e', he', -⟩ := Option.bind_eq_some_iff.mp hread'
      obtain ⟨htoken, hright⟩ := List.cons.inj h
      obtain rfl := Leaf.ext_token htoken
      obtain ⟨rfl, rfl⟩ := ExprTree.unique he he' (hstops.imp Kind.endsChain_of_endsTerm)
        (hstops'.imp Kind.endsChain_of_endsTerm) hright
      exact ⟨rfl, rfl⟩

theorem TermTree.unique {t t' : TermTree} {v v' : Term} (hread : t.reading names scope = some v)
    (hread' : t'.reading names scope = some v') (hstops : Heads Kind.endsTerm r)
    (hstops' : Heads Kind.endsTerm r') (h : t.yield ++ r = t'.yield ++ r') :
    t = t' ∧ r = r' := by
  have hyield : ∀ (t : TermTree) (r : List Token), t.yield ++ r =
      t.bangs.map (·.token) ++ (t.left.yield ++ (comparisonYield t.comparison ++ r)) := by
    rintro ⟨bangs, left, _ | comparison⟩ r <;> simp [yield, comparisonYield]
  have hends : ∀ (c : Option (Leaf Kind.comparison? × ExprTree .chain)) {r : List Token},
      Heads Kind.endsTerm r → Heads Kind.endsChain (comparisonYield c ++ r) := by
    intro c r hr
    cases c with
    | none => exact hr.imp Kind.endsChain_of_endsTerm
    | some c =>
      exact Heads.of_leaf c.1 fun k hk =>
        Kind.isMark_of_subset (by decide) (Kind.isMark_of_comparison? hk)
  have hbang : ∀ (t : TermTree) (r : List Token), Lacks (Kind.mark? .bang)
      (t.left.yield ++ (comparisonYield t.comparison ++ r)) :=
    fun t r => (t.left.heads_chain.append _).lacks Kind.bang_of_opensChain
  obtain ⟨e, c, he, hc, -⟩ := reading_eq_some hread
  obtain ⟨e', c', he', hc', -⟩ := reading_eq_some hread'
  rw [hyield t, hyield t'] at h
  obtain ⟨hbangs, hleft⟩ := bangs_unique (hbang t r) (hbang t' r') h
  obtain ⟨hleftEq, hcomparison⟩ := ExprTree.unique he he' (hends t.comparison hstops)
    (hends t'.comparison hstops') hleft
  obtain ⟨hcomparisonEq, rfl⟩ := comparison_unique hc hc' hstops hstops' hcomparison
  obtain ⟨bangs, left, comparison⟩ := t
  obtain ⟨bangs', left', comparison'⟩ := t'
  obtain rfl : bangs = bangs' := hbangs
  obtain rfl : left = left' := hleftEq
  obtain rfl : comparison = comparison' := hcomparisonEq
  exact ⟨rfl, rfl⟩

theorem ConditionTree.unique {t t' : ConditionTree} {v v' : Condition}
    (hread : t.reading names scope = some v) (hread' : t'.reading names scope = some v')
    (hstops : Heads Kind.endsCondition r) (hstops' : Heads Kind.endsCondition r')
    (h : t.yield ++ r = t'.yield ++ r') : t = t' ∧ r = r' := by
  obtain ⟨first, others⟩ := t
  obtain ⟨first', others'⟩ := t'
  obtain ⟨he, hes⟩ := reading_eq_some hread
  obtain ⟨he', hes'⟩ := reading_eq_some hread'
  simp only [yield, List.append_assoc] at h
  obtain ⟨rfl, hothers⟩ := TermTree.unique he he' (stops_laterTerms others hstops)
    (stops_laterTerms others' hstops') h
  have hread : ∀ {others es}, others.mapM (laterReading names scope) = some es →
      readAll (fun t names => (laterReading names scope t).map (·, names)) others names =
        some (es, names) :=
    readAll_of_mapM (fun names => laterReading names scope)
  have hrest : others = others' ∧ r = r' := by
    refine yieldBehind_unique _ (Heads Kind.endsTerm) ?_ stops_connective (hread hes) (hread hes')
      (hstops.imp Kind.endsTerm_of_endsCondition) (hstops'.imp Kind.endsTerm_of_endsCondition)
      (hstops.lacks Kind.connective?_of_endsCondition)
      (hstops'.lacks Kind.connective?_of_endsCondition) hothers
    intro mark t t' b b' names _ _ r r' hread hread' hends hends' h
    obtain ⟨v, hv, -⟩ := Option.map_eq_some_iff.mp hread
    obtain ⟨w, hw, -⟩ := laterReading_eq_some hv
    obtain ⟨v', hv', -⟩ := Option.map_eq_some_iff.mp hread'
    obtain ⟨w', hw', -⟩ := laterReading_eq_some hv'
    exact TermTree.unique hw hw' hends hends' h
  obtain ⟨rfl, rfl⟩ := hrest
  exact ⟨rfl, rfl⟩

/-! ### Assignments -/

/-- No readable chain is in front of an assignment. -/
private theorem StmtExprTree.assign_ne_plain {target : PlaceTree} {mark : Leaf Kind.assignment?}
    {value chain : ExprTree .chain} {p : Place} {e : Expr}
    (htarget : ExprTree.variableReading names scope target = some p)
    (hchain : chain.reading names scope = some e) (hstops : Heads Kind.endsChain r') :
    target.yield ++ mark.token :: (value.yield ++ r) ≠ chain.yield ++ r' := by
  intro h
  obtain ⟨hvariable, -⟩ := ExprTree.variableReading_eq_some htarget
  have hname : (chain.yield.head?.bind fun t => Kind.ident? t.kind) = some target.root.value := by
    obtain ⟨t, tokens, hyield, -⟩ := chain.heads_chain
    rw [hyield] at h ⊢
    obtain ⟨rfl, -⟩ := List.cons.inj h
    exact target.root.fits
  obtain ⟨place, q, tokens, hyield, -, hdot, hassign⟩ :=
    ExprTree.exists_place_chain hchain hname hvariable hstops
  have hmarkDot : Lacks (Kind.mark? .dot) (mark.token :: (value.yield ++ r)) :=
    Lacks.of_cons (Kind.eq_none_of_isMark (by decide) (Kind.isMark_of_assignment? mark.isSome))
  obtain ⟨-, rfl⟩ := PlaceTree.unique hmarkDot hdot (h.trans hyield)
  exact not_lacks_leaf mark hassign

theorem StmtExprTree.unique {t t' : StmtExprTree} {e e' : Expr}
    (hread : t.reading names scope = some e) (hread' : t'.reading names scope = some e')
    (hstops : Heads Kind.endsCondition r) (hstops' : Heads Kind.endsCondition r')
    (h : t.yield ++ r = t'.yield ++ r') : t = t' ∧ r = r' := by
  have hchain : ∀ {r : List Token}, Heads Kind.endsCondition r → Heads Kind.endsChain r :=
    fun hr => (hr.imp Kind.endsTerm_of_endsCondition).imp Kind.endsChain_of_endsTerm
  have hdot : ∀ (mark : Leaf Kind.assignment?) (tokens : List Token),
      Lacks (Kind.mark? .dot) (mark.token :: tokens) := fun mark tokens =>
    Lacks.of_cons (Kind.eq_none_of_isMark (by decide) (Kind.isMark_of_assignment? mark.isSome))
  cases t with
  | assign target mark value =>
    obtain ⟨p, hp, -, hassigned⟩ := reading_assign hread
    rw [yield, List.append_assoc, List.cons_append] at h
    cases t' with
    | assign target' mark' value' =>
      rw [yield, List.append_assoc, List.cons_append] at h
      obtain ⟨p', -, -, hassigned'⟩ := reading_assign hread'
      obtain ⟨v, hv⟩ := ExprTree.reading_of_assigned hassigned
      obtain ⟨v', hv'⟩ := ExprTree.reading_of_assigned hassigned'
      obtain ⟨rfl, hbehind⟩ := PlaceTree.unique (hdot mark _) (hdot mark' _) h
      obtain ⟨htoken, hvalue⟩ := List.cons.inj hbehind
      obtain rfl := Leaf.ext_token htoken
      obtain ⟨rfl, rfl⟩ := ExprTree.unique hv hv' (hchain hstops) (hchain hstops') hvalue
      exact ⟨rfl, rfl⟩
    | plain value' => exact absurd h (assign_ne_plain hp hread' (hchain hstops'))
  | plain value =>
    cases t' with
    | assign target' mark' value' =>
      obtain ⟨p', hp', -⟩ := reading_assign hread'
      rw [yield, yield, List.append_assoc, List.cons_append] at h
      exact absurd h.symm (assign_ne_plain hp' hread (hchain hstops))
    | plain value' =>
      obtain ⟨rfl, rfl⟩ := ExprTree.unique hread hread' (hchain hstops) (hchain hstops') h
      exact ⟨rfl, rfl⟩

end Grammar

end Litany
