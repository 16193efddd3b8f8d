import Litany.Proofs.Grammar.Completeness.Expression

/-!
# Places that stop the reading

Reading goes from left to right, and what stands behind a fault is never looked at. So a text that
is refused need not have a derivation; it has to be like one up to the fault. The relations
`Reaches` follow the productions up to a place: what stands in front of it has a reading, and
nothing is said of what stands behind it, but that it does not go on with the place.

A place that is reached stops the reading if its root is declared and its path cannot be followed,
or if it is to be written and holds a whole object. Here this is shown for the phrases of
expressions.
-/

namespace Litany

namespace Parse

open Grammar

/-! ### Steps that fail -/

section Failing

variable {α β : Type} {x : Parse α} {s s₁ : Cursor} {f : ParseFailure}

/-- At a cursor, a step fails as said. -/
def Fails (x : Parse α) (s : Cursor) (f : ParseFailure) : Prop :=
  ∃ s', x s = .error f s'

theorem Fails.bind (h : Fails x s f) (g : α → Parse β) : Fails (x >>= g) s f := by
  obtain ⟨s', h⟩ := h
  exact ⟨s', by rw [bind_apply, h]⟩

/-- A failure behind a step that answers. -/
theorem Fails.of_ok {a : α} {g : α → Parse β} (hx : x s = .ok a s₁) (h : Fails (g a) s₁ f) :
    Fails (x >>= g) s f := by
  obtain ⟨s', h⟩ := h
  exact ⟨s', (bind_of_ok hx g).trans h⟩

theorem Fails.of_eq {y : Parse α} (hxy : x s = y s₁) (h : Fails y s₁ f) : Fails x s f := by
  obtain ⟨s', h⟩ := h
  exact ⟨s', hxy.trans h⟩

variable {m : Mark} {tokens : List Token} {l : Nat} {names later : Names}

theorem Fails.behind (mark : Punct m) (h : Fails x ⟨tokens, l, names⟩ f) :
    Fails (behind m x) ⟨mark.token :: tokens, l, names⟩ f :=
  .of_ok (accept_punct mark) (h.bind _)

theorem Fails.unlessAt (hlacks : Lacks (Kind.mark? m) tokens) (h : Fails x ⟨tokens, l, names⟩ f) :
    Fails (unlessAt m x) ⟨tokens, l, names⟩ f :=
  .of_ok (sees_lacks hlacks) (h.bind _)

/-- Items are read one after the other, up to one that fails. -/
inductive Stumbles (item : Parse (Option α)) (f : ParseFailure) : Cursor → Prop where
  | here {s : Cursor} (h : Fails item s f) : Stumbles item f s
  | item {s s₁ : Cursor} {a : α} (h : item s = .ok (some a) s₁)
      (shorter : s₁.rest.length < s.rest.length) (rest : Stumbles item f s₁) : Stumbles item f s

theorem Stumbles.many {item : Parse (Option α)} (h : Stumbles item f s) :
    Fails (many item) s f := by
  refine .of_ok (x := get) rfl ?_
  have hbound : s.rest.length < s.rest.length + 1 := Nat.lt_succ_self _
  generalize s.rest.length + 1 = n at hbound
  induction h generalizing n with
  | here hfails =>
    cases n with
    | zero => omega
    | succ n => exact hfails.bind _
  | item hitem shorter _ ih =>
    cases n with
    | zero => omega
    | succ n => exact .of_ok hitem ((ih n (by omega)).bind _)

/-- Items behind a leaf each, in front of one that fails. -/
theorem stumbles_yieldBehind {γ : Type} {g : Kind → Option γ} {item : Parse (Option β)}
    {yield : α → List Token} {trees : List (Leaf g × α)}
    (read : Leaf g × α → Names → Option (β × Names)) (stops : List Token → Prop)
    (hsome : ∀ {leaf a b names later rest}, (leaf, a) ∈ trees →
      read (leaf, a) names = some (b, later) → stops rest →
      item ⟨leaf.token :: yield a ++ rest, l, names⟩ = .ok (some b) ⟨rest, l, later⟩)
    (hleaf : ∀ (leaf : Leaf g) (rest : List Token), stops (leaf.token :: rest)) {bs : List β}
    (hread : readAll read trees names = some (bs, later)) (leaf : Leaf g)
    (hfails : Fails item ⟨leaf.token :: tokens, l, later⟩ f) :
    Stumbles item f ⟨yieldBehind yield trees ++ leaf.token :: tokens, l, names⟩ := by
  induction trees generalizing names bs with
  | nil =>
    obtain ⟨-, rfl⟩ := Prod.mk.inj (Option.some.inj hread)
    exact .here hfails
  | cons tree trees ih =>
    obtain ⟨first, a⟩ := tree
    obtain ⟨b, names', bs', hfirst, hrest, rfl⟩ := readAll_cons_eq_some.mp hread
    have hnext : stops (yieldBehind yield trees ++ leaf.token :: tokens) := by
      cases trees with
      | nil => exact hleaf leaf _
      | cons tree trees => exact hleaf tree.1 _
    have hitem := hsome List.mem_cons_self hfirst hnext
    refine .item (a := b) ?_ ?_ (ih (fun hmem => hsome (List.mem_cons_of_mem _ hmem)) hrest)
    · simpa [yieldBehind] using hitem
    · simp only [yieldBehind, List.cons_append, List.length_cons, List.length_append]
      omega

end Failing

end Parse

namespace Grammar

open Parse

/-! ### Places -/

/-- A place of a text, with the tables in front of it and its scope, and whether it is to be
written. -/
structure Spot where
  names : Names
  scope : Scope
  place : PlaceTree
  written : Bool

namespace Spot

/-- The root of the place is declared, but its path cannot be followed, or it leads to an object
that is to be written. -/
def Refused (spot : Spot) : Prop :=
  ∃ slot type constant, spot.names.resolve spot.scope spot.place.root.lexeme = some slot ∧
    spot.names.slotType? spot.scope slot = some (type, constant) ∧
    (spot.names.fieldType? type spot.place.path = none ∨
      spot.written = true ∧ constant = false ∧
        ∃ number, spot.names.fieldType? type spot.place.path = some (.object number))

/-- The fault that names the place and its line. -/
def fault (spot : Spot) : SyntaxError :=
  ⟨.unknownField, ".".intercalate (spot.place.root.lexeme :: spot.place.path),
    spot.place.root.token.line⟩

variable {spot : Spot} {rest : List Token} {l : Nat}

/-- A refused place is not read, or read as one that must not be written. -/
theorem Refused.place (h : spot.Refused) (hdot : Lacks (Kind.mark? .dot) rest) :
    Fails (Grammar.place spot.scope) ⟨spot.place.yield ++ rest, l, spot.names⟩
        (.error spot.fault) ∨
      spot.written = true ∧ ∃ p, Grammar.place spot.scope
          ⟨spot.place.yield ++ rest, l, spot.names⟩ =
            .ok (p, spot.place.root.token.line) ⟨rest, l, spot.names⟩ ∧
        ∀ s : Cursor, s.names = spot.names →
          Fails (assignable spot.scope p spot.place.root.token.line) s (.error spot.fault) := by
  obtain ⟨slot, type, constant, hslot, hroot, hnone | ⟨hwritten, rfl, number, hobject⟩⟩ := h
  · left
    refine .of_ok (ident_name spot.place.root) ?_
    refine .of_ok (x := Parse.names) rfl ?_
    simp only [hslot, hroot]
    refine .of_ok (segments_complete spot.place hdot) ?_
    simp only [hnone]
    exact ⟨_, rfl⟩
  · right
    have hread : spot.place.reading spot.names spot.scope =
        some ⟨spot.place.root.lexeme, spot.place.path, slot, .object number⟩ := by
      simp [PlaceTree.reading, hslot, hroot, hobject]
    refine ⟨hwritten, _, place_complete hread hdot, fun s hs => ?_⟩
    refine .of_ok (x := Parse.names) rfl ?_
    rw [hs, hroot]
    exact ⟨_, rfl⟩

end Spot

/-! ### Expressions -/

/-- A phrase of an expression is read up to a place. -/
inductive ExprSort.Reaches (spot : Spot) : ExprSort → List Token → Prop where
  | negate {tokens : List Token} (minus : Punct .minus) (h : Reaches spot .operand tokens) :
      Reaches spot .operand (minus.token :: tokens)
  | group {tokens : List Token} (opening : Punct .leftParen) (h : Reaches spot .chain tokens) :
      Reaches spot .operand (opening.token :: tokens)
  | firstPosition {tokens : List Token} {name : Name} {ordinal : Nat}
      (hname : spot.names.procedure? name.value = some ordinal) (opening : Punct .leftParen)
      (h : Reaches spot .position tokens) :
      Reaches spot .operand (name.token :: opening.token :: tokens)
  | laterPositions {tokens : List Token} {name : Name} {ordinal : Nat}
      (hname : spot.names.procedure? name.value = some ordinal) (opening : Punct .leftParen)
      (first : ExprTree .position) {e : Option Expr}
      (hfirst : first.reading spot.names spot.scope = some e)
      (h : Reaches spot .positions tokens) :
      Reaches spot .operand (name.token :: opening.token :: (first.yield ++ tokens))
  | bumpBefore {rest : List Token} (mark : Leaf Kind.bump?) (hwritten : spot.written = true)
      (hdot : Lacks (Kind.mark? .dot) rest) :
      Reaches spot .operand (mark.token :: (spot.place.yield ++ rest))
  | read {rest : List Token} (hvariable : spot.names.procedure? spot.place.root.value = none)
      (hwritten : spot.written = false) (hdot : Lacks (Kind.mark? .dot) rest)
      (hbump : Lacks Kind.bump? rest) : Reaches spot .operand (spot.place.yield ++ rest)
  | bumpAfter {rest : List Token} (hvariable : spot.names.procedure? spot.place.root.value = none)
      (hwritten : spot.written = true) (mark : Leaf Kind.bump?) :
      Reaches spot .operand (spot.place.yield ++ mark.token :: rest)
  | first {tokens : List Token} (h : Reaches spot .operand tokens) : Reaches spot .chain tokens
  | later {tokens : List Token} (first : ExprTree .operand) {e : Expr}
      (hfirst : first.reading spot.names spot.scope = some e) (h : Reaches spot .links tokens) :
      Reaches spot .chain (first.yield ++ tokens)
  | link {tokens : List Token} (op : Leaf Kind.arithmetic?) (h : Reaches spot .operand tokens) :
      Reaches spot .links (op.token :: tokens)
  | laterLink {tokens : List Token} (op : Leaf Kind.arithmetic?) (operand : ExprTree .operand)
      {e : Expr} (hoperand : operand.reading spot.names spot.scope = some e)
      (h : Reaches spot .links tokens) :
      Reaches spot .links (op.token :: (operand.yield ++ tokens))
  | filled {tokens : List Token} (h : Reaches spot .chain tokens) : Reaches spot .position tokens
  | position {tokens : List Token} (comma : Punct .comma) (h : Reaches spot .position tokens) :
      Reaches spot .positions (comma.token :: tokens)
  | laterPosition {tokens : List Token} (comma : Punct .comma) (first : ExprTree .position)
      {e : Option Expr} (hfirst : first.reading spot.names spot.scope = some e)
      (h : Reaches spot .positions tokens) :
      Reaches spot .positions (comma.token :: (first.yield ++ tokens))

/-- The kinds that a phrase begins with, where it is not empty. -/
def ExprSort.opens : ExprSort → Kind → Bool
  | .operand => Kind.opensChain
  | .chain => Kind.opensChain
  | .links => fun k => k.isMark [.plus, .minus, .star, .slash]
  | .position => Kind.opensChain
  | .positions => fun k => k.isMark [.comma]

section Expressions

variable {spot : Spot} {k : ExprSort} {tokens : List Token} {n l : Nat}

theorem ExprSort.Reaches.heads (h : k.Reaches spot tokens) : Heads k.opens tokens := by
  induction h with
  | negate minus | group minus => exact Heads.of_cons (by rw [minus.kind_mark]; rfl)
  | firstPosition hname opening h =>
    exact Heads.of_leaf _ fun k hk => by simp [opens, Kind.opensChain, hk]
  | laterPositions hname opening first hfirst h =>
    exact Heads.of_leaf _ fun k hk => by simp [opens, Kind.opensChain, hk]
  | bumpBefore mark =>
    exact (ExprTree.bumpBefore mark spot.place).heads_operand.append _
  | read | bumpAfter => exact spot.place.heads.append _
  | first _ ih | filled _ ih => exact ih
  | later first hfirst h => exact first.heads_operand.append _
  | link op | laterLink op => exact Heads.of_leaf op fun k hk => Kind.isMark_of_arithmetic? hk
  | position comma | laterPosition comma => exact Heads.of_cons (by rw [comma.kind_mark]; rfl)

/-- The parser of a sort, given that of the nested operands, fails as said. -/
def ExprSort.Fails (operand : Parse Expr) (f : ParseFailure) : ExprSort → Cursor → Prop
  | .operand, s => Parse.Fails operand s f
  | .chain, s => Parse.Fails (Grammar.chain operand) s f
  | .links, s => Stumbles (Grammar.link operand) f s
  | .position, s => Parse.Fails (Grammar.position operand) s f
  | .positions, s => Stumbles (behind .comma (Grammar.position operand)) f s

theorem ExprSort.Reaches.stops_links (h : ExprSort.links.Reaches spot tokens) :
    Heads Kind.endsOperand tokens :=
  h.heads.imp fun _ hk => Kind.isMark_of_subset (by decide) hk

theorem ExprSort.Reaches.stops_positions (h : ExprSort.positions.Reaches spot tokens) :
    Heads (fun k => k.isMark [.comma, .rightParen]) tokens :=
  h.heads.imp fun _ hk => Kind.isMark_of_subset (by decide) hk

private theorem placeOperand_fails (hrefused : spot.Refused)
    (hdot : Lacks (Kind.mark? .dot) tokens)
    (hmark : spot.written = true → ∃ (mark : Leaf Kind.bump?) (rest : List Token),
      tokens = mark.token :: rest) :
    Parse.Fails (placeOperand spot.scope) ⟨spot.place.yield ++ tokens, l, spot.names⟩
      (.error spot.fault) := by
  rcases hrefused.place (l := l) hdot with hfails | ⟨hwritten, p, hplace, hassignable⟩
  · exact hfails.bind _
  · obtain ⟨mark, rest, rfl⟩ := hmark hwritten
    refine .of_ok hplace ?_
    refine .of_ok (take?_leaf mark) ?_
    exact (hassignable _ rfl).bind _

private theorem bumped_fails (hrefused : spot.Refused) (hdot : Lacks (Kind.mark? .dot) tokens)
    (up : Bool) (line : Nat) :
    Parse.Fails (bumped spot.scope up line) ⟨spot.place.yield ++ tokens, l, spot.names⟩
      (.error spot.fault) := by
  rcases hrefused.place (l := l) hdot with hfails | ⟨-, p, hplace, hassignable⟩
  · exact hfails.bind _
  · exact .of_ok hplace ((hassignable _ rfl).bind _)

/-- The positions of a call, behind its opening parenthesis, up to one that fails. -/
private theorem call_fails {operand : Parse Expr} {name : Name} {names : Names} {scope : Scope}
    {ordinal : Nat} {f : ParseFailure} (hname : names.procedure? name.value = some ordinal)
    (opening : Punct .leftParen) (hlacks : Lacks (Kind.mark? .rightParen) tokens)
    (h : Parse.Fails (do
      let first ← Grammar.position operand
      let rest ← many (behind .comma (Grammar.position operand))
      expect .rightParen
      return first :: rest : Parse (List (Option Expr))) ⟨tokens, l, names⟩ f) :
    Parse.Fails (operandFrom scope operand name.token)
      ⟨name.token :: opening.token :: tokens, l, names⟩ f := by
  have hpositions : Parse.Fails (positions operand) ⟨opening.token :: tokens, l, names⟩ f :=
    .of_ok (accept_punct opening) (.of_ok (accept_lacks hlacks) h)
  exact .of_eq (operandFrom_call hname _) (.of_ok (ident_name name) (hpositions.bind _))

/-- A position in front of a comma does not begin with a closing parenthesis. -/
private theorem ExprTree.lacks_closing (first : ExprTree .position)
    (h : Heads (fun k => k.isMark [.comma]) tokens) :
    Lacks (Kind.mark? .rightParen) (first.yield ++ tokens) := by
  cases first with
  | vacant => exact h.lacks fun k hk => Kind.eq_none_of_isMark (by decide) hk
  | filled value =>
    exact ((value.heads_chain.append tokens).imp Kind.opensTerm_of_opensChain).lacks
      (Kind.mark?_of_opensTerm (by decide))

variable (spot l) in
/-- A text is refused at the place when it is read as a phrase of the given sort, given enough depth
for the nesting. -/
def ExprSort.Refuses (k : ExprSort) (tokens : List Token) : Prop :=
  ∀ ⦃n : Nat⦄, tokens.length ≤ n →
    k.Fails (Grammar.operand spot.scope n) (.error spot.fault) ⟨tokens, l, spot.names⟩

/-- A negation is refused where its operand is. -/
private theorem refuses_negate (minus : Punct .minus)
    (ih : ExprSort.operand.Refuses spot l tokens) :
    ExprSort.operand.Refuses spot l (minus.token :: tokens) := by
  intro n hdepth
  simp only [List.length_cons] at hdepth
  obtain _ | n := n
  · omega
  · have hinner := ih (n := n) (by omega)
    change Parse.Fails (operandFrom _ _ minus.token) _ _
    rw [operandFrom, minus.kind_mark]
    exact .of_ok advance_cons (hinner.bind _)

/-- A group is refused where the chain in it is. -/
private theorem refuses_group (opening : Punct .leftParen)
    (ih : ExprSort.chain.Refuses spot l tokens) :
    ExprSort.operand.Refuses spot l (opening.token :: tokens) := by
  intro n hdepth
  simp only [List.length_cons] at hdepth
  obtain _ | n := n
  · omega
  · have hinner := ih (n := n) (by omega)
    change Parse.Fails (operandFrom _ _ opening.token) _ _
    rw [operandFrom, opening.kind_mark]
    exact .of_ok advance_cons (hinner.bind _)

/-- A call is refused where its first position is. -/
private theorem refuses_firstPosition {name : Name} {ordinal : Nat}
    (hname : spot.names.procedure? name.value = some ordinal) (opening : Punct .leftParen)
    (h : ExprSort.position.Reaches spot tokens)
    (ih : ExprSort.position.Refuses spot l tokens) :
    ExprSort.operand.Refuses spot l (name.token :: opening.token :: tokens) := by
  intro n hdepth
  simp only [List.length_cons] at hdepth
  obtain _ | n := n
  · omega
  · have hlacks := (h.heads.imp Kind.opensTerm_of_opensChain).lacks
      (Kind.mark?_of_opensTerm (m := .rightParen) (by decide))
    have hposition := ih (n := n) (by omega)
    exact call_fails hname opening hlacks (hposition.bind _)

/-- A call is refused where one of its later positions is, the first being read. -/
private theorem refuses_laterPositions {name : Name} {ordinal : Nat}
    (hname : spot.names.procedure? name.value = some ordinal) (opening : Punct .leftParen)
    (first : ExprTree .position) {e : Option Expr}
    (hfirst : first.reading spot.names spot.scope = some e)
    (h : ExprSort.positions.Reaches spot tokens) (ih : ExprSort.positions.Refuses spot l tokens) :
    ExprSort.operand.Refuses spot l (name.token :: opening.token :: (first.yield ++ tokens)) := by
  intro n hdepth
  simp only [List.length_cons, List.length_append] at hdepth
  obtain _ | n := n
  · omega
  · have hlacks := first.lacks_closing h.heads
    have hposition := first.parses (l := l) (n := n) hfirst (by omega) h.stops_positions
    have hothers := ih (n := n) (by omega)
    exact call_fails hname opening hlacks (.of_ok hposition (hothers.many.bind _))

/-- A change in front of the place is refused at the place. -/
private theorem refuses_bumpBefore {rest : List Token} (mark : Leaf Kind.bump?)
    (hdot : Lacks (Kind.mark? .dot) rest) (hrefused : spot.Refused) :
    ExprSort.operand.Refuses spot l (mark.token :: (spot.place.yield ++ rest)) := by
  intro n hdepth
  obtain _ | n := n
  · simp [PlaceTree.yield] at hdepth
  · exact .of_eq (operandFrom_bump mark _) (.of_ok advance_cons (bumped_fails hrefused hdot _ _))

/-- The place is refused where it is read. -/
private theorem refuses_read {rest : List Token}
    (hvariable : spot.names.procedure? spot.place.root.value = none)
    (hwritten : spot.written = false) (hdot : Lacks (Kind.mark? .dot) rest)
    (hrefused : spot.Refused) : ExprSort.operand.Refuses spot l (spot.place.yield ++ rest) := by
  intro n hdepth
  obtain _ | n := n
  · simp [PlaceTree.yield] at hdepth
  · exact .of_eq (operandFrom_place hvariable _)
      (placeOperand_fails hrefused hdot (by simp [hwritten]))

/-- The place is refused where it is changed from behind. -/
private theorem refuses_bumpAfter {rest : List Token}
    (hvariable : spot.names.procedure? spot.place.root.value = none) (mark : Leaf Kind.bump?)
    (hrefused : spot.Refused) :
    ExprSort.operand.Refuses spot l (spot.place.yield ++ mark.token :: rest) := by
  intro n hdepth
  obtain _ | n := n
  · simp [PlaceTree.yield] at hdepth
  · have hdot : Kind.mark? .dot mark.token.kind = none :=
      Kind.eq_none_of_isMark (by decide) (Kind.isMark_of_bump? mark.isSome)
    exact .of_eq (operandFrom_place hvariable _)
      (placeOperand_fails hrefused (.of_cons hdot) fun _ => ⟨mark, _, rfl⟩)

/-- A chain is refused where its first operand is. -/
private theorem refuses_firstOperand (ih : ExprSort.operand.Refuses spot l tokens) :
    ExprSort.chain.Refuses spot l tokens := by
  intro n hdepth
  exact (ih hdepth).bind _

/-- A chain is refused where one of its links is, the first operand being read. -/
private theorem refuses_links (first : ExprTree .operand) {e : Expr}
    (hfirst : first.reading spot.names spot.scope = some e) (h : ExprSort.links.Reaches spot tokens)
    (ih : ExprSort.links.Refuses spot l tokens) :
    ExprSort.chain.Refuses spot l (first.yield ++ tokens) := by
  intro n hdepth
  simp only [List.length_append] at hdepth
  have hoperand := first.parses (l := l) (n := n) hfirst (by omega) h.stops_links
  have hlinks := ih (n := n) (by omega)
  exact .of_ok hoperand (hlinks.many.bind _)

/-- A link is refused where its operand is. -/
private theorem refuses_link (op : Leaf Kind.arithmetic?)
    (ih : ExprSort.operand.Refuses spot l tokens) :
    ExprSort.links.Refuses spot l (op.token :: tokens) := by
  intro n hdepth
  simp only [List.length_cons] at hdepth
  have hoperand := ih (n := n) (by omega)
  exact .here (.of_ok (take?_leaf op) (hoperand.bind _))

/-- Links are refused where one behind the first is, the first being read. -/
private theorem refuses_laterLink (op : Leaf Kind.arithmetic?) (next : ExprTree .operand) {e : Expr}
    (hnext : next.reading spot.names spot.scope = some e) (h : ExprSort.links.Reaches spot tokens)
    (ih : ExprSort.links.Refuses spot l tokens) :
    ExprSort.links.Refuses spot l (op.token :: (next.yield ++ tokens)) := by
  intro n hdepth
  simp only [List.length_cons, List.length_append] at hdepth
  have hoperand := next.parses (l := l) (n := n) hnext (by omega) h.stops_links
  refine .item (link_complete op hoperand) ?_ (ih (n := n) (by omega))
  simp only [List.length_cons, List.length_append]
  omega

/-- A position is refused where the chain in it is. -/
private theorem refuses_filled (h : ExprSort.chain.Reaches spot tokens)
    (ih : ExprSort.chain.Refuses spot l tokens) : ExprSort.position.Refuses spot l tokens := by
  intro n hdepth
  have hterm := h.heads.imp Kind.opensTerm_of_opensChain
  have hcomma := hterm.lacks (Kind.mark?_of_opensTerm (m := .comma) (by decide))
  have hclosing := hterm.lacks (Kind.mark?_of_opensTerm (m := .rightParen) (by decide))
  have hchain := ih hdepth
  exact .of_ok (sees_lacks hcomma) (.of_ok (sees_lacks hclosing) (hchain.bind _))

/-- Later positions are refused where their first is. -/
private theorem refuses_position (comma : Punct .comma)
    (ih : ExprSort.position.Refuses spot l tokens) :
    ExprSort.positions.Refuses spot l (comma.token :: tokens) := by
  intro n hdepth
  simp only [List.length_cons] at hdepth
  have hposition := ih (n := n) (by omega)
  exact .here (hposition.behind comma)

/-- Later positions are refused where one behind their first is, the first being read. -/
private theorem refuses_laterPosition (comma : Punct .comma) (first : ExprTree .position)
    {e : Option Expr} (hfirst : first.reading spot.names spot.scope = some e)
    (h : ExprSort.positions.Reaches spot tokens) (ih : ExprSort.positions.Refuses spot l tokens) :
    ExprSort.positions.Refuses spot l (comma.token :: (first.yield ++ tokens)) := by
  intro n hdepth
  simp only [List.length_cons, List.length_append] at hdepth
  have hposition := first.parses (l := l) (n := n) hfirst (by omega) h.stops_positions
  refine .item (behind_punct comma hposition) ?_ (ih (n := n) (by omega))
  simp only [List.length_cons, List.length_append]
  omega

/-- A phrase that reaches a refused place is refused. -/
private theorem ExprSort.Reaches.refuses (h : k.Reaches spot tokens) (hrefused : spot.Refused) :
    k.Refuses spot l tokens := by
  induction h with
  | negate minus h ih => exact refuses_negate minus ih
  | group opening h ih => exact refuses_group opening ih
  | firstPosition hname opening h ih => exact refuses_firstPosition hname opening h ih
  | laterPositions hname opening first hfirst h ih =>
    exact refuses_laterPositions hname opening first hfirst h ih
  | bumpBefore mark hwritten hdot => exact refuses_bumpBefore mark hdot hrefused
  | read hvariable hwritten hdot hbump => exact refuses_read hvariable hwritten hdot hrefused
  | bumpAfter hvariable hwritten mark => exact refuses_bumpAfter hvariable mark hrefused
  | first h ih => exact refuses_firstOperand ih
  | later first hfirst h ih => exact refuses_links first hfirst h ih
  | link op h ih => exact refuses_link op ih
  | laterLink op next hnext h ih => exact refuses_laterLink op next hnext h ih
  | filled h ih => exact refuses_filled h ih
  | position comma h ih => exact refuses_position comma ih
  | laterPosition comma first hfirst h ih => exact refuses_laterPosition comma first hfirst h ih

/-- A phrase that reaches a refused place is refused, given enough depth for the nesting. -/
theorem ExprSort.Reaches.fails (h : k.Reaches spot tokens) (hrefused : spot.Refused)
    (hdepth : tokens.length ≤ n) :
    k.Fails (Grammar.operand spot.scope n) (.error spot.fault) ⟨tokens, l, spot.names⟩ :=
  h.refuses hrefused hdepth

end Expressions

/-! ### Conditions -/

/-- A term is read up to a place. -/
inductive TermReaches (spot : Spot) : List Token → Prop where
  | left {tokens : List Token} (bangs : List (Punct .bang))
      (h : ExprSort.chain.Reaches spot tokens) :
      TermReaches spot (bangs.map (·.token) ++ tokens)
  | right {tokens : List Token} (bangs : List (Punct .bang)) (left : ExprTree .chain) {e : Expr}
      (hleft : left.reading spot.names spot.scope = some e) (mark : Leaf Kind.comparison?)
      (h : ExprSort.chain.Reaches spot tokens) :
      TermReaches spot (bangs.map (·.token) ++ (left.yield ++ mark.token :: tokens))

/-- A condition is read up to a place. -/
inductive ConditionReaches (spot : Spot) : List Token → Prop where
  | first {tokens : List Token} (h : TermReaches spot tokens) : ConditionReaches spot tokens
  | later {tokens : List Token} (first : TermTree) {r : Term}
      (hfirst : first.reading spot.names spot.scope = some r)
      (others : List (Leaf Kind.connective? × TermTree)) {rs : List (Connective × Term)}
      (hothers : others.mapM (ConditionTree.laterReading spot.names spot.scope) = some rs)
      (mark : Leaf Kind.connective?) (h : TermReaches spot tokens) :
      ConditionReaches spot
        (first.yield ++ (yieldBehind TermTree.yield others ++ mark.token :: tokens))

section Conditions

variable {spot : Spot} {tokens : List Token} {n l : Nat}

theorem TermReaches.heads (h : TermReaches spot tokens) : Heads Kind.opensTerm tokens := by
  cases h with
  | left bangs h =>
    cases bangs with
    | nil => exact h.heads.imp Kind.opensTerm_of_opensChain
    | cons bang bangs => exact Heads.of_cons (by rw [bang.kind_mark]; rfl)
  | right bangs left hleft mark h =>
    cases bangs with
    | nil => exact (left.heads_chain.append _).imp Kind.opensTerm_of_opensChain
    | cons bang bangs => exact Heads.of_cons (by rw [bang.kind_mark]; rfl)

theorem TermReaches.fails (h : TermReaches spot tokens) (hrefused : spot.Refused)
    (hdepth : tokens.length ≤ n) :
    Parse.Fails (term (operand spot.scope n)) ⟨tokens, l, spot.names⟩ (.error spot.fault) := by
  refine .of_ok (x := peek) rfl (.of_ok (x := get) rfl ?_)
  cases h with
  | left bangs h =>
    simp only [List.length_append] at hdepth
    refine .of_ok (bangs_complete (h.heads.lacks Kind.bang_of_opensChain)) ?_
    exact (h.fails hrefused (by omega)).bind _
  | @right tokens bangs left e hleft mark h =>
    simp only [List.length_append, List.length_cons] at hdepth
    have hopens := left.heads_chain.append (mark.token :: tokens)
    have hmark : Heads Kind.endsChain (mark.token :: tokens) := Heads.of_leaf mark fun k hk =>
      Kind.isMark_of_subset (by decide) (Kind.isMark_of_comparison? hk)
    refine .of_ok (bangs_complete (hopens.lacks Kind.bang_of_opensChain)) ?_
    refine .of_ok (left.parses hleft (by omega) hmark) ?_
    refine .of_ok (take?_leaf mark) ?_
    exact (h.fails (n := n) hrefused (by omega)).bind _

theorem ConditionReaches.heads (h : ConditionReaches spot tokens) :
    Heads Kind.opensTerm tokens := by
  cases h with
  | first h => exact h.heads
  | later first hfirst others hothers mark h => exact first.heads.append _

theorem ConditionReaches.fails (h : ConditionReaches spot tokens) (hrefused : spot.Refused)
    (hdepth : tokens.length ≤ n) :
    Parse.Fails (condition (operand spot.scope n)) ⟨tokens, l, spot.names⟩
      (.error spot.fault) := by
  cases h with
  | first h => exact (h.fails hrefused hdepth).bind _
  | @later tokens first r hfirst others rs hothers mark h =>
    simp only [List.length_append, List.length_cons] at hdepth
    have hends : Heads Kind.endsTerm
        (yieldBehind TermTree.yield others ++ mark.token :: tokens) := by
      cases others with
      | nil => exact stops_connective mark tokens
      | cons other others => exact stops_connective other.1 _
    have hterm : Parse.Fails (laterTerm (operand spot.scope n))
        ⟨mark.token :: tokens, l, spot.names⟩ (.error spot.fault) :=
      .of_ok (take?_leaf mark) ((h.fails hrefused (by omega)).bind _)
    refine .of_ok (term_complete hfirst (by omega) hends) (.bind ?_ _)
    refine (stumbles_yieldBehind _ (Heads Kind.endsTerm) ?_ stops_connective
      (readAll_of_mapM (fun names => ConditionTree.laterReading names spot.scope) hothers) mark
      hterm).many
    intro mark tree r names later rest hmem hread hends
    obtain ⟨r, hr, hsome⟩ := Option.map_eq_some_iff.mp hread
    cases hsome
    have hlength := length_lt_yieldBehind TermTree.yield hmem
    exact laterTerm_complete hr (by omega) hends

end Conditions

end Grammar

end Litany
