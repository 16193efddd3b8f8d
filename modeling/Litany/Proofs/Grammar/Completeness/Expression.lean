import Litany.Proofs.Grammar.Lookahead
import Litany.Proofs.Grammar.Readings
import Litany.Proofs.Grammar.Soundness.Expression

/-!
# Derived expressions are parsed

The converse of soundness: where the yield of a tree with a reading is in front, and a token behind
it that cannot go on with it, the parser of its sort answers the reading and leaves what stands
behind. The depth of nesting that a parser is given suffices when it is no less than the number of
tokens of the tree.
-/

namespace Litany

namespace Grammar

open Parse

variable {names later : Names} {scope : Scope} {rest : List Token} {l : Nat}

/-! ### Repeated items -/

section Repeated

variable {α β γ : Type} {f : Kind → Option γ} {yield : α → List Token}

/-- An item is shorter than all items together. -/
theorem length_lt_yieldBehind (yield : α → List Token) {leaf : Leaf f} {a : α}
    {trees : List (Leaf f × α)}
    (h : (leaf, a) ∈ trees) : (yield a).length < (yieldBehind yield trees).length := by
  induction trees with
  | nil => cases h
  | cons tree trees ih =>
    simp only [yieldBehind, List.cons_append, List.length_cons, List.length_append]
    rcases List.mem_cons.mp h with rfl | h
    · exact Nat.lt_succ_of_le (Nat.le_add_right _ _)
    · have hlater := ih h
      omega

/-- Items behind a leaf each are read up to where the leaf is missing. -/
private theorem many_yieldBehind {item : Parse (Option β)} {trees : List (Leaf f × α)}
    (read : Leaf f × α → Names → Option (β × Names)) (stops : List Token → Prop)
    (hsome : ∀ {leaf a b names later rest}, (leaf, a) ∈ trees →
      read (leaf, a) names = some (b, later) → stops rest →
      item ⟨leaf.token :: yield a ++ rest, l, names⟩ = .ok (some b) ⟨rest, l, later⟩)
    (hnone : ∀ {names rest}, Lacks f rest → item ⟨rest, l, names⟩ = .ok none ⟨rest, l, names⟩)
    (hleaf : ∀ (leaf : Leaf f) (rest : List Token), stops (leaf.token :: rest)) {bs : List β}
    (hread : readAll read trees names = some (bs, later)) (hstops : stops rest)
    (hlacks : Lacks f rest) :
    many item ⟨yieldBehind yield trees ++ rest, l, names⟩ = .ok bs ⟨rest, l, later⟩ := by
  apply Repeats.many_eq_ok
  induction trees generalizing names bs with
  | nil =>
    obtain ⟨rfl, rfl⟩ : bs = [] ∧ later = names := by simpa [readAll, eq_comm] using hread
    exact .done (hnone hlacks)
  | cons tree trees ih =>
    obtain ⟨leaf, a⟩ := tree
    obtain ⟨b, names', bs', hfirst, hrest, rfl⟩ := readAll_cons_eq_some.mp hread
    have hnext : stops (yieldBehind yield trees ++ rest) := by
      cases trees with
      | nil => exact hstops
      | cons tree trees => exact hleaf tree.1 _
    have hitem := hsome List.mem_cons_self hfirst hnext
    refine .item ?_ ?_ (ih (fun hmem => hsome (List.mem_cons_of_mem _ hmem)) hrest)
    · simpa [yieldBehind] using hitem
    · simp only [yieldBehind, List.cons_append, List.length_cons, List.length_append]
      omega

/-- Items behind a mark each are read up to where the mark is missing. -/
theorem many_behind {m : Mark} {item : Parse β} {trees : List (Punct m × α)}
    (read : α → Names → Option (β × Names)) (stops : List Token → Prop)
    (hitem : ∀ {mark a b names later rest}, (mark, a) ∈ trees → read a names = some (b, later) →
      stops rest → item ⟨yield a ++ rest, l, names⟩ = .ok b ⟨rest, l, later⟩)
    (hmark : ∀ (mark : Punct m) (rest : List Token), stops (mark.token :: rest)) {bs : List β}
    (hread : readAll read (trees.map (·.2)) names = some (bs, later)) (hstops : stops rest)
    (hlacks : Lacks (Kind.mark? m) rest) :
    many (behind m item) ⟨yieldBehind yield trees ++ rest, l, names⟩ =
      .ok bs ⟨rest, l, later⟩ := by
  rw [readAll_map] at hread
  refine many_yieldBehind _ stops (fun hmem hread hstops => ?_) behind_lacks hmark hread hstops
    hlacks
  exact behind_punct _ (hitem hmem hread hstops)

end Repeated

/-! ### Places -/

/-- The fields behind the root of a place. -/
theorem segments_complete (t : PlaceTree) (hdot : Lacks (Kind.mark? .dot) rest) :
    many segment ⟨yieldBehind (fun name : Name => [name.token]) t.fields ++ rest, l, names⟩ =
      .ok t.path ⟨rest, l, names⟩ := by
  refine many_behind (fun name names => some (name.lexeme, names)) (fun _ => True) ?_
    (fun _ _ => trivial) ?_ trivial hdot
  · intro dot name b names later rest _ hread _
    obtain ⟨rfl, rfl⟩ : name.lexeme = b ∧ names = later := by simpa using hread
    rw [List.singleton_append, bind_of_ok (ident_name name)]
    rfl
  · rw [readAll_some, List.map_map]
    rfl

/-- A place is read up to where no dot follows. -/
theorem place_complete {t : PlaceTree} {p : Place} (hread : t.reading names scope = some p)
    (hdot : Lacks (Kind.mark? .dot) rest) :
    place scope ⟨t.yield ++ rest, l, names⟩ = .ok (p, t.root.token.line) ⟨rest, l, names⟩ := by
  obtain ⟨slot, rootType, constant, type, hslot, hroot, htype, rfl⟩ :=
    PlaceTree.reading_eq_some hread
  rw [place, PlaceTree.yield, List.cons_append, bind_of_ok (ident_name t.root), names_bind]
  simp only [hslot, hroot]
  rw [bind_of_ok (segments_complete t hdot)]
  simp only [htype]
  rfl

/-- A place that may be written passes the check. -/
theorem assignable_complete {p : Place} {line : Nat} {rest : List Token}
    (h : writable names scope p = true) :
    assignable scope p line ⟨rest, l, names⟩ = .ok () ⟨rest, l, names⟩ := by
  simp only [writable, Bool.and_eq_true, Bool.not_eq_true'] at h
  rw [assignable, names_bind, if_neg (by simp [h.1])]
  cases htype : p.type with
  | scalar type => rfl
  | object number => simp [htype] at h

/-! ### Operands and chains -/

/-- What may stand behind a phrase of the given sort. -/
def ExprSort.Stops : ExprSort → List Token → Prop
  | .operand => Heads Kind.endsOperand
  | .chain => Heads Kind.endsChain
  | .links => Heads Kind.endsChain
  | .position => Heads fun k => k.isMark [.comma, .rightParen]
  | .positions => Heads fun k => k.isMark [.rightParen]

/-- The parser of a sort, given that of the nested operands, goes from one cursor to the other. -/
def ExprSort.Parses (operand : Parse Expr) :
    (k : ExprSort) → Cursor → ExprReading k → Cursor → Prop
  | .operand, s, e, s' => operand s = .ok e s'
  | .chain, s, e, s' => Grammar.chain operand s = .ok e s'
  | .links, s, found, s' => Repeats (link operand) s found s'
  | .position, s, given, s' => Grammar.position operand s = .ok given s'
  | .positions, s, given, s' => Repeats (behind .comma (Grammar.position operand)) s given s'

/-- Behind an operand stands another operation, or what stands behind the chain. -/
theorem ExprTree.stops_links {t : ExprTree .links} (h : Heads Kind.endsChain rest) :
    Heads Kind.endsOperand (t.yield ++ rest) := by
  cases t with
  | noLink => exact h.imp Kind.endsOperand_of_endsChain
  | link op operand links =>
    exact Heads.of_leaf op fun k hk =>
      Kind.isMark_of_subset (by decide) (Kind.isMark_of_arithmetic? hk)

/-- Behind a position stands a comma, or the parenthesis that ends the call. -/
theorem ExprTree.stops_positions {t : ExprTree .positions}
    (h : Heads (fun k => k.isMark [.rightParen]) rest) :
    Heads (fun k => k.isMark [.comma, .rightParen]) (t.yield ++ rest) := by
  cases t with
  | noPosition => exact h.imp fun k hk => Kind.isMark_of_subset (by decide) hk
  | position comma first rest => exact Heads.of_cons (by rw [comma.kind_mark]; rfl)

/-- The name of a procedure begins a call, whatever else it may name. -/
theorem operandFrom_call {operand : Parse Expr} {name : Name} {ordinal : Nat}
    (h : names.procedure? name.value = some ordinal) (tokens : List Token) :
    operandFrom scope operand name.token ⟨tokens, l, names⟩ =
      call operand ordinal ⟨tokens, l, names⟩ := by
  rw [operandFrom, name.kind_ident]
  change (Parse.names >>= fun names => _) _ = _
  simp only [names_bind, h]

/-- A name that is none of a procedure begins a place. -/
theorem operandFrom_place {operand : Parse Expr} {name : Name}
    (h : names.procedure? name.value = none) (tokens : List Token) :
    operandFrom scope operand name.token ⟨tokens, l, names⟩ =
      placeOperand scope ⟨tokens, l, names⟩ := by
  rw [operandFrom, name.kind_ident]
  change (Parse.names >>= fun names => _) _ = _
  simp only [names_bind, h]

/-- A call is read when its positions are. -/
private theorem call_complete {operand : Parse Expr} {name : Name} {given : List (Option Expr)}
    {e : Expr} {tokens : List Token} (hread : ExprTree.callReading names name given = some e)
    (hpositions : positions operand ⟨tokens, l, names⟩ = .ok given ⟨rest, l, names⟩) :
    operandFrom scope operand name.token ⟨name.token :: tokens, l, names⟩ =
      .ok e ⟨rest, l, names⟩ := by
  obtain ⟨ordinal, p, es, hordinal, hp, hes, rfl⟩ := ExprTree.callReading_eq_some hread
  rw [operandFrom_call hordinal, call, bind_of_ok (ident_name name), bind_of_ok hpositions,
    names_bind]
  simp only [hp, arguments_eq_ok_iff.mpr hes]
  rfl

/-- A call without parentheses has no positions. -/
theorem positions_absent {operand : Parse Expr} (h : Lacks (Kind.mark? .leftParen) rest) :
    positions operand ⟨rest, l, names⟩ = .ok [] ⟨rest, l, names⟩ := by
  rw [positions, bind_of_ok (accept_lacks h), if_neg (by simp)]
  rfl

/-- A call with empty parentheses has no positions either. -/
theorem positions_empty {operand : Parse Expr} (opening : Punct .leftParen)
    (closing : Punct .rightParen) :
    positions operand ⟨opening.token :: closing.token :: rest, l, names⟩ =
      .ok [] ⟨rest, l, names⟩ := by
  rw [positions, bind_of_ok (accept_punct opening), if_pos rfl,
    bind_of_ok (accept_punct closing), if_pos rfl]
  rfl

/-- Positions between parentheses, the first of them not vacant or followed by another. -/
theorem positions_complete {operand : Parse Expr} (opening : Punct .leftParen)
    (closing : Punct .rightParen) {tokens : List Token} {s : Cursor} {first : Option Expr}
    {given : List (Option Expr)} (hlacks : Lacks (Kind.mark? .rightParen) tokens)
    (hfirst : position operand ⟨tokens, l, names⟩ = .ok first s)
    (hrest : Repeats (behind .comma (position operand)) s given
      ⟨closing.token :: rest, l, names⟩) :
    positions operand ⟨opening.token :: tokens, l, names⟩ =
      .ok (first :: given) ⟨rest, l, names⟩ := by
  rw [positions, bind_of_ok (accept_punct opening), if_pos rfl, bind_of_ok (accept_lacks hlacks),
    if_neg (by simp), bind_of_ok hfirst, bind_of_ok hrest.many_eq_ok,
    bind_of_ok (expect_punct closing)]
  rfl

/-- A place that is no name of a procedure is read as such, unless a mark behind it changes it. -/
private theorem placeOperand_read {place : PlaceTree} {p : Place}
    (hread : place.reading names scope = some p) (hstops : Heads Kind.endsOperand rest) :
    placeOperand scope ⟨place.yield ++ rest, l, names⟩ = .ok (.read p) ⟨rest, l, names⟩ := by
  have hplace := place_complete (l := l) hread (hstops.lacks Kind.dot_of_endsOperand)
  rw [placeOperand, bind_of_ok hplace]
  simp only
  rw [bind_of_ok (take?_lacks (hstops.lacks Kind.bump?_of_endsOperand))]
  rfl

/-- A place that may be written is read with the mark behind it. -/
private theorem placeOperand_bump {place : PlaceTree} {p : Place} (mark : Leaf Kind.bump?)
    (hread : place.reading names scope = some p) (hwritable : writable names scope p = true) :
    placeOperand scope ⟨place.yield ++ mark.token :: rest, l, names⟩ =
      .ok (.bump p mark.value false mark.token.line) ⟨rest, l, names⟩ := by
  have hdot : Lacks (Kind.mark? .dot) (mark.token :: rest) :=
    Lacks.of_cons (Kind.eq_none_of_isMark (by decide) (Kind.isMark_of_bump? mark.isSome))
  rw [placeOperand, bind_of_ok (place_complete hread hdot)]
  simp only
  rw [bind_of_ok (take?_leaf mark)]
  simp only
  rw [bind_of_ok (assignable_complete hwritable)]
  rfl

/-- A place that may be written is read behind a mark. -/
private theorem bumped_complete {place : PlaceTree} {p : Place} {up : Bool} {line : Nat}
    (hread : place.reading names scope = some p) (hwritable : writable names scope p = true)
    (hstops : Heads Kind.endsOperand rest) :
    bumped scope up line ⟨place.yield ++ rest, l, names⟩ =
      .ok (.bump p up true line) ⟨rest, l, names⟩ := by
  rw [bumped, bind_of_ok (place_complete hread (hstops.lacks Kind.dot_of_endsOperand))]
  simp only
  rw [bind_of_ok (assignable_complete hwritable)]
  rfl

/-- An operand behind its first token, where that is not a name. -/
private theorem operandFrom_literal {operand : Parse Expr} (value : Leaf Kind.literal?) :
    operandFrom scope operand value.token ⟨value.token :: rest, l, names⟩ =
      .ok (.literal value.value) ⟨rest, l, names⟩ := by
  obtain ⟨⟨kind, lexeme, line⟩, v, hfits⟩ := value
  cases kind with
  | int n | float x | quoted raw =>
    obtain rfl := Option.some.inj hfits
    rfl
  | keyword k =>
    cases k with
    | yes | no =>
      obtain rfl := Option.some.inj hfits
      rfl
    | _ => cases hfits
  | _ => cases hfits

/-- A mark that changes a place is taken, and the place is read behind it. -/
theorem operandFrom_bump {operand : Parse Expr} (mark : Leaf Kind.bump?) (s : Cursor) :
    operandFrom scope operand mark.token s =
      (do
        let _ ← advance
        bumped scope mark.value mark.token.line) s := by
  obtain ⟨⟨kind, lexeme, line⟩, v, hfits⟩ := mark
  cases kind with
  | mark m =>
    cases m with
    | plusPlus | minusMinus =>
      obtain rfl := Option.some.inj hfits
      rfl
    | _ => cases hfits
  | _ => cases hfits

/-- A minus sign is read with the operand behind it. -/
private theorem operandFrom_negate {operand : Parse Expr} {tokens : List Token} {s : Cursor}
    {e : Expr} (minus : Punct .minus) (h : operand ⟨tokens, l, names⟩ = .ok e s) :
    operandFrom scope operand minus.token ⟨minus.token :: tokens, l, names⟩ =
      .ok (.negate e minus.token.line) s := by
  rw [operandFrom, minus.kind_mark]
  change (advance >>= fun _ => _) _ = _
  rw [bind_of_ok advance_cons, bind_of_ok h]
  rfl

/-- Parentheses are read with the chain between them. -/
private theorem operandFrom_group {operand : Parse Expr} {tokens : List Token} {e : Expr}
    (opening : Punct .leftParen) (closing : Punct .rightParen)
    (h : chain operand ⟨tokens, l, names⟩ = .ok e ⟨closing.token :: rest, l, names⟩) :
    operandFrom scope operand opening.token ⟨opening.token :: tokens, l, names⟩ =
      .ok (.group e) ⟨rest, l, names⟩ := by
  rw [operandFrom, opening.kind_mark]
  change (advance >>= fun _ => _) _ = _
  rw [bind_of_ok advance_cons, bind_of_ok h, bind_of_ok (expect_punct closing)]
  rfl

/-- An operation is read with the operand behind it. -/
theorem link_complete {operand : Parse Expr} {tokens : List Token} {s : Cursor} {e : Expr}
    (op : Leaf Kind.arithmetic?) (h : operand ⟨tokens, l, names⟩ = .ok e s) :
    link operand ⟨op.token :: tokens, l, names⟩ = .ok (some ⟨op.value, e, op.token.line⟩) s := by
  rw [link, bind_of_ok (take?_leaf op)]
  change (operand >>= fun e => _) _ = _
  rw [bind_of_ok h]
  rfl

/-- No operation is read where the chain ends. -/
private theorem link_absent {operand : Parse Expr} (h : Heads Kind.endsChain rest) :
    link operand ⟨rest, l, names⟩ = .ok none ⟨rest, l, names⟩ := by
  rw [link, bind_of_ok (take?_lacks (h.lacks Kind.arithmetic?_of_endsChain))]
  rfl

/-- A position is empty where a comma or the closing parenthesis is next. -/
private theorem position_vacant {operand : Parse Expr}
    (h : Heads (fun k => k.isMark [.comma, .rightParen]) rest) :
    position operand ⟨rest, l, names⟩ = .ok none ⟨rest, l, names⟩ := by
  obtain ⟨t, rest, rfl, hmark⟩ := h
  obtain ⟨m, hm, hkind⟩ := Kind.exists_of_isMark hmark
  have hsees : ∀ n, (Kind.mark? n t.kind).isSome = decide (m = n) := by
    intro n
    rw [hkind, Kind.mark?]
    by_cases hmn : m = n <;> simp [hmn]
  have hvacant : ∀ n ∈ [Mark.comma, .rightParen],
      (decide (n = .comma) || decide (n = .rightParen)) = true := by
    decide
  change (if (Kind.mark? .comma t.kind).isSome || (Kind.mark? .rightParen t.kind).isSome then
    pure none else some <$> chain operand : Parse (Option Expr)) _ = _
  rw [hsees, hsees, if_pos (hvacant m hm)]
  rfl

/-- A position is filled where a chain begins. -/
private theorem position_filled {operand : Parse Expr} {tokens : List Token} {s : Cursor} {e : Expr}
    (hopens : Heads Kind.opensChain tokens)
    (h : chain operand ⟨tokens, l, names⟩ = .ok e s) :
    position operand ⟨tokens, l, names⟩ = .ok (some e) s := by
  have hterm := hopens.imp Kind.opensTerm_of_opensChain
  have hcomma := hterm.lacks (Kind.mark?_of_opensTerm (m := .comma) (by decide))
  have hclosing := hterm.lacks (Kind.mark?_of_opensTerm (m := .rightParen) (by decide))
  rw [position, bind_of_ok (sees_lacks hcomma), bind_of_ok (sees_lacks hclosing),
    if_neg (by simp), bind_of_ok h]
  rfl

/-- Behind the opening parenthesis of a call there is a closing one only if nothing is between
them. -/
theorem ExprTree.lacks_rightParen {first : ExprTree .position} {others : ExprTree .positions}
    (h : first = .vacant → others ≠ .noPosition) (closing : Punct .rightParen)
    (rest : List Token) :
    Lacks (Kind.mark? .rightParen) (first.yield ++ (others.yield ++ closing.token :: rest)) := by
  cases first with
  | filled value =>
    have hopens := (value.heads_chain.append (others.yield ++ closing.token :: rest)).imp
      Kind.opensTerm_of_opensChain
    exact hopens.lacks (Kind.mark?_of_opensTerm (by decide))
  | vacant =>
    cases others with
    | noPosition => exact absurd rfl (h rfl)
    | position comma first others => exact Lacks.of_cons (by rw [comma.kind_mark]; rfl)

/-- The positions of a call that is read are not a single vacant one. -/
theorem ExprTree.reading_call {name : Name} {opening : Punct .leftParen}
    {first : ExprTree .position} {others : ExprTree .positions} {closing : Punct .rightParen}
    {e : Expr} (rest : List Token)
    (h : (call name opening first others closing).reading names scope = some e) :
    ∃ f fs, first.reading names scope = some f ∧ others.reading names scope = some fs ∧
      callReading names name (f :: fs) = some e ∧
      Lacks (Kind.mark? .rightParen) (first.yield ++ (others.yield ++ closing.token :: rest)) := by
  obtain ⟨f, hf, h⟩ := Option.bind_eq_some_iff.mp h
  obtain ⟨fs, hfs, h⟩ := Option.bind_eq_some_iff.mp h
  split at h
  · cases h
  · rename_i hne
    refine ⟨_, _, hf, hfs, h, lacks_rightParen ?_ closing rest⟩
    rintro rfl rfl
    obtain rfl := Option.some.inj hf
    obtain rfl := Option.some.inj hfs
    exact hne rfl rfl

/-! ### Phrases

One lemma for each production, with what holds of the parts as its hypotheses. -/

namespace ExprTree

attribute [local simp] yield

variable (names scope l) in
/-- A phrase is parsed to its reading wherever it stops, given enough depth for the nesting. -/
def Parsed {k : ExprSort} (t : ExprTree k) : Prop :=
  ∀ ⦃n : Nat⦄ ⦃a : ExprReading k⦄ ⦃rest : List Token⦄, t.reading names scope = some a →
    t.yield.length ≤ n → k.Stops rest →
      k.Parses (operand scope n) ⟨t.yield ++ rest, l, names⟩ a ⟨rest, l, names⟩

/-- A literal is taken at once. -/
private theorem parsed_literal (value : Leaf Kind.literal?) :
    (literal value).Parsed names scope l := by
  intro n e rest hread hdepth hstops
  obtain rfl := Option.some.inj hread
  obtain _ | n := n
  · simp at hdepth
  · exact operandFrom_literal value

/-- Behind the minus sign the operand is parsed at one level less. -/
private theorem parsed_negate (minus : Punct .minus) {inner : ExprTree .operand}
    (ih : inner.Parsed names scope l) : (negate minus inner).Parsed names scope l := by
  intro n e rest hread hdepth hstops
  obtain ⟨e, he, rfl⟩ := reading_negate hread
  obtain _ | n := n
  · simp at hdepth
  · have hinner := ih he (by simpa using hdepth) hstops
    exact operandFrom_negate minus hinner

/-- The chain in parentheses is parsed up to the closing one. -/
private theorem parsed_group (opening : Punct .leftParen) {inner : ExprTree .chain}
    (closing : Punct .rightParen) (ih : inner.Parsed names scope l) :
    (group opening inner closing).Parsed names scope l := by
  intro n e rest hread hdepth hstops
  obtain ⟨e, he, rfl⟩ := reading_group hread
  simp only [yield, List.length_append, List.length_cons, List.length_nil] at hdepth
  obtain _ | n := n
  · omega
  · have hclosing : ExprSort.chain.Stops (closing.token :: rest) :=
      Heads.of_cons (by rw [closing.kind_mark]; rfl)
    have hinner := ih (n := n) he (by omega) hclosing
    rw [yield, List.append_assoc]
    exact operandFrom_group opening closing hinner

/-- A call without parentheses has no positions. -/
private theorem parsed_bareCall (name : Name) : (bareCall name).Parsed names scope l := by
  intro n e rest hread hdepth hstops
  obtain _ | n := n
  · simp at hdepth
  · have hlacks := hstops.lacks Kind.leftParen_of_endsOperand
    exact call_complete hread (positions_absent hlacks)

/-- A call with nothing in its parentheses has no positions. -/
private theorem parsed_emptyCall (name : Name) (opening : Punct .leftParen)
    (closing : Punct .rightParen) : (emptyCall name opening closing).Parsed names scope l := by
  intro n e rest hread hdepth hstops
  obtain _ | n := n
  · simp at hdepth
  · exact call_complete hread (positions_empty opening closing)

/-- The positions of a call are parsed up to the closing parenthesis. -/
private theorem parsed_call (name : Name) (opening : Punct .leftParen)
    {first : ExprTree .position} {others : ExprTree .positions} (closing : Punct .rightParen)
    (ihFirst : first.Parsed names scope l) (ihOthers : others.Parsed names scope l) :
    (call name opening first others closing).Parsed names scope l := by
  intro n e rest hread hdepth hstops
  obtain ⟨f, fs, hf, hfs, hcall, hlacks⟩ := reading_call rest hread
  have hclosing : ExprSort.positions.Stops (closing.token :: rest) :=
    Heads.of_cons (by rw [closing.kind_mark]; rfl)
  simp only [yield, List.length_append, List.length_cons, List.length_nil] at hdepth
  obtain _ | n := n
  · omega
  · have hfirst := ihFirst (n := n) hf (by omega) (stops_positions (t := others) hclosing)
    have hothers := ihOthers (n := n) hfs (by omega) hclosing
    simp only [yield, List.cons_append, List.append_assoc, List.nil_append]
    exact call_complete hcall (positions_complete opening closing hlacks hfirst hothers)

/-- A change in front of a place is the place behind its mark. -/
private theorem parsed_bumpBefore (mark : Leaf Kind.bump?) (place : PlaceTree) :
    (bumpBefore mark place).Parsed names scope l := by
  intro n e rest hread hdepth hstops
  obtain ⟨p, hp, hwritable, rfl⟩ := reading_bumpBefore hread
  obtain _ | n := n
  · simp at hdepth
  · change operandFrom scope (operand scope n) mark.token _ = _
    rw [operandFrom_bump, yield, List.cons_append, bind_of_ok advance_cons]
    exact bumped_complete hp hwritable hstops

/-- A name that is no procedure is parsed as a place. -/
private theorem parsed_read (place : PlaceTree) : (read place).Parsed names scope l := by
  intro n e rest hread hdepth hstops
  obtain ⟨p, hp, rfl⟩ := reading_read hread
  obtain ⟨hnone, hplace⟩ := variableReading_eq_some hp
  obtain _ | n := n
  · simp [PlaceTree.yield] at hdepth
  · change operandFrom scope (operand scope n) place.root.token _ = _
    rw [operandFrom_place hnone]
    exact placeOperand_read hplace hstops

/-- A mark of change behind a place is taken with it. -/
private theorem parsed_bumpAfter (place : PlaceTree) (mark : Leaf Kind.bump?) :
    (bumpAfter place mark).Parsed names scope l := by
  intro n e rest hread hdepth hstops
  obtain ⟨p, hp, hwritable, rfl⟩ := reading_bumpAfter hread
  obtain ⟨hnone, hplace⟩ := variableReading_eq_some hp
  obtain _ | n := n
  · simp at hdepth
  · change operandFrom scope (operand scope n) place.root.token _ = _
    rw [operandFrom_place hnone, yield, List.append_assoc]
    exact placeOperand_bump mark hplace hwritable

/-- A chain is parsed operand by operand. -/
private theorem parsed_chain {first : ExprTree .operand} {links : ExprTree .links}
    (ihFirst : first.Parsed names scope l) (ihLinks : links.Parsed names scope l) :
    (chain first links).Parsed names scope l := by
  intro n e rest hread hdepth hstops
  obtain ⟨e, found, he, hfound, rfl⟩ := reading_chain hread
  simp only [yield, List.length_append] at hdepth
  have hfirst := ihFirst (n := n) he (by omega) (stops_links (t := links) hstops)
  have hlinks := ihLinks (n := n) hfound (by omega) hstops
  change Grammar.chain _ _ = _
  rw [Grammar.chain, yield, List.append_assoc, bind_of_ok hfirst, bind_of_ok hlinks.many_eq_ok]
  rfl

/-- Where a chain stops no further link is parsed. -/
private theorem parsed_noLink : noLink.Parsed names scope l := by
  intro n e rest hread hdepth hstops
  obtain rfl := Option.some.inj hread
  exact .done (link_absent hstops)

/-- A link is parsed, and then the links behind it. -/
private theorem parsed_link (op : Leaf Kind.arithmetic?) {next : ExprTree .operand}
    {links : ExprTree .links} (ihNext : next.Parsed names scope l)
    (ihLinks : links.Parsed names scope l) : (link op next links).Parsed names scope l := by
  intro n e rest hread hdepth hstops
  obtain ⟨e, found, he, hfound, rfl⟩ := reading_link hread
  simp only [yield, List.length_append, List.length_cons] at hdepth
  have hnext := ihNext (n := n) he (by omega) (stops_links (t := links) hstops)
  have hlinks := ihLinks (n := n) hfound (by omega) hstops
  simp only [yield, List.cons_append, List.append_assoc]
  refine .item (link_complete op hnext) ?_ hlinks
  simp only [List.length_cons, List.length_append]
  omega

/-- In front of what ends a position nothing is parsed. -/
private theorem parsed_vacant : vacant.Parsed names scope l := by
  intro n e rest hread hdepth hstops
  obtain rfl := Option.some.inj hread
  exact position_vacant hstops

/-- A filled position is the chain in it. -/
private theorem parsed_filled {value : ExprTree .chain} (ih : value.Parsed names scope l) :
    (filled value).Parsed names scope l := by
  intro n e rest hread hdepth hstops
  obtain ⟨e, he, rfl⟩ := reading_filled hread
  have hends : Heads Kind.endsChain rest :=
    hstops.imp fun k hk => Kind.isMark_of_subset (by decide) hk
  exact position_filled (value.heads_chain.append rest) (ih he hdepth hends)

/-- At the closing parenthesis no further position is parsed. -/
private theorem parsed_noPosition : noPosition.Parsed names scope l := by
  intro n e rest hread hdepth hstops
  obtain rfl := Option.some.inj hread
  exact .done (behind_lacks (hstops.lacks fun k hk => Kind.eq_none_of_isMark (by decide) hk))

/-- A position behind a comma is parsed, and then the positions behind it. -/
private theorem parsed_position (comma : Punct .comma) {first : ExprTree .position}
    {others : ExprTree .positions} (ihFirst : first.Parsed names scope l)
    (ihOthers : others.Parsed names scope l) :
    (position comma first others).Parsed names scope l := by
  intro n e rest hread hdepth hstops
  obtain ⟨e, given, he, hgiven, rfl⟩ := reading_position hread
  simp only [yield, List.length_append, List.length_cons] at hdepth
  have hfirst := ihFirst (n := n) he (by omega) (stops_positions (t := others) hstops)
  have hothers := ihOthers (n := n) hgiven (by omega) hstops
  simp only [yield, List.cons_append, List.append_assoc]
  refine .item (behind_punct comma hfirst) ?_ hothers
  simp only [List.length_cons, List.length_append]
  omega

/-- Every phrase is parsed to its reading. -/
theorem parsed {k : ExprSort} (t : ExprTree k) : t.Parsed names scope l := by
  induction t with
  | literal value => exact parsed_literal value
  | negate minus inner ih => exact parsed_negate minus ih
  | group opening inner closing ih => exact parsed_group opening closing ih
  | bareCall name => exact parsed_bareCall name
  | emptyCall name opening closing => exact parsed_emptyCall name opening closing
  | call name opening first others closing ihFirst ihOthers =>
    exact parsed_call name opening closing ihFirst ihOthers
  | bumpBefore mark place => exact parsed_bumpBefore mark place
  | read place => exact parsed_read place
  | bumpAfter place mark => exact parsed_bumpAfter place mark
  | chain first links ihFirst ihLinks => exact parsed_chain ihFirst ihLinks
  | noLink => exact parsed_noLink
  | link op next links ihNext ihLinks => exact parsed_link op ihNext ihLinks
  | vacant => exact parsed_vacant
  | filled value ih => exact parsed_filled ih
  | noPosition => exact parsed_noPosition
  | position comma first others ihFirst ihOthers => exact parsed_position comma ihFirst ihOthers

/-- A phrase with a reading is parsed to it, given enough depth for the nesting. -/
theorem parses {k : ExprSort} (t : ExprTree k) {n : Nat} {a : ExprReading k}
    (hread : t.reading names scope = some a) (hdepth : t.yield.length ≤ n)
    (hstops : k.Stops rest) :
    k.Parses (operand scope n) ⟨t.yield ++ rest, l, names⟩ a ⟨rest, l, names⟩ :=
  t.parsed hread hdepth hstops

end ExprTree

/-- The chain behind an assignment is read up to where it ends. -/
theorem assignment_complete {t : ExprTree .chain} {n : Nat} {target : Place}
    {op : Option Arithmetic} {line : Nat} {e : Expr}
    (hread : t.assigned names scope target op line = some e) (hdepth : t.yield.length ≤ n)
    (hstops : Heads Kind.endsChain rest) :
    assignment (operand scope n) target op line ⟨t.yield ++ rest, l, names⟩ =
      .ok e ⟨rest, l, names⟩ := by
  cases t with
  | chain first links =>
    obtain ⟨v, found, hv, hfound, rfl⟩ := ExprTree.assigned_chain hread
    simp only [ExprTree.yield, List.length_append] at hdepth
    have hfirst := first.parses (l := l) (n := n) hv (by omega)
      (ExprTree.stops_links (t := links) hstops)
    have hlinks := links.parses (l := l) (n := n) hfound (by omega) hstops
    rw [assignment, ExprTree.yield, List.append_assoc, bind_of_ok hfirst,
      bind_of_ok hlinks.many_eq_ok]
    rfl

/-! ### Conditions -/

/-- All `!` in front of a term are read. -/
theorem bangs_complete {bangs : List (Punct .bang)} (h : Lacks (Kind.mark? .bang) rest) :
    many (take? (Kind.mark? .bang)) ⟨bangs.map (·.token) ++ rest, l, names⟩ =
      .ok (bangs.map fun bang => (bang.value, bang.token)) ⟨rest, l, names⟩ := by
  apply Repeats.many_eq_ok
  induction bangs with
  | nil => exact .done (take?_lacks h)
  | cons bang bangs ih => exact .item (take?_leaf bang) (Nat.lt_succ_self _) ih

/-- A term is read up to where it ends. -/
theorem term_complete {t : TermTree} {n : Nat} {r : Term}
    (hread : t.reading names scope = some r) (hdepth : t.yield.length ≤ n)
    (hstops : Heads Kind.endsTerm rest) :
    term (operand scope n) ⟨t.yield ++ rest, l, names⟩ = .ok r ⟨rest, l, names⟩ := by
  obtain ⟨left, compared, hleft, hcompared, rfl⟩ := TermTree.reading_eq_some hread
  have hline : (t.yield ++ rest).head?.elim l (·.line) = firstLine t.yield := by
    obtain ⟨first, others, hyield, -⟩ := t.heads
    rw [hyield]
    rfl
  rw [term, peek_bind, get_bind]
  simp only [hline]
  obtain ⟨bangs, leftTree, comparison⟩ := t
  simp only at hleft hcompared
  have hbangs : ∀ tokens, many (take? (Kind.mark? .bang))
      ⟨bangs.map (·.token) ++ (leftTree.yield ++ tokens), l, names⟩ =
        .ok (bangs.map fun bang => (bang.value, bang.token))
          ⟨leftTree.yield ++ tokens, l, names⟩ := fun tokens =>
    bangs_complete ((leftTree.heads_chain.append tokens).lacks Kind.bang_of_opensChain)
  cases comparison with
  | none =>
    obtain rfl := Option.some.inj hcompared
    simp only [TermTree.yield, List.length_append, List.append_nil] at hdepth ⊢
    have hleftRun := leftTree.parses (l := l) (n := n) hleft (by omega)
      (hstops.imp Kind.endsChain_of_endsTerm)
    rw [List.append_assoc, bind_of_ok (hbangs rest), bind_of_ok hleftRun,
      bind_of_ok (take?_lacks (hstops.lacks Kind.comparison?_of_endsTerm))]
    simp [pure_eq_ok]
  | some comparison =>
    obtain ⟨mark, rightTree⟩ := comparison
    obtain ⟨right, hright, hsome⟩ := Option.bind_eq_some_iff.mp hcompared
    obtain rfl := Option.some.inj hsome
    simp only [TermTree.yield, List.length_append, List.length_cons] at hdepth
    have hyield : TermTree.yield ⟨bangs, leftTree, some (mark, rightTree)⟩ ++ rest =
        bangs.map (·.token) ++ (leftTree.yield ++ mark.token :: (rightTree.yield ++ rest)) := by
      simp [TermTree.yield]
    have hmark : Heads Kind.endsChain (mark.token :: (rightTree.yield ++ rest)) :=
      Heads.of_leaf mark fun k hk =>
        Kind.isMark_of_subset (by decide) (Kind.isMark_of_comparison? hk)
    have hleftRun := leftTree.parses (l := l) (n := n) hleft (by omega) hmark
    have hrightRun := rightTree.parses (l := l) (n := n) hright (by omega)
      (hstops.imp Kind.endsChain_of_endsTerm)
    rw [hyield, bind_of_ok (hbangs _), bind_of_ok hleftRun, bind_of_ok (take?_leaf mark)]
    simp only [pure_bind]
    rw [bind_of_ok hrightRun]
    simp [pure_eq_ok]

/-- A term ends where a connective follows. -/
theorem stops_connective (mark : Leaf Kind.connective?) (tokens : List Token) :
    Heads Kind.endsTerm (mark.token :: tokens) :=
  Heads.of_leaf mark fun _ hk =>
    Kind.isMark_of_subset (by decide) (Kind.isMark_of_connective? hk)

/-- A term ends where another follows or the condition ends. -/
theorem stops_laterTerms (trees : List (Leaf Kind.connective? × TermTree))
    (h : Heads Kind.endsCondition rest) :
    Heads Kind.endsTerm (yieldBehind TermTree.yield trees ++ rest) := by
  cases trees with
  | nil => exact h.imp Kind.endsTerm_of_endsCondition
  | cons tree trees => exact stops_connective tree.1 _

/-- A connective is read with the term behind it. -/
theorem laterTerm_complete {mark : Leaf Kind.connective?} {t : TermTree} {n : Nat}
    {r : Connective × Term} (hread : ConditionTree.laterReading names scope (mark, t) = some r)
    (hdepth : t.yield.length ≤ n) (hstops : Heads Kind.endsTerm rest) :
    laterTerm (operand scope n) ⟨mark.token :: t.yield ++ rest, l, names⟩ =
      .ok (some r) ⟨rest, l, names⟩ := by
  obtain ⟨term, hterm, rfl⟩ := ConditionTree.laterReading_eq_some hread
  rw [laterTerm, List.cons_append, bind_of_ok (take?_leaf mark)]
  change (Grammar.term (operand scope n) >>= fun r => _) _ = _
  rw [bind_of_ok (term_complete hterm hdepth hstops)]
  rfl

/-- A condition is read up to where it ends. -/
theorem condition_complete {t : ConditionTree} {n : Nat} {r : Condition}
    (hread : t.reading names scope = some r) (hdepth : t.yield.length ≤ n)
    (hstops : Heads Kind.endsCondition rest) :
    condition (operand scope n) ⟨t.yield ++ rest, l, names⟩ = .ok r ⟨rest, l, names⟩ := by
  obtain ⟨hfirst, hothers⟩ := ConditionTree.reading_eq_some hread
  rw [ConditionTree.yield, List.length_append] at hdepth
  have hends := stops_laterTerms t.rest hstops
  have hmany : many (laterTerm (operand scope n))
      ⟨yieldBehind TermTree.yield t.rest ++ rest, l, names⟩ = .ok r.rest ⟨rest, l, names⟩ := by
    refine many_yieldBehind _ (Heads Kind.endsTerm) ?_ ?_ stops_connective
      (readAll_of_mapM (fun names => ConditionTree.laterReading names scope) hothers)
      (hstops.imp Kind.endsTerm_of_endsCondition) (hstops.lacks Kind.connective?_of_endsCondition)
    · intro mark tree r names later rest hmem hread hends
      obtain ⟨r, hr, hsome⟩ := Option.map_eq_some_iff.mp hread
      cases hsome
      have hlength := length_lt_yieldBehind TermTree.yield hmem
      exact laterTerm_complete hr (by omega) hends
    · intro names rest hlacks
      rw [laterTerm, bind_of_ok (take?_lacks hlacks)]
      rfl
  rw [condition, ConditionTree.yield, List.append_assoc,
    bind_of_ok (term_complete hfirst (by omega) hends), bind_of_ok hmany]
  rfl

end Grammar

end Litany
