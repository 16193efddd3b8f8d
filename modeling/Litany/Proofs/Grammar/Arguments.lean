import Litany.Machine.Evaluate
import Litany.Proofs.Grammar.Blame
import Litany.Proofs.Grammar.Completeness.Expression

/-!
# Omitted arguments

A call is written with positions, some of them empty; `ExprTree.call?` tells them. Whether the call
is accepted depends on how many there are, on which are filled and on which parameters have a
default, and on nothing else (`exists_arguments_iff`). If it is not, the failure names the numbers
or the first parameter that gets nothing (`arrange_missing`).

The arguments of an accepted call that are not written are defaults. They may be written out: a
position that is empty or missing is then filled with a literal that has the default as its value,
`WrittenOut`. A negated literal is parsed to an expression that negates a number, where the omitted
one is the number itself; both evaluate to it without any effect, so that the two calls are the same
computation (`arguments_writtenOut`).
-/

namespace Litany

namespace Grammar

open Parse Run

/-! ### The positions of a call -/

namespace ExprTree

/-- What stands at a position of a call. -/
def slot : ExprTree .position → Option (ExprTree .chain)
  | vacant => none
  | filled value => some value

/-- What stands at the later positions of a call. -/
def slots {k : ExprSort} : ExprTree k → List (Option (ExprTree .chain))
  | position _ first rest => first.slot :: rest.slots
  | _ => []

/-- The name of a call, and what stands at its positions. Empty parentheses hold none. -/
def call? : ExprTree .operand → Option (Name × List (Option (ExprTree .chain)))
  | bareCall name => some (name, [])
  | emptyCall name _ _ => some (name, [])
  | call name _ first rest _ =>
    match first.slot, rest.slots with
    | none, [] => none
    | first, rest => some (name, first :: rest)
  | _ => none

variable {names : Names} {scope : Scope}

/-- What is read at positions. -/
def given? (names : Names) (scope : Scope) (chains : List (Option (ExprTree .chain))) :
    Option (List (Option Expr)) :=
  chains.mapM (readOption (reading names scope))

/-- What is given at the first position, if anything, and at the others. -/
private theorem given?_cons_eq_some {chain : Option (ExprTree .chain)}
    {chains : List (Option (ExprTree .chain))} {given : List (Option Expr)} :
    given? names scope (chain :: chains) = some given ↔
      ∃ e es, readOption (reading names scope) chain = some e ∧
        given? names scope chains = some es ∧ given = e :: es :=
  mapM_cons_eq_some

/-- A position is read as what stands there. -/
private theorem reading_slot (t : ExprTree .position) :
    t.reading names scope = readOption (reading names scope) t.slot := by
  cases t with
  | vacant => rfl
  | filled value =>
    simp only [reading, slot, readOption]
    cases value.reading names scope <;> rfl

/-- Positions are read as what stands there. -/
private theorem reading_slots (t : ExprTree .positions) :
    t.reading names scope = given? names scope t.slots := by
  cases t with
  | noPosition => simp [reading, slots, given?]
  | position comma first rest =>
    rw [reading, reading_slot, reading_slots rest, slots, given?, given?, List.mapM_cons]

/-- What is read at the first position, and behind it. -/
private theorem given?_tail {chains : List (Option (ExprTree .chain))} {given : List (Option Expr)}
    (h : given? names scope chains = some given) :
    given? names scope chains.tail = some given.tail ∧
      chains.head?.join.isSome = given.head?.join.isSome := by
  cases chains with
  | nil =>
    obtain rfl : given = [] := by simpa [given?, eq_comm] using h
    exact ⟨h, rfl⟩
  | cons chain chains =>
    obtain ⟨e, es, he, hes, rfl⟩ := given?_cons_eq_some.mp h
    cases chain with
    | none =>
      obtain rfl := Option.some.inj he
      exact ⟨hes, rfl⟩
    | some c =>
      obtain ⟨v, -, rfl⟩ := Option.map_eq_some_iff.mp he
      exact ⟨hes, rfl⟩

/-- A position is filled if something is read there. -/
private theorem isSome_of_given? {chains : List (Option (ExprTree .chain))}
    {given : List (Option Expr)} (h : given? names scope chains = some given) (i : Nat) :
    chains[i]?.join.isSome = given[i]?.join.isSome := by
  induction i generalizing chains given with
  | zero =>
    rw [← List.head?_eq_getElem?, ← List.head?_eq_getElem?]
    exact (given?_tail h).2
  | succ i ih =>
    rw [← List.getElem?_tail, ← List.getElem?_tail]
    exact ih (given?_tail h).1

end ExprTree

/-! ### Parsing a call -/

section Calls

variable {names : Names} {scope : Scope} {rest : List Token} {l n ordinal : Nat}
  {t : ExprTree .operand} {name : Name} {chains : List (Option (ExprTree .chain))}
  {given : List (Option Expr)}

/-- A call with parentheses has the positions between them. A single one that is empty is none. -/
private theorem call?_call {opening : Punct .leftParen} {first : ExprTree .position}
    {others : ExprTree .positions} {closing : Punct .rightParen} {name' : Name}
    (h : (ExprTree.call name' opening first others closing).call? = some (name, chains)) :
    name' = name ∧ chains = first.slot :: others.slots ∧
      (first = .vacant → others ≠ .noPosition) := by
  rw [ExprTree.call?] at h
  split at h
  · cases h
  · rename_i hne
    cases h
    refine ⟨rfl, rfl, ?_⟩
    rintro rfl rfl
    exact hne rfl rfl

/-- The positions of a call are read as what stands there. -/
private theorem positions_of_call? (hcall : t.call? = some (name, chains))
    (hgiven : ExprTree.given? names scope chains = some given) (hdepth : t.yield.length ≤ n + 1)
    (hrest : t = .bareCall name → Lacks (Kind.mark? .leftParen) rest) :
    ∃ tokens, t.yield = name.token :: tokens ∧
      positions (operand scope n) ⟨tokens ++ rest, l, names⟩ = .ok given ⟨rest, l, names⟩ := by
  have hnone : chains = [] → given = [] := by
    rintro rfl
    simpa [ExprTree.given?, eq_comm] using hgiven
  cases t with
  | bareCall name' =>
    cases hcall
    obtain rfl := hnone rfl
    exact ⟨[], rfl, positions_absent (hrest rfl)⟩
  | emptyCall name' opening closing =>
    cases hcall
    obtain rfl := hnone rfl
    exact ⟨[opening.token, closing.token], rfl, positions_empty opening closing⟩
  | call name' opening first others closing =>
    obtain ⟨rfl, rfl, hfilled⟩ := call?_call hcall
    obtain ⟨f, fs, hf, hfs, rfl⟩ := ExprTree.given?_cons_eq_some.mp hgiven
    rw [← ExprTree.reading_slot] at hf
    rw [← ExprTree.reading_slots] at hfs
    simp only [ExprTree.yield, List.length_append, List.length_cons, List.length_nil] at hdepth
    have hclosing : ExprSort.positions.Stops (closing.token :: rest) :=
      Heads.of_cons (by rw [closing.kind_mark]; rfl)
    have hfirst := first.parses (l := l) (n := n) hf (by omega)
      (ExprTree.stops_positions (t := others) hclosing)
    have hothers := others.parses (l := l) (n := n) hfs (by omega) hclosing
    refine ⟨opening.token :: first.yield ++ others.yield ++ [closing.token], rfl, ?_⟩
    simp only [List.cons_append, List.append_assoc, List.nil_append]
    exact positions_complete opening closing (ExprTree.lacks_rightParen hfilled closing rest)
      hfirst hothers
  | _ => cases hcall

/-- What a call comes to when its arguments have been looked for. -/
def called (name : Name) (ordinal : Nat) (s : Cursor) :
    Except SyntaxCause (List Expr) → EStateM.Result ParseFailure Cursor Expr
  | .ok es => .ok (.call ordinal name.lexeme es name.token.line) s
  | .error cause => .error (name.token.blame cause) s

/-- A call is answered if its arguments are arranged, and is the call of them. -/
private theorem called_eq_ok {s : Cursor} {r : Except SyntaxCause (List Expr)} {e : Expr} :
    called name ordinal s r = .ok e s ↔
      ∃ es, r = .ok es ∧ e = .call ordinal name.lexeme es name.token.line := by
  cases r with
  | ok es => simp [called, eq_comm]
  | error cause => simp [called]

/-- A call is read up to its name and positions, and the rest is a matter of arranging them. -/
private theorem operand_of_call? {p : Signature} (hcall : t.call? = some (name, chains))
    (hgiven : ExprTree.given? names scope chains = some given)
    (hordinal : names.procedure? name.value = some ordinal)
    (hp : names.procedures[ordinal]? = some p) (hdepth : t.yield.length ≤ n)
    (hrest : t = .bareCall name → Lacks (Kind.mark? .leftParen) rest) :
    operand scope n ⟨t.yield ++ rest, l, names⟩ =
      called name ordinal ⟨rest, l, names⟩ (arguments p.parameters given) := by
  obtain _ | n := n
  · exact absurd (t.heads_operand.length_pos) (by omega)
  · obtain ⟨tokens, hyield, hpositions⟩ :=
      positions_of_call? (l := l) hcall hgiven hdepth hrest
    rw [hyield, List.cons_append]
    change operandFrom scope (operand scope n) name.token _ = _
    rw [operandFrom_call hordinal, call, bind_of_ok (ident_name name), bind_of_ok hpositions,
      names_bind]
    simp only [hp]
    cases arguments p.parameters given with
    | ok es => rfl
    | error cause => rfl

end Calls

/-! ### Which calls are accepted -/

/-- The parameter with the given number gets an argument: one is given, or it has a default. -/
def Provided {α : Type} (given : List (Option α)) (i : Nat) (q : Parameter) : Prop :=
  given[i]?.join.isSome ∨ q.default.isSome

section Arity

variable {parameters : List Parameter} {given : List (Option Expr)}

/-- The first parameter is provided for by the first position or by a default. -/
private theorem provided_zero {α : Type} {given : List (Option α)} {q : Parameter} :
    Provided given 0 q ↔ given.head?.join.isSome ∨ q.default.isSome := by
  rw [Provided, List.head?_eq_getElem?]

/-- The other parameters are provided for by the other positions. -/
private theorem provided_tail {α : Type} {given : List (Option α)} {i : Nat} {q : Parameter} :
    Provided given.tail i q ↔ Provided given (i + 1) q := by
  rw [Provided, Provided, List.getElem?_tail]

/-- Arguments are found for all parameters if each is given one or has a default. -/
private theorem exists_arrange_iff :
    (∃ es, arrange parameters given = .ok es) ↔
      ∀ (i : Nat) (q : Parameter), parameters[i]? = some q → Provided given i q := by
  induction parameters generalizing given with
  | nil => simp [arrange]
  | cons p parameters ih =>
    have hfirst : (∃ e, (given.head?.join <|> p.default.map Expr.literal) = some e) ↔
        given.head?.join.isSome ∨ p.default.isSome := by
      cases given.head?.join <;> cases p.default <;> simp
    constructor
    · rintro ⟨es, hes⟩ i q hq
      obtain ⟨e, others, he, hothers, -⟩ := arrange_cons_eq_ok.mp hes
      cases i with
      | zero =>
        obtain rfl := Option.some.inj hq
        exact provided_zero.mpr (hfirst.mp ⟨e, he⟩)
      | succ i => exact provided_tail.mp (ih.mp ⟨others, hothers⟩ i q hq)
    · intro h
      obtain ⟨e, he⟩ := hfirst.mpr (provided_zero.mp (h 0 p rfl))
      obtain ⟨others, hothers⟩ := ih.mpr fun i q hq => provided_tail.mpr (h (i + 1) q hq)
      exact ⟨e :: others, arrange_cons_eq_ok.mpr ⟨e, others, he, hothers, rfl⟩⟩

/-- The first parameter that is given nothing and has no default is missing an argument. -/
theorem arrange_missing {i : Nat} {q : Parameter} (hq : parameters[i]? = some q)
    (hmissing : ¬ Provided given i q)
    (hearlier : ∀ j < i, ∀ q' : Parameter, parameters[j]? = some q' → Provided given j q') :
    arrange parameters given = .error (.missingArgument q.name) := by
  induction parameters generalizing given i with
  | nil => cases hq
  | cons p parameters ih =>
    cases i with
    | zero =>
      obtain rfl := Option.some.inj hq
      obtain ⟨hvacant, hdefault⟩ := not_or.mp (mt provided_zero.mpr hmissing)
      have hnone : p.default = none := by simpa using hdefault
      rcases given with _ | ⟨_ | e, given⟩
      · simp only [arrange, hnone]
      · simp only [arrange, hnone]
      · exact absurd rfl hvacant
    | succ i =>
      have hothers : arrange parameters given.tail = .error (.missingArgument q.name) :=
        ih hq (mt provided_tail.mp hmissing) fun j hj q' hq' =>
          provided_tail.mpr (hearlier (j + 1) (Nat.succ_lt_succ hj) q' hq')
      have hfirst := provided_zero.mp (hearlier 0 (Nat.succ_pos i) p rfl)
      rcases given with _ | ⟨_ | e, given⟩
      · obtain ⟨v, hv⟩ := Option.isSome_iff_exists.mp (hfirst.resolve_left Bool.false_ne_true)
        simp only [arrange, hv, hothers]
        rfl
      · obtain ⟨v, hv⟩ := Option.isSome_iff_exists.mp (hfirst.resolve_left Bool.false_ne_true)
        simp only [arrange, hv, hothers]
        rfl
      · rw [List.tail_cons] at hothers
        rw [arrange, hothers]
        rfl

/-- Arguments are accepted if there are no more of them than parameters and they can be arranged. -/
private theorem arguments_eq_ok {es : List Expr} :
    arguments parameters given = .ok es ↔
      given.length ≤ parameters.length ∧ arrange parameters given = .ok es := by
  rw [arguments]
  split
  · rename_i hlength
    simp [Nat.not_le.mpr hlength]
  · rename_i hlength
    simp [Nat.not_lt.mp hlength]

/-- Arguments are accepted if there are no more of them than parameters and every parameter is
provided for. -/
theorem exists_arguments_iff :
    (∃ es, arguments parameters given = .ok es) ↔ given.length ≤ parameters.length ∧
      ∀ (i : Nat) (q : Parameter), parameters[i]? = some q → Provided given i q := by
  simp only [arguments_eq_ok, exists_and_left, exists_arrange_iff]

end Arity

/-! ### Defaults written out -/

private theorem literal?_of_number? {k : Kind} {v : Value} (h : k.number? = some v) :
    k.literal? = some v := by
  cases k with
  | int n | float x => exact h
  | _ => cases h

namespace LiteralTree

/-- A literal as an argument. What is a part of the literal of a default is an operation there. -/
def chain : LiteralTree → ExprTree .chain
  | plain value => .chain (.literal value) .noLink
  | negated minus number =>
    .chain (.negate minus (.literal ⟨number.token, number.value, literal?_of_number? number.fits⟩))
      .noLink

/-- An argument is written with the tokens of the literal. -/
private theorem yield_chain (d : LiteralTree) : d.chain.yield = d.yield := by
  cases d <;> rfl

/-- A literal that is written as an argument evaluates to its value, and does nothing else. -/
private theorem evaluate_chain {d : LiteralTree} {v : Value} (hd : d.reading = some v)
    (names : Names) (scope : Scope) : ∃ e, d.chain.reading names scope = some e ∧
      ∀ body, evaluate body e = evaluate body (.literal v) := by
  cases d with
  | plain value =>
    obtain rfl := Option.some.inj hd
    exact ⟨.literal value.value, rfl, fun _ => rfl⟩
  | negated minus number =>
    refine ⟨.negate (.literal number.value) minus.token.line, rfl, fun body => ?_⟩
    have hvalue : number.value.negate? = some v := hd
    rw [evaluate, evaluate, evaluate, pure_bind, negation, hvalue]

end LiteralTree

/-- Positions of a call with every default written out. A position that is filled stays as it is;
where one is empty or missing there is a literal, made of tokens with the property `P`, that has
the default as its value. -/
inductive WrittenOut (P : Token → Prop) :
    List Parameter → List (Option (ExprTree .chain)) → List (ExprTree .chain) → Prop where
  | nil : WrittenOut P [] [] []
  | given (q : Parameter) (chain : ExprTree .chain) {parameters : List Parameter}
      {chains : List (Option (ExprTree .chain))} {written : List (ExprTree .chain)}
      (hrest : WrittenOut P parameters chains written) :
      WrittenOut P (q :: parameters) (some chain :: chains) (chain :: written)
  | omitted {q : Parameter} {v : Value} {d : LiteralTree} {parameters : List Parameter}
      {chains : List (Option (ExprTree .chain))} {written : List (ExprTree .chain)}
      (hvacant : chains.head?.join = none) (hdefault : q.default = some v)
      (hd : d.reading = some v) (htokens : ∀ t ∈ d.chain.yield, P t)
      (hrest : WrittenOut P parameters chains.tail written) :
      WrittenOut P (q :: parameters) chains (d.chain :: written)

section WrittenOut

variable {P : Token → Prop} {parameters : List Parameter}
  {chains : List (Option (ExprTree .chain))} {written : List (ExprTree .chain)}

/-- A call that is written out has an argument for every parameter. -/
theorem WrittenOut.length_eq (h : WrittenOut P parameters chains written) :
    written.length = parameters.length := by
  induction h with
  | nil => rfl
  | given _ _ _ ih | omitted _ _ _ _ _ ih => exact congrArg Nat.succ ih

/-- The defaults of a call that is accepted can be written out. -/
theorem exists_writtenOut (hlength : chains.length ≤ parameters.length)
    (hfilled : ∀ (i : Nat) (q : Parameter), parameters[i]? = some q → Provided chains i q)
    (hdefaults : ∀ q ∈ parameters, DefaultWritten P q) :
    ∃ written, WrittenOut P parameters chains written := by
  induction parameters generalizing chains with
  | nil =>
    obtain rfl := List.length_eq_zero_iff.mp (Nat.le_zero.mp hlength)
    exact ⟨[], .nil⟩
  | cons q parameters ih =>
    obtain ⟨hfirst, hothers⟩ := List.forall_mem_cons.mp hdefaults
    have htail : chains.tail.length ≤ parameters.length := by
      rw [List.length_tail]
      exact Nat.sub_le_of_le_add hlength
    obtain ⟨written, hwritten⟩ :=
      ih htail (fun i q hq => provided_tail.mpr (hfilled (i + 1) q hq)) hothers
    have hhead := provided_zero.mp (hfilled 0 q rfl)
    cases hchain : chains.head?.join with
    | some chain =>
      obtain ⟨rest, rfl⟩ : ∃ rest, chains = some chain :: rest := by
        rcases chains with _ | ⟨_ | c, rest⟩ <;> cases hchain
        exact ⟨rest, rfl⟩
      exact ⟨chain :: written, .given q chain hwritten⟩
    | none =>
      rw [hchain] at hhead
      obtain ⟨v, hv⟩ := Option.isSome_iff_exists.mp (hhead.resolve_left (by simp))
      obtain ⟨d, hd, htokens⟩ := hfirst v hv
      rw [← d.yield_chain] at htokens
      exact ⟨d.chain :: written, .omitted hchain hv hd htokens hwritten⟩

/-- Arguments with defaults written out are arranged as the others are, and evaluate as they do. -/
private theorem arrange_writtenOut {names : Names} {scope : Scope}
    (h : WrittenOut P parameters chains written) {given : List (Option Expr)} {es : List Expr}
    (hgiven : ExprTree.given? names scope chains = some given)
    (hes : arrange parameters given = .ok es) :
    ∃ given' es', ExprTree.given? names scope (written.map some) = some given' ∧
      arrange parameters given' = .ok es' ∧
      ∀ body types, evaluateArguments body types es = evaluateArguments body types es' := by
  induction h generalizing given es with
  | nil => exact ⟨given, es, hgiven, hes, fun _ _ => rfl⟩
  | given q chain _ ih =>
    obtain ⟨f, fs, hf, hfs, rfl⟩ := ExprTree.given?_cons_eq_some.mp hgiven
    obtain ⟨e, rest, he, hrest, rfl⟩ := arrange_cons_eq_ok.mp hes
    obtain ⟨given', es', hgiven', hes', hsame⟩ := ih hfs hrest
    refine ⟨f :: given', e :: es',
      ExprTree.given?_cons_eq_some.mpr ⟨f, given', hf, hgiven', rfl⟩,
      arrange_cons_eq_ok.mpr ⟨e, es', he, hes', rfl⟩, fun body types => ?_⟩
    cases types with
    | nil => rfl
    | cons type types => rw [evaluateArguments, evaluateArguments, hsame]
  | @omitted q v d _ chains _ hvacant hdefault hd _ _ ih =>
    obtain ⟨e, rest, he, hrest, rfl⟩ := arrange_cons_eq_ok.mp hes
    obtain ⟨htail, hhead⟩ := ExprTree.given?_tail hgiven
    obtain ⟨given', es', hgiven', hes', hsame⟩ := ih htail hrest
    -- nothing is given for this parameter, so that its argument is the default
    have hnone : given.head?.join = none := by
      rw [← Option.not_isSome_iff_eq_none, ← hhead, hvacant]
      exact Bool.false_ne_true
    obtain rfl : .literal v = e := by simpa [hnone, hdefault] using he
    obtain ⟨e', hread, hevaluate⟩ := LiteralTree.evaluate_chain hd names scope
    refine ⟨some e' :: given', e' :: es',
      ExprTree.given?_cons_eq_some.mpr ⟨some e', given', by simp [readOption, hread], hgiven', rfl⟩,
      arrange_cons_eq_ok.mpr ⟨e', es', rfl, hes', rfl⟩, fun body types => ?_⟩
    cases types with
    | nil => rfl
    | cons type types => rw [evaluateArguments, evaluateArguments, hsame, hevaluate]

/-- There are never too many arguments with all defaults written out. -/
theorem arguments_writtenOut {names : Names} {scope : Scope}
    (h : WrittenOut P parameters chains written) {given : List (Option Expr)} {es : List Expr}
    (hgiven : ExprTree.given? names scope chains = some given)
    (hes : arguments parameters given = .ok es) :
    ∃ given' es', ExprTree.given? names scope (written.map some) = some given' ∧
      arguments parameters given' = .ok es' ∧
      ∀ body types, evaluateArguments body types es = evaluateArguments body types es' := by
  obtain ⟨given', es', hgiven', hes', hsame⟩ :=
    arrange_writtenOut h hgiven (arguments_eq_ok.mp hes).2
  have hlength : given'.length = parameters.length := by
    rw [length_of_mapM hgiven', List.length_map, h.length_eq]
  exact ⟨given', es', hgiven', arguments_eq_ok.mpr ⟨hlength.le, hes'⟩, hsame⟩

end WrittenOut

/-! ### A call with all positions filled -/

/-- The token of a mark that is written behind a line. -/
def Punct.of (m : Mark) (symbol : String) (line : Nat) : Punct m :=
  ⟨⟨.mark m, symbol, line⟩, (), if_pos rfl⟩

/-- Filled positions behind commas. -/
def filledPositions (line : Nat) : List (ExprTree .chain) → ExprTree .positions
  | [] => .noPosition
  | chain :: rest =>
    .position (Punct.of .comma "," line) (.filled chain) (filledPositions line rest)

/-- A call with the given arguments, all on the line of its name. -/
def filledCall (name : Name) : List (ExprTree .chain) → ExprTree .operand
  | [] =>
    .emptyCall name (Punct.of .leftParen "(" name.token.line)
      (Punct.of .rightParen ")" name.token.line)
  | first :: rest =>
    .call name (Punct.of .leftParen "(" name.token.line) (.filled first)
      (filledPositions name.token.line rest) (Punct.of .rightParen ")" name.token.line)

/-- The positions of a call that is written out are all filled. -/
private theorem slots_filledPositions (line : Nat) (chains : List (ExprTree .chain)) :
    (filledPositions line chains).slots = chains.map some := by
  induction chains with
  | nil => rfl
  | cons chain rest ih => rw [filledPositions, ExprTree.slots, ih]; rfl

/-- A call that is written out is a call of the same procedure, with all positions filled. -/
private theorem call?_filledCall (name : Name) (chains : List (ExprTree .chain)) :
    (filledCall name chains).call? = some (name, chains.map some) := by
  cases chains with
  | nil => rfl
  | cons first rest =>
    rw [filledCall, ExprTree.call?, slots_filledPositions]
    rfl

/-! ### The call -/

/-- It makes no difference whether what is written at the positions is looked at or what is read. -/
private theorem provided_given? {names : Names} {scope : Scope}
    {chains : List (Option (ExprTree .chain))}
    {given : List (Option Expr)} (h : ExprTree.given? names scope chains = some given) {i : Nat}
    {q : Parameter} : Provided given i q ↔ Provided chains i q := by
  rw [Provided, Provided, ExprTree.isSome_of_given? h]

/-- A call whose arguments can be read is accepted if and only if it has no more positions than the
procedure has parameters, and each parameter is given an argument or has a default. Otherwise the
failure is at the name of the procedure: it tells both numbers if there are too many positions, or
else the first parameter that gets nothing.

The omitted arguments of a call that is accepted can be written out, as the tokens of some literal
in the texts that were parsed if the defaults in the tables are; and with any such literals, the
call with all positions filled is accepted too and is the same computation. -/
theorem omitted_arguments {P : Token → Prop} {names : Names} {scope : Scope} {n l ordinal : Nat}
    {rest : List Token} {t : ExprTree .operand} {name : Name}
    {chains : List (Option (ExprTree .chain))} {given : List (Option Expr)}
    (hcall : t.call? = some (name, chains))
    (hgiven : ExprTree.given? names scope chains = some given)
    (hordinal : names.procedure? name.value = some ordinal) (hdepth : t.yield.length ≤ n)
    (hrest : t = .bareCall name → Lacks (Kind.mark? .leftParen) rest) :
    ∃ p, names.procedures[ordinal]? = some p ∧ p.name = name.value ∧
      ((∃ e, operand scope n ⟨t.yield ++ rest, l, names⟩ = .ok e ⟨rest, l, names⟩) ↔
        chains.length ≤ p.parameters.length ∧
          ∀ (i : Nat) (q : Parameter), p.parameters[i]? = some q → Provided chains i q) ∧
      (p.parameters.length < chains.length →
        operand scope n ⟨t.yield ++ rest, l, names⟩ =
          .error (name.token.blame (.arity p.parameters.length chains.length)) ⟨rest, l, names⟩) ∧
      (∀ (i : Nat) (q : Parameter), chains.length ≤ p.parameters.length →
        p.parameters[i]? = some q → ¬ Provided chains i q →
        (∀ j < i, ∀ q' : Parameter, p.parameters[j]? = some q' → Provided chains j q') →
        operand scope n ⟨t.yield ++ rest, l, names⟩ =
          .error (name.token.blame (.missingArgument q.name)) ⟨rest, l, names⟩) ∧
      (∀ e, operand scope n ⟨t.yield ++ rest, l, names⟩ = .ok e ⟨rest, l, names⟩ →
        (DefaultsWritten P names → ∃ (written : List (ExprTree .chain)) (t' : ExprTree .operand),
          WrittenOut P p.parameters chains written ∧
            t'.call? = some (name, written.map some)) ∧
        ∀ (written : List (ExprTree .chain)) (t' : ExprTree .operand) (n' l' : Nat)
          (rest' : List Token), WrittenOut P p.parameters chains written →
          t'.call? = some (name, written.map some) → t'.yield.length ≤ n' →
          (t' = .bareCall name → Lacks (Kind.mark? .leftParen) rest') →
          ∃ e', operand scope n' ⟨t'.yield ++ rest', l', names⟩ = .ok e' ⟨rest', l', names⟩ ∧
            ∀ body, evaluate body e = evaluate body e') ∧
      DefaultsWritten P Names.empty ∧
      ∀ (earlier later : Names) (stream : Stream) (outcome : Except ParseFailure (List Stmt)),
        (∀ token ∈ stream.tokens, P token) → DefaultsWritten P earlier →
        parse earlier stream = (outcome, later) → DefaultsWritten P later := by
  obtain ⟨p, hp, hname⟩ := Names.signature_of_procedure? hordinal
  have hparsed := operand_of_call? (l := l) hcall hgiven hordinal hp hdepth hrest
  have hlength : given.length = chains.length := length_of_mapM hgiven
  have haccepted : (∃ e, operand scope n ⟨t.yield ++ rest, l, names⟩ = .ok e ⟨rest, l, names⟩) ↔
      chains.length ≤ p.parameters.length ∧
        ∀ (i : Nat) (q : Parameter), p.parameters[i]? = some q → Provided chains i q := by
    simp only [← provided_given? hgiven, ← hlength]
    rw [← exists_arguments_iff, hparsed]
    simp only [called_eq_ok]
    exact ⟨fun ⟨_, es, hes, _⟩ => ⟨es, hes⟩, fun ⟨es, hes⟩ => ⟨_, es, hes, rfl⟩⟩
  refine ⟨p, hp, hname, haccepted, fun hexcess => ?_, fun i q hfits hq hmissing hearlier => ?_,
    fun e he => ⟨fun hdefaults => ?_, fun written t' n' l' rest' hwritten hcall' hdepth' hrest' =>
      ?_⟩, defaultsWritten_empty, fun earlier later stream outcome htokens hearlier hparse =>
      (parse_adds hparse).defaultsWritten htokens hearlier⟩
  · rw [hparsed, arguments, hlength, if_pos hexcess]
    rfl
  · have harranged := arrange_missing hq (mt (provided_given? hgiven).mp hmissing)
      fun j hj q' hq' => (provided_given? hgiven).mpr (hearlier j hj q' hq')
    rw [hparsed, arguments, hlength, if_neg (Nat.not_lt.mpr hfits), harranged]
    rfl
  · obtain ⟨hfits, hprovided⟩ := haccepted.mp ⟨e, he⟩
    obtain ⟨written, hwritten⟩ :=
      exists_writtenOut hfits hprovided (hdefaults p (List.mem_of_getElem? hp))
    exact ⟨written, filledCall name written, hwritten, call?_filledCall name written⟩
  · rw [hparsed] at he
    obtain ⟨es, hes, rfl⟩ := called_eq_ok.mp he
    obtain ⟨given', es', hgiven', hes', hsame⟩ := arguments_writtenOut hwritten hgiven hes
    refine ⟨.call ordinal name.lexeme es' name.token.line, ?_, fun body => ?_⟩
    · rw [operand_of_call? hcall' hgiven' hordinal hp hdepth' hrest']
      exact called_eq_ok.mpr ⟨es', hes', rfl⟩
    · rw [evaluate, evaluate]
      simp only [hsame]

/-- Tables with the procedure `I64 F(I64 a, I64 b = -4, Bool c = TRUE)`. -/
def defaultedNames : Names :=
  ⟨[], [⟨"F", .i64,
    [⟨"a", .i64, none⟩, ⟨"b", .i64, some (.int (-4))⟩, ⟨"c", .bool, some (.int 1)⟩], []⟩], []⟩

/-- The call `F(1,)`, behind which `c` has no position, is the same as `F(1,-4,TRUE)`. -/
theorem omitted_arguments_trailing :
    let name : Name := ⟨⟨.ident "F", "F", 1⟩, "F", rfl⟩
    let one : ExprTree .chain := .chain (.literal ⟨⟨.int 1, "1", 1⟩, .int 1, rfl⟩) .noLink
    let call : ExprTree .operand :=
      .call name (Punct.of .leftParen "(" 1) (.filled one)
        (.position (Punct.of .comma "," 1) .vacant .noPosition) (Punct.of .rightParen ")" 1)
    let four : LiteralTree := .negated (Punct.of .minus "-" 1) ⟨⟨.int 4, "4", 1⟩, .int 4, rfl⟩
    let yes : LiteralTree := .plain ⟨⟨.keyword .yes, "TRUE", 1⟩, .int 1, rfl⟩
    let filled : ExprTree .operand := filledCall name [one, four.chain, yes.chain]
    let s : Cursor := ⟨[⟨.mark .semicolon, ";", 1⟩], 1, defaultedNames⟩
    ∃ e e', operand .top 5 ⟨call.yield ++ s.rest, 1, defaultedNames⟩ = .ok e s ∧
      operand .top 9 ⟨filled.yield ++ s.rest, 1, defaultedNames⟩ = .ok e' s ∧
      ∀ body, evaluate body e = evaluate body e' := by
  intro name one call four yes filled s
  have hcall : call.call? = some (name, [some one, none]) := rfl
  have hgiven : ExprTree.given? defaultedNames .top [some one, none] =
      some [some (.literal (.int 1)), none] := rfl
  have hordinal : defaultedNames.procedure? name.value = some 0 := rfl
  have hrest : call = .bareCall name → Lacks (Kind.mark? .leftParen) s.rest := fun h => nomatch h
  obtain ⟨p, hp, -, haccepted, -, -, hsame, -⟩ :=
    omitted_arguments (P := fun t => t.line = 1) (n := 5) (l := 1) hcall hgiven hordinal
      (by decide) hrest
  obtain rfl := Option.some.inj hp
  obtain ⟨e, he⟩ := haccepted.mpr ⟨by decide, fun i q hq => by
    rcases i with _ | _ | _ | i
    · exact .inl rfl
    · obtain rfl := Option.some.inj hq
      exact .inr rfl
    · obtain rfl := Option.some.inj hq
      exact .inr rfl
    · cases hq⟩
  obtain ⟨e', he', hevaluate⟩ := (hsame e he).2 [one, four.chain, yes.chain] filled 9 1 s.rest
    (.given _ one (.omitted rfl rfl rfl (by decide) (.omitted rfl rfl rfl (by decide) .nil)))
    rfl (by decide) (fun h => nomatch h)
  exact ⟨e, e', he, he', hevaluate⟩

end Grammar

end Litany
