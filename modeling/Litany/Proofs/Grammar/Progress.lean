import Mathlib.Logic.Function.Iterate
import Litany.Proofs.Grammar.Locality.Productions
import Litany.Proofs.Grammar.Soundness.Program

/-!
# Parsing ends

The productions call each other and themselves without a bound of their own: a block has as many
statements as there are in front of its closing brace, and parentheses may be nested as they like.
The bounds on repetition and on nesting in the parsers are there to make them functions; that no
bound is ever met is shown here. A production calls itself only behind a token it has taken
(`Guarded`), so it can do so no more often than there are tokens left. Unfolding the calls once for
each of these tokens, and once more, gives its outcome, whatever stands for the calls beyond
(`Settles`).

The cursor meanwhile stands in front of a token of the text or in front of its end, and it never
goes back but once: a place at the beginning of a statement is read again if no assignment follows.
-/

namespace Litany

/-! ### Positions in a text -/

namespace Cursor

variable {text : Stream} {s s' : Cursor} {i : Nat}

/-- The cursor stands in front of the token with the given index. The end of the text stands behind
the last token. -/
structure StandsAt (text : Stream) (i : Nat) (s : Cursor) : Prop where
  bound : i ≤ text.tokens.length
  rest : s.rest = text.tokens.drop i
  endLine : s.endLine = text.endLine

/-- A cursor in front of some token of a text stands in the text. -/
theorem StandsAt.on (h : s.StandsAt text i) : s.On text :=
  ⟨h.rest ▸ List.drop_suffix i text.tokens, h.endLine⟩

/-- Reading tokens raises the index by their number. -/
theorem StandsAt.past (h : s.StandsAt text i) {tokens : List Token} (hpast : s.Past tokens s') :
    s'.StandsAt text (i + tokens.length) := by
  have hrest : text.tokens.drop i = tokens ++ s'.rest := h.rest.symm.trans hpast.1
  have hlength := congrArg List.length hrest
  rw [List.length_drop, List.length_append] at hlength
  have hbound := h.bound
  refine ⟨by omega, ?_, hpast.2.trans h.endLine⟩
  rw [← List.drop_drop, hrest, List.drop_left]

/-- The index does not fall while the cursor moves on. -/
theorem StandsAt.onward (h : s.StandsAt text i) (hmoves : s.Onward s') :
    ∃ j, i ≤ j ∧ s'.StandsAt text j := by
  obtain ⟨tokens, hpast⟩ := hmoves
  exact ⟨i + tokens.length, Nat.le_add_right i _, h.past hpast⟩

/-- The second cursor stands at least one token behind the first one. -/
def Beyond (s s' : Cursor) : Prop :=
  ∃ t tokens, s.Past (t :: tokens) s'

/-- The index rises when a token is taken. -/
private theorem StandsAt.beyond (h : s.StandsAt text i) (hmoves : s.Beyond s') :
    ∃ j, i < j ∧ s'.StandsAt text j := by
  obtain ⟨t, tokens, hpast⟩ := hmoves
  exact ⟨i + (t :: tokens).length, Nat.lt_add_of_pos_right (Nat.succ_pos _), h.past hpast⟩

/-- What has been taken stays so while the cursor moves on. -/
theorem Beyond.onward {s₁ : Cursor} (h : s.Beyond s₁) (h' : s₁.Onward s') : s.Beyond s' := by
  obtain ⟨t, ts, h⟩ := h
  obtain ⟨us, h'⟩ := h'
  exact ⟨t, ts ++ us, h.trans h'⟩

/-- What takes a positive number of tokens takes one. -/
private theorem beyond_of_length_pos {tokens : List Token} (h : s.Past tokens s')
    (hpos : 0 < tokens.length) : s.Beyond s' := by
  obtain ⟨t, rest, rfl⟩ := List.exists_cons_of_length_pos hpos
  exact ⟨t, rest, h⟩

end Cursor

namespace Parse

/-! ### Recursions -/

section Recursions

variable {ι α σ : Type}

/-- A family of parsers that call each other does so only behind a token. -/
def Guarded (F : (ι → Parse α) → ι → Parse α) : Prop :=
  ∀ {text : Stream} {tokens : List Token} {x y : ι → Parse α},
    (∀ t rest, t :: rest <:+ tokens → ∀ i, Alike text rest (x i) (y i)) →
      ∀ i, Alike text tokens (F x i) (F y i)

/-- A family of parsers solves a recursion, and each of its outcomes is settled when the recursion
has been unfolded once for each token left and once more, whatever the calls beyond would do. -/
structure Settles (F : (ι → Parse α) → ι → Parse α) (x : ι → Parse α) : Prop where
  solves : F x = x
  settled : ∀ (y : ι → Parse α) (i : ι) (s : Cursor), F^[s.rest.length + 1] y i s = x i s

variable {F : (ι → Parse α) → ι → Parse α}

/-- Calls beyond the number of tokens are never made. -/
theorem Guarded.alike_iterate (hF : Guarded F) {text : Stream} {tokens : List Token} {n m : Nat}
    (hn : tokens.length < n) (hm : tokens.length < m) (x y : ι → Parse α) (i : ι) :
    Alike text tokens (F^[n] x i) (F^[m] y i) := by
  induction n generalizing tokens m i with
  | zero => omega
  | succ n ih =>
    cases m with
    | zero => omega
    | succ m =>
      rw [Function.iterate_succ_apply', Function.iterate_succ_apply']
      refine hF (fun t rest hrest j => ?_) i
      have hlength := hrest.length_le
      rw [List.length_cons] at hlength
      exact ih (by omega) (by omega) j

/-- Of a guarded recursion it is enough to know that its solution is unfolded from anything. -/
private theorem Guarded.settles (hF : Guarded F) (start : ι → Parse α) {x : ι → Parse α}
    (hx : ∀ i s, x i s = F^[s.rest.length + 1] start i s) : Settles F x := by
  have hsettled : ∀ (y : ι → Parse α) (i : ι) (s : Cursor),
      F^[s.rest.length + 1] y i s = x i s := by
    intro y i s
    have henough := Nat.lt_succ_self s.rest.length
    exact (hF.alike_iterate henough henough y start i).eq.trans (hx i s).symm
  refine ⟨funext fun i => funext fun s => ?_, hsettled⟩
  -- one unfolding less is enough behind the first token
  have hcalls : ∀ t rest, t :: rest <:+ s.rest → ∀ j,
      Alike ⟨s.rest, s.endLine⟩ rest (x j) (F^[s.rest.length] start j) := by
    intro t rest hrest j s' hs' hrest'
    have hlength := hrest.length_le
    have hlength' := hrest'.length_le
    rw [List.length_cons] at hlength
    have henough : s'.rest.length < s.rest.length := by omega
    exact ((hF.alike_iterate (Nat.lt_succ_self s'.rest.length) henough start start j).here
      hs').congr (hx j s') rfl
  have hunfolded := (hF hcalls i).eq
  rw [← Function.iterate_succ_apply' F] at hunfolded
  exact hunfolded.trans (hx i s).symm

/-! ### Repetition as recursion -/

/-- An item in front of the later ones. -/
def repeating (item : Parse (Option α)) (later : Unit → Parse (List α)) (_ : Unit) :
    Parse (List α) := do
  match ← item with
  | none => return []
  | some a => return a :: (← later ())

/-- A step in front of the later ones. -/
def folding (step : σ → Parse (Option σ)) (later : σ → Parse σ) (a : σ) : Parse σ := do
  match ← step a with
  | none => return a
  | some b => later b

/-- Collecting items with a bound is unfolding the recursion as many times. -/
private theorem upTo_eq (item : Parse (Option α)) (n : Nat) :
    upTo item n = (repeating item)^[n] (fun _ => pure []) () := by
  induction n with
  | zero => rfl
  | succ n ih =>
    rw [Function.iterate_succ_apply', upTo, ih]
    rfl

/-- A loop with a bound is its recursion unfolded as many times. -/
private theorem iterate_eq (step : σ → Parse (Option σ)) (n : Nat) :
    iterate step n = (folding step)^[n] pure := by
  induction n with
  | zero => rfl
  | succ n ih =>
    rw [Function.iterate_succ_apply', ← ih]
    rfl

/-- An item that is found takes a token. -/
def Takes (item : Parse (Option α)) : Prop :=
  ∀ (s s' : Cursor) (a : α), item s = .ok (some a) s' → s.Beyond s'

variable {item : Parse (Option α)} {step : σ → Parse (Option σ)}

/-- Items that take a token each are collected up to the last, whatever the bound. -/
private theorem settles_many (hitem : ∀ {text tokens}, Alike text tokens item item)
    (htakes : Takes item) : Settles (repeating item) fun _ => many item := by
  have hguarded : Guarded (repeating item) := by
    intro text tokens x y hcalls _ s hs hrest
    refine AlikeAt.bind (hitem s hs hrest) fun found s' hfound hmoves => ?_
    cases found with
    | none => exact alike_pure [] s' (hs.onward hmoves) (hmoves.suffix.trans hrest)
    | some a =>
      obtain ⟨t, taken, hpast⟩ := htakes s s' a hfound
      exact alikeAt_of_past hs hrest hpast fun rest hfront _ =>
        (hcalls t rest hfront ()).bind fun _ => alike_pure _
  refine hguarded.settles (fun _ => pure []) fun _ s => ?_
  rw [many, get_bind, upTo_eq]

/-- A loop whose steps take a token each goes on to its end, whatever the bound. -/
private theorem settles_fold (hstep : ∀ {text tokens} a, Alike text tokens (step a) (step a))
    (htakes : ∀ a, Takes (step a)) : Settles (folding step) (fold step) := by
  have hguarded : Guarded (folding step) := by
    intro text tokens x y hcalls a s hs hrest
    refine AlikeAt.bind (hstep a s hs hrest) fun found s' hfound hmoves => ?_
    cases found with
    | none => exact alike_pure a s' (hs.onward hmoves) (hmoves.suffix.trans hrest)
    | some b =>
      obtain ⟨t, taken, hpast⟩ := htakes a s s' b hfound
      exact alikeAt_of_past hs hrest hpast fun rest hfront _ => hcalls t rest hfront b
  refine hguarded.settles pure fun a s => ?_
  rw [fold, get_bind, iterate_eq]

/-! ### Items that take a token -/

/-- A token that is taken is one. -/
private theorem takes_take? (f : Kind → Option α) : Takes (take? f) := by
  intro s s' a h
  obtain ⟨leaf, -, hpast, -⟩ := take?_eq_some h
  exact ⟨leaf.token, [], hpast⟩

/-- A mark in front takes a token, whatever stands behind it. -/
private theorem takes_behind (m : Mark) {x : Parse α}
    (hx : ∀ {text tokens}, Alike text tokens x x) : Takes (behind m x) := by
  intro s s' a h
  obtain ⟨mark, s₁, hpast, -, hitem⟩ := behind_eq_some h
  have hmoves := (hx.here (.self s₁)).ends.of_ok hitem
  exact Cursor.Beyond.onward ⟨mark.token, [], hpast⟩ hmoves

/-- What is read unless a mark is next takes a token if it does so without the mark. -/
private theorem takes_unlessAt (m : Mark) {x : Parse α}
    (hx : ∀ {s s' : Cursor} {a : α}, x s = .ok a s' → s.Beyond s') : Takes (unlessAt m x) :=
  fun _ _ _ h => hx (unlessAt_eq_some h)

/-- An item that begins with one takes the token of that one. -/
theorem Takes.bind {β : Type} {x : Parse (Option α)} {f : Option α → Parse (Option β)}
    (hx : Takes x) (hnone : f none = pure none)
    (hsome : ∀ {text tokens} a, Alike text tokens (f (some a)) (f (some a))) :
    Takes (x >>= f) := by
  intro s s' b h
  obtain ⟨found, s₁, hfound, h⟩ := bind_eq_ok.mp h
  cases found with
  | none =>
    rw [hnone] at h
    exact absurd (pure_eq_ok.mp h).1 (by simp)
  | some a =>
    exact (hx _ _ _ hfound).onward (((hsome a).here (.self s₁)).ends.of_ok h)

end Recursions

end Parse

namespace Grammar

open Parse

variable {scope : Scope} {n : Nat} {s s' : Cursor}

/-! ### What takes a token -/

/-- An operand takes a token. -/
private theorem operand_beyond {e : Expr} (h : operand scope n s = .ok e s') : s.Beyond s' := by
  obtain ⟨tree, hpast, -⟩ := operand_sound h
  exact Cursor.beyond_of_length_pos hpast tree.heads_operand.length_pos

/-- A statement takes a token. -/
private theorem statement_beyond {a : Stmt} (h : statement scope n s = .ok a s') : s.Beyond s' := by
  obtain ⟨tree, hpast, -⟩ := statement_sound h
  exact Cursor.beyond_of_length_pos hpast tree.heads_statement.length_pos

/-- An item takes a token. -/
private theorem topLevel_beyond {a : Stmt} (h : topLevel n s = .ok a s') : s.Beyond s' := by
  obtain ⟨tree, hpast, -⟩ := topLevel_sound h
  exact Cursor.beyond_of_length_pos hpast tree.heads.length_pos

/-- The fields of one type take a token. -/
private theorem fieldGroup_beyond {earlier fields : List Field}
    (h : fieldGroup earlier s = .ok fields s') : s.Beyond s' := by
  obtain ⟨tree, more, hpast, -⟩ := fieldGroup_sound h
  exact ⟨tree.type.token, _, hpast⟩

/-- Every item of a program takes a token. -/
private theorem takes_item : Takes (item n) := by
  intro s s' a h
  obtain ⟨hnone, -, -⟩ | ⟨b, -, htop⟩ := item_eq_ok h
  · cases hnone
  · exact topLevel_beyond htop

/-! ### The recursions of the grammar -/

/-- The repetitions that read a list of items. -/
inductive Listed : {α : Type} → Parse (Option α) → Prop where
  | segment : Listed segment
  | link (scope : Scope) (n : Nat) : Listed (link (operand scope n))
  | position (scope : Scope) (n : Nat) : Listed (behind .comma (position (operand scope n)))
  | bang : Listed (take? (Kind.mark? .bang))
  | term (scope : Scope) (n : Nat) : Listed (laterTerm (operand scope n))
  | declarator (scope : Scope) (n : Nat) (type : CellType) :
      Listed (behind .comma (declarator scope (operand scope n) type))
  | argument (scope : Scope) (n : Nat) : Listed (behind .comma (chain (operand scope n)))
  | statement (scope : Scope) (n : Nat) : Listed (unlessAt .rightBrace (statement scope n))
  | item (n : Nat) : Listed (item n)

/-- The repetitions that look at the earlier items. -/
inductive Gathered : {σ : Type} → (σ → Parse (Option σ)) → Prop where
  | parameter : Gathered laterParameter
  | field (type : CellType) : Gathered fun earlier => behind .comma (field type earlier)
  | fieldGroup : Gathered fun earlier => unlessAt .rightBrace (fieldGroup earlier)

/-- An operand, nested as deeply as there are tokens left. -/
def unboundedOperand (scope : Scope) : Parse Expr :=
  fun s => operand scope s.rest.length s

/-- A statement, nested as deeply as there are tokens left. -/
def unboundedStatement (scope : Scope) : Parse Stmt :=
  fun s => statement scope s.rest.length s

/-- Operands, with parsers of those nested in them. -/
def operandCalls (nested : Scope → Parse Expr) (scope : Scope) : Parse Expr :=
  operandOf scope (nested scope)

/-- Statements, with parsers of those nested in them. -/
def statementCalls (nested : Scope → Parse Stmt) (scope : Scope) : Parse Stmt :=
  statementOf scope (unboundedOperand scope) (nested scope)

/-- The calls of the grammar that lead back to the caller, each with the parsers that make them:
operands in operands, statements in statements, and repetitions. -/
inductive Recursion :
    {ι α : Type} → ((ι → Parse α) → ι → Parse α) → (ι → Parse α) → Prop where
  | operands : Recursion operandCalls unboundedOperand
  | statements : Recursion statementCalls unboundedStatement
  | many {α : Type} {item : Parse (Option α)} (h : Listed item) :
      Recursion (repeating item) fun _ => many item
  | fold {σ : Type} {step : σ → Parse (Option σ)} (h : Gathered step) :
      Recursion (folding step) (fold step)

/-- A depth of nesting that covers the tokens left is no bound. -/
theorem operand_eq_unbounded (h : s.rest.length ≤ n) :
    operand scope n s = unboundedOperand scope s := by
  have hdepths : min n s.rest.length = min s.rest.length s.rest.length := by omega
  exact (alike_operand hdepths).eq

/-- A depth of nesting that covers the tokens left is no bound. -/
private theorem statement_eq_unbounded (h : s.rest.length ≤ n) :
    statement scope n s = unboundedStatement scope s := by
  have hdepths : min n s.rest.length = min s.rest.length s.rest.length := by omega
  exact (alike_statement hdepths).eq

/-- Operands up to a depth are the recursion of operands unfolded as many times. -/
private theorem operand_eq_iterate (scope : Scope) (n : Nat) :
    operand scope n = operandCalls^[n] (fun _ => unexpected) scope := by
  induction n with
  | zero => rfl
  | succ n ih => rw [Function.iterate_succ_apply', operand_succ, ih, operandCalls]

/-- Operands nest as deep as they are written. -/
private theorem settles_operands : Settles operandCalls unboundedOperand := by
  have hguarded : Guarded operandCalls := fun hcalls scope =>
    alike_operandOf fun t rest hrest => hcalls t rest hrest scope
  refine hguarded.settles (fun _ => unexpected) fun scope s => ?_
  rw [← operand_eq_iterate]
  exact (operand_eq_unbounded (Nat.le_succ s.rest.length)).symm

/-- Operands up to a depth that covers the tokens left are operands of any depth. -/
private theorem alike_unboundedOperand {text : Stream} {tokens : List Token}
    (h : tokens.length ≤ n) :
    Alike text tokens (operand scope n) (unboundedOperand scope) := fun s hs hrest =>
  (alike_operand rfl s hs hrest).congr rfl
    (operand_eq_unbounded (Nat.le_trans hrest.length_le h)).symm

/-- Statements up to a depth beyond the tokens left are their recursion unfolded as many times. -/
private theorem alike_statementCalls {text : Stream} {tokens : List Token} (h : tokens.length < n) :
    Alike text tokens (statement scope n) (statementCalls^[n] (fun _ => unexpected) scope) := by
  induction n generalizing tokens with
  | zero => omega
  | succ n ih =>
    rw [Function.iterate_succ_apply', statement_succ, statementCalls]
    refine alike_statementOf (alike_unboundedOperand (by omega)) fun t rest hrest => ih ?_
    have hlength := hrest.length_le
    rw [List.length_cons] at hlength
    omega

/-- Statements nest as deep as they are written. -/
private theorem settles_statements : Settles statementCalls unboundedStatement := by
  have hguarded : Guarded statementCalls := fun hcalls scope =>
    alike_statementOf (fun s hs hrest =>
      (alike_operand (n := s.rest.length) rfl s hs hrest).congr rfl rfl)
      fun t rest hrest => hcalls t rest hrest scope
  refine hguarded.settles (fun _ => unexpected) fun scope s => ?_
  exact (statement_eq_unbounded (Nat.le_succ s.rest.length)).symm.trans
    (alike_statementCalls (Nat.lt_succ_self s.rest.length)).eq

/-- Items that repeat in the grammar read alike with themselves. -/
private theorem Listed.alike {α : Type} {item : Parse (Option α)} (h : Listed item) {text : Stream}
    {tokens : List Token} : Alike text tokens item item := by
  cases h with
  | segment => exact alike_segment
  | link scope n => exact alike_link (alike_operand rfl)
  | position scope n => exact .behind .comma (alike_position (alike_operand rfl))
  | bang => exact alike_take? _
  | term scope n => exact alike_laterTerm (alike_operand rfl)
  | declarator scope n type => exact .behind .comma (alike_declarator (alike_operand rfl) type)
  | argument scope n => exact .behind .comma (alike_chain (alike_operand rfl))
  | statement scope n => exact .unlessAt .rightBrace (alike_statement rfl)
  | item n => exact alike_item rfl

/-- Items that repeat in the grammar take a token each. -/
theorem Listed.takes {α : Type} {item : Parse (Option α)} (h : Listed item) : Takes item := by
  cases h with
  | segment => exact takes_behind .dot (alike_ident.bind fun _ => alike_pure _)
  | link scope n =>
    exact (takes_take? _).bind rfl fun _ => (alike_operand rfl).bind fun _ => alike_pure _
  | position scope n => exact takes_behind .comma (alike_position (alike_operand rfl))
  | bang => exact takes_take? _
  | term scope n =>
    exact (takes_take? _).bind rfl fun _ =>
      (alike_term (alike_operand rfl)).bind fun _ => alike_pure _
  | declarator scope n type => exact takes_behind .comma (alike_declarator (alike_operand rfl) type)
  | argument scope n => exact takes_behind .comma (alike_chain (alike_operand rfl))
  | statement scope n => exact takes_unlessAt .rightBrace statement_beyond
  | item n => exact takes_item

/-- Steps that gather something in the grammar read alike with themselves. -/
private theorem Gathered.alike {σ : Type} {step : σ → Parse (Option σ)} (h : Gathered step)
    {text : Stream} {tokens : List Token} (a : σ) : Alike text tokens (step a) (step a) := by
  cases h with
  | parameter => exact alike_laterParameter a
  | field type => exact .behind .comma (alike_field type a)
  | fieldGroup => exact .unlessAt .rightBrace (alike_fieldGroup a)

/-- Steps that gather something in the grammar take a token each. -/
theorem Gathered.takes {σ : Type} {step : σ → Parse (Option σ)} (h : Gathered step) (a : σ) :
    Takes (step a) := by
  cases h with
  | parameter =>
    exact (takes_behind .comma (alike_parameter a)).bind rfl fun _ => alike_pure _
  | field type => exact takes_behind .comma (alike_field type a)
  | fieldGroup => exact takes_unlessAt .rightBrace fieldGroup_beyond

/-- No bound is met in any recursion of the grammar. -/
theorem Recursion.settles {ι α : Type} {F : (ι → Parse α) → ι → Parse α} {x : ι → Parse α}
    (h : Recursion F x) : Settles F x := by
  cases h with
  | operands => exact settles_operands
  | statements => exact settles_statements
  | many h => exact settles_many h.alike h.takes
  | fold h => exact settles_fold h.alike h.takes

/-! ### Productions -/

/-- The parsers of the grammar, with those of single tokens that they are made of. -/
inductive Production : {α : Type} → Parse α → Prop where
  | peek : Production peek
  | advance : Production advance
  | unexpected : Production (unexpected : Parse Unit)
  | expect (m : Mark) : Production (expect m)
  | accept (m : Mark) : Production (accept m)
  | ident : Production ident
  | place (scope : Scope) : Production (place scope)
  | call (scope : Scope) (n ordinal : Nat) : Production (call (operand scope n) ordinal)
  | operand (scope : Scope) (n : Nat) : Production (operand scope n)
  | chain (scope : Scope) (n : Nat) : Production (chain (operand scope n))
  | term (scope : Scope) (n : Nat) : Production (term (operand scope n))
  | condition (scope : Scope) (n : Nat) : Production (condition (operand scope n))
  | statementExpr (scope : Scope) (n : Nat) : Production (statementExpr scope (operand scope n))
  | declarators (scope : Scope) (n : Nat) (type : CellType) :
      Production (declarators scope (operand scope n) type)
  | block (scope : Scope) (n : Nat) : Production (block (statement scope n))
  | body (scope : Scope) (n : Nat) : Production (body (statement scope n))
  | loop (scope : Scope) (n m : Nat) :
      Production (loop scope (operand scope n) (statement scope m))
  | branch (scope : Scope) (n m : Nat) : Production (branch (operand scope n) (statement scope m))
  | statement (scope : Scope) (n : Nat) : Production (statement scope n)
  | literal : Production literal
  | parameters : Production parameters
  | procedure (n : Nat) : Production (procedure n)
  | fieldGroup (earlier : List Field) : Production (fieldGroup earlier)
  | classDef (n : Nat) : Production (classDef n)
  | define : Production define
  | topLevel (n : Nat) : Production (topLevel n)
  | program : Production program

/-- Every production reads alike with itself, so it moves on and blames its text. -/
private theorem Production.alike {α : Type} {x : Parse α} (h : Production x) {text : Stream}
    {tokens : List Token} : Alike text tokens x x := by
  have hoperand {scope : Scope} {n : Nat} :
      Alike text tokens (Grammar.operand scope n) (Grammar.operand scope n) := alike_operand rfl
  have hstatement {scope : Scope} {n : Nat} :
      Alike text tokens (Grammar.statement scope n) (Grammar.statement scope n) :=
    alike_statement rfl
  cases h with
  | peek => exact alike_peek
  | advance => exact alike_advance
  | unexpected => exact alike_unexpected
  | expect m => exact alike_expect m
  | accept m => exact alike_accept m
  | ident => exact alike_ident
  | place scope => exact alike_place
  | call scope n ordinal => exact alike_call (fun _ _ hrest => hoperand.tail hrest) ordinal
  | operand scope n => exact hoperand
  | chain scope n => exact alike_chain hoperand
  | term scope n => exact alike_term hoperand
  | condition scope n => exact alike_condition hoperand
  | statementExpr scope n => exact alike_statementExpr hoperand
  | declarators scope n type => exact alike_declarators hoperand type
  | block scope n => exact alike_block hstatement
  | body scope n => exact alike_body hstatement
  | loop scope n m => exact alike_loop hstatement hoperand
  | branch scope n m => exact alike_branch hstatement hoperand
  | statement scope n => exact hstatement
  | literal => exact alike_literal
  | parameters => exact alike_parameters
  | procedure n => exact alike_procedure rfl
  | fieldGroup earlier => exact alike_fieldGroup earlier
  | classDef n => exact alike_classDef rfl
  | define => exact alike_define
  | topLevel n => exact alike_topLevel rfl
  | program => exact alike_program

/-! ### Reading a place again -/

/-- What is read behind a place in operand position. -/
def behindPlace (scope : Scope) (p : Place) (line : Nat) : Parse Expr := do
  match ← take? Kind.bump? with
  | none => return .read p
  | some (up, t) =>
    assignable scope p line
    return .bump p up false t.line

section Again

variable {name : String} {p : Place} {line : Nat} {s₁ : Cursor}
  (hname : (s.rest.head?.bind fun t => Kind.ident? t.kind) = some name)
  (hvariable : s.names.procedure? name = none) (hplace : place scope s = .ok (p, line) s₁)

include hname hvariable hplace

/-- A place that no assignment follows is the beginning of a chain. -/
theorem statementExpr_again (hlacks : Lacks Kind.assignment? s₁.rest) (operand : Parse Expr) :
    statementExpr scope operand s = chain operand s := by
  rw [statementExpr, peek_bind]
  simp only [hname]
  rw [names_bind, hvariable]
  have hnone : take? Kind.assignment? s₁ = .ok none s₁ := take?_lacks hlacks
  exact (bind_of_ok hplace _).trans (bind_of_ok hnone _)

/-- The first operand of that chain is the same place. -/
theorem operand_again (n : Nat) : operand scope (n + 1) s = behindPlace scope p line s₁ := by
  obtain ⟨t, hhead, hident⟩ := Option.bind_eq_some_iff.mp hname
  have hkind : t.kind = .ident name := Leaf.kind_ident ⟨t, name, hident⟩
  rw [operand, peek_bind, hhead]
  simp only [operandFrom, hkind]
  rw [names_bind, hvariable]
  exact bind_of_ok hplace _

end Again

/-! ### The law -/

/-- What stands behind the next token is looked at only to tell a procedure from a variable. -/
theorem procedureHead_eq (s : Cursor) : procedureHead s =
    .ok ((s.rest[1]?.any fun t => (Kind.ident? t.kind).isSome) &&
      s.rest[2]?.any fun t => (Kind.mark? .leftParen t.kind).isSome) s := by
  obtain ⟨rest, endLine, names⟩ := s
  match rest with
  | _ :: _ :: _ :: _ => rfl
  | [] | [_] => rfl
  | [_, _] => simp [procedureHead]

/-- Parsing comes to an end, and it never runs off its text.

The recursions of the grammar settle: an outcome is reached when the calls have been unfolded once
for each token left and once more, so neither the bounds on repetition nor the depth of nesting in
the parsers is ever met. A cursor that stands at an index of the text looks at the token with that
index and at most at the next two, or sees the end. Every production leaves it there or further on,
but not beyond the end of the text, whether it fails or not; a program that parses leaves it at the
end. A declaration, a statement or an operand that parses has taken a token. Where a place that
begins a statement turns out to begin a chain, the tables are as they were in front of it, so that
going back to its index gives the old cursor, and the chain begins with the same place, read from
there to the same cursor with the same result. -/
theorem parsing_ends (text : Stream) :
    (∀ {ι α : Type} {F : (ι → Parse α) → ι → Parse α} {x : ι → Parse α},
      Recursion F x → Settles F x) ∧
    (∀ (scope : Scope) (n : Nat) (s : Cursor), s.rest.length ≤ n →
      operand scope n s = unboundedOperand scope s ∧
        statement scope n s = unboundedStatement scope s ∧ many (item n) s = program s) ∧
    (∀ names, Cursor.StandsAt text 0 ⟨text.tokens, text.endLine, names⟩) ∧
    (∀ (i : Nat) (s : Cursor), s.StandsAt text i →
      peek s = .ok text.tokens[i]? s ∧
      procedureHead s = .ok ((text.tokens[i + 1]?.any fun t => (Kind.ident? t.kind).isSome) &&
        text.tokens[i + 2]?.any fun t => (Kind.mark? .leftParen t.kind).isSome) s ∧
      (∀ {α : Type} {x : Parse α}, Production x →
        Ends x s (fun _ s' => ∃ j, i ≤ j ∧ s'.StandsAt text j)
          fun _ s' => ∃ j, i ≤ j ∧ s'.StandsAt text j) ∧
      (∀ statements s', program s = .ok statements s' →
        s'.StandsAt text text.tokens.length) ∧
      ∀ s', ((∃ n a, topLevel n s = .ok a s') ∨ (∃ scope n a, statement scope n s = .ok a s') ∨
        ∃ scope n e, operand scope n s = .ok e s') → ∃ j, i < j ∧ s'.StandsAt text j) ∧
    ∀ (scope : Scope) (n : Nat) (s s₁ : Cursor) (name : String) (p : Place) (line : Nat),
      (s.rest.head?.bind fun t => Kind.ident? t.kind) = some name →
        s.names.procedure? name = none → place scope s = .ok (p, line) s₁ →
        Lacks Kind.assignment? s₁.rest →
        { s₁ with rest := s.rest } = s ∧
          statementExpr scope (operand scope (n + 1)) s = chain (operand scope (n + 1)) s ∧
          operand scope (n + 1) s = behindPlace scope p line s₁ := by
  refine ⟨Recursion.settles, fun scope n s hn => ⟨operand_eq_unbounded hn,
    statement_eq_unbounded hn, ?_⟩, fun names => ⟨Nat.zero_le _, rfl, rfl⟩,
    fun i s hs => ⟨?_, ?_, fun hx => ?_, fun statements s' h => ?_, fun s' h => ?_⟩,
    fun scope n s s₁ name p line hname hvariable hplace hlacks => ⟨?_,
      statementExpr_again hname hvariable hplace hlacks _,
      operand_again hname hvariable hplace n⟩⟩
  · rw [program, get_bind]
    have hdepths : min n s.rest.length = min s.rest.length s.rest.length := by omega
    exact (alike_item hdepths).many.eq
  · rw [← List.head?_drop, ← hs.rest]
    rfl
  · rw [procedureHead_eq, hs.rest, List.getElem?_drop, List.getElem?_drop]
  · exact (hx.alike.here hs.on).ends.mono (fun _ _ => hs.onward) fun _ _ h =>
      hs.onward h.1
  · obtain ⟨j, -, hj⟩ := hs.onward ((alike_program.here hs.on).ends.of_ok h)
    have hrest := hj.rest.symm.trans (program_rest h)
    have hend : j = text.tokens.length :=
      Nat.le_antisymm hj.bound (List.drop_eq_nil_iff.mp hrest)
    exact hend ▸ hj
  · rcases h with ⟨n, a, h⟩ | ⟨scope, n, a, h⟩ | ⟨scope, n, e, h⟩
    · exact hs.beyond (topLevel_beyond h)
    · exact hs.beyond (statement_beyond h)
    · exact hs.beyond (operand_beyond h)
  · obtain ⟨tree, hpast, hnames, -⟩ := place_sound hplace
    obtain ⟨rest, endLine, names⟩ := s
    rw [hpast.2, hnames]

/-- Tables with the global `a`. -/
def sumNames : Names :=
  ⟨[⟨"a", .scalar .i64, false⟩], [], []⟩

/-- The text `a + 1;`. -/
def sumText : Stream :=
  ⟨[⟨.ident "a", "a", 1⟩, ⟨.mark .plus, "+", 1⟩, ⟨.int 1, "1", 1⟩, ⟨.mark .semicolon, ";", 1⟩], 1⟩

/-- The `a` of `a + 1;` is read twice, and then the text to its end. -/
theorem parsing_ends_sum :
    let s : Cursor := ⟨sumText.tokens, sumText.endLine, sumNames⟩
    let a : Place := ⟨"a", [], .global 0, .scalar .i64⟩
    statementExpr .top (operand .top 4) s = chain (operand .top 4) s ∧
      operand .top 4 s = behindPlace .top a 1 ⟨sumText.tokens.tail, 1, sumNames⟩ ∧
      ∃ statements s', program s = .ok statements s' ∧ s'.StandsAt sumText 4 := by
  intro s a
  obtain ⟨-, -, hstart, hstands, hagain⟩ := parsing_ends sumText
  obtain ⟨-, hchain, hoperand⟩ := hagain .top 3 s ⟨sumText.tokens.tail, 1, sumNames⟩ "a" a 1 rfl
    rfl rfl (Lacks.of_cons rfl)
  exact ⟨hchain, hoperand, _, _, rfl, (hstands 0 s (hstart _)).2.2.2.1 _ _ rfl⟩

end Grammar

end Litany
