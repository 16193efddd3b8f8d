import Litany.Proofs.Grammar.Soundness.Program
import Litany.Proofs.Grammar.Completeness.Expression
import Litany.Proofs.Scope.Judgement
import Litany.Proofs.Token.Spelling

/-!
# Accepted programs are well scoped

What a derivation stands for is well scoped, phrase by phrase, because a reading resolves every
name under the tables in front of it. A program that is accepted is the reading of a derivation, so
the same holds of it: `parse_wellScoped`.

The name that a call carries is the text of its token, while its procedure was looked up by what
the token is. The two agree for the tokens of a text, and only there.
-/

namespace Litany

namespace Grammar

/-- All of some tokens are spelled. -/
def Spelled (tokens : List Token) : Prop :=
  ∀ t ∈ tokens, t.Spelled

namespace Spelled

variable {ts us : List Token} {t : Token}

theorem cons_iff : Spelled (t :: ts) ↔ t.Spelled ∧ Spelled ts :=
  List.forall_mem_cons

theorem append_iff : Spelled (ts ++ us) ↔ Spelled ts ∧ Spelled us :=
  List.forall_mem_append

/-- The items behind leaves are spelled if all the tokens are. -/
private theorem of_yieldBehind {α β : Type} {f : Kind → Option β} {yield : α → List Token}
    {items : List (Leaf f × α)} (h : Spelled (yieldBehind yield items)) :
    ∀ item ∈ items, Spelled (yield item.2) :=
  fun item hitem t ht => h t (mem_yieldBehind.mpr ⟨item, hitem, .inr ht⟩)

end Spelled

variable {names later : Names} {scope : Scope}

/-! ### Places and calls -/

theorem PlaceTree.scoped {t : PlaceTree} {p : Place} (h : t.reading names scope = some p) :
    p.Scoped names scope := by
  obtain ⟨slot, rootType, constant, type, hslot, htype, hfield, rfl⟩ := reading_eq_some h
  have hname := Names.slotName?_of_resolve hslot
  exact ⟨Names.bound_of_slotName? hname, hname, rootType, constant, htype, hfield⟩

/-- A location that may be written holds a scalar. -/
private theorem scalar_of_writable {p : Place} (h : writable names scope p = true) :
    ∃ t, p.type = .scalar t := by
  rw [writable, Bool.and_eq_true] at h
  cases htype : p.type with
  | scalar t => exact ⟨t, rfl⟩
  | object number => simp [htype] at h

/-- There is one argument for every parameter, a written one or a default. -/
theorem supplied_eq_some {parameters : List Parameter} {given : List (Option Expr)}
    {arguments : List Expr} (h : supplied parameters given = some arguments) :
    arguments.length = parameters.length ∧
      ∀ e ∈ arguments, some e ∈ given ∨ ∃ v, e = .literal v := by
  unfold supplied at h
  split at h
  · refine ⟨by simpa using length_of_mapM h, forall_mem_of_mapM h ?_⟩
    rintro ⟨p, i⟩ - e he
    dsimp only at he
    cases hgiven : given[i]?.join with
    | some written =>
      rw [hgiven] at he
      obtain rfl := Option.some.inj he
      exact Or.inl (List.mem_of_getElem? (Option.join_eq_some_iff.mp hgiven))
    | none =>
      rw [hgiven] at he
      obtain ⟨v, -, hv⟩ := Option.map_eq_some_iff.mp he
      exact Or.inr ⟨v, hv.symm⟩
  · cases h

/-- A spelled name is written as it is called. -/
theorem lexeme_of_spelled (name : Name) (h : name.token.Spelled) : name.lexeme = name.value :=
  (h name.value name.kind_ident).1

private theorem ExprTree.callReading_scoped {name : Name} {given : List (Option Expr)} {e : Expr}
    (hname : name.token.Spelled) (hgiven : ∀ e, some e ∈ given → e.Scoped names scope)
    (h : callReading names name given = some e) : e.Scoped names scope := by
  obtain ⟨ordinal, p, arguments, hordinal, hp, harguments, rfl⟩ := callReading_eq_some h
  obtain ⟨q, hq, hqname⟩ := Names.signature_of_procedure? hordinal
  obtain rfl := Option.some.inj (hp.symm.trans hq)
  obtain ⟨hlength, hmembers⟩ := supplied_eq_some harguments
  refine .call _ hp (hqname.trans (lexeme_of_spelled name hname).symm) hlength fun e he => ?_
  rcases hmembers e he with hwritten | ⟨v, rfl⟩
  · exact hgiven e hwritten
  · exact .literal v

/-! ### Chains -/

/-- The readings of the phrases of an expression are well scoped if their parts are. -/
def ExprReading.Scoped (names : Names) (scope : Scope) : {k : ExprSort} → ExprReading k → Prop
  | .operand, e => Expr.Scoped names scope e
  | .chain, e => Expr.Scoped names scope e
  | .links, links => ∀ l ∈ (links : List Link), l.operand.Scoped names scope
  | .position, given => ∀ e, (given : Option Expr) = some e → e.Scoped names scope
  | .positions, given => ∀ e, some e ∈ (given : List (Option Expr)) → e.Scoped names scope

private theorem scoped_foldl_extend {links : List Link} {e : Expr} (he : e.Scoped names scope)
    (hlinks : ∀ l ∈ links, l.operand.Scoped names scope) :
    (links.foldl Link.extend e).Scoped names scope := by
  induction links generalizing e with
  | nil => exact he
  | cons l links ih =>
    obtain ⟨hl, hrest⟩ := List.forall_mem_cons.mp hlinks
    exact ih (.binary l.op l.line he hl) hrest

/-- What a phrase of an expression stands for is well scoped under the tables in front of it. -/
theorem ExprTree.scoped {k : ExprSort} (t : ExprTree k) {r : ExprReading k}
    (hspelled : Spelled t.yield) (h : t.reading names scope = some r) :
    ExprReading.Scoped names scope r := by
  induction t with
  | literal value =>
    obtain rfl := Option.some.inj h
    exact .literal value.value
  | negate minus inner ih =>
    obtain ⟨e, he, rfl⟩ := reading_negate h
    exact .negate _ (ih (Spelled.cons_iff.mp hspelled).2 he)
  | group opening inner closing ih =>
    obtain ⟨e, he, rfl⟩ := reading_group h
    obtain ⟨hinner, -⟩ := Spelled.append_iff.mp (Spelled.cons_iff.mp hspelled).2
    exact .group (ih hinner he)
  | bareCall name | emptyCall name opening closing =>
    exact callReading_scoped (Spelled.cons_iff.mp hspelled).1 (by simp) h
  | call name opening first others closing ihFirst ihOthers =>
    obtain ⟨f, fs, hf, hfs, hcall, -⟩ := reading_call [] h
    obtain ⟨hname, hrest⟩ := Spelled.cons_iff.mp hspelled
    obtain ⟨-, hrest⟩ := Spelled.cons_iff.mp hrest
    obtain ⟨hparts, -⟩ := Spelled.append_iff.mp hrest
    obtain ⟨hfirst, hothers⟩ := Spelled.append_iff.mp hparts
    refine callReading_scoped hname (fun e he => ?_) hcall
    rcases List.mem_cons.mp he with hhead | htail
    · exact ihFirst hfirst hf e hhead.symm
    · exact ihOthers hothers hfs e htail
  | bumpBefore mark place =>
    obtain ⟨p, hp, hwritable, rfl⟩ := reading_bumpBefore h
    obtain ⟨t, ht⟩ := scalar_of_writable hwritable
    exact .bump _ _ _ (PlaceTree.scoped hp) ht
  | read place =>
    obtain ⟨p, hp, rfl⟩ := reading_read h
    exact .read (PlaceTree.scoped (variableReading_eq_some hp).2)
  | bumpAfter place mark =>
    obtain ⟨p, hp, hwritable, rfl⟩ := reading_bumpAfter h
    obtain ⟨t, ht⟩ := scalar_of_writable hwritable
    exact .bump _ _ _ (PlaceTree.scoped (variableReading_eq_some hp).2) ht
  | chain first others ihFirst ihOthers =>
    obtain ⟨e, links, he, hlinks, rfl⟩ := reading_chain h
    obtain ⟨hfirst, hothers⟩ := Spelled.append_iff.mp hspelled
    exact scoped_foldl_extend (ihFirst hfirst he) (ihOthers hothers hlinks)
  | noLink =>
    obtain rfl := Option.some.inj h
    exact fun l hl => nomatch hl
  | link op operand others ihOperand ihOthers =>
    obtain ⟨e, links, he, hlinks, rfl⟩ := reading_link h
    obtain ⟨hoperand, hothers⟩ := Spelled.append_iff.mp (Spelled.cons_iff.mp hspelled).2
    exact List.forall_mem_cons.mpr ⟨ihOperand hoperand he, ihOthers hothers hlinks⟩
  | vacant =>
    obtain rfl := Option.some.inj h
    exact fun e he => nomatch he
  | filled value ih =>
    obtain ⟨e, he, rfl⟩ := reading_filled h
    intro e' he'
    obtain rfl := Option.some.inj he'
    exact ih hspelled he
  | noPosition =>
    obtain rfl := Option.some.inj h
    exact fun e he => nomatch he
  | position comma first others ihFirst ihOthers =>
    obtain ⟨f, fs, hf, hfs, rfl⟩ := reading_position h
    obtain ⟨hfirst, hothers⟩ := Spelled.append_iff.mp (Spelled.cons_iff.mp hspelled).2
    intro e he
    rcases List.mem_cons.mp he with hhead | htail
    · exact ihFirst hfirst hf e hhead.symm
    · exact ihOthers hothers hfs e htail

/-- An assignment of a chain to a scalar is well scoped. -/
private theorem ExprTree.assigned_scoped {t : ExprTree .chain} {target : Place} {type : Scalar}
    {op : Option Arithmetic} {line : Nat} {e : Expr} (hspelled : Spelled t.yield)
    (htarget : target.Scoped names scope) (htype : target.type = .scalar type)
    (h : t.assigned names scope target op line = some e) : e.Scoped names scope := by
  cases t with
  | chain first others =>
    obtain ⟨e₀, links, he₀, hlinks, rfl⟩ := assigned_chain h
    obtain ⟨hfirst, hothers⟩ := Spelled.append_iff.mp hspelled
    have hscoped : ∀ l ∈ links, l.operand.Scoped names scope := others.scoped hothers hlinks
    refine .assign htarget htype (List.forall_mem_cons.mpr ⟨first.scoped hfirst he₀, ?_⟩)
    exact List.forall_mem_map.mpr hscoped

/-! ### Conditions -/

theorem TermTree.scoped {t : TermTree} {r : Term} (hspelled : Spelled t.yield)
    (h : t.reading names scope = some r) : r.Scoped names scope := by
  obtain ⟨bangs, left, comparison⟩ := t
  obtain ⟨e, c, he, hc, rfl⟩ := reading_eq_some h
  obtain ⟨hleft, hcomparison⟩ := Spelled.append_iff.mp hspelled
  refine ⟨left.scoped (Spelled.append_iff.mp hleft).2 he, fun found hfound => ?_⟩
  obtain ⟨mark, right, rfl, -, hright⟩ := exists_of_comparisonReading hc found hfound
  exact right.scoped (Spelled.cons_iff.mp hcomparison).2 hright

theorem ConditionTree.scoped {t : ConditionTree} {r : Condition} (hspelled : Spelled t.yield)
    (h : t.reading names scope = some r) : r.Scoped names scope := by
  obtain ⟨hfirst, hothers⟩ := reading_eq_some h
  obtain ⟨hspelledFirst, hspelledRest⟩ := Spelled.append_iff.mp hspelled
  refine ⟨TermTree.scoped hspelledFirst hfirst, forall_mem_of_mapM hothers ?_⟩
  intro later hlater found hfound
  obtain ⟨term, hterm, rfl⟩ := laterReading_eq_some hfound
  exact TermTree.scoped (hspelledRest.of_yieldBehind later hlater) hterm

/-! ### Parts of statements -/

theorem StmtExprTree.scoped {t : StmtExprTree} {e : Expr} (hspelled : Spelled t.yield)
    (h : t.reading names scope = some e) : e.Scoped names scope := by
  cases t with
  | plain value => exact value.scoped hspelled h
  | assign target mark value =>
    obtain ⟨p, hp, hwritable, hassigned⟩ := reading_assign h
    obtain ⟨type, htype⟩ := scalar_of_writable hwritable
    have hvalue := (Spelled.cons_iff.mp (Spelled.append_iff.mp hspelled).2).2
    exact value.assigned_scoped hvalue
      (PlaceTree.scoped (ExprTree.variableReading_eq_some hp).2) htype hassigned

/-- An optional part that is read is judged like the part. -/
private theorem forall_mem_of_readOption {α β : Type} {read : α → Option β} {yield : α → List Token}
    {P : β → Prop} {t : Option α} {r : Option β}
    (hspelled : Spelled (StmtTree.yieldOption yield t)) (h : readOption read t = some r)
    (hP : ∀ a b, Spelled (yield a) → read a = some b → P b) : ∀ b ∈ r, P b := by
  intro b hb
  obtain ⟨a, rfl, ha⟩ := exists_of_readOption h b hb
  exact hP a b hspelled ha

/-- A newly declared variable is well scoped behind its declaration. -/
private theorem scoped_of_declare {name : String} {type : CellType} {constant : Bool} {slot : Slot}
    (h : names.declare scope ⟨name, type, constant⟩ = some (slot, later)) :
    (Place.mk name [] slot type).Scoped later scope := by
  obtain ⟨hname, htype⟩ := Names.slot_of_declare h
  exact ⟨Names.bound_of_slotName? hname, hname, type, constant, htype, by cases type <;> rfl⟩

theorem DeclaratorTree.scoped {t : DeclaratorTree} {type : CellType} {d : Declarator}
    (hspelled : Spelled t.yield) (h : t.reading scope type names = some (d, later)) :
    d.Scoped scope names later := by
  obtain ⟨name, initial⟩ := t
  obtain ⟨slot, value, hdeclare, hvalue, rfl⟩ := reading_eq_some h
  have htarget := scoped_of_declare hdeclare
  refine ⟨⟨false, hdeclare⟩, htarget, rfl, fun e he => ?_⟩
  obtain ⟨mark, chain, type, rfl, htype, hassigned⟩ := exists_of_initialReading hvalue e he
  have hchain := (Spelled.cons_iff.mp (Spelled.cons_iff.mp hspelled).2).2
  exact chain.assigned_scoped hchain htarget htype hassigned

private theorem scopedAll_of_readAll {type : CellType} {trees : List DeclaratorTree}
    {ds : List Declarator} (hspelled : ∀ t ∈ trees, Spelled t.yield)
    (h : readAll (DeclaratorTree.reading scope type) trees names = some (ds, later)) :
    Declarator.ScopedAll scope names ds later := by
  induction trees generalizing names ds with
  | nil =>
    obtain ⟨rfl, rfl⟩ := Prod.mk.inj (Option.some.inj h)
    exact .nil names
  | cons t trees ih =>
    obtain ⟨d, middle, ds', hfirst, hrest, rfl⟩ := readAll_cons_eq_some.mp h
    obtain ⟨hspelledFirst, hspelledRest⟩ := List.forall_mem_cons.mp hspelled
    exact .cons (DeclaratorTree.scoped hspelledFirst hfirst) (ih hspelledRest hrest)

theorem DeclaratorsTree.scoped {t : DeclaratorsTree} {type : CellType} {ds : List Declarator}
    (hspelled : Spelled t.yield) (h : t.reading scope type names = some (ds, later)) :
    Declarator.ScopedAll scope names ds later := by
  obtain ⟨hparts, -⟩ := Spelled.append_iff.mp hspelled
  obtain ⟨hfirst, hrest⟩ := Spelled.append_iff.mp hparts
  refine scopedAll_of_readAll (List.forall_mem_cons.mpr ⟨hfirst, ?_⟩) h
  exact List.forall_mem_map.mpr hrest.of_yieldBehind

/-! ### Statements -/

/-- The statements that a phrase stands for. -/
def StmtReading.all : {k : StmtSort} → StmtReading k → List Stmt
  | .statement, s => [s]
  | .body, ss => ss
  | .statements, ss => ss

/-- What a phrase of statements stands for leads from the tables in front of it to those behind
it. -/
theorem StmtTree.scoped {k : StmtSort} (t : StmtTree k) {r : StmtReading k}
    (hspelled : Spelled t.yield) (h : t.reading scope names = some (r, later)) :
    Stmt.ScopedAll scope names (StmtReading.all r) later := by
  induction t generalizing names later with
  | declare type vars =>
    obtain ⟨cell, ds, -, hvars, rfl⟩ := reading_declare h
    exact .declare (DeclaratorsTree.scoped (Spelled.cons_iff.mp hspelled).2 hvars) (.nil _)
  | print template arguments semicolon =>
    obtain ⟨es, hes, rfl, rfl⟩ := reading_print h
    have hbehind := (Spelled.append_iff.mp (Spelled.cons_iff.mp hspelled).2).1
    refine .print _ _ (forall_mem_of_mapM hes ?_) (.nil _)
    exact fun argument hargument e he => argument.2.scoped (hbehind.of_yieldBehind _ hargument) he
  | loop word opening initial first test second step closing body ih =>
    obtain ⟨initial', test', step', body', hinitial, htest, hstep, hbody, rfl⟩ := reading_loop h
    simp only [yield, List.append_assoc, List.cons_append, Spelled.cons_iff,
      Spelled.append_iff] at hspelled
    obtain ⟨-, -, hsinitial, -, hstest, -, hsstep, -, hsbody⟩ := hspelled
    exact .loop (forall_mem_of_readOption hsinitial hinitial fun _ _ => StmtExprTree.scoped)
      (forall_mem_of_readOption hstest htest fun _ _ => ConditionTree.scoped)
      (forall_mem_of_readOption hsstep hstep fun _ _ => StmtExprTree.scoped) (ih hsbody hbody)
      (.nil _)
  | branch word opening test closing yes ih =>
    obtain ⟨test', yes', htest, hyes, rfl⟩ := reading_branch h
    simp only [yield, List.cons_append, Spelled.cons_iff, Spelled.append_iff] at hspelled
    obtain ⟨-, -, hstest, -, hsyes⟩ := hspelled
    exact .branch (ConditionTree.scoped hstest htest) (ih hsyes hyes) (.nil _)
  | branchElse word opening test closing yes otherwise no ihYes ihNo =>
    obtain ⟨-, test', yes', between, no', htest, hyes, hno, rfl⟩ := reading_branchElse h
    simp only [yield, List.append_assoc, List.cons_append, Spelled.cons_iff,
      Spelled.append_iff] at hspelled
    obtain ⟨-, -, hstest, -, hsyes, -, hsno⟩ := hspelled
    exact .branchElse (ConditionTree.scoped hstest htest) (ihYes hsyes hyes) (ihNo hsno hno)
      (.nil _)
  | giveBack word value semicolon =>
    obtain ⟨hscope, value', hvalue, rfl, rfl⟩ := reading_giveBack h
    have hsvalue := (Spelled.append_iff.mp (Spelled.cons_iff.mp hspelled).2).1
    refine .giveBack _ hscope ?_ (.nil _)
    exact forall_mem_of_readOption hsvalue hvalue fun a _ => ExprTree.scoped a
  | foreign code =>
    obtain ⟨rfl, rfl⟩ := Prod.mk.inj (Option.some.inj h)
    exact .foreign _ _ (.nil _)
  | expr e semicolon =>
    obtain ⟨-, e', he, rfl, rfl⟩ := reading_expr h
    exact .expr (StmtExprTree.scoped (Spelled.append_iff.mp hspelled).1 he) (.nil _)
  | single s ih =>
    obtain ⟨s', hs, rfl⟩ := reading_single h
    exact ih hspelled hs
  | block opening body closing ih =>
    exact ih (Spelled.append_iff.mp (Spelled.cons_iff.mp hspelled).2).1 h
  | noStatement =>
    obtain ⟨rfl, rfl⟩ := Prod.mk.inj (Option.some.inj h)
    exact .nil _
  | statement first others ihFirst ihOthers =>
    obtain ⟨s, middle, ss, hs, hss, rfl⟩ := reading_statement h
    obtain ⟨hfirst, hothers⟩ := Spelled.append_iff.mp hspelled
    exact (ihFirst hfirst hs).append (ihOthers hothers hss)

/-! ### Programs -/

/-- A procedure that is read leaves a signature that agrees with it. -/
private theorem ItemTree.procedure_scoped {p : Procedure} {parameters : List Parameter}
    {opened : Names} (hdeclare : names.declareProcedure ⟨p.name, p.returns, parameters, []⟩ =
      some (p.ordinal, opened))
    (hbody : Stmt.ScopedAll (.procedure p.ordinal) opened p.body later)
    (hparameters : p.parameters = parameters.map (·.type)) {signature : Signature}
    (hsignature : later.procedures[p.ordinal]? = some signature)
    (hlocals : p.locals = signature.locals.map (·.type)) : p.Scoped names later := by
  refine ⟨⟨parameters, opened, hdeclare, hbody⟩, signature, hsignature, ?_⟩
  obtain ⟨hordinal, rfl⟩ := Names.declareProcedure_eq_some hdeclare
  have hopened : (names.procedures ++ [⟨p.name, p.returns, parameters, []⟩])[p.ordinal]? =
      some ⟨p.name, p.returns, parameters, []⟩ := by
    rw [hordinal, List.getElem?_concat_length]
  obtain ⟨q, hq, hgrows⟩ := hbody.declares.grows.procedures hopened
  obtain rfl := Option.some.inj (hsignature.symm.trans hq)
  exact ⟨hgrows.name, hgrows.returns, by rw [hgrows.parameters, hparameters], hlocals.symm⟩

/-- What an item stands for may stand in front of a well-scoped program. -/
theorem ItemTree.scoped (t : ItemTree) {s : Stmt} (hspelled : Spelled t.yield)
    (h : t.reading names = some (s, later)) {rest : List Stmt} {last : Names}
    (hrest : Program.Scoped later rest last) : Program.Scoped names (s :: rest) last := by
  cases t with
  | procedure type name opening parameters closing begins body ends =>
    obtain ⟨parameters', ordinal, opened, body', signature, -, hdeclare, hbody, hsignature, rfl⟩ :=
      reading_procedure h
    simp only [yield, List.append_assoc, List.cons_append, Spelled.cons_iff,
      Spelled.append_iff] at hspelled
    obtain ⟨-, -, -, -, -, -, hsbody, -⟩ := hspelled
    exact .procedure
      (procedure_scoped hdeclare (body.scoped hsbody hbody) rfl hsignature rfl) hrest
  | classDef word name opening groups closing semicolon =>
    obtain ⟨fields, number, -, hclass, rfl⟩ := reading_classDef h
    exact .classDef hclass (.nil _) hrest
  | classDefWith word name opening groups closing vars =>
    obtain ⟨fields, number, opened, ds, -, hclass, hvars, rfl⟩ := reading_classDefWith h
    simp only [yield, List.cons_append, Spelled.cons_iff, Spelled.append_iff] at hspelled
    obtain ⟨-, -, -, -, -, hsvars⟩ := hspelled
    exact .classDef hclass (DeclaratorsTree.scoped hsvars hvars) hrest
  | define directive name value semicolon =>
    obtain ⟨v, slot, -, hdeclare, rfl⟩ := reading_define h
    have htarget := scoped_of_declare hdeclare
    refine .statement (.declare (.cons ⟨⟨true, hdeclare⟩, htarget, rfl, ?_⟩ (.nil _)) (.nil _))
      hrest
    intro e he
    obtain rfl := Option.some.inj he
    exact .assign htarget rfl (List.forall_mem_cons.mpr ⟨.literal v, by simp⟩)
  | statement s => exact .statement (s.scoped hspelled h) hrest

theorem items_scoped {items : List ItemTree} {ss : List Stmt}
    (hspelled : Spelled (items.flatMap ItemTree.yield))
    (h : readAll ItemTree.reading items names = some (ss, later)) :
    Program.Scoped names ss later := by
  induction items generalizing names ss with
  | nil =>
    obtain ⟨rfl, rfl⟩ := Prod.mk.inj (Option.some.inj h)
    exact .nil names
  | cons t items ih =>
    obtain ⟨s, middle, ss', hfirst, hrest, rfl⟩ := readAll_cons_eq_some.mp h
    rw [List.flatMap_cons] at hspelled
    obtain ⟨hspelledFirst, hspelledRest⟩ := Spelled.append_iff.mp hspelled
    exact t.scoped hspelledFirst hfirst (ih hspelledRest hrest)

/-- An accepted program is well scoped under the tables it was accepted under. -/
theorem scoped_of_parse {fetch : Option Fetcher} {fetched : List String} {text : String}
    {stream : Stream} {statements : List Stmt}
    (hscan : (Stream.ofText fetch fetched text).outcome = .ok stream)
    (hparse : parse names stream = (.ok statements, later)) :
    Program.Scoped names statements later := by
  obtain ⟨d, rfl, rfl⟩ := exists_derivation_of_parse hparse
  refine items_scoped ?_ d.reads
  rw [d.yields]
  exact Stream.spelled_ofText hscan

/-- A text that reads as a program of some length is accepted. -/
theorem exists_parse_of_length (names : Names) (fetch : Option Fetcher) (fetched : List String)
    (text : String) (n : Nat)
    (h : ((Stream.ofText fetch fetched text).outcome.toOption.bind fun stream =>
      (parse names stream).1.toOption).map List.length = some n) :
    ∃ stream statements later, (Stream.ofText fetch fetched text).outcome = .ok stream ∧
      parse names stream = (.ok statements, later) ∧ statements.length = n := by
  obtain ⟨statements, hboth, hlength⟩ := Option.map_eq_some_iff.mp h
  obtain ⟨stream, hscan, hparse⟩ := Option.bind_eq_some_iff.mp hboth
  refine ⟨stream, statements, (parse names stream).2, eq_ok_of_toOption hscan, ?_, hlength⟩
  exact Prod.ext (eq_ok_of_toOption hparse) rfl

/-- Every accepted program is well scoped. Each slot is one of those handed out up to that point,
under the name and with the type that the program gives it; each call is of a procedure registered
before it, with as many arguments as that one has parameters; and each procedure records what its
entry in the tables behind the whole program says. -/
theorem parse_wellScoped {fetch : Option Fetcher} {fetched : List String} {text : String}
    {stream : Stream} {statements : List Stmt}
    (hscan : (Stream.ofText fetch fetched text).outcome = .ok stream)
    (hparse : parse names stream = (.ok statements, later)) :
    Program.Scoped names statements later ∧
      ∀ p, Stmt.procedure p ∈ statements →
        ∃ signature, later.procedures[p.ordinal]? = some signature ∧ signature.name = p.name ∧
          signature.returns = p.returns ∧ signature.parameters.map (·.type) = p.parameters ∧
          signature.locals.map (·.type) = p.locals := by
  have hscoped := scoped_of_parse hscan hparse
  exact ⟨hscoped, fun p hp => hscoped.signature hp⟩

/-- A local hides a global of the same name, and only behind its declaration. -/
theorem parse_wellScoped_hiding :
    ∃ stream statements later,
      (Stream.ofText none [] "I64 g; U0 f(I64 a) \x7b g = a; F64 g = g; \x7d f(g);").outcome =
          .ok stream ∧
        parse Names.empty stream = (.ok statements, later) ∧ statements.length = 3 ∧
        Program.Scoped Names.empty statements later ∧
        ∀ p, Stmt.procedure p ∈ statements →
          ∃ signature, later.procedures[p.ordinal]? = some signature ∧ signature.name = p.name ∧
            signature.returns = p.returns ∧ signature.parameters.map (·.type) = p.parameters ∧
            signature.locals.map (·.type) = p.locals := by
  obtain ⟨stream, statements, later, hscan, hparse, hlength⟩ :=
    exists_parse_of_length Names.empty none []
      "I64 g; U0 f(I64 a) \x7b g = a; F64 g = g; \x7d f(g);" 3 (by decide +kernel)
  exact ⟨stream, statements, later, hscan, hparse, hlength, parse_wellScoped hscan hparse⟩

end Grammar

end Litany
