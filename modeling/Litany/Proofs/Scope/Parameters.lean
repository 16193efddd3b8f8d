import Litany.Proofs.Scope.Reading
import Mathlib.Data.List.Forall2

/-!
# What names stand for in the body of a procedure

The names in expression position, from left to right, are the places and calls of the program that
is read, in the same order: `StmtTree.meant`. What each name stands for is looked up under the
tables in front of it. Behind a mark, as in `++x`, only variables are looked up; everywhere else
procedures are looked up first, and variables if there is no procedure of the name.

So a parameter is found under its name, whatever globals, locals and classes there are, unless a
procedure has the same name: then the name is a call of that procedure wherever it does not stand
behind a mark. The main statement is `parameter_of_mention`.
-/

namespace Litany

/-! ### Places and calls of a program -/

/-- What a name in a program stands for. -/
inductive Node where
  | place (p : Place)
  | call (ordinal : Nat)

mutual

/-- The places and calls of an expression, in the order in which they are written. -/
def Expr.nodes : Expr → List Node
  | .literal _ => []
  | .read p => [.place p]
  | .call ordinal _ arguments _ => .call ordinal :: nodesOfAll arguments
  | .negate operand _ => operand.nodes
  | .group inner => inner.nodes
  | .binary left _ right _ => left.nodes ++ right.nodes
  | .assign target steps => .place target :: nodesOfSteps steps
  | .bump target _ _ _ => [.place target]

/-- The places and calls of expressions. -/
def Expr.nodesOfAll : List Expr → List Node
  | [] => []
  | e :: rest => e.nodes ++ nodesOfAll rest

/-- The places and calls behind the target of an assignment. -/
def Expr.nodesOfSteps : List (Step Expr) → List Node
  | [] => []
  | ⟨_, operand, _⟩ :: rest => operand.nodes ++ nodesOfSteps rest

end

private theorem Expr.nodesOfAll_eq (es : List Expr) : nodesOfAll es = es.flatMap nodes := by
  induction es with
  | nil => rfl
  | cons e es ih => rw [nodesOfAll, ih, List.flatMap_cons]

/-- The places and calls of a term. -/
def Term.nodes (t : Term) : List Node :=
  t.left.nodes ++ t.comparison.toList.flatMap fun side => side.2.nodes

/-- The places and calls of a condition. -/
def Condition.nodes (c : Condition) : List Node :=
  c.first.nodes ++ c.rest.flatMap fun t => t.2.nodes

/-- The places and calls of an initial value. The target of its assignment is the declared name. -/
def Declarator.nodes (d : Declarator) : List Node :=
  match d.initial with
  | some (.assign _ steps) => Expr.nodesOfSteps steps
  | _ => []

mutual

/-- The places and calls of a statement, in the order in which they are written. -/
def Stmt.nodes : Stmt → List Node
  | .expr e => e.nodes
  | .declare vars => vars.flatMap Declarator.nodes
  | .procedure _ => []
  | .classDef _ vars => vars.flatMap Declarator.nodes
  | .print _ arguments _ => arguments.flatMap Expr.nodes
  | .loop initial test step body =>
    initial.toList.flatMap Expr.nodes ++ test.toList.flatMap Condition.nodes ++
      step.toList.flatMap Expr.nodes ++ nodesOfAll body
  | .branch test yes none => test.nodes ++ nodesOfAll yes
  | .branch test yes (some no) => test.nodes ++ nodesOfAll yes ++ nodesOfAll no
  | .giveBack value _ => value.toList.flatMap Expr.nodes
  | .foreign _ _ => []

/-- The places and calls of statements. -/
def Stmt.nodesOfAll : List Stmt → List Node
  | [] => []
  | s :: rest => s.nodes ++ nodesOfAll rest

end

namespace Grammar

/-! ### Names in expression position -/

/-- A name in expression position. -/
structure Mention where
  name : Name
  /-- Whether a mark stands in front of it. -/
  marked : Bool

/-- The names of an expression that are in expression position: not those behind a dot. -/
def ExprTree.mentions {k : ExprSort} : ExprTree k → List Mention
  | literal _ => []
  | negate _ inner => inner.mentions
  | group _ inner _ => inner.mentions
  | bareCall name => [⟨name, false⟩]
  | emptyCall name _ _ => [⟨name, false⟩]
  | call name _ first rest _ => ⟨name, false⟩ :: first.mentions ++ rest.mentions
  | bumpBefore _ place => [⟨place.root, true⟩]
  | read place => [⟨place.root, false⟩]
  | bumpAfter place _ => [⟨place.root, false⟩]
  | chain first rest => first.mentions ++ rest.mentions
  | noLink => []
  | link _ operand rest => operand.mentions ++ rest.mentions
  | vacant => []
  | filled value => value.mentions
  | noPosition => []
  | position _ first rest => first.mentions ++ rest.mentions

def TermTree.mentions (t : TermTree) : List Mention :=
  t.left.mentions ++ t.comparison.toList.flatMap fun side => side.2.mentions

def ConditionTree.mentions (t : ConditionTree) : List Mention :=
  t.first.mentions ++ t.rest.flatMap fun term => term.2.mentions

def StmtExprTree.mentions : StmtExprTree → List Mention
  | assign target _ value => ⟨target.root, false⟩ :: value.mentions
  | plain value => value.mentions

/-- The names of an initial value; the declared name is not in expression position. -/
def DeclaratorTree.mentions (t : DeclaratorTree) : List Mention :=
  t.initial.toList.flatMap fun value => value.2.mentions

def DeclaratorsTree.mentions (t : DeclaratorsTree) : List Mention :=
  t.first.mentions ++ t.rest.flatMap fun d => d.2.mentions

/-- The names of statements that are in expression position. -/
def StmtTree.mentions {k : StmtSort} : StmtTree k → List Mention
  | declare _ vars => vars.mentions
  | print _ arguments _ => arguments.flatMap fun argument => argument.2.mentions
  | loop _ _ initial _ test _ step _ body =>
    initial.toList.flatMap StmtExprTree.mentions ++ test.toList.flatMap ConditionTree.mentions ++
      step.toList.flatMap StmtExprTree.mentions ++ body.mentions
  | branch _ _ test _ yes => test.mentions ++ yes.mentions
  | branchElse _ _ test _ yes _ no => test.mentions ++ yes.mentions ++ no.mentions
  | giveBack _ value _ => value.toList.flatMap ExprTree.mentions
  | foreign _ => []
  | expr e _ => e.mentions
  | single s => s.mentions
  | block _ body _ => body.mentions
  | noStatement => []
  | statement first rest => first.mentions ++ rest.mentions

/-! ### Names are tokens -/

/-- What is mentioned in an expression is one of its tokens. -/
private theorem ExprTree.mem_yield {k : ExprSort} {t : ExprTree k} {m : Mention}
    (hm : m ∈ t.mentions) : m.name.token ∈ t.yield := by
  induction t with
  | _ => grind [mentions, yield, PlaceTree.yield]

private theorem TermTree.mem_yield {t : TermTree} {m : Mention} (hm : m ∈ t.mentions) :
    m.name.token ∈ t.yield := by
  obtain ⟨bangs, left, comparison⟩ := t
  cases comparison with
  | none => grind [mentions, yield, ExprTree.mem_yield]
  | some side => grind [mentions, yield, ExprTree.mem_yield]

private theorem ConditionTree.mem_yield {t : ConditionTree} {m : Mention} (hm : m ∈ t.mentions) :
    m.name.token ∈ t.yield := by
  rcases List.mem_append.mp hm with hfirst | hrest
  · exact List.mem_append_left _ (TermTree.mem_yield hfirst)
  · obtain ⟨term, hterm, hm⟩ := List.mem_flatMap.mp hrest
    exact List.mem_append_right _ (mem_yieldBehind.mpr ⟨_, hterm, .inr (TermTree.mem_yield hm)⟩)

private theorem StmtExprTree.mem_yield {t : StmtExprTree} {m : Mention} (hm : m ∈ t.mentions) :
    m.name.token ∈ t.yield := by
  cases t with
  | _ => grind [mentions, yield, PlaceTree.yield, ExprTree.mem_yield]

private theorem DeclaratorTree.mem_yield {t : DeclaratorTree} {m : Mention} (hm : m ∈ t.mentions) :
    m.name.token ∈ t.yield := by
  obtain ⟨name, initial⟩ := t
  cases initial with
  | none => grind [mentions]
  | some value => grind [mentions, yield, ExprTree.mem_yield]

private theorem DeclaratorsTree.mem_yield {t : DeclaratorsTree} {m : Mention}
    (hm : m ∈ t.mentions) : m.name.token ∈ t.yield := by
  refine List.mem_append_left _ ?_
  rcases List.mem_append.mp hm with hfirst | hrest
  · exact List.mem_append_left _ (DeclaratorTree.mem_yield hfirst)
  · obtain ⟨d, hd, hm⟩ := List.mem_flatMap.mp hrest
    exact List.mem_append_right _ (mem_yieldBehind.mpr ⟨_, hd, .inr (DeclaratorTree.mem_yield hm)⟩)

/-- What is mentioned in an optional part is one of its tokens. -/
private theorem mem_yieldOption {α : Type} {f : α → List Mention} {yield : α → List Token}
    (hf : ∀ a m, m ∈ f a → m.name.token ∈ yield a) {o : Option α} {m : Mention}
    (hm : m ∈ o.toList.flatMap f) : m.name.token ∈ StmtTree.yieldOption yield o := by
  cases o with
  | none => cases hm
  | some a => exact hf a m (by simpa using hm)

/-- What is mentioned in a statement is one of its tokens. -/
private theorem StmtTree.mem_yield {k : StmtSort} {t : StmtTree k} {m : Mention}
    (hm : m ∈ t.mentions) : m.name.token ∈ t.yield := by
  induction t with
  | declare type vars => exact List.mem_cons_of_mem _ (DeclaratorsTree.mem_yield hm)
  | print template arguments semicolon =>
    obtain ⟨argument, hargument, hm⟩ := List.mem_flatMap.mp hm
    have hbehind := mem_yieldBehind.mpr ⟨_, hargument, .inr (ExprTree.mem_yield hm)⟩
    exact List.mem_append_left _ (List.mem_cons_of_mem _ hbehind)
  | loop word opening initial first test second step closing body ih =>
    simp only [mentions, List.mem_append] at hm
    simp only [yield, List.cons_append, List.append_assoc, List.mem_cons, List.mem_append]
    rcases hm with ((hinitial | htest) | hstep) | hbody
    · simp only [mem_yieldOption (fun _ _ => StmtExprTree.mem_yield) hinitial, true_or, or_true]
    · simp only [mem_yieldOption (fun _ _ => ConditionTree.mem_yield) htest, true_or, or_true]
    · simp only [mem_yieldOption (fun _ _ => StmtExprTree.mem_yield) hstep, true_or, or_true]
    · simp only [ih hbody, or_true]
  | branch word opening test closing yes ih =>
    simp only [yield, List.cons_append, List.mem_cons, List.mem_append]
    rcases List.mem_append.mp hm with htest | hyes
    · simp only [ConditionTree.mem_yield htest, true_or, or_true]
    · simp only [ih hyes, or_true]
  | branchElse word opening test closing yes otherwise no ihYes ihNo =>
    simp only [mentions, List.mem_append] at hm
    simp only [yield, List.cons_append, List.append_assoc, List.mem_cons, List.mem_append]
    rcases hm with (htest | hyes) | hno
    · simp only [ConditionTree.mem_yield htest, true_or, or_true]
    · simp only [ihYes hyes, true_or, or_true]
    · simp only [ihNo hno, or_true]
  | giveBack word value semicolon =>
    have hvalue := mem_yieldOption (fun _ _ => ExprTree.mem_yield) hm
    exact List.mem_append_left _ (List.mem_cons_of_mem _ hvalue)
  | foreign code => cases hm
  | expr e semicolon => exact List.mem_append_left _ (StmtExprTree.mem_yield hm)
  | single s ih => exact ih hm
  | block opening body closing ih => grind [mentions, yield]
  | noStatement => cases hm
  | statement first others ihFirst ihOthers => grind [mentions, yield]

/-! ### Names and what they stand for -/

/-- What a name stands for under the tables in front of it: a procedure comes before a variable,
unless a mark stands in front of the name. -/
def Mention.Means (names : Names) (scope : Scope) (m : Mention) : Node → Prop
  | .place p => (m.marked = true ∨ names.procedure? m.name.value = none) ∧
      names.resolve scope m.name.lexeme = some p.slot
  | .call ordinal => m.marked = false ∧ names.procedure? m.name.value = some ordinal

variable {names later : Names} {scope : Scope}

/-- The slot of a place is what its root resolves to. -/
theorem PlaceTree.slot {t : PlaceTree} {p : Place} (h : t.reading names scope = some p) :
    names.resolve scope t.root.lexeme = some p.slot := by
  obtain ⟨slot, rootType, constant, type, hslot, -, -, rfl⟩ := reading_eq_some h
  exact hslot

/-- The places and calls of what a phrase of an expression stands for. -/
def ExprReading.nodes : {k : ExprSort} → ExprReading k → List Node
  | .operand, e => Expr.nodes e
  | .chain, e => Expr.nodes e
  | .links, links => (links : List Link).flatMap fun l => l.operand.nodes
  | .position, given => (given : Option Expr).toList.flatMap Expr.nodes
  | .positions, given => (given : List (Option Expr)).flatMap fun e => e.toList.flatMap Expr.nodes

/-- What is written from some position of a call on is in its arguments from there on, in the same
order. Defaults hold no names. -/
private theorem nodes_supplied_from {parameters : List Parameter} {given : List (Option Expr)}
    {k : Nat} {arguments : List Expr} (hlength : given.length ≤ k + parameters.length)
    (h : (parameters.zipIdx k).mapM (fun q => given[q.2]?.join <|> q.1.default.map Expr.literal) =
      some arguments) :
    arguments.flatMap Expr.nodes =
      (given.drop k).flatMap fun e => e.toList.flatMap Expr.nodes := by
  induction parameters generalizing k arguments with
  | nil =>
    obtain rfl : arguments = [] := by simpa [eq_comm] using h
    rw [List.length_nil, Nat.add_zero] at hlength
    rw [List.drop_eq_nil_of_le hlength]
    rfl
  | cons q parameters ih =>
    rw [List.zipIdx_cons] at h
    obtain ⟨e, rest, he, hrest, rfl⟩ := mapM_cons_eq_some.mp h
    rw [List.length_cons] at hlength
    have hdefault : given[k]?.join = none → e.nodes = [] := by
      intro hnone
      rw [hnone] at he
      obtain ⟨v, -, rfl⟩ := Option.map_eq_some_iff.mp he
      rw [Expr.nodes]
    rw [List.flatMap_cons, ih (by omega) hrest]
    -- a position may be filled, left out, or lie behind all that is written
    by_cases hk : k < given.length
    · rw [List.drop_eq_getElem_cons hk, List.flatMap_cons]
      congr 1
      cases hgiven : given[k] with
      | none => exact hdefault (by rw [List.getElem?_eq_getElem hk, hgiven]; rfl)
      | some written =>
        rw [List.getElem?_eq_getElem hk, hgiven] at he
        obtain rfl := Option.some.inj he
        simp
    · have hle := Nat.le_of_not_lt hk
      rw [hdefault (by rw [List.getElem?_eq_none hle]; rfl), List.drop_eq_nil_of_le hle,
        List.drop_eq_nil_of_le (by omega)]
      rfl

/-- The places and calls in the arguments of a call are those written at its positions; defaults
have none. -/
private theorem nodes_supplied {parameters : List Parameter} {given : List (Option Expr)}
    {arguments : List Expr} (h : supplied parameters given = some arguments) :
    arguments.flatMap Expr.nodes = given.flatMap fun e => e.toList.flatMap Expr.nodes := by
  unfold supplied at h
  split at h
  · rename_i hlength
    exact nodes_supplied_from (k := 0) (by omega) h
  · cases h

/-- A name and the positions behind it, and the call that is read. -/
private theorem ExprTree.meant_callReading {name : Name} {given : List (Option Expr)} {e : Expr}
    {ms : List Mention} (h : callReading names name given = some e)
    (hgiven : List.Forall₂ (Mention.Means names scope) ms
      (given.flatMap fun e => e.toList.flatMap Expr.nodes)) :
    List.Forall₂ (Mention.Means names scope) (⟨name, false⟩ :: ms) e.nodes := by
  obtain ⟨ordinal, p, arguments, hordinal, -, harguments, rfl⟩ := callReading_eq_some h
  rw [Expr.nodes, Expr.nodesOfAll_eq, nodes_supplied harguments]
  exact .cons ⟨rfl, hordinal⟩ hgiven

/-- The places and calls of a chain are those of its operands, in their order. -/
private theorem nodes_foldl_extend (links : List Link) (e : Expr) :
    (links.foldl Link.extend e).nodes = e.nodes ++ links.flatMap fun l => l.operand.nodes := by
  induction links generalizing e with
  | nil => simp
  | cons l links ih =>
    rw [List.foldl_cons, ih, Link.extend, Expr.nodes, List.flatMap_cons, List.append_assoc]

/-- The places and calls of the steps of an assignment are those of its operands, in their order. -/
private theorem nodesOfSteps_links (links : List Link) :
    Expr.nodesOfSteps (links.map Link.step) = links.flatMap fun l => l.operand.nodes := by
  induction links with
  | nil => rfl
  | cons l links ih =>
    rw [List.map_cons, Link.step, Expr.nodesOfSteps, ih, List.flatMap_cons]

/-- The names of a phrase of an expression are the places and calls of what it stands for, one by
one. -/
private theorem ExprTree.meant {k : ExprSort} (t : ExprTree k) {r : ExprReading k}
    (h : t.reading names scope = some r) :
    List.Forall₂ (Mention.Means names scope) t.mentions (ExprReading.nodes r) := by
  induction t with
  | literal value =>
    obtain rfl := Option.some.inj h
    exact .nil
  | negate minus inner ih =>
    obtain ⟨e, he, rfl⟩ := reading_negate h
    have hinner := ih he
    exact hinner
  | group opening inner closing ih =>
    obtain ⟨e, he, rfl⟩ := reading_group h
    have hinner := ih he
    exact hinner
  | bareCall name | emptyCall name opening closing => exact meant_callReading h .nil
  | call name opening first others closing ihFirst ihOthers =>
    obtain ⟨f, fs, hf, hfs, hcall, -⟩ := reading_call [] h
    exact meant_callReading hcall (List.rel_append (ihFirst hf) (ihOthers hfs))
  | bumpBefore mark place =>
    obtain ⟨p, hp, -, rfl⟩ := reading_bumpBefore h
    exact .cons ⟨Or.inl rfl, PlaceTree.slot hp⟩ .nil
  | read place =>
    obtain ⟨p, hp, rfl⟩ := reading_read h
    obtain ⟨hnone, hplace⟩ := variableReading_eq_some hp
    exact .cons ⟨Or.inr hnone, PlaceTree.slot hplace⟩ .nil
  | bumpAfter place mark =>
    obtain ⟨p, hp, -, rfl⟩ := reading_bumpAfter h
    obtain ⟨hnone, hplace⟩ := variableReading_eq_some hp
    exact .cons ⟨Or.inr hnone, PlaceTree.slot hplace⟩ .nil
  | chain first others ihFirst ihOthers =>
    obtain ⟨e, links, he, hlinks, rfl⟩ := reading_chain h
    have hboth := List.rel_append (ihFirst he) (ihOthers hlinks)
    simpa only [mentions, ExprReading.nodes, nodes_foldl_extend] using hboth
  | noLink =>
    obtain rfl := Option.some.inj h
    exact .nil
  | link op operand others ihOperand ihOthers =>
    obtain ⟨e, links, he, hlinks, rfl⟩ := reading_link h
    exact List.rel_append (ihOperand he) (ihOthers hlinks)
  | vacant =>
    obtain rfl := Option.some.inj h
    exact .nil
  | filled value ih =>
    obtain ⟨e, he, rfl⟩ := reading_filled h
    simpa [mentions, ExprReading.nodes] using ih he
  | noPosition =>
    obtain rfl := Option.some.inj h
    exact .nil
  | position comma first others ihFirst ihOthers =>
    obtain ⟨f, fs, hf, hfs, rfl⟩ := reading_position h
    exact List.rel_append (ihFirst hf) (ihOthers hfs)

/-- The names of a chain that is assigned are the places and calls behind the target. -/
private theorem ExprTree.meant_assigned {t : ExprTree .chain} {target : Place}
    {op : Option Arithmetic}
    {line : Nat} {e : Expr} (h : t.assigned names scope target op line = some e) :
    ∃ steps, e = .assign target steps ∧
      List.Forall₂ (Mention.Means names scope) t.mentions (Expr.nodesOfSteps steps) := by
  cases t with
  | chain first others =>
    obtain ⟨e₀, links, he₀, hlinks, rfl⟩ := assigned_chain h
    refine ⟨_, rfl, ?_⟩
    rw [Expr.nodesOfSteps, nodesOfSteps_links]
    exact List.rel_append (first.meant he₀) (others.meant hlinks)

section Lists

variable {α β γ δ : Type} {R : γ → δ → Prop} {read : α → Option β} {f : α → List γ}
  {g : β → List δ}

/-- What corresponds item by item corresponds as a whole. -/
private theorem forall₂_flatMap_of_mapM {as : List α} {bs : List β} (h : as.mapM read = some bs)
    (hR : ∀ a b, read a = some b → List.Forall₂ R (f a) (g b)) :
    List.Forall₂ R (as.flatMap f) (bs.flatMap g) := by
  induction as generalizing bs with
  | nil =>
    obtain rfl : bs = [] := by simpa [eq_comm] using h
    exact .nil
  | cons a as ih =>
    obtain ⟨b, bs', hb, hbs', rfl⟩ := mapM_cons_eq_some.mp h
    exact List.rel_append (hR a b hb) (ih hbs')

/-- What corresponds in an optional part corresponds whether the part is there or not. -/
private theorem forall₂_flatMap_of_readOption {t : Option α} {r : Option β}
    (h : readOption read t = some r) (hR : ∀ a b, read a = some b → List.Forall₂ R (f a) (g b)) :
    List.Forall₂ R (t.toList.flatMap f) (r.toList.flatMap g) := by
  cases t with
  | none =>
    obtain rfl := Option.some.inj h
    exact .nil
  | some a =>
    obtain ⟨b, hb, rfl⟩ := Option.map_eq_some_iff.mp h
    simpa using hR a b hb

end Lists

/-- The names of a term are the places and calls of what it stands for. -/
private theorem TermTree.meant {t : TermTree} {r : Term} (h : t.reading names scope = some r) :
    List.Forall₂ (Mention.Means names scope) t.mentions r.nodes := by
  obtain ⟨bangs, left, comparison⟩ := t
  obtain ⟨e, c, he, hc, rfl⟩ := reading_eq_some h
  refine List.rel_append (left.meant he) ?_
  cases comparison with
  | none =>
    obtain rfl := Option.some.inj hc
    exact .nil
  | some side =>
    obtain ⟨mark, right⟩ := side
    obtain ⟨e', he', hside⟩ := Option.bind_eq_some_iff.mp hc
    obtain rfl := Option.some.inj hside
    simpa [ExprReading.nodes] using right.meant he'

/-- The names of a condition are those of its terms, in their order. -/
private theorem ConditionTree.meant {t : ConditionTree} {r : Condition}
    (h : t.reading names scope = some r) :
    List.Forall₂ (Mention.Means names scope) t.mentions r.nodes := by
  obtain ⟨hfirst, hothers⟩ := reading_eq_some h
  refine List.rel_append (TermTree.meant hfirst) (forall₂_flatMap_of_mapM hothers ?_)
  intro later found hfound
  obtain ⟨term, hterm, rfl⟩ := laterReading_eq_some hfound
  exact TermTree.meant hterm

/-- The names of an assignment begin with its target, those of a chain with its first operand. -/
private theorem StmtExprTree.meant {t : StmtExprTree} {e : Expr}
    (h : t.reading names scope = some e) :
    List.Forall₂ (Mention.Means names scope) t.mentions e.nodes := by
  cases t with
  | plain value => exact value.meant h
  | assign target mark value =>
    obtain ⟨p, hp, -, hassigned⟩ := reading_assign h
    obtain ⟨steps, rfl, hsteps⟩ := ExprTree.meant_assigned hassigned
    obtain ⟨hnone, hplace⟩ := ExprTree.variableReading_eq_some hp
    rw [Expr.nodes]
    exact .cons ⟨Or.inr hnone, PlaceTree.slot hplace⟩ hsteps

/-! ### Names of statements -/

/-- What a name stands for under tables that some declarations of its scope have led to. -/
def Mention.MeansBehind (names : Names) (scope : Scope) (m : Mention) (n : Node) : Prop :=
  ∃ now, Names.Declares scope names now ∧ m.Means now scope n

/-- What a name means under some tables it means where nothing has been declared since. -/
private theorem meansBehind {ms : List Mention} {ns : List Node}
    (h : List.Forall₂ (Mention.Means names scope) ms ns) :
    List.Forall₂ (Mention.MeansBehind names scope) ms ns :=
  h.imp fun _ _ hmeans => ⟨names, .refl names, hmeans⟩

/-- A name that is looked up behind declarations is looked up behind more of them. -/
private theorem meansBehind_of_declares {ms : List Mention} {ns : List Node}
    (hdeclares : Names.Declares scope names later)
    (h : List.Forall₂ (Mention.MeansBehind later scope) ms ns) :
    List.Forall₂ (Mention.MeansBehind names scope) ms ns := by
  refine h.imp fun m n hmeans => ?_
  obtain ⟨now, hnow, hmeans⟩ := hmeans
  exact ⟨now, hdeclares.trans hnow, hmeans⟩

/-- The names behind a declared name are looked up once that name has been entered. -/
private theorem DeclaratorTree.meant {t : DeclaratorTree} {type : CellType} {d : Declarator}
    (h : t.reading scope type names = some (d, later)) :
    List.Forall₂ (Mention.MeansBehind names scope) t.mentions d.nodes := by
  obtain ⟨name, initial⟩ := t
  obtain ⟨slot, value, hdeclare, hvalue, rfl⟩ := reading_eq_some h
  cases initial with
  | none =>
    obtain rfl := Option.some.inj hvalue
    exact .nil
  | some assigned =>
    obtain ⟨mark, chain⟩ := assigned
    cases type with
    | object number => cases hvalue
    | scalar type =>
      obtain ⟨e, he, hvalue⟩ := Option.bind_eq_some_iff.mp hvalue
      obtain rfl := Option.some.inj hvalue
      obtain ⟨steps, rfl, hsteps⟩ := ExprTree.meant_assigned he
      have hbehind := meansBehind_of_declares (.step hdeclare (.refl later)) (meansBehind hsteps)
      simpa [mentions, Declarator.nodes] using hbehind

/-- The names of a declaration are looked up under the tables that the declared names in front of
them leave. -/
private theorem meant_of_readAll {type : CellType} {trees : List DeclaratorTree}
    {ds : List Declarator}
    (h : readAll (DeclaratorTree.reading scope type) trees names = some (ds, later)) :
    List.Forall₂ (Mention.MeansBehind names scope) (trees.flatMap DeclaratorTree.mentions)
      (ds.flatMap Declarator.nodes) := by
  induction trees generalizing names ds with
  | nil =>
    obtain ⟨rfl, rfl⟩ := Prod.mk.inj (Option.some.inj h)
    exact .nil
  | cons t trees ih =>
    obtain ⟨d, middle, ds', hfirst, hrest, rfl⟩ := readAll_cons_eq_some.mp h
    obtain ⟨slot, value, hdeclare, -⟩ := DeclaratorTree.reading_eq_some hfirst
    have hlater := meansBehind_of_declares (.step hdeclare (.refl middle)) (ih hrest)
    exact List.rel_append (DeclaratorTree.meant hfirst) hlater

private theorem DeclaratorsTree.meant {t : DeclaratorsTree} {type : CellType} {ds : List Declarator}
    (h : t.reading scope type names = some (ds, later)) :
    List.Forall₂ (Mention.MeansBehind names scope) t.mentions (ds.flatMap Declarator.nodes) := by
  have hall := meant_of_readAll h
  simpa only [mentions, List.flatMap_cons, List.flatMap_map] using hall

private theorem nodesOfAll_singleton (s : Stmt) : Stmt.nodesOfAll [s] = s.nodes := by
  rw [Stmt.nodesOfAll, Stmt.nodesOfAll, List.append_nil]

/-- The names of statements are the places and calls of what they stand for, one by one, each looked
up under the tables in front of it. -/
theorem StmtTree.meant {k : StmtSort} (t : StmtTree k) {r : StmtReading k}
    (hspelled : Spelled t.yield) (h : t.reading scope names = some (r, later)) :
    List.Forall₂ (Mention.MeansBehind names scope) t.mentions
      (Stmt.nodesOfAll (StmtReading.all r)) := by
  induction t generalizing names later with
  | declare type vars =>
    obtain ⟨cell, ds, -, hvars, rfl⟩ := reading_declare h
    rw [StmtReading.all, nodesOfAll_singleton, Stmt.nodes]
    exact DeclaratorsTree.meant hvars
  | print template arguments semicolon =>
    obtain ⟨es, hes, rfl, rfl⟩ := reading_print h
    rw [StmtReading.all, nodesOfAll_singleton, Stmt.nodes]
    exact meansBehind (forall₂_flatMap_of_mapM hes fun argument e he => argument.2.meant he)
  | loop word opening initial first test second step closing body ih =>
    obtain ⟨initial', test', step', body', hinitial, htest, hstep, hbody, rfl⟩ := reading_loop h
    simp only [yield, List.append_assoc, List.cons_append, Spelled.cons_iff,
      Spelled.append_iff] at hspelled
    obtain ⟨-, -, -, -, -, -, -, -, hsbody⟩ := hspelled
    rw [StmtReading.all, nodesOfAll_singleton, Stmt.nodes]
    have hheads := List.rel_append (List.rel_append
      (forall₂_flatMap_of_readOption hinitial fun _ _ => StmtExprTree.meant)
      (forall₂_flatMap_of_readOption htest fun _ _ => ConditionTree.meant))
      (forall₂_flatMap_of_readOption hstep fun _ _ => StmtExprTree.meant)
    exact List.rel_append (meansBehind hheads) (ih hsbody hbody)
  | branch word opening test closing yes ih =>
    obtain ⟨test', yes', htest, hyes, rfl⟩ := reading_branch h
    simp only [yield, List.cons_append, Spelled.cons_iff, Spelled.append_iff] at hspelled
    obtain ⟨-, -, -, -, hsyes⟩ := hspelled
    rw [StmtReading.all, nodesOfAll_singleton, Stmt.nodes]
    exact List.rel_append (meansBehind (ConditionTree.meant htest)) (ih hsyes hyes)
  | branchElse word opening test closing yes otherwise no ihYes ihNo =>
    obtain ⟨-, test', yes', between, no', htest, hyes, hno, rfl⟩ := reading_branchElse h
    simp only [yield, List.append_assoc, List.cons_append, Spelled.cons_iff,
      Spelled.append_iff] at hspelled
    obtain ⟨-, -, -, -, hsyes, -, hsno⟩ := hspelled
    rw [StmtReading.all, nodesOfAll_singleton, Stmt.nodes]
    -- a name in the second branch is looked up behind the declarations of the first
    have hbefore := List.rel_append (meansBehind (ConditionTree.meant htest)) (ihYes hsyes hyes)
    have hdeclares := (yes.scoped hsyes hyes).declares
    exact List.rel_append hbefore (meansBehind_of_declares hdeclares (ihNo hsno hno))
  | giveBack word value semicolon =>
    obtain ⟨-, value', hvalue, rfl, rfl⟩ := reading_giveBack h
    rw [StmtReading.all, nodesOfAll_singleton, Stmt.nodes]
    exact meansBehind (forall₂_flatMap_of_readOption hvalue fun a _ => ExprTree.meant a)
  | foreign code =>
    obtain ⟨rfl, rfl⟩ := Prod.mk.inj (Option.some.inj h)
    exact .nil
  | expr e semicolon =>
    obtain ⟨-, e', he, rfl, rfl⟩ := reading_expr h
    rw [StmtReading.all, nodesOfAll_singleton, Stmt.nodes]
    exact meansBehind (StmtExprTree.meant he)
  | single s ih =>
    obtain ⟨s', hs, rfl⟩ := reading_single h
    have hsingle := ih hspelled hs
    exact hsingle
  | block opening body closing ih =>
    exact ih (Spelled.append_iff.mp (Spelled.cons_iff.mp hspelled).2).1 h
  | noStatement =>
    obtain ⟨rfl, rfl⟩ := Prod.mk.inj (Option.some.inj h)
    exact .nil
  | statement first others ihFirst ihOthers =>
    obtain ⟨s, middle, ss, hs, hss, rfl⟩ := reading_statement h
    obtain ⟨hfirst, hothers⟩ := Spelled.append_iff.mp hspelled
    -- the later statements are read under the tables that the first one leads to
    have hdeclares := (first.scoped hfirst hs).declares
    have hstatement := ihFirst hfirst hs
    rw [StmtReading.all, nodesOfAll_singleton] at hstatement
    rw [StmtReading.all, Stmt.nodesOfAll]
    exact List.rel_append hstatement (meansBehind_of_declares hdeclares (ihOthers hothers hss))

/-! ### Parameters -/

/-- Locals change neither what a procedure is called nor which one is found under a name. -/
private theorem procedure?_of_declares {ordinal : Nat}
    (h : Names.Declares (.procedure ordinal) names later) (name : String) :
    later.procedure? name = names.procedure? name := by
  -- procedures are looked up by name only, and a new local keeps all names
  have hmap : ∀ ns : Names, ns.procedure? name =
      (ns.procedures.map (·.name)).findIdx? (· == name) := by
    intro ns
    rw [List.findIdx?_map]
    rfl
  induction h with
  | refl names => rfl
  | @step names middle later v slot hstep hrest ih =>
    obtain ⟨p, hp, -, rfl⟩ := Names.declare_procedure hstep
    have hsame : (names.procedures.map (·.name)).set ordinal p.name =
        names.procedures.map (·.name) := by
      refine List.ext_getElem? fun i => ?_
      by_cases hi : ordinal = i
      · subst hi
        have hlt := (List.getElem?_eq_some_iff.mp hp).1
        rw [List.getElem?_set_self (by simpa using hlt), List.getElem?_map, hp]
        rfl
      · rw [List.getElem?_set_ne hi]
    rw [ih, hmap, hmap, List.map_set, hsame]

/-- A parameter is found under its name, whatever else is. -/
private theorem resolve_parameter {ordinal i : Nat} {p : Signature} {q : Parameter}
    (hp : names.procedures[ordinal]? = some p) (hq : p.parameters[i]? = some q)
    (hnodup : (p.parameters.map (·.name)).Nodup) :
    names.resolve (.procedure ordinal) q.name = some (.argument i) := by
  have hfind : (p.parameters.findIdx? fun r => r.name == q.name) = some i := by
    obtain ⟨hi, hqi⟩ := List.getElem?_eq_some_iff.mp hq
    refine List.findIdx?_eq_some_iff_getElem.mpr ⟨hi, by rw [hqi]; exact beq_self_eq_true _, ?_⟩
    intro j hj hname
    -- two parameters of one name would be one
    have hjlt : j < p.parameters.length := by omega
    have hsame : (p.parameters.map (·.name))[j]? = (p.parameters.map (·.name))[i]? := by
      rw [List.getElem?_map, List.getElem?_map, hq, List.getElem?_eq_getElem hjlt]
      exact congrArg some (eq_of_beq hname)
    have hji := (List.getElem?_inj (by simpa using hjlt) hnodup).mp hsame
    omega
  simp [Names.resolve, Names.signature?, hp, Signature.slot?, hfind]

/-- The parameters of a procedure have different names. -/
private theorem ParameterTree.nodup_of_readingAll
    {parameters : Option (ParameterTree × List (Punct .comma × ParameterTree))}
    {ps : List Parameter} (h : readingAll parameters = some ps) : (ps.map (·.name)).Nodup := by
  cases parameters with
  | none =>
    obtain rfl := Option.some.inj h
    exact List.nodup_nil
  | some some =>
    exact (readingAll_some h).2

/-- What the name of a parameter stands for in the body of its procedure, when the given tables are
those in front of the body: the parameter, unless a procedure has the same name and no mark stands
in front of it; then a call of that procedure. -/
def Mention.OfParameter (opened : Names) (m : Mention) (i : Nat) (n : Node) : Prop :=
  (m.marked = true ∨ opened.procedure? m.name.lexeme = none →
      ∃ place, n = .place place ∧ place.slot = .argument i) ∧
    ∀ ordinal, m.marked = false → opened.procedure? m.name.lexeme = some ordinal →
      n = .call ordinal

/-- A name in the body of a procedure that is the name of a parameter stands for that parameter,
unless it is read as a call. -/
private theorem Mention.MeansBehind.ofParameter {ordinal i : Nat} {p : Signature} {q : Parameter}
    (hp : names.procedures[ordinal]? = some p) (hq : p.parameters[i]? = some q)
    (hnodup : (p.parameters.map (·.name)).Nodup) {m : Mention} {n : Node}
    (hspelled : m.name.token.Spelled) (hname : q.name = m.name.lexeme)
    (h : m.MeansBehind names (.procedure ordinal) n) : m.OfParameter names i n := by
  obtain ⟨now, hdeclares, hmeans⟩ := h
  obtain ⟨p', hp', hgrows⟩ := hdeclares.grows.procedures hp
  rw [← hgrows.parameters] at hq hnodup
  have hresolve := resolve_parameter hp' hq hnodup
  have hprocedure := procedure?_of_declares hdeclares m.name.lexeme
  have hvalue := lexeme_of_spelled m.name hspelled
  cases n with
  | place place =>
    obtain ⟨hfirst, hslot⟩ := hmeans
    rw [← hname, hresolve] at hslot
    refine ⟨fun _ => ⟨place, rfl, (Option.some.inj hslot).symm⟩, fun found hmarked hfound => ?_⟩
    rcases hfirst with htrue | hnone
    · rw [hmarked] at htrue
      cases htrue
    · rw [← hvalue, hprocedure, hfound] at hnone
      cases hnone
  | call found =>
    obtain ⟨hmarked, hfound⟩ := hmeans
    rw [← hvalue, hprocedure] at hfound
    refine ⟨fun hother => ?_, fun found' _ hfound' => ?_⟩
    · rcases hother with htrue | hnone
      · rw [hmarked] at htrue
        cases htrue
      · rw [hfound] at hnone
        cases hnone
    · rw [hfound] at hfound'
      rw [Option.some.inj hfound']

/-- What the names in the body of a procedure stand for that are names of its parameters. -/
private theorem ItemTree.ofParameter {type : Leaf Kind.scalar?} {name : Name}
    {opening : Punct .leftParen}
    {parameters : Option (ParameterTree × List (Punct .comma × ParameterTree))}
    {closing : Punct .rightParen} {begins : Punct .leftBrace} {body : StmtTree .statements}
    {ends : Punct .rightBrace} {s : Stmt} (hspelled : Spelled body.yield)
    (h : (ItemTree.procedure type name opening parameters closing begins body ends).reading names =
      some (s, later)) :
    ∃ (p : Procedure) (ps : List Parameter) (opened : Names), s = .procedure p ∧
      ParameterTree.readingAll parameters = some ps ∧
      names.declareProcedure ⟨p.name, p.returns, ps, []⟩ = some (p.ordinal, opened) ∧
      List.Forall₂ (fun m n => ∀ i q, ps[i]? = some q → q.name = m.name.lexeme →
        m.OfParameter opened i n) body.mentions (Stmt.nodesOfAll p.body) := by
  obtain ⟨ps, ordinal, opened, body', signature, hps, hdeclare, hbody, -, rfl⟩ :=
    reading_procedure h
  refine ⟨_, ps, opened, rfl, hps, hdeclare, ?_⟩
  obtain ⟨hordinal, hopened⟩ := Names.declareProcedure_eq_some hdeclare
  have hentry : opened.procedures[ordinal]? = some ⟨name.lexeme, type.value, ps, []⟩ := by
    rw [hopened, hordinal, List.getElem?_concat_length]
  have hmeant := body.meant hspelled hbody
  refine List.forall₂_iff_get.mpr ⟨hmeant.length_eq, fun j hj hj' i q hq hname => ?_⟩
  have hj'' := (List.forall₂_iff_get.mp hmeant).2 j hj hj'
  have htoken := hspelled _ (StmtTree.mem_yield (List.get_mem body.mentions ⟨j, hj⟩))
  exact hj''.ofParameter hentry hq (ParameterTree.nodup_of_readingAll hps) htoken hname

/-- What is read at one position, with the tables in front of it. -/
private theorem readAll_getElem? {α β : Type} {read : α → Names → Option (β × Names)} {as : List α}
    {bs : List β} (h : readAll read as names = some (bs, later)) {j : Nat} {a : α}
    (ha : as[j]? = some a) :
    ∃ b front behind, bs[j]? = some b ∧
      readAll read (as.take j) names = some (bs.take j, front) ∧
      read a front = some (b, behind) := by
  obtain ⟨b, front, behind, hb, htake, hread, -⟩ := readAll_split h ha
  exact ⟨b, front, behind, hb, htake, hread⟩

/-- In the body of every procedure of a program, the names of its parameters stand for the
parameters, but for those that are names of procedures. The tokens of the program have one
derivation; its names in expression position and the places and calls of the program that is read
go together one by one. -/
def ParametersFound (names : Names) (tokens : List Token) (statements : List Stmt) : Prop :=
  ∃ d : Derivation names tokens, d.statements = statements ∧
    ∀ (j : Nat) (type : Leaf Kind.scalar?) (name : Name) (opening : Punct .leftParen)
      (parameters : Option (ParameterTree × List (Punct .comma × ParameterTree)))
      (closing : Punct .rightParen) (begins : Punct .leftBrace) (body : StmtTree .statements)
      (ends : Punct .rightBrace),
      d.items[j]? = some (.procedure type name opening parameters closing begins body ends) →
      ∃ (p : Procedure) (ps : List Parameter) (front opened : Names),
        statements[j]? = some (.procedure p) ∧ ParameterTree.readingAll parameters = some ps ∧
        readAll ItemTree.reading (d.items.take j) names = some (statements.take j, front) ∧
        front.declareProcedure ⟨p.name, p.returns, ps, []⟩ = some (p.ordinal, opened) ∧
        List.Forall₂ (fun m n => ∀ i q, ps[i]? = some q → q.name = m.name.lexeme →
          m.OfParameter opened i n) body.mentions (Stmt.nodesOfAll p.body)

/-- In the body of every accepted procedure, a name in expression position that is the name of a
parameter stands for that parameter, whatever globals, locals and classes have the same name, except
that it is a call if a procedure has that name and no mark stands in front. -/
theorem parameter_of_mention {fetch : Option Fetcher} {fetched : List String} {text : String}
    {stream : Stream} {statements : List Stmt}
    (hscan : (Stream.ofText fetch fetched text).outcome = .ok stream)
    (hparse : parse names stream = (.ok statements, later)) :
    ParametersFound names stream.tokens statements := by
  obtain ⟨d, rfl, rfl⟩ := exists_derivation_of_parse hparse
  refine ⟨d, rfl, fun j type name opening parameters closing begins body ends hitem => ?_⟩
  obtain ⟨s, front, behind, hs, htake, hread⟩ := readAll_getElem? d.reads hitem
  have hspelled : Spelled body.yield := by
    intro t ht
    refine Stream.spelled_ofText hscan t ?_
    rw [← d.yields]
    refine List.mem_flatMap.mpr ⟨_, List.mem_of_getElem? hitem, ?_⟩
    simp only [ItemTree.yield, List.cons_append, List.append_assoc, List.mem_cons, List.mem_append,
      ht, true_or, or_true]
  obtain ⟨p, ps, opened, rfl, hps, hdeclare, hmeant⟩ := ItemTree.ofParameter hspelled hread
  exact ⟨p, ps, front, opened, hs, hps, htake, hdeclare, hmeant⟩

/-- The slots of the names in the body of a procedure; that of a procedure has none. -/
def bodySlots : Stmt → List (Option Slot)
  | .procedure p => (Stmt.nodesOfAll p.body).map fun
    | .place place => some place.slot
    | .call _ => none
  | _ => []

/-- The second parameter is found under its name, and the first one, which is called like a
procedure, only behind a mark. -/
theorem parameter_of_mention_partly_hidden :
    let text :=
      "I32 f() \x7b return 7; \x7d I32 g(I32 f, I32 a) \x7b a = f + a; return ++f; \x7d"
    ∃ stream statements later s, (Stream.ofText none [] text).outcome = .ok stream ∧
      parse Names.empty stream = (.ok statements, later) ∧ statements[1]? = some s ∧
      bodySlots s = [some (.argument 1), none, some (.argument 1), some (.argument 0)] ∧
      ParametersFound Names.empty stream.tokens statements := by
  intro text
  have hrun : ((Stream.ofText none [] text).outcome.toOption.bind fun stream =>
        (parse Names.empty stream).1.toOption.bind fun statements =>
          statements[1]?.map bodySlots) =
      some [some (.argument 1), none, some (.argument 1), some (.argument 0)] := by
    decide +kernel
  obtain ⟨stream, hscan, hrun⟩ := Option.bind_eq_some_iff.mp hrun
  obtain ⟨statements, hparse, hrun⟩ := Option.bind_eq_some_iff.mp hrun
  obtain ⟨s, hs, hslots⟩ := Option.map_eq_some_iff.mp hrun
  have hscan := eq_ok_of_toOption hscan
  have hparse : parse Names.empty stream = (.ok statements, (parse Names.empty stream).2) :=
    Prod.ext (eq_ok_of_toOption hparse) rfl
  exact ⟨stream, statements, _, s, hscan, hparse, hs, hslots, parameter_of_mention hscan hparse⟩

/-- Whether a procedure does nothing but give back the call of another, without arguments. -/
def returnsCall (name : String) : Stmt → Bool
  | .procedure ⟨_, _, _, _, _, [.giveBack (some (.call _ called [] _)) _]⟩ => called == name
  | _ => false

/-- A parameter does not win over a procedure of its name: where the parameter is to be given back,
the procedure is called. -/
theorem parameter_hidden_by_procedure :
    let text := "I32 f() \x7b return 7; \x7d I32 g(I32 f) \x7b return f; \x7d"
    ∃ stream statements later s, (Stream.ofText none [] text).outcome = .ok stream ∧
      parse Names.empty stream = (.ok statements, later) ∧ statements[1]? = some s ∧
      (later.procedures[1]?.map fun p => p.parameters.map (·.name)) = some ["f"] ∧
      returnsCall "f" s = true := by
  intro text
  have hrun : ((Stream.ofText none [] text).outcome.toOption.bind fun stream =>
      (parse Names.empty stream).1.toOption.bind fun statements =>
        statements[1]?.filter fun s => decide
          (((parse Names.empty stream).2.procedures[1]?.map fun p =>
            p.parameters.map (·.name)) = some ["f"] ∧ returnsCall "f" s = true)).isSome = true := by
    decide +kernel
  obtain ⟨s, hrun⟩ := Option.isSome_iff_exists.mp hrun
  obtain ⟨stream, hscan, hrun⟩ := Option.bind_eq_some_iff.mp hrun
  obtain ⟨statements, hparse, hrun⟩ := Option.bind_eq_some_iff.mp hrun
  obtain ⟨hs, hfound⟩ := Option.filter_eq_some_iff.mp hrun
  obtain ⟨hnames, hcall⟩ := of_decide_eq_true hfound
  have hparse : parse Names.empty stream = (.ok statements, (parse Names.empty stream).2) :=
    Prod.ext (eq_ok_of_toOption hparse) rfl
  exact ⟨stream, statements, _, s, eq_ok_of_toOption hscan, hparse, hs, hnames, hcall⟩

end Grammar

end Litany
