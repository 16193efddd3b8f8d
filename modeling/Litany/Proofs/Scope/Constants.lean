import Litany.Proofs.Machine.ScopedActs
import Litany.Proofs.Scope.Reading

/-!
# Constants are not written

A write is admitted only where the tables in front of it do not call the slot a constant, and a
declaration hands out a slot that was not there before. So nothing that is read under tables with a
constant writes to it, in whatever scope, and whatever other variables have its name: every act
`Keeps` it. And what is read before a constant is declared does not know it at all: such acts do not
look at its slot either, and call no procedure that could.
-/

namespace Litany

/-! ### Acts that keep a global -/

/-- An act that does not write to a global, looks only at places of some kind, and calls only some
procedures. The body of a procedure that is installed consists of such acts. -/
inductive Act.Spares (i : Nat) (reads : Place → Prop) (calls : Nat → Prop) : Act → Prop where
  | read {p : Place} (hp : reads p) : Spares i reads calls (.read p)
  | write {p : Place} (hp : p.slot ≠ .global i) : Spares i reads calls (.write p)
  | reset {p : Place} (hp : p.slot ≠ .global i) : Spares i reads calls (.reset p)
  | call {ordinal : Nat} (name : String) (count : Nat) (hordinal : calls ordinal) :
      Spares i reads calls (.call ordinal name count)
  | install {p : Procedure} (hp : ∀ a ∈ Stmt.actsOfAll p.body, Spares i reads calls a) :
      Spares i reads calls (.install p)

/-- An act that does not write to a global. -/
def Act.Keeps (i : Nat) : Act → Prop :=
  Act.Spares i (fun _ => True) fun _ => True

/-- An act that knows neither a global nor the procedures from some ordinal on. -/
def Act.Ignores (i k : Nat) : Act → Prop :=
  Act.Spares i (fun p => p.slot ≠ .global i) fun ordinal => ordinal < k

theorem Act.Spares.mono {i : Nat} {reads reads' : Place → Prop} {calls calls' : Nat → Prop}
    {a : Act} (h : a.Spares i reads calls) (hreads : ∀ p, reads p → reads' p)
    (hcalls : ∀ ordinal, calls ordinal → calls' ordinal) : a.Spares i reads' calls' := by
  induction h with
  | read hp => exact .read (hreads _ hp)
  | write hp => exact .write hp
  | reset hp => exact .reset hp
  | call name count hordinal => exact .call name count (hcalls _ hordinal)
  | install _ ih => exact .install ih

theorem Act.Ignores.keeps {i k : Nat} {a : Act} (h : a.Ignores i k) : a.Keeps i :=
  Act.Spares.mono h (fun _ _ => trivial) fun _ _ => trivial

section Tables

variable {names : Names} {i k : Nat}

/-- A slot that is handed out is none that will be handed out later. -/
private theorem Names.Bound.slot_ne {scope : Scope} {slot : Slot} (h : names.Bound scope slot)
    (hi : names.globals.length ≤ i) : slot ≠ .global i := by
  rintro rfl
  cases h with
  | global hlt => exact absurd hlt (Nat.not_lt_of_le hi)

/-- What agrees with tables does not know what is declared behind them. -/
theorem Act.Scoped.ignores {scope : Scope} {a : Act} (h : a.Scoped names scope)
    (hi : names.globals.length ≤ i) (hk : names.procedures.length ≤ k) : a.Ignores i k := by
  have hcall : ∀ {ordinal count : Nat} {name : String} {scope : Scope},
      Act.Scoped names scope (.call ordinal name count) → ordinal < k := by
    rintro ordinal count name scope ⟨signature, hsignature, -⟩
    exact Nat.lt_of_lt_of_le (List.getElem?_eq_some_iff.mp hsignature).1 hk
  -- nothing is installed in the body of a procedure, so two levels are enough
  have hinner : ∀ (ordinal : Nat) (a : Act), a.Scoped names (.procedure ordinal) →
      a.Ignores i k := by
    intro ordinal a ha
    cases a with
    | read p => exact .read (ha.bound.slot_ne hi)
    | write p => exact .write (ha.1.bound.slot_ne hi)
    | reset p => exact .reset (ha.1.bound.slot_ne hi)
    | call ordinal name count => exact .call name count (hcall ha)
    | install p => cases ha.1
  cases a with
  | read p => exact .read (h.bound.slot_ne hi)
  | write p => exact .write (h.1.bound.slot_ne hi)
  | reset p => exact .reset (h.1.bound.slot_ne hi)
  | call ordinal name count => exact .call name count (hcall h)
  | install p => exact .install fun a ha => hinner p.ordinal a (h.2.acts a ha)

end Tables

/-! ### Constants -/

/-- The global with the given index is a constant. -/
def Names.Constant (names : Names) (i : Nat) : Prop :=
  ∃ v, names.globals[i]? = some v ∧ v.constant = true

namespace Names.Constant

variable {names later : Names} {i : Nat}

theorem mono (h : names.Constant i) (hgrows : names.Grows later) : later.Constant i := by
  obtain ⟨v, hv, hconstant⟩ := h
  exact ⟨v, Names.Grows.getElem?_of_prefix hgrows.globals hv, hconstant⟩

/-- A declaration hands out another slot. -/
private theorem slot_ne_of_declare (h : names.Constant i) {scope : Scope} {v : Variable}
    {slot : Slot} (hdeclare : names.declare scope v = some (slot, later)) : slot ≠ .global i := by
  obtain ⟨w, hw, -⟩ := h
  rintro rfl
  cases scope with
  | top =>
    obtain ⟨hslot, -⟩ := Names.declare_top hdeclare
    obtain rfl := Slot.global.inj hslot
    simp at hw
  | procedure ordinal =>
    obtain ⟨p, -, hslot, -⟩ := Names.declare_procedure hdeclare
    cases hslot

/-- A place that may be written is another one. -/
private theorem slot_ne_of_writable (h : names.Constant i) {scope : Scope} {p : Place}
    (hp : Grammar.writable names scope p = true) : p.slot ≠ .global i := by
  obtain ⟨v, hv, hconstant⟩ := h
  intro hslot
  rw [Grammar.writable, Bool.and_eq_true] at hp
  simp [hslot, Names.slotType?, hv, hconstant] at hp

end Names.Constant

namespace Grammar

variable {names later : Names} {scope : Scope} {i : Nat}

/-! ### Expressions -/

/-- The readings of the phrases of an expression keep a global if their parts do. -/
def ExprReading.Keeps (i : Nat) : {k : ExprSort} → ExprReading k → Prop
  | .operand, e => Allowed (Act.Keeps i) (Expr.acts e)
  | .chain, e => Allowed (Act.Keeps i) (Expr.acts e)
  | .links, links => ∀ l ∈ (links : List Link), Allowed (Act.Keeps i) l.operand.acts
  | .position, given => ∀ e, (given : Option Expr) = some e → Allowed (Act.Keeps i) e.acts
  | .positions, given => ∀ e, some e ∈ (given : List (Option Expr)) → Allowed (Act.Keeps i) e.acts

private theorem keeps_foldl_extend {links : List Link} {e : Expr}
    (he : Allowed (Act.Keeps i) e.acts)
    (hlinks : ∀ l ∈ links, Allowed (Act.Keeps i) l.operand.acts) :
    Allowed (Act.Keeps i) (links.foldl Link.extend e).acts := by
  induction links generalizing e with
  | nil => exact he
  | cons l links ih =>
    obtain ⟨hl, hrest⟩ := List.forall_mem_cons.mp hlinks
    exact ih (Allowed.append_iff.mpr ⟨he, hl⟩) hrest

private theorem ExprTree.callReading_keeps {name : Name} {given : List (Option Expr)} {e : Expr}
    (hgiven : ∀ e, some e ∈ given → Allowed (Act.Keeps i) e.acts)
    (h : callReading names name given = some e) : Allowed (Act.Keeps i) e.acts := by
  obtain ⟨ordinal, p, arguments, -, -, harguments, rfl⟩ := callReading_eq_some h
  obtain ⟨-, hmembers⟩ := supplied_eq_some harguments
  rw [Expr.acts, Allowed.cons_iff, Expr.actsOfAll_eq, Allowed.flatMap_iff]
  refine ⟨.call _ _ trivial, fun e he => ?_⟩
  rcases hmembers e he with hwritten | ⟨v, rfl⟩
  · exact hgiven e hwritten
  · exact .nil

/-- What a phrase of an expression stands for keeps every constant of the tables in front of it. -/
theorem ExprTree.keeps (hconstant : names.Constant i) {k : ExprSort} (t : ExprTree k)
    {r : ExprReading k} (h : t.reading names scope = some r) : ExprReading.Keeps i r := by
  have hbump : ∀ {p : Place} (up after : Bool) (line : Nat), writable names scope p = true →
      Allowed (Act.Keeps i) (Expr.bump p up after line).acts := fun up after line hwritable =>
    Allowed.singleton_iff.mpr (.write (hconstant.slot_ne_of_writable hwritable))
  induction t with
  | literal value =>
    obtain rfl := Option.some.inj h
    exact .nil
  | negate minus inner ih =>
    obtain ⟨e, he, rfl⟩ := reading_negate h
    have hinner : Allowed (Act.Keeps i) (Expr.acts e) := ih he
    exact hinner
  | group opening inner closing ih =>
    obtain ⟨e, he, rfl⟩ := reading_group h
    have hinner : Allowed (Act.Keeps i) (Expr.acts e) := ih he
    exact hinner
  | bareCall name | emptyCall name opening closing => exact callReading_keeps (by simp) h
  | call name opening first others closing ihFirst ihOthers =>
    obtain ⟨f, fs, hf, hfs, hcall, -⟩ := reading_call [] h
    refine callReading_keeps (fun e he => ?_) hcall
    rcases List.mem_cons.mp he with hhead | htail
    · exact ihFirst hf e hhead.symm
    · exact ihOthers hfs e htail
  | bumpBefore mark place =>
    obtain ⟨p, -, hwritable, rfl⟩ := reading_bumpBefore h
    exact hbump _ _ _ hwritable
  | bumpAfter place mark =>
    obtain ⟨p, -, hwritable, rfl⟩ := reading_bumpAfter h
    exact hbump _ _ _ hwritable
  | read place =>
    obtain ⟨p, -, rfl⟩ := reading_read h
    exact Allowed.singleton_iff.mpr (.read trivial)
  | chain first others ihFirst ihOthers =>
    obtain ⟨e, links, he, hlinks, rfl⟩ := reading_chain h
    exact keeps_foldl_extend (ihFirst he) (ihOthers hlinks)
  | noLink =>
    obtain rfl := Option.some.inj h
    exact fun l hl => nomatch hl
  | link op operand others ihOperand ihOthers =>
    obtain ⟨e, links, he, hlinks, rfl⟩ := reading_link h
    exact List.forall_mem_cons.mpr ⟨ihOperand he, ihOthers hlinks⟩
  | vacant | noPosition =>
    obtain rfl := Option.some.inj h
    exact fun e he => nomatch he
  | filled value ih =>
    obtain ⟨e, he, rfl⟩ := reading_filled h
    intro e' he'
    obtain rfl := Option.some.inj he'
    exact ih he
  | position comma first others ihFirst ihOthers =>
    obtain ⟨f, fs, hf, hfs, rfl⟩ := reading_position h
    intro e he
    rcases List.mem_cons.mp he with hhead | htail
    · exact ihFirst hf e hhead.symm
    · exact ihOthers hfs e htail

/-- An assignment keeps a constant that its target is not. -/
private theorem ExprTree.assigned_keeps (hconstant : names.Constant i) {t : ExprTree .chain}
    {target : Place} {op : Option Arithmetic} {line : Nat} {e : Expr}
    (htarget : target.slot ≠ .global i) (h : t.assigned names scope target op line = some e) :
    Allowed (Act.Keeps i) e.acts := by
  cases t with
  | chain first others =>
    obtain ⟨e₀, links, he₀, hlinks, rfl⟩ := assigned_chain h
    have hsteps : ∀ l ∈ links, Allowed (Act.Keeps i) l.operand.acts := others.keeps hconstant hlinks
    rw [Expr.acts, Allowed.cons_iff, Expr.actsOfSteps_eq, Allowed.flatMap_iff]
    refine ⟨.write htarget, List.forall_mem_cons.mpr ⟨first.keeps hconstant he₀, ?_⟩⟩
    exact List.forall_mem_map.mpr hsteps

theorem TermTree.keeps (hconstant : names.Constant i) {t : TermTree} {r : Term}
    (h : t.reading names scope = some r) : Allowed (Act.Keeps i) r.acts := by
  obtain ⟨bangs, left, comparison⟩ := t
  obtain ⟨e, c, he, hc, rfl⟩ := reading_eq_some h
  refine Allowed.append_iff.mpr ⟨left.keeps hconstant he, Allowed.toList_iff.mpr ?_⟩
  intro found hfound
  obtain ⟨mark, right, -, -, hright⟩ := exists_of_comparisonReading hc found hfound
  exact right.keeps hconstant hright

theorem ConditionTree.keeps (hconstant : names.Constant i) {t : ConditionTree} {r : Condition}
    (h : t.reading names scope = some r) : Allowed (Act.Keeps i) r.acts := by
  obtain ⟨hfirst, hothers⟩ := reading_eq_some h
  refine Allowed.append_iff.mpr ⟨TermTree.keeps hconstant hfirst, Allowed.flatMap_iff.mpr ?_⟩
  refine forall_mem_of_mapM hothers fun later _ found hfound => ?_
  obtain ⟨term, hterm, rfl⟩ := laterReading_eq_some hfound
  exact TermTree.keeps hconstant hterm

theorem StmtExprTree.keeps (hconstant : names.Constant i) {t : StmtExprTree} {e : Expr}
    (h : t.reading names scope = some e) : Allowed (Act.Keeps i) e.acts := by
  cases t with
  | plain value => exact value.keeps hconstant h
  | assign target mark value =>
    obtain ⟨p, -, hwritable, hassigned⟩ := reading_assign h
    exact value.assigned_keeps hconstant (hconstant.slot_ne_of_writable hwritable) hassigned

/-! ### Statements -/

/-- An optional part keeps what the part keeps. -/
private theorem keeps_of_readOption {α β : Type} {read : α → Option β} {acts : β → List Act}
    {t : Option α} {r : Option β} (h : readOption read t = some r)
    (hread : ∀ {a b}, read a = some b → Allowed (Act.Keeps i) (acts b)) :
    Allowed (Act.Keeps i) (r.toList.flatMap acts) := by
  refine Allowed.toList_iff.mpr fun b hb => ?_
  obtain ⟨a, -, ha⟩ := exists_of_readOption h b hb
  exact hread ha

theorem DeclaratorTree.keeps (hconstant : names.Constant i) {t : DeclaratorTree} {type : CellType}
    {d : Declarator} (h : t.reading scope type names = some (d, later)) :
    Allowed (Act.Keeps i) d.acts ∧ later.Constant i := by
  obtain ⟨slot, value, hdeclare, hvalue, rfl⟩ := reading_eq_some h
  have htarget := hconstant.slot_ne_of_declare hdeclare
  have hlater := hconstant.mono (Names.grows_of_declare hdeclare)
  refine ⟨Allowed.cons_iff.mpr ⟨.reset htarget, Allowed.toList_iff.mpr fun e he => ?_⟩, hlater⟩
  obtain ⟨mark, chain, -, -, -, hassigned⟩ := exists_of_initialReading hvalue e he
  exact chain.assigned_keeps hlater htarget hassigned

theorem DeclaratorsTree.keeps (hconstant : names.Constant i) {t : DeclaratorsTree} {type : CellType}
    {ds : List Declarator} (h : t.reading scope type names = some (ds, later)) :
    Allowed (Act.Keeps i) (ds.flatMap Declarator.acts) ∧ later.Constant i := by
  unfold reading at h
  generalize t.first :: t.rest.map (·.2) = trees at h
  induction trees generalizing names ds with
  | nil =>
    obtain ⟨rfl, rfl⟩ := Prod.mk.inj (Option.some.inj h)
    exact ⟨.nil, hconstant⟩
  | cons t trees ih =>
    obtain ⟨d, middle, ds', hfirst, hrest, rfl⟩ := readAll_cons_eq_some.mp h
    obtain ⟨hd, hmiddle⟩ := DeclaratorTree.keeps hconstant hfirst
    obtain ⟨hds, hlater⟩ := ih hmiddle hrest
    exact ⟨Allowed.append_iff.mpr ⟨hd, hds⟩, hlater⟩

/-- What a phrase of statements stands for keeps every constant of the tables in front of it. -/
theorem StmtTree.keeps (hconstant : names.Constant i) {k : StmtSort} (t : StmtTree k)
    {r : StmtReading k} (h : t.reading scope names = some (r, later)) :
    Allowed (Act.Keeps i) (Stmt.actsOfAll (StmtReading.all r)) ∧ later.Constant i := by
  induction t generalizing names later with
  | declare type vars =>
    obtain ⟨cell, ds, -, hvars, rfl⟩ := reading_declare h
    obtain ⟨hds, hlater⟩ := DeclaratorsTree.keeps hconstant hvars
    exact ⟨Allowed.append_iff.mpr ⟨hds, .nil⟩, hlater⟩
  | print template arguments semicolon =>
    obtain ⟨es, hes, rfl, rfl⟩ := reading_print h
    refine ⟨Allowed.append_iff.mpr ⟨?_, .nil⟩, hconstant⟩
    rw [Stmt.acts, Expr.actsOfAll_eq, Allowed.flatMap_iff]
    exact forall_mem_of_mapM hes fun argument _ e he => argument.2.keeps hconstant he
  | loop word opening initial first test second step closing body ih =>
    obtain ⟨initial', test', step', body', hinitial, htest, hstep, hbody, rfl⟩ := reading_loop h
    obtain ⟨hloop, hlater⟩ := ih hconstant hbody
    refine ⟨Allowed.append_iff.mpr ⟨?_, .nil⟩, hlater⟩
    rw [Stmt.acts, Allowed.append_iff, Allowed.append_iff, Allowed.append_iff]
    exact ⟨⟨⟨keeps_of_readOption hinitial (StmtExprTree.keeps hconstant),
      keeps_of_readOption htest (ConditionTree.keeps hconstant)⟩,
      keeps_of_readOption hstep (StmtExprTree.keeps hconstant)⟩, hloop⟩
  | branch word opening test closing yes ih =>
    obtain ⟨test', yes', htest, hyes, rfl⟩ := reading_branch h
    obtain ⟨hbody, hlater⟩ := ih hconstant hyes
    refine ⟨Allowed.append_iff.mpr ⟨?_, .nil⟩, hlater⟩
    exact Allowed.append_iff.mpr ⟨ConditionTree.keeps hconstant htest, hbody⟩
  | branchElse word opening test closing yes otherwise no ihYes ihNo =>
    obtain ⟨-, test', yes', between, no', htest, hyes, hno, rfl⟩ := reading_branchElse h
    obtain ⟨hbody, hbetween⟩ := ihYes hconstant hyes
    obtain ⟨hother, hlater⟩ := ihNo hbetween hno
    refine ⟨Allowed.append_iff.mpr ⟨?_, .nil⟩, hlater⟩
    rw [Stmt.acts, Allowed.append_iff, Allowed.append_iff]
    exact ⟨⟨ConditionTree.keeps hconstant htest, hbody⟩, hother⟩
  | giveBack word value semicolon =>
    obtain ⟨-, value', hvalue, rfl, rfl⟩ := reading_giveBack h
    refine ⟨Allowed.append_iff.mpr ⟨?_, .nil⟩, hconstant⟩
    exact keeps_of_readOption hvalue fun {a} _ ha => a.keeps hconstant ha
  | foreign code =>
    obtain ⟨rfl, rfl⟩ := Prod.mk.inj (Option.some.inj h)
    exact ⟨.nil, hconstant⟩
  | expr e semicolon =>
    obtain ⟨-, e', he, rfl, rfl⟩ := reading_expr h
    exact ⟨Allowed.append_iff.mpr ⟨StmtExprTree.keeps hconstant he, .nil⟩, hconstant⟩
  | single s ih =>
    obtain ⟨s', hs, rfl⟩ := reading_single h
    exact ih hconstant hs
  | block opening body closing ih => exact ih hconstant h
  | noStatement =>
    obtain ⟨rfl, rfl⟩ := Prod.mk.inj (Option.some.inj h)
    exact ⟨.nil, hconstant⟩
  | statement first others ihFirst ihOthers =>
    obtain ⟨s, middle, ss, hs, hss, rfl⟩ := reading_statement h
    obtain ⟨hfirst, hmiddle⟩ := ihFirst hconstant hs
    obtain ⟨hothers, hlater⟩ := ihOthers hmiddle hss
    obtain ⟨hfirst, -⟩ := Allowed.append_iff.mp hfirst
    exact ⟨Allowed.append_iff.mpr ⟨hfirst, hothers⟩, hlater⟩

/-! ### Programs -/

/-- What an item stands for keeps every constant of the tables in front of it. -/
theorem ItemTree.keeps (hconstant : names.Constant i) (t : ItemTree) {s : Stmt}
    (h : t.reading names = some (s, later)) :
    Allowed (Act.Keeps i) s.acts ∧ later.Constant i := by
  cases t with
  | procedure type name opening parameters closing begins body ends =>
    obtain ⟨parameters', ordinal, opened, body', signature, -, hdeclare, hbody, -, rfl⟩ :=
      reading_procedure h
    have hopened : opened.Constant i := by
      obtain ⟨-, rfl⟩ := Names.declareProcedure_eq_some hdeclare
      exact hconstant
    obtain ⟨hacts, hlater⟩ := body.keeps hopened hbody
    exact ⟨Allowed.singleton_iff.mpr (.install hacts), hlater⟩
  | classDef word name opening groups closing semicolon =>
    obtain ⟨fields, number, -, hclass, rfl⟩ := reading_classDef h
    exact ⟨.nil, hconstant.mono (Names.extends_of_declareClass hclass).grows⟩
  | classDefWith word name opening groups closing vars =>
    obtain ⟨fields, number, opened, ds, -, hclass, hvars, rfl⟩ := reading_classDefWith h
    exact DeclaratorsTree.keeps (hconstant.mono (Names.extends_of_declareClass hclass).grows) hvars
  | define directive name value semicolon =>
    obtain ⟨v, slot, -, hdeclare, rfl⟩ := reading_define h
    have hslot := hconstant.slot_ne_of_declare hdeclare
    refine ⟨Allowed.cons_iff.mpr ⟨.reset hslot, ?_⟩,
      hconstant.mono (Names.grows_of_declare hdeclare)⟩
    exact Allowed.singleton_iff.mpr (.write hslot)
  | statement s =>
    obtain ⟨hacts, hlater⟩ := s.keeps hconstant h
    exact ⟨(Allowed.append_iff.mp hacts).1, hlater⟩

/-- A program keeps every constant of the tables in front of it. -/
theorem items_keep (hconstant : names.Constant i) {items : List ItemTree} {ss : List Stmt}
    (h : readAll ItemTree.reading items names = some (ss, later)) :
    Allowed (Act.Keeps i) (Stmt.actsOfAll ss) := by
  induction items generalizing names ss with
  | nil =>
    obtain ⟨rfl, rfl⟩ := Prod.mk.inj (Option.some.inj h)
    exact .nil
  | cons t items ih =>
    obtain ⟨s, middle, ss', hfirst, hrest, rfl⟩ := readAll_cons_eq_some.mp h
    obtain ⟨hs, hmiddle⟩ := t.keeps hconstant hfirst
    exact Allowed.append_iff.mpr ⟨hs, ih hmiddle hrest⟩

end Grammar

/-! ### The declaration of a constant -/

/-- A global is found under its name behind its declaration. -/
private theorem Names.global?_of_declare {names opened later : Names} {v : Variable} {slot : Slot}
    (h : names.declare .top v = some (slot, opened)) (hgrows : opened.Grows later) :
    later.global? v.name = some slot := by
  have htaken : names.taken v.name = false := by
    by_contra htaken
    rw [Bool.not_eq_false] at htaken
    simp [Names.declare, htaken] at h
  have hnone : (names.globals.findIdx? fun w => w.name == v.name) = none := by
    simp only [Names.taken, Bool.or_eq_false_iff, List.any_eq_false] at htaken
    rw [List.findIdx?_eq_none_iff]
    simpa using htaken.1.1
  obtain ⟨rfl, rfl⟩ := Names.declare_top h
  obtain ⟨rest, hrest⟩ := hgrows.globals
  rw [Names.global?, ← hrest]
  simp [List.findIdx?_append, List.findIdx?_cons, hnone]

/-- The statement that gives a constant its value. -/
def Stmt.constant (name : String) (i : Nat) (value : Value) (line : Nat) : Stmt :=
  let target : Place := ⟨name, [], .global i, .scalar (Grammar.constantType value)⟩
  .declare [⟨target, some (.assign target [⟨none, .literal value, line⟩])⟩]

/-- The slot that a statement declares with a literal, and the literal. -/
def Stmt.declared? : Stmt → Option (Slot × Value)
  | .declare [⟨target, some (.assign _ [⟨none, .literal value, _⟩])⟩] => some (target.slot, value)
  | _ => none

private theorem Stmt.eq_of_declared? {s : Stmt} {slot : Slot} {value : Value}
    (h : s.declared? = some (slot, value)) :
    ∃ target target' line, target.slot = slot ∧
      s = .declare [⟨target, some (.assign target' [⟨none, .literal value, line⟩])⟩] := by
  unfold declared? at h
  split at h
  · obtain ⟨rfl, rfl⟩ := Prod.mk.inj (Option.some.inj h)
    exact ⟨_, _, _, rfl, rfl⟩
  · cases h

/-- A program that declares a constant at position `j`: what stands in front does not know it, and
what stands behind does not write to it. -/
structure Program.Defines (names : Names) (ss : List Stmt) (later : Names) (j : Nat)
    (name : String) (value : Value) (front : Names) : Prop where
  statement : ∃ line, ss[j]? = some (.constant name front.globals.length value line)
  inFront : Program.Scoped names (ss.take j) front
  behind : Program.Scoped
    { front with globals := front.globals ++ [⟨name, .scalar (Grammar.constantType value), true⟩] }
    (ss.drop (j + 1)) later
  keeps : Allowed (Act.Keeps front.globals.length) (Stmt.actsOfAll (ss.drop (j + 1)))
  lookup : later.global? name = some (.global front.globals.length)

namespace Grammar

theorem Spelled.sublist {items items' : List ItemTree} (h : items'.Sublist items)
    (hspelled : Spelled (items.flatMap ItemTree.yield)) :
    Spelled (items'.flatMap ItemTree.yield) := by
  intro t ht
  obtain ⟨item, hitem, ht⟩ := List.mem_flatMap.mp ht
  exact hspelled t (List.mem_flatMap.mpr ⟨item, h.subset hitem, ht⟩)

/-- What the definition of a constant makes of a program. -/
theorem items_define {names later : Names} {items : List ItemTree} {ss : List Stmt} {j : Nat}
    {directive : Leaf Kind.define?} {name : Name} {literal : LiteralTree}
    {semicolon : Option (Punct .semicolon)} {value : Value}
    (hspelled : Spelled (items.flatMap ItemTree.yield))
    (h : readAll ItemTree.reading items names = some (ss, later))
    (hitem : items[j]? = some (.define directive name literal semicolon))
    (hvalue : literal.reading = some value) :
    ∃ front, Program.Defines names ss later j name.lexeme value front := by
  obtain ⟨s, front, behind, hs, htake, hread, hdrop⟩ := readAll_split h hitem
  obtain ⟨value', slot, hvalue', hdeclare, rfl⟩ := ItemTree.reading_define hread
  obtain rfl := Option.some.inj (hvalue.symm.trans hvalue')
  have hbehind := items_scoped (hspelled.sublist (List.drop_sublist _ _)) hdrop
  have hlookup := Names.global?_of_declare hdeclare hbehind.extends.grows
  obtain ⟨rfl, rfl⟩ := Names.declare_top hdeclare
  refine ⟨front, ⟨_, hs⟩, items_scoped (hspelled.sublist (List.take_sublist _ _)) htake, hbehind,
    items_keep ⟨_, List.getElem?_concat_length, rfl⟩ hdrop, hlookup⟩

/-- Only a definition declares a constant. -/
theorem ItemTree.exists_define {t : ItemTree} {s : Stmt} {front behind later : Names}
    {value : Value} {i : Nat} (h : t.reading front = some (s, behind))
    (hs : s.declared? = some (.global i, value)) (hgrows : behind.Grows later)
    (hconstant : later.Constant i) :
    ∃ directive name literal semicolon, t = .define directive name literal semicolon ∧
      literal.reading = some value ∧ later.global? name.lexeme = some (.global i) := by
  obtain ⟨target, target', line, hslot, rfl⟩ := Stmt.eq_of_declared? hs
  cases t with
  | procedure type name opening parameters closing begins body ends =>
    obtain ⟨_, _, _, _, _, -, -, -, -, ⟨⟩⟩ := reading_procedure h
  | classDef word name opening groups closing semicolon =>
    obtain ⟨_, _, -, -, ⟨⟩⟩ := reading_classDef h
  | classDefWith word name opening groups closing vars =>
    obtain ⟨_, _, _, _, -, -, -, ⟨⟩⟩ := reading_classDefWith h
  | define directive name literal semicolon =>
    obtain ⟨v, slot, hv, hdeclare, heq⟩ := reading_define h
    cases heq
    rw [← hslot]
    exact ⟨directive, name, literal, semicolon, rfl, hv, Names.global?_of_declare hdeclare hgrows⟩
  | statement s =>
    cases s with
    | declare type vars =>
      obtain ⟨cell, ds, -, hvars, heq⟩ := StmtTree.reading_declare h
      obtain rfl := Stmt.declare.inj heq
      obtain ⟨d, opened, ds', hfirst, hrest, hds⟩ := readAll_cons_eq_some.mp hvars
      obtain ⟨rfl, rfl⟩ := List.cons.inj hds
      obtain ⟨slot, initial, hdeclare, -, hd⟩ := DeclaratorTree.reading_eq_some hfirst
      obtain ⟨rfl, -⟩ := Declarator.mk.inj hd
      -- no other name is declared
      obtain rfl : opened = behind := by
        rw [List.eq_nil_of_length_eq_zero (length_of_readAll hrest).symm] at hrest
        exact (Prod.mk.inj (Option.some.inj hrest)).2
      obtain ⟨rfl, rfl⟩ := Names.declare_top hdeclare
      obtain rfl := Slot.global.inj hslot
      obtain ⟨v, hv, hconstant⟩ := hconstant
      have hlast := Names.Grows.getElem?_of_prefix hgrows.globals List.getElem?_concat_length
      obtain rfl := Option.some.inj (hlast.symm.trans hv)
      cases hconstant
    | print template arguments semicolon =>
      obtain ⟨_, -, -, ⟨⟩⟩ := StmtTree.reading_print h
    | loop word opening initial first test second step closing body =>
      obtain ⟨_, _, _, _, -, -, -, -, ⟨⟩⟩ := StmtTree.reading_loop h
    | branch word opening test closing yes =>
      obtain ⟨_, _, -, -, ⟨⟩⟩ := StmtTree.reading_branch h
    | branchElse word opening test closing yes otherwise no =>
      obtain ⟨-, _, _, _, _, -, -, -, ⟨⟩⟩ := StmtTree.reading_branchElse h
    | giveBack word value semicolon =>
      obtain ⟨-, _, -, -, ⟨⟩⟩ := StmtTree.reading_giveBack h
    | foreign code => cases h
    | expr e semicolon =>
      obtain ⟨-, _, -, -, ⟨⟩⟩ := StmtTree.reading_expr h

end Grammar

end Litany
