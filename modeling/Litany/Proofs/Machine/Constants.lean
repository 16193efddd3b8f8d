import Litany.Proofs.Machine.Laws
import Litany.Proofs.Machine.Sequence
import Litany.Proofs.Machine.Typing
import Litany.Proofs.Scope.Constants

/-!
# Runs that keep a global

A program whose acts spare a global leaves its cell alone, at every moment and however it ends: this
is a law (`spares_law`). What the cell holds must not be an object, for a visit of a field would
give that a new cell.

A program with the declaration of a constant somewhere in it is run in three stages. The statements
in front do not know the constant; the declaration gives its cell the literal; and what comes behind
keeps it. So whoever looks at the constant finds the literal (`read_of_leads`), and after the run
the cell holds it, or still what it held before if the declaration was not reached.
-/

namespace Litany

open Run

/-! ### Values and cells -/

/-- A value without cells of its own. -/
def Value.Plain : Value → Prop
  | .object _ => False
  | _ => True

theorem Value.plain_zero (t : Scalar) : (Value.zero (.scalar t)).Plain := by
  cases t <;> trivial

/-! ### The law -/

/-- A global holds a value, and the bodies of the procedures that may be called spare it. -/
structure Machine.Spares (i : Nat) (v : Value) (reads : Place → Prop) (calls : Nat → Prop)
    (m : Machine) : Prop where
  cell : m.cell? (.global i) = some v
  bodies : ∀ {ordinal : Nat} {p : Procedure}, calls ordinal →
    m.procedures[ordinal]? = some (some p) →
      Allowed (Act.Spares i reads calls) (Stmt.actsOfAll p.body)

/-- A global holds a value, and no procedure writes to it. -/
def Machine.Keeps (i : Nat) (v : Value) : Machine → Prop :=
  Machine.Spares i v (fun _ => True) fun _ => True

/-- A global holds a value, and the procedures up to some ordinal do not know it. -/
def Machine.Ignores (i k : Nat) (v : Value) : Machine → Prop :=
  Machine.Spares i v (fun p => p.slot ≠ .global i) fun ordinal => ordinal < k

section Laws

variable {i : Nat} {v : Value} {reads : Place → Prop} {calls : Nat → Prop}

/-- An installed procedure that spares a global may be added. -/
theorem Machine.Spares.install {m : Machine} (hm : m.Spares i v reads calls) {p : Procedure}
    (hp : Allowed (Act.Spares i reads calls) (Stmt.actsOfAll p.body)) :
    (m.install p).Spares i v reads calls := by
  refine ⟨hm.cell, fun {ordinal q} hcalls hq => ?_⟩
  have hjoin : (m.install p).procedures[ordinal]?.join = some q := by rw [hq]; rfl
  rw [Machine.install_procedures] at hjoin
  split at hjoin
  · exact Option.some.inj hjoin ▸ hp
  · exact hm.bodies hcalls (Option.join_eq_some_iff.mp hjoin)

theorem Machine.Spares.installAll {m : Machine} (hm : m.Spares i v reads calls) {ss : List Stmt}
    (hss : Allowed (Act.Spares i reads calls) (Stmt.actsOfAll ss)) :
    (m.installAll ss).Spares i v reads calls := by
  induction ss generalizing m with
  | nil => exact hm
  | cons s ss ih =>
    obtain ⟨hs, hrest⟩ := Allowed.append_iff.mp hss
    cases s with
    | procedure p =>
      cases Allowed.singleton_iff.mp hs with
      | install hp => exact ih (hm.install hp) hrest
    | _ => exact ih hm hrest

/-- A cell that is not an object stays as it is under acts that spare it. -/
theorem spares_law (hv : v.Plain) :
    Law (fun _ => Act.Spares i reads calls) fun _ m => m.Spares i v reads calls where
  aside := fun _ _ hm => ⟨hm.cell, hm.bodies⟩
  visit := by
    intro _ p w m later hact hm hvisit
    refine ⟨?_, fun hcalls hq => hm.bodies hcalls ((onlyCells_of_visit hvisit).procedures ▸ hq)⟩
    by_cases hslot : p.slot = .global i
    · rcases cases_of_visit hvisit with ⟨-, rfl, -⟩ | ⟨cells, -, hcell, -, -⟩
      · exact hm.cell
      · rw [hslot, hm.cell] at hcell
        cases hcell
        exact hv.elim
    · rw [(sameBut_of_visit hvisit).2 _ (Ne.symm hslot)]
      exact hm.cell
  store := by
    intro _ p w kept m later hact hm hstore
    refine ⟨?_, fun hcalls hq => hm.bodies hcalls ((onlyCells_of_store hstore).procedures ▸ hq)⟩
    have hslot : p.slot ≠ .global i := by
      rcases hact with hwrite | ⟨hreset, -⟩
      · cases hwrite with
        | write hp => exact hp
      · cases hreset with
        | reset hp => exact hp
    rw [(sameBut_of_store hstore).2 _ (Ne.symm hslot)]
    exact hm.cell
  install := by
    intro _ p m hact hm
    cases hact with
    | install hp => exact hm.install hp
  body := by
    intro _ ordinal count name p m hact hm hp
    cases hact with
    | call _ _ hcalls => exact hm.bodies hcalls hp
  enter := fun _ _ _ _ hlater => ⟨hlater.cell, hlater.bodies⟩
  leave := fun hm => ⟨hm.cell, hm.bodies⟩

/-- Statements that spare a global leave it as it is, whether they run through or stop. -/
private theorem Machine.Spares.ends_executeAll {m : Machine} (hm : m.Spares i v reads calls)
    (hv : v.Plain) {ss : List Stmt} (hss : Allowed (Act.Spares i reads calls) (Stmt.actsOfAll ss))
    (executor : Option Executor) (n : Nat) :
    Ends (executeAll ⟨executor, runBody executor n, n⟩ ss) m
      (fun _ later => later.Spares i v reads calls) fun _ later => later.Spares i v reads calls :=
  ((spares_law hv).regime executor n []).executeAll ss hss m hm

/-- A global that is kept may be given another value. -/
theorem Machine.Keeps.setCell {m : Machine} (hm : m.Keeps i v) (w : Value) :
    (m.setCell (.global i) w).Keeps i w :=
  ⟨Machine.cell?_setCell hm.cell w, fun hcalls hp =>
    hm.bodies hcalls ((m.onlyCells_setCell _ w).procedures ▸ hp)⟩

/-- An act that only writes. -/
def Act.Writes : Act → Prop
  | .write _ => True
  | .reset _ => True
  | _ => False

/-- What only writes goes on writing. -/
theorem writes_law : Law (fun _ => Act.Writes) fun _ _ => True where
  aside := fun _ _ _ => trivial
  visit := fun _ _ _ => trivial
  store := fun _ _ _ => trivial
  install := fun _ _ => trivial
  body := fun hact => hact.elim
  enter := fun _ _ _ _ _ => trivial
  leave := fun _ => trivial

end Laws

/-! ### Statements in a row -/

namespace Moment

variable {executor : Option Executor} {stack : List Nat} {n : Nat} {m : Machine} {k : Moment}

/-- The parts of a statement are the same whatever stands behind it. -/
private theorem stmtParts_of_task (task task' : Task) (s : Stmt) :
    (⟨stack, n, task, m⟩ : Moment).stmtParts executor s =
      (⟨stack, n, task', m⟩ : Moment).stmtParts executor s := by
  cases s <;> rfl

/-- The moments of statements in a row, besides those at which the next one is begun, are moments of
the first statements, or of the others once the first have run through. -/
private theorem leads_append {a b : List Stmt}
    (h : (⟨stack, n, .statements (a ++ b), m⟩ : Moment).Leads executor k) :
    (∃ ss, k.task = .statements ss) ∨
      (⟨stack, n, .statements a, m⟩ : Moment).Leads executor k ∨
      ∃ last, executeAll ⟨executor, runBody executor n, n⟩ a m = .ok .through last ∧
        (⟨stack, n, .statements b, last⟩ : Moment).Leads executor k := by
  induction a generalizing m with
  | nil =>
    refine Or.inr (Or.inr ⟨m, ?_, h⟩)
    rw [executeAll]
    rfl
  | cons s rest ih =>
    rcases Relation.ReflTransGen.cases_head h with rfl | ⟨part, hpart, hleads⟩
    · exact Or.inl ⟨_, rfl⟩
    rcases List.mem_append.mp hpart with hpart | hpart
    · -- a part of the first statement
      rw [stmtParts_of_task _ (.statements (s :: rest))] at hpart
      exact Or.inr (Or.inl (.head (List.mem_append_left _ hpart) hleads))
    · cases hfirst : execute ⟨executor, runBody executor n, n⟩ s m with
      | error stop later => simp [andThen, hfirst] at hpart
      | ok ending later =>
        cases ending with
        | returned v => simp [andThen, hfirst] at hpart
        | through =>
          simp only [andThen, hfirst, List.mem_singleton] at hpart
          subst hpart
          rcases ih hleads with hrow | hinner | ⟨last, hrest, hbehind⟩
          · exact Or.inl hrow
          · refine Or.inr (Or.inl (.head (List.mem_append_right _ ?_) hinner))
            simp [andThen, hfirst, turn]
          · refine Or.inr (Or.inr ⟨last, ?_, hbehind⟩)
            rw [executeAll, bind_of_ok hfirst]
            exact hrest

/-- The moment behind the first statements of a row, if they run through. -/
def past (executor : Option Executor) (count : Nat) (k : Moment) : Option Moment :=
  match k.task with
  | .statements ss =>
    match executeAll ⟨executor, runBody executor k.fuel, k.fuel⟩ (ss.take count) k.machine with
    | .ok .through last => some (k.turn (.statements (ss.drop count)) last)
    | _ => none
  | _ => none

private theorem past_eq_some {count : Nat} {ss : List Stmt} {after : Moment} :
    (⟨stack, n, .statements ss, m⟩ : Moment).past executor count = some after ↔
      ∃ last, executeAll ⟨executor, runBody executor n, n⟩ (ss.take count) m =
          .ok .through last ∧ after = ⟨stack, n, .statements (ss.drop count), last⟩ := by
  unfold past
  dsimp only
  split
  · rename_i last hrun
    constructor
    · intro h
      exact ⟨last, hrun, (Option.some.inj h).symm⟩
    · rintro ⟨last', hrun', rfl⟩
      cases hrun.symm.trans hrun'
      rfl
  · rename_i hrun
    constructor
    · intro h
      cases h
    · rintro ⟨last, hrun', -⟩
      exact absurd hrun' (hrun last)

/-- A run leads past its first statements, if they run through. -/
theorem leads_of_executeAll {a b : List Stmt} {last : Machine}
    (h : executeAll ⟨executor, runBody executor n, n⟩ a m = .ok .through last) :
    (⟨stack, n, .statements (a ++ b), m⟩ : Moment).Leads executor
      ⟨stack, n, .statements b, last⟩ := by
  induction a generalizing m with
  | nil =>
    rw [executeAll] at h
    obtain ⟨-, rfl⟩ := pure_eq_ok.mp h
    exact .refl
  | cons s rest ih =>
    rw [executeAll] at h
    obtain ⟨ending, middle, hfirst, hrest⟩ := bind_eq_ok.mp h
    cases ending with
    | returned v => cases hrest
    | through =>
      refine .head (List.mem_append_right _ ?_) (ih hrest)
      simp [andThen, hfirst, turn]

/-- What comes past the first statements ends as the whole row does. -/
theorem of_past {count : Nat} {ss : List Stmt} {after : Moment}
    (h : (⟨stack, n, .statements ss, m⟩ : Moment).past executor count = some after) :
    (⟨stack, n, .statements ss, m⟩ : Moment).Leads executor after ∧
      after.finish executor = (⟨stack, n, .statements ss, m⟩ : Moment).finish executor := by
  obtain ⟨last, hrun, rfl⟩ := past_eq_some.mp h
  have hleads : (⟨stack, n, .statements (ss.take count ++ ss.drop count), m⟩ : Moment).Leads
      executor ⟨stack, n, .statements (ss.drop count), last⟩ := leads_of_executeAll hrun
  have hrest := executeAll_append (b := ss.drop count) hrun
  rw [List.take_append_drop] at hleads hrest
  refine ⟨hleads, ?_⟩
  unfold finish endOf
  dsimp only
  rw [hrest]

end Moment

private theorem Run.executeAll_append_of_error {cx : Context} {a b : List Stmt} {m later : Machine}
    {stop : Stop} (h : executeAll cx a m = .error stop later) :
    executeAll cx (a ++ b) m = .error stop later := by
  induction a generalizing m with
  | nil =>
    rw [executeAll] at h
    cases h
  | cons s rest ih =>
    rw [executeAll, bind_apply] at h
    rw [List.cons_append, executeAll, bind_apply]
    cases hfirst : execute cx s m with
    | error stop' middle =>
      rw [hfirst] at h
      exact h
    | ok ending middle =>
      rw [hfirst] at h
      cases ending with
      | returned v => cases h
      | through => exact ih h

/-! ### The declaration of a constant -/

namespace Value

/-- The type of a constant keeps its value as it is. -/
theorem stored_constantType {v : Value} (hv : v.Plain) :
    v.stored (.scalar (Grammar.constantType v)) = v := by
  cases v with
  | int n => rfl
  | float x => rfl
  | text s => rfl
  | object cells => exact hv.elim

private theorem plain_of_literal? {k : Kind} {v : Value} (h : k.literal? = some v) : v.Plain := by
  cases k with
  | int n | float x | quoted raw =>
    obtain rfl := Option.some.inj h
    exact trivial
  | keyword k =>
    cases k with
    | yes | no =>
      obtain rfl := Option.some.inj h
      exact trivial
    | _ => cases h
  | _ => cases h

/-- A literal is a number or a text. -/
theorem plain_of_literal {t : Grammar.LiteralTree} {v : Value} (h : t.reading = some v) :
    v.Plain := by
  cases t with
  | plain value =>
    obtain rfl := Option.some.inj h
    exact plain_of_literal? value.fits
  | negated minus number =>
    change number.value.negate? = some v at h
    cases hnumber : number.value with
    | int n | float x =>
      rw [hnumber] at h
      obtain rfl := Option.some.inj h
      exact trivial
    | _ =>
      rw [hnumber] at h
      cases h

end Value

namespace Run

theorem visit_whole {p : Place} {w : Value} {m : Machine} (hpath : p.path = [])
    (hcell : m.cell? p.slot = some w) : visit p m = .ok w m := by
  simp [visit, hcell, hpath]

private theorem store_whole {p : Place} {w : Value} {m : Machine} (hpath : p.path = [])
    (hcell : m.cell? p.slot = some w) (v : Value) :
    store p v m = .ok (v.stored p.type) (m.setCell p.slot (v.stored p.type)) := by
  unfold store
  rw [bind_of_ok (visit_whole hpath hcell)]
  have hoverwrite : overwrite p (v.stored p.type) m = m.setCell p.slot (v.stored p.type) := by
    simp [overwrite, hpath]
  change EStateM.Result.ok _ (overwrite p _ m) = _
  rw [hoverwrite]

/-- The declaration of a constant leaves its value in its cell. -/
theorem execute_constant {cx : Context} {name : String} {i line : Nat} {value w : Value}
    {m : Machine} (hvalue : value.Plain) (hcell : m.cell? (.global i) = some w) :
    execute cx (.constant name i value line) m = .ok .through (m.setCell (.global i) value) := by
  let target : Place := ⟨name, [], .global i, .scalar (Grammar.constantType value)⟩
  let zeroed := m.setCell (.global i) ((Value.zero target.type).stored target.type)
  have hreset : store target (Value.zero target.type) m = .ok _ zeroed :=
    store_whole rfl hcell _
  have hzeroed : zeroed.cell? (.global i) = some _ := Machine.cell?_setCell hcell _
  have hassign : evaluate cx.body (.assign target [⟨none, .literal value, line⟩]) zeroed =
      .ok value (m.setCell (.global i) value) := by
    rw [evaluate, bind_of_ok (visit_whole rfl hzeroed), evaluateSteps, evaluate]
    have hstore := store_whole (p := target) rfl hzeroed value
    rw [show value.stored target.type = value from Value.stored_constantType hvalue] at hstore
    have hset : zeroed.setCell (.global i) value = m.setCell (.global i) value := by
      simp only [zeroed, Machine.setCell, List.set_set]
    rw [← hset]
    exact bind_of_ok hstore _
  change execute cx
    (.declare [⟨target, some (.assign target [⟨none, .literal value, line⟩])⟩]) m = _
  rw [execute, declareAll, bind_apply, bind_of_ok hreset]
  dsimp only
  rw [bind_of_ok hassign]
  rfl

end Run

/-! ### Programs with a constant -/

namespace Program.Defines

variable {names later front : Names} {ss : List Stmt} {j : Nat} {name : String} {value : Value}
  (h : Program.Defines names ss later j name value front)

include h

private theorem eq_append : ∃ line,
    ss = ss.take j ++ .constant name front.globals.length value line :: ss.drop (j + 1) := by
  obtain ⟨line, hs⟩ := h.statement
  obtain ⟨hj, hs⟩ := List.getElem?_eq_some_iff.mp hs
  refine ⟨line, ?_⟩
  rw [← hs, ← List.drop_eq_getElem_cons hj, List.take_append_drop]

private theorem take_succ : ∃ line,
    ss.take (j + 1) = ss.take j ++ [.constant name front.globals.length value line] := by
  obtain ⟨line, hs⟩ := h.statement
  exact ⟨line, by rw [List.take_add_one, hs, Option.toList_some]⟩

/-- The tables behind the program have the constant. -/
theorem declared : later.globals[front.globals.length]? =
    some ⟨name, .scalar (Grammar.constantType value), true⟩ :=
  Names.Grows.getElem?_of_prefix h.behind.extends.globals List.getElem?_concat_length

private theorem ignores_inFront :
    Allowed (Act.Ignores front.globals.length front.procedures.length)
      (Stmt.actsOfAll (ss.take j)) :=
  (h.inFront.acts (.refl front)).mono fun _ ha => ha.ignores le_rfl le_rfl

private theorem keeps_inFront :
    Allowed (Act.Keeps front.globals.length) (Stmt.actsOfAll (ss.take j)) :=
  h.ignores_inFront.mono fun _ ha => ha.keeps

/-- The program begins with a zeroed cell for the constant, which no procedure writes to, and which
those of earlier texts and of the statements in front of it do not know. -/
theorem ready {m : Machine} (hm : m.Typed names [])
    (hroom : m.globals.length ≤ names.globals.length) :
    let zero := Value.zero (.scalar (Grammar.constantType value))
    let begun := (m.allocate later.globalTypes).installAll ss
    begun.Keeps front.globals.length zero ∧
      begun.Ignores front.globals.length front.procedures.length zero := by
  intro zero begun
  have hextends := h.inFront.extends
  have hcell : (m.allocate later.globalTypes).cell? (.global front.globals.length) = some zero := by
    have hle := hroom.trans hextends.globals.length_le
    simp only [Machine.cell?, Machine.allocate]
    rw [List.getElem?_append_right hle, List.getElem?_map, List.getElem?_drop,
      Nat.add_sub_cancel' hle, Names.globalTypes, List.getElem?_map, h.declared]
    rfl
  have hbodies : ∀ {ordinal : Nat} {p : Procedure}, m.procedures[ordinal]? = some (some p) →
      Allowed (Act.Ignores front.globals.length front.procedures.length)
        (Stmt.actsOfAll p.body) := fun hp =>
    (hm.installed hp).2.acts.mono fun _ ha =>
      ha.ignores hextends.globals.length_le hextends.procedures.length_le
  have hignores : (m.allocate later.globalTypes).Ignores front.globals.length
      front.procedures.length zero := ⟨hcell, fun _ hp => hbodies hp⟩
  have hkeeps : (m.allocate later.globalTypes).Keeps front.globals.length zero :=
    ⟨hcell, fun _ hp => (hbodies hp).mono fun _ ha => ha.keeps⟩
  -- the declaration itself installs nothing
  have hbegun : begun =
      ((m.allocate later.globalTypes).installAll (ss.take j)).installAll (ss.drop (j + 1)) := by
    obtain ⟨line, hss⟩ := h.eq_append
    change (m.allocate later.globalTypes).installAll ss = _
    conv_lhs => rw [hss, Machine.installAll_append]
    rfl
  have hbegunKeeps : begun.Keeps front.globals.length zero := by
    rw [hbegun]
    exact Machine.Spares.installAll (hkeeps.installAll h.keeps_inFront) h.keeps
  refine ⟨hbegunKeeps, hbegunKeeps.cell, fun {ordinal p} hordinal hp => ?_⟩
  have hsame := Machine.installAll_of_lt h.behind hordinal
    ((m.allocate later.globalTypes).installAll (ss.take j))
  rw [← hbegun, hp] at hsame
  exact (hignores.installAll h.ignores_inFront).bodies hordinal
    (Option.join_eq_some_iff.mp hsame.symm)

section Run

variable {executor : Option Executor} {n : Nat} {m : Machine} {w : Value}

/-- Past the declaration the cell holds the literal. -/
private theorem executeAll_take_succ (hvalue : value.Plain) {middle : Machine}
    (hrun : executeAll ⟨executor, runBody executor n, n⟩ (ss.take j) m = .ok .through middle)
    (hmiddle : middle.Keeps front.globals.length w) :
    executeAll ⟨executor, runBody executor n, n⟩ (ss.take (j + 1)) m =
      .ok .through (middle.setCell (.global front.globals.length) value) := by
  obtain ⟨line, htake⟩ := h.take_succ
  rw [htake, executeAll_append hrun, executeAll_singleton]
  exact execute_constant hvalue hmiddle.cell

variable (hw : w.Plain) (hkeeps : m.Keeps front.globals.length w)

include hw hkeeps

/-- The statements in front run through or stop, and leave the cell of the constant alone. -/
private theorem cases_inFront :
    (∃ middle, executeAll ⟨executor, runBody executor n, n⟩ (ss.take j) m = .ok .through middle ∧
        middle.Keeps front.globals.length w) ∨
      ∃ stop middle,
        executeAll ⟨executor, runBody executor n, n⟩ (ss.take j) m = .error stop middle ∧
          middle.Keeps front.globals.length w := by
  have hends := hkeeps.ends_executeAll hw h.keeps_inFront executor n
  cases hrun : executeAll ⟨executor, runBody executor n, n⟩ (ss.take j) m with
  | ok ending middle =>
    obtain rfl := runsThrough_program h.inFront m ending middle hrun
    exact Or.inl ⟨middle, rfl, hends.of_ok hrun⟩
  | error stop middle => exact Or.inr ⟨stop, middle, rfl, hends.of_error hrun⟩

variable (hvalue : value.Plain)

include hvalue

/-- Past its declaration, the constant is kept. -/
theorem obeys_of_past {after : Moment}
    (hpast : (⟨[], n, .statements ss, m⟩ : Moment).past executor (j + 1) = some after) :
    after.Obeys (fun _ => Act.Keeps front.globals.length)
      fun _ m => m.Keeps front.globals.length value := by
  obtain ⟨last, hrun, rfl⟩ := Moment.past_eq_some.mp hpast
  refine ⟨h.keeps, ?_⟩
  rcases h.cases_inFront hw hkeeps with ⟨middle, hfront, hmiddle⟩ | ⟨stop, middle, hfront, -⟩
  · cases hrun.symm.trans (h.executeAll_take_succ hvalue hfront hmiddle)
    exact hmiddle.setCell value
  · obtain ⟨line, htake⟩ := h.take_succ
    rw [htake, executeAll_append_of_error hfront] at hrun
    cases hrun

/-- Unless its declaration is passed, the cell of the constant stays as it is. -/
theorem finish_of_not_past
    (hpast : (⟨[], n, .statements ss, m⟩ : Moment).past executor (j + 1) = none) :
    ((⟨[], n, .statements ss, m⟩ : Moment).finish executor).Keeps front.globals.length w := by
  rcases h.cases_inFront hw hkeeps with ⟨middle, hfront, hmiddle⟩ | ⟨stop, middle, hfront, hmiddle⟩
  · have hrun := h.executeAll_take_succ hvalue hfront hmiddle
    rw [Moment.past_eq_some.mpr ⟨_, hrun, rfl⟩] at hpast
    cases hpast
  · have hrun := executeAll_append_of_error (b := ss.drop j) hfront
    rw [List.take_append_drop] at hrun
    unfold Moment.finish endOf
    dsimp only
    rw [hrun]
    exact hmiddle

/-- Whoever looks at the constant, in the program that declares it, finds the literal. -/
theorem read_of_leads
    (hignores : m.Ignores front.globals.length front.procedures.length w) {k : Moment}
    (hleads : (⟨[], n, .statements ss, m⟩ : Moment).Leads executor k) {p : Place}
    (htask : k.task = .expr (.read p)) (hp : p.slot = .global front.globals.length) :
    k.machine.cell? (.global front.globals.length) = some value := by
  have hnoRow : ¬ ∃ ss, k.task = .statements ss := by
    rintro ⟨ss', hrow⟩
    rw [htask] at hrow
    cases hrow
  obtain ⟨line, hss⟩ := h.eq_append
  rw [hss] at hleads
  rcases Moment.leads_append hleads with hrow | hfront | ⟨middle, hrun, hleads⟩
  · exact absurd hrow hnoRow
  · -- in front, the constant is not known
    obtain ⟨hallowed, -⟩ := (spares_law hw).of_leads hfront ⟨h.ignores_inFront, hignores⟩
    rw [htask] at hallowed
    cases Allowed.singleton_iff.mp hallowed with
    | read hother => exact absurd hp hother
  have hmiddle := (hkeeps.ends_executeAll hw h.keeps_inFront executor n).of_ok hrun
  rcases Moment.leads_append (a := [_]) hleads with hrow | hdefine | ⟨last, hrun, hbehind⟩
  · exact absurd hrow hnoRow
  · -- the declaration looks at nothing
    have hwrites : Allowed Act.Writes
        (Stmt.actsOfAll [.constant name front.globals.length value line]) := by
      simp [Stmt.constant, Stmt.actsOfAll, Stmt.acts, Declarator.acts, Expr.acts,
        Expr.actsOfSteps, Allowed, Act.Writes]
    obtain ⟨hallowed, -⟩ := writes_law.of_leads hdefine ⟨hwrites, trivial⟩
    rw [htask] at hallowed
    exact (Allowed.singleton_iff.mp hallowed).elim
  · rw [executeAll_singleton, execute_constant hvalue hmiddle.cell] at hrun
    cases hrun
    have hkept := Machine.Keeps.setCell hmiddle value
    exact ((spares_law hvalue).of_leads hbehind ⟨h.keeps, hkept⟩).holds.cell

end Run

end Program.Defines

end Litany
