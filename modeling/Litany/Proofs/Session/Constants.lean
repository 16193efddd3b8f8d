import Litany.Proofs.Grammar.Completeness.Program
import Litany.Proofs.Machine.Constants
import Litany.Proofs.Session.Typing

/-!
# Constants in sessions

A constant is declared when its text is read, and gets its value when its definition is executed.
Between the two, nobody can look at it: in the run of its own text every look at the constant finds
the literal. From its definition on, nothing writes to its cell, in that text and in all texts that
are run on top of it (`constants_kept`).

But the run may stop before the definition is reached. Then the name stays declared while its cell
stays zeroed, and texts on top that look at the constant find zero for good: it can neither be
defined again nor written. `constants_read` says which of the two it is.
-/

namespace Litany

open Run

/-! ### What is looked at and what is kept -/

/-- In a run, every look at a global finds the given value. -/
def Moment.Finds (executor : Option Executor) (i : Nat) (v : Value) (start : Moment) : Prop :=
  ∀ (k : Moment) (p : Place), start.Leads executor k → k.task = .expr (.read p) →
    p.slot = .global i → evaluate (runBody executor k.fuel) (.read p) k.machine = .ok v k.machine

/-- In a run, a global holds the given value at every moment, and where every part ends. -/
def Moment.Holds (executor : Option Executor) (i : Nat) (v : Value) (start : Moment) : Prop :=
  ∀ k : Moment, start.Leads executor k → k.machine.cell? (.global i) = some v ∧
    (k.finish executor).cell? (.global i) = some v

section Moments

variable {executor : Option Executor} {i : Nat} {v : Value} {start : Moment} {names : Names}
  {x : Variable} {t : Scalar}

/-- A scalar global has no fields. -/
private theorem Place.Scoped.path_eq_nil {scope : Scope} {p : Place} (h : p.Scoped names scope)
    (hx : names.globals[i]? = some x) (htype : x.type = .scalar t) (hslot : p.slot = .global i) :
    p.path = [] := by
  obtain ⟨rootType, constant, hroot, hfield⟩ := h.type
  simp only [hslot, Names.slotType?, hx, Option.map_some, Option.some.injEq, Prod.mk.injEq] at hroot
  rw [← hroot.1, htype] at hfield
  cases hpath : p.path with
  | nil => rfl
  | cons segment rest =>
    rw [hpath] at hfield
    cases hfield

/-- In a sound run, a look at a scalar global finds what its cell holds. -/
private theorem Moment.Sound.finds (hdotless : names.Dotless) (hstart : start.Sound names)
    (hx : names.globals[i]? = some x) (htype : x.type = .scalar t)
    (hcell : ∀ (k : Moment) (p : Place), start.Leads executor k → k.task = .expr (.read p) →
      p.slot = .global i → k.machine.cell? (.global i) = some v) :
    start.Finds executor i v := by
  intro k p hleads htask hslot
  have hallowed := (hstart.of_leads hdotless hleads).allowed
  rw [htask] at hallowed
  have hp : p.Scoped names (Scope.within k.stack) := Allowed.singleton_iff.mp hallowed
  rw [evaluate]
  refine visit_whole (hp.path_eq_nil hx htype hslot) ?_
  rw [hslot]
  exact hcell k p hleads htask hslot

private theorem Moment.holds_of_obeys (hv : v.Plain)
    (h : start.Obeys (fun _ => Act.Keeps i) fun _ m => m.Keeps i v) : start.Holds executor i v := by
  intro k hleads
  have hk := (spares_law hv).of_leads hleads h
  exact ⟨hk.holds.cell, (Law.finish (spares_law hv) hk).cell⟩

end Moments

/-- The statement at a position of the statements that a moment is at. -/
def Moment.statement? (k : Moment) (j : Nat) : Option Stmt :=
  match k.task with
  | .statements ss => ss[j]?
  | _ => none

namespace Session

/-! ### Texts on top of a constant -/

/-- A global of a session is a constant of the given type. It holds a value, and no procedure that
is kept writes to it. -/
structure Pinned (i : Nat) (t : Scalar) (v : Value) (s : Session) : Prop where
  declared : ∃ x, s.names.globals[i]? = some x ∧ x.type = .scalar t ∧ x.constant = true
  keeps : s.machine.Keeps i v

/-- A text that is read as a program has been scanned and parsed. -/
private theorem of_parse {host : Host} {source : String} {s later : Session} {ss : List Stmt}
    (h : parse host source s = (.ok ss, later)) :
    ∃ stream, (Stream.ofText host.fetch s.fetched source).outcome = .ok stream ∧
      Grammar.parse s.names stream = (.ok ss, later.names) ∧ later.machine = s.machine := by
  simp only [parse] at h
  cases hscan : (Stream.ofText host.fetch s.fetched source).outcome with
  | error f =>
    rw [hscan] at h
    cases h
  | ok stream =>
    rw [hscan] at h
    dsimp only at h
    cases hparse : Grammar.parse s.names stream with
    | mk outcome names =>
      rw [hparse] at h
      cases outcome with
      | error f => cases h
      | ok statements =>
        cases h
        exact ⟨stream, rfl, hparse, rfl⟩

section Pinned

variable {host : Host} {s : Session} {i : Nat} {t : Scalar} {v : Value}

/-- A program that is read on top of a constant begins on a machine that keeps it, and keeps it. -/
theorem Pinned.parse (h : s.Pinned i t v) {source : String} {ss : List Stmt} {later : Session}
    (hparse : Session.parse host source s = (.ok ss, later)) :
    (∃ x, later.names.globals[i]? = some x ∧ x.type = .scalar t ∧ x.constant = true) ∧
      Allowed (Act.Keeps i) (Stmt.actsOfAll ss) ∧ (later.ready ss).Keeps i v := by
  obtain ⟨x, hx, htype, hconstant⟩ := h.declared
  obtain ⟨stream, hscan, hstream, hmachine⟩ := of_parse hparse
  obtain ⟨d, rfl, hlater⟩ := Grammar.exists_derivation_of_parse hstream
  have hextends := (Grammar.scoped_of_parse hscan hstream).extends
  have hacts := Grammar.items_keep ⟨x, hx, hconstant⟩ d.reads
  refine ⟨⟨x, Names.Grows.getElem?_of_prefix hextends.globals hx, htype, hconstant⟩, hacts, ?_⟩
  refine Machine.Spares.installAll ⟨?_, ?_⟩ hacts
  · rw [hmachine]
    have hi := (List.getElem?_eq_some_iff.mp h.keeps.cell).1
    exact (List.getElem?_append_left hi).trans h.keeps.cell
  · rw [hmachine]
    exact h.keeps.bodies

theorem Pinned.opening (h : s.Pinned i t v) {q : Request} (hq : q.mode = .onTop) {names : Names}
    {start : Moment} (hopening : s.opening host q = some (names, start)) :
    (∃ x, names.globals[i]? = some x ∧ x.type = .scalar t ∧ x.constant = true) ∧
      start.Obeys (fun _ => Act.Keeps i) fun _ m => m.Keeps i v := by
  obtain ⟨n, ss, later, -, hparse, rfl, rfl⟩ := of_opening hopening
  rw [hq] at hparse
  obtain ⟨hdeclared, hacts, hready⟩ := h.parse hparse
  exact ⟨hdeclared, hacts, hready⟩

/-- A text on top keeps the constant, whatever comes of it. -/
theorem Pinned.step (h : s.Pinned i t v) (hv : v.Plain) {q : Request} (hq : q.mode = .onTop) :
    (Session.step host q.fuel q.mode q.source s).2.Pinned i t v := by
  rw [step_eq_attempt, hq]
  cases hparse : Session.parse host q.source (s.prepared .onTop) with
  | mk outcome later =>
    cases outcome with
    | error f =>
      -- the tables stay as they were, and nothing is run
      have hmachine : later.machine = s.machine := by
        rcases parse_cases host q.source s with
          ⟨f', later', hparse', -, hmachine, -⟩ | ⟨ss, names, fetched, hparse', -⟩
        · cases hparse.symm.trans hparse'
          exact hmachine
        · cases hparse.symm.trans hparse'
      simp only [attempt, hq]
      refine ⟨h.declared, ?_⟩
      dsimp only
      rw [hmachine]
      exact h.keeps
    | ok ss =>
      obtain ⟨hdeclared, hacts, hready⟩ := h.parse hparse
      simp only [attempt]
      rw [execute_eq]
      refine ⟨hdeclared, ?_⟩
      have hends := ((spares_law hv).tends_runBody host.execute q.fuel [] ss hacts).endOf hready
      exact ⟨hends.cell, hends.bodies⟩

theorem Pinned.replay (h : s.Pinned i t v) (hv : v.Plain) {idles : List Request}
    (hidles : ∀ q ∈ idles, q.mode = .onTop) : (Session.replay host s idles).Pinned i t v := by
  induction idles generalizing s with
  | nil => exact h
  | cons q rest ih =>
    obtain ⟨hq, hrest⟩ := List.forall_mem_cons.mp hidles
    exact ih (h.step hv hq) hrest

end Pinned

/-! ### The text that defines a constant -/

/-- The text of a request is a program whose item at position `j` defines a constant: its name is
found as the global with index `i`, and its literal has the given value. -/
def Defines (host : Host) (s : Session) (r : Request) (j i : Nat) (value : Value) : Prop :=
  ∃ (stream : Stream) (d : Grammar.Derivation (s.prepared r.mode).names stream.tokens)
    (directive : Grammar.Leaf Kind.define?) (name : Grammar.Name)
    (literal : Grammar.LiteralTree) (semicolon : Option (Grammar.Punct .semicolon)),
    (Stream.ofText host.fetch (s.prepared r.mode).fetched r.source).outcome = .ok stream ∧
      d.items[j]? = some (.define directive name literal semicolon) ∧
      literal.reading = some value ∧ d.later.global? name.lexeme = some (.global i)

section Defining

variable {host : Host} {s : Session} {r : Request} {j i : Nat} {value : Value} {names : Names}
  {start : Moment}

/-- A text defines the constants that are declared in its statements. -/
private theorem defines_of_opening (hopening : s.opening host r = some (names, start))
    (hstatement : (start.statement? j).bind Stmt.declared? = some (.global i, value))
    (hconstant : names.Constant i) : s.Defines host r j i value := by
  obtain ⟨n, ss, later, -, hparse, rfl, rfl⟩ := of_opening hopening
  obtain ⟨stream, hscan, hstream, -⟩ := of_parse hparse
  obtain ⟨d, rfl, hlater⟩ := Grammar.exists_derivation_of_parse hstream
  obtain ⟨declaration, hdeclaration, hdeclared⟩ := Option.bind_eq_some_iff.mp hstatement
  have hj : j < d.items.length := by
    rw [← Grammar.length_of_readAll d.reads]
    exact (List.getElem?_eq_some_iff.mp hdeclaration).1
  obtain ⟨declaration', front, behind, hj', -, hread, hdrop⟩ :=
    Grammar.readAll_split d.reads (List.getElem?_eq_getElem hj)
  obtain rfl := Option.some.inj (hdeclaration.symm.trans hj')
  have hspelled : Grammar.Spelled (d.items.flatMap Grammar.ItemTree.yield) := by
    rw [d.yields]
    exact Stream.spelled_ofText hscan
  have hgrows :=
    (Grammar.items_scoped (hspelled.sublist (List.drop_sublist _ _)) hdrop).extends.grows
  rw [← hlater] at hconstant
  obtain ⟨directive, name, literal, semicolon, hitem, hvalue, hlookup⟩ :=
    Grammar.ItemTree.exists_define hread hdeclared hgrows hconstant
  refine ⟨stream, d, directive, name, literal, semicolon, hscan, ?_, hvalue, hlookup⟩
  rw [List.getElem?_eq_getElem hj, hitem]

/-- Whether a text defines a constant with the given integer, as its statements show. -/
def definesInt (host : Host) (s : Session) (r : Request) (j i : Nat) (n : Int64) : Bool :=
  (s.opening host r).any fun o => o.1.globals[i]?.any (·.constant) &&
    ((o.2.statement? j).bind Stmt.declared?).any fun d => d.1 = .global i ∧ d.2.int? = some n

private theorem defines_of_definesInt {n : Int64} (h : s.definesInt host r j i n = true) :
    ∃ value names start, value.int? = some n ∧ s.Defines host r j i value ∧
      s.opening host r = some (names, start) := by
  obtain ⟨⟨names, start⟩, hopening, h⟩ := (Option.any_eq_true _ _).mp h
  obtain ⟨hconstant, h⟩ := Bool.and_eq_true_iff.mp h
  obtain ⟨⟨slot, value⟩, hstatement, h⟩ := (Option.any_eq_true _ _).mp h
  obtain ⟨rfl, hvalue⟩ := of_decide_eq_true h
  exact ⟨value, names, start, hvalue, defines_of_opening hopening hstatement
    ((Option.any_eq_true _ _).mp hconstant), hopening⟩

/-- The run of a text that defines a constant. -/
theorem Defines.opening (h : s.Defines host r j i value)
    (hopening : s.opening host r = some (names, start)) :
    value.Plain ∧ ∃ n ss name front,
      start = ⟨[], n, .statements ss, ready ⟨names, (s.prepared r.mode).machine, []⟩ ss⟩ ∧
      Program.Defines (s.prepared r.mode).names ss names j name value front ∧
      i = front.globals.length := by
  obtain ⟨stream, d, directive, name, literal, semicolon, hscan, hitem, hvalue, hlookup⟩ := h
  obtain ⟨n, ss, later, -, hparse, rfl, rfl⟩ := of_opening hopening
  obtain ⟨stream', hscan', hstream, hmachine⟩ := of_parse hparse
  obtain rfl : stream = stream' := by
    rw [hscan] at hscan'
    exact Except.ok.inj hscan'
  rw [Grammar.parse_of_derivation d] at hstream
  obtain ⟨hss, hlater⟩ := Prod.mk.inj hstream
  obtain rfl := Except.ok.inj hss
  have hspelled : Grammar.Spelled (d.items.flatMap Grammar.ItemTree.yield) := by
    rw [d.yields]
    exact Stream.spelled_ofText hscan
  obtain ⟨front, hdefines⟩ := Grammar.items_define hspelled d.reads hitem hvalue
  rw [hdefines.lookup] at hlookup
  rw [hlater] at hdefines
  refine ⟨Value.plain_of_literal hvalue, n, d.statements, name.lexeme, front, ?_, hdefines,
    (Slot.global.inj (Option.some.inj hlookup)).symm⟩
  rw [← hmachine]
  rfl

/-- The run of a text that defines a constant begins with a zeroed cell, which no procedure writes
to, and which those of earlier texts and of the statements in front of it do not know. -/
theorem Defines.begun (hs : s.Typed) (hroom : s.machine.globals.length ≤ s.names.globals.length)
    (h : s.Defines host r j i value) (hopening : s.opening host r = some (names, start)) :
    value.Plain ∧ ∃ n ss name front m,
      start = ⟨[], n, .statements ss, m⟩ ∧ i = front.globals.length ∧
      Program.Defines (s.prepared r.mode).names ss names j name value front ∧
      m.Keeps i (Value.zero (.scalar (Grammar.constantType value))) ∧
      m.Ignores i front.procedures.length (Value.zero (.scalar (Grammar.constantType value))) := by
  obtain ⟨hplain, n, ss, name, front, rfl, hdefines, rfl⟩ := h.opening hopening
  obtain ⟨hprepared, hroom'⟩ := typed_prepared hs hroom r.mode
  obtain ⟨hkeeps, hignores⟩ := hdefines.ready hprepared.machine hroom'
  exact ⟨hplain, n, ss, name, front, _, rfl, rfl, hdefines, hkeeps, hignores⟩

/-- What the cell of a constant holds once its text has been run: the literal if its definition was
passed, and else zero. -/
def valueLeft (host : Host) (start : Moment) (j : Nat) (value : Value) : Value :=
  if (start.past host.execute (j + 1)).isSome then value
  else Value.zero (.scalar (Grammar.constantType value))

/-- Behind the text that defines it, a constant is pinned. -/
private theorem Defines.pinned (hs : s.Typed)
    (hroom : s.machine.globals.length ≤ s.names.globals.length)
    (h : s.Defines host r j i value) (hopening : s.opening host r = some (names, start)) :
    (valueLeft host start j value).Plain ∧
      (step host r.fuel r.mode r.source s).2.Pinned i (Grammar.constantType value)
        (valueLeft host start j value) := by
  obtain ⟨hplain, n, ss, name, front, m, rfl, rfl, hdefines, hkeeps, -⟩ :=
    h.begun hs hroom hopening
  obtain ⟨hnames, hmachine⟩ := step_of_opening hopening
  have hzero := Value.plain_zero (Grammar.constantType value)
  have hfinish : (valueLeft host ⟨[], n, .statements ss, m⟩ j value).Plain ∧
      ((⟨[], n, .statements ss, m⟩ : Moment).finish host.execute).Keeps front.globals.length
        (valueLeft host ⟨[], n, .statements ss, m⟩ j value) := by
    unfold valueLeft
    cases hpast : (⟨[], n, .statements ss, m⟩ : Moment).past host.execute (j + 1) with
    | some after =>
      have hobeys := hdefines.obeys_of_past hzero hkeeps hplain hpast
      rw [← (Moment.of_past hpast).2]
      exact ⟨hplain, Law.finish (spares_law hplain) hobeys⟩
    | none => exact ⟨hzero, hdefines.finish_of_not_past hzero hkeeps hplain hpast⟩
  refine ⟨hfinish.1, ?_, ?_⟩
  · rw [hnames]
    exact ⟨_, hdefines.declared, rfl, rfl⟩
  · rw [hmachine]
    exact ⟨hfinish.2.cell, hfinish.2.bodies⟩

/-- It stays so while texts are run on top. -/
private theorem pinned_replay {history : List Request}
    (h : (replay host fresh history).Defines host r j i value)
    (hopening : (replay host fresh history).opening host r = some (names, start))
    {idles : List Request} (hidles : ∀ q ∈ idles, q.mode = .onTop) :
    (replay host fresh (history ++ r :: idles)).Pinned i (Grammar.constantType value)
      (valueLeft host start j value) := by
  obtain ⟨hs, hroom⟩ := typed_replay host history
  obtain ⟨hleft, hpinned⟩ := h.pinned hs hroom hopening
  rw [replay_append]
  exact hpinned.replay hleft hidles

end Defining

/-- Constants are never overwritten. Once the definition of a constant has been executed, in
whatever text of whatever session, its cell holds the literal at every moment of the rest of that
run, and of every run on top of it, whatever is called, and whatever other variables have its
name. -/
theorem constants_kept (host : Host) (history : List Request) {r : Request} {j i : Nat}
    {value : Value} (hdefines : (replay host fresh history).Defines host r j i value)
    {names : Names} {start after : Moment}
    (hopening : (replay host fresh history).opening host r = some (names, start))
    (hpast : start.past host.execute (j + 1) = some after) :
    (start.Leads host.execute after ∧ after.finish host.execute = start.finish host.execute ∧
        after.Holds host.execute i value) ∧
      ∀ idles : List Request, (∀ q ∈ idles, q.mode = .onTop) →
        let s := replay host fresh (history ++ r :: idles)
        s.machine.cell? (.global i) = some value ∧
          ∀ (q : Request) (names' : Names) (start' : Moment), q.mode = .onTop →
            s.opening host q = some (names', start') → start'.Holds host.execute i value := by
  obtain ⟨hs, hroom⟩ := typed_replay host history
  have hleft : valueLeft host start j value = value := by rw [valueLeft, hpast]; rfl
  obtain ⟨hplain, n, ss, name, front, m, rfl, rfl, hprogram, hkeeps, -⟩ :=
    hdefines.begun hs hroom hopening
  refine ⟨?_, fun idles hidles => ?_⟩
  · obtain ⟨hleads, hfinish⟩ := Moment.of_past hpast
    have hobeys := hprogram.obeys_of_past (Value.plain_zero _) hkeeps hplain hpast
    exact ⟨hleads, hfinish, Moment.holds_of_obeys hplain hobeys⟩
  · have hlater := pinned_replay hdefines hopening hidles
    rw [hleft] at hlater
    refine ⟨hlater.keeps.cell, fun q names' start' hq hopening' => ?_⟩
    exact Moment.holds_of_obeys hplain (hlater.opening hq hopening').2

/-- A run has a moment that passes a test, if following a path of parts finds it. -/
private theorem exists_moment_of_follow (host : Host) (s : Session) (q : Request) (path : List Nat)
    (test : Moment → Bool)
    (h : ((s.opening host q).bind fun o =>
      (o.2.follow host.execute path).filter test).isSome = true) :
    ∃ names start k, s.opening host q = some (names, start) ∧ start.Leads host.execute k ∧
      test k = true := by
  obtain ⟨k, hk⟩ := Option.isSome_iff_exists.mp h
  obtain ⟨⟨names, start⟩, hopening, hk⟩ := Option.bind_eq_some_iff.mp hk
  obtain ⟨hfollow, htest⟩ := Option.filter_eq_some_iff.mp hk
  exact ⟨names, start, k, hopening, Moment.leads_of_follow hfollow, htest⟩

/-- A parameter and a local of the same name are written in calls of procedures, in the text that
defines the constant and in one on top of it. -/
theorem constants_kept_hidden :
    let host : Host := ⟨none, none⟩
    let r : Request := ⟨9, .whole, "#define N 5\nI64 f(I64 N) \x7b N = 7; return N; \x7d f(1);"⟩
    let q : Request := ⟨9, .onTop, "I64 g() \x7b I64 N = 8; return f(N); \x7d g();"⟩
    ∃ value names start after k names' start' k', value.int? = some 5 ∧
      fresh.Defines host r 0 0 value ∧ fresh.opening host r = some (names, start) ∧
      start.past none 1 = some after ∧ after.Holds none 0 value ∧
      (after.Leads none k ∧ k.stack = [0] ∧
        ((k.finish none).at? ⟨0, .argument 0, []⟩).bind Value.int? = some 7) ∧
      (replay host fresh [r]).opening host q = some (names', start') ∧
      start'.Holds none 0 value ∧
      (start'.Leads none k' ∧ k'.stack = [0, 1] ∧
        ((k'.finish none).at? ⟨1, .own 0, []⟩).bind Value.int? = some 8) := by
  intro host r q
  have hdefinesInt : fresh.definesInt host r 0 0 5 = true := by decide +kernel
  have hrun : ((fresh.opening host r).bind fun o => (o.2.past none 1).bind fun after =>
      (after.follow none [0, 0, 1]).filter fun k => decide (k.stack = [0] ∧
        ((k.finish none).at? ⟨0, .argument 0, []⟩).bind Value.int? = some 7)).isSome = true := by
    decide +kernel
  obtain ⟨value, -, -, hvalue, hdefines, -⟩ := defines_of_definesInt hdefinesInt
  obtain ⟨k, hk⟩ := Option.isSome_iff_exists.mp hrun
  obtain ⟨⟨names, start⟩, hopening, hk⟩ := Option.bind_eq_some_iff.mp hk
  obtain ⟨after, hpast, hk⟩ := Option.bind_eq_some_iff.mp hk
  obtain ⟨hfollow, hk⟩ := Option.filter_eq_some_iff.mp hk
  obtain ⟨hstack, hwritten⟩ := of_decide_eq_true hk
  obtain ⟨names', start', k', hopening', hleads', hk'⟩ :=
    exists_moment_of_follow host (replay host fresh [r]) q
      [0, 0, 1, 1, 0, 1] (fun k => decide (k.stack = [0, 1] ∧
        ((k.finish none).at? ⟨1, .own 0, []⟩).bind Value.int? = some 8)) (by decide +kernel)
  obtain ⟨hstack', hwritten'⟩ := of_decide_eq_true hk'
  obtain ⟨⟨-, -, hholds⟩, hlater⟩ := constants_kept host [] hdefines hopening hpast
  exact ⟨value, names, start, after, k, names', start', k', hvalue, hdefines, hopening, hpast,
    hholds, ⟨Moment.leads_of_follow hfollow, hstack, hwritten⟩, hopening',
    (hlater [] (by simp)).2 q names' start' rfl hopening',
    hleads', hstack', hwritten'⟩

/-- What a constant reads as. In the run of the text that defines it, every look at the constant
finds the literal. In the runs of texts on top, every look finds the literal if the definition was
executed; if the run of its text stopped before, every look finds the zero of its type. -/
theorem constants_read (host : Host) (history : List Request) {r : Request} {j i : Nat}
    {value : Value} (hdefines : (replay host fresh history).Defines host r j i value)
    {names : Names} {start : Moment}
    (hopening : (replay host fresh history).opening host r = some (names, start)) :
    value.stored (.scalar (Grammar.constantType value)) = value ∧
      start.Finds host.execute i value ∧
      ∀ idles : List Request, (∀ q ∈ idles, q.mode = .onTop) →
        ∀ (q : Request) (names' : Names) (start' : Moment), q.mode = .onTop →
          (replay host fresh (history ++ r :: idles)).opening host q = some (names', start') →
            start'.Finds host.execute i (valueLeft host start j value) := by
  obtain ⟨hs, hroom⟩ := typed_replay host history
  obtain ⟨hdotless, hsound⟩ := sound_opening hs hroom hopening
  obtain ⟨hplain, n, ss, name, front, m, rfl, rfl, hprogram, hkeeps, hignores⟩ :=
    hdefines.begun hs hroom hopening
  obtain ⟨hleft, -⟩ := hdefines.pinned hs hroom hopening
  refine ⟨Value.stored_constantType hplain, ?_, fun idles hidles q names' start' hq hopening' => ?_⟩
  · refine hsound.finds hdotless hprogram.declared rfl fun k p hleads htask hslot => ?_
    exact hprogram.read_of_leads (Value.plain_zero _) hkeeps hplain hignores hleads htask hslot
  · obtain ⟨hs', hroom'⟩ := typed_replay host (history ++ r :: idles)
    obtain ⟨hdotless', hsound'⟩ := sound_opening hs' hroom' hopening'
    have hlater := pinned_replay hdefines hopening hidles
    obtain ⟨⟨x, hx, htype, -⟩, hobeys⟩ := hlater.opening hq hopening'
    refine hsound'.finds hdotless' hx htype fun k p hleads _ _ => ?_
    exact ((spares_law hleft).of_leads hleads hobeys).holds.cell

/-- A procedure looks at the constant; it is called on top of a text that failed. -/
theorem constants_read_later :
    let host : Host := ⟨none, none⟩
    let r : Request := ⟨9, .whole, "#define N 5\nI64 f() \x7b return N; \x7d"⟩
    let idle : Request := ⟨9, .onTop, "1 / 0;"⟩
    let q : Request := ⟨9, .onTop, "f();"⟩
    ∃ value names start k, value.int? = some 5 ∧ fresh.Defines host r 0 0 value ∧
      (replay host fresh [r, idle]).opening host q = some (names, start) ∧
      start.Finds none 0 value ∧
      start.Leads none k ∧ k.stack = [0] ∧ ∃ p, k.task = .expr (.read p) ∧ p.slot = .global 0 := by
  intro host r idle q
  have hdefinesInt : fresh.definesInt host r 0 0 5 = true := by decide +kernel
  have hpast : (fresh.opening host r).all (fun o => (o.2.past none 1).isSome) = true := by
    decide +kernel
  obtain ⟨value, names, start, hvalue, hdefines, hopening⟩ := defines_of_definesInt hdefinesInt
  obtain ⟨names', start', k, hopening', hleads, hk⟩ :=
    exists_moment_of_follow host (replay host fresh [r, idle]) q [0, 1, 0]
      (fun k => match k.task with
        | .expr (.read p) => decide (p.slot = .global 0 ∧ k.stack = [0])
        | _ => false) (by decide +kernel)
  have hfinds := (constants_read host [] hdefines hopening).2.2 [idle] (by simp [idle]) q
    names' start' rfl hopening'
  have hleft : valueLeft host start 0 value = value := by
    rw [hopening] at hpast
    exact if_pos hpast
  rw [hleft] at hfinds
  refine ⟨value, names', start', k, hvalue, hdefines, hopening', hfinds, hleads, ?_⟩
  split at hk
  · rename_i p htask
    obtain ⟨hslot, hstack⟩ := of_decide_eq_true hk
    exact ⟨hstack, p, htask, hslot⟩
  · cases hk

/-- A text that stops in front of the definition leaves the name declared with a zeroed cell: on top
of it, a look at the constant does not find the literal. -/
theorem constant_not_reached :
    let host : Host := ⟨none, none⟩
    let r : Request := ⟨9, .onTop, "1 / 0;\n#define N 5"⟩
    let q : Request := ⟨9, .onTop, "N;"⟩
    ∃ value names start, value.int? = some 5 ∧ fresh.Defines host r 1 0 value ∧
      (replay host fresh [r]).opening host q = some (names, start) ∧
      ¬ start.Finds none 0 value := by
  intro host r q
  have hdefinesInt : fresh.definesInt host r 1 0 5 = true := by decide +kernel
  obtain ⟨value, -, -, hvalue, hdefines, -⟩ := defines_of_definesInt hdefinesInt
  obtain ⟨names, start, k, hopening, hleads, hk⟩ :=
    exists_moment_of_follow host (replay host fresh [r]) q [0]
      (fun k => match k.task with
        | .expr (.read p) => decide (p.slot = .global 0 ∧
          (match evaluate (runBody none k.fuel) (.read p) k.machine with
          | .ok v _ => v.int?
          | .error _ _ => none) = some 0)
        | _ => false) (by decide +kernel)
  refine ⟨value, names, start, hvalue, hdefines, hopening, fun hfinds => ?_⟩
  split at hk
  · rename_i p htask
    obtain ⟨hslot, hread⟩ := of_decide_eq_true hk
    rw [hfinds k p hleads htask hslot] at hread
    cases hvalue.symm.trans hread
  · cases hk

end Session

end Litany
