import Litany.Proofs.Machine.TypedRuns
import Litany.Proofs.Session.Agreement
import Mathlib.Data.List.Induction

/-!
# The store is typed in every state of a session

A cell that is declared with a scalar type never holds a number that does not fit the type. This
holds of globals, of the arguments and locals of every call that has not ended, and of the field
cells of objects in them; between the texts of a session, at every moment while one of them runs,
and after a fault. The main statement is `Session.cells_fit`.

Storing a value back where it was read is therefore the same as reading it.
-/

namespace Litany

open Run

/-! ### Cells and their types -/

/-- The type that the tables give a cell, while the given procedures are called. -/
def Names.typeAt? (names : Names) (stack : List Nat) (a : Address) : Option CellType :=
  (names.slotType? (Scope.within (stack.drop a.depth)) a.slot).bind fun declared =>
    names.fieldType? declared.1 a.path

/-- A slot that means the same cell to two calls has the same type for both. -/
private theorem Names.slotType?_of_shared {names : Names} {stack : List Nat} {depth : Nat}
    {slot : Slot} (h : slot.Shared depth) : names.slotType? (Scope.within (stack.drop depth)) slot =
      names.slotType? (Scope.within stack) slot := by
  cases slot with
  | global i => rfl
  | argument i | own i =>
    obtain rfl : depth = 0 := h
    rfl

/-- There is one frame for each of the procedures called, and every cell of scalar type holds a
text, an object, or a number that fits, so that storing it there again would not change it. -/
structure Machine.CellsFit (names : Names) (stack : List Nat) (m : Machine) : Prop where
  calls : m.frames.length = stack.length
  cells : ∀ (a : Address) (t : Scalar) (v : Value), names.typeAt? stack a = some (.scalar t) →
    m.at? a = some v → v.HasScalar t ∧ v.coerce t = v

namespace Machine.Typed

variable {names : Names} {stack : List Nat} {m : Machine}

/-- The waiting calls find a typed machine too. -/
theorem below (h : m.Typed names stack) (depth : Nat) :
    (m.below depth).Typed names (stack.drop depth) :=
  ⟨h.globals, h.equipped, List.forall₂_drop depth h.frames⟩

private theorem cellsFit (hdotless : names.Dotless) (h : m.Typed names stack) :
    m.CellsFit names stack := by
  refine ⟨h.frames.length_eq.symm, fun a t v htype hv => ?_⟩
  obtain ⟨⟨rootType, constant⟩, hroot, hfield⟩ := Option.bind_eq_some_iff.mp htype
  obtain ⟨content, hcontent, hv⟩ := Option.bind_eq_some_iff.mp hv
  have hsuits := (h.below a.depth).cell hroot hcontent
  have hscalar : v.HasScalar t := by
    obtain ⟨depth, slot, path⟩ := a
    cases path with
    | nil =>
      obtain rfl := Option.some.inj hv
      cases rootType <;> cases hfield
      exact hsuits
    | cons segment rest =>
      cases rootType with
      | scalar t' => cases hfield
      | object number =>
        obtain ⟨cells, rfl⟩ := hsuits.exists_object
        exact hsuits.hasScalar hdotless hfield (Cells.mem_of_lookup hv)
  exact ⟨hscalar, Value.coerce_of_hasScalar hscalar⟩

/-! ### Storing back what was read -/

/-- Storing at a scalar place what is read there is the same as reading it. -/
theorem evaluate_assign_self (hdotless : names.Dotless) (h : m.Typed names stack) {p : Place}
    {t : Scalar} (hp : p.Scoped names (Scope.within stack)) (htype : p.type = .scalar t)
    (body : List Stmt → Run Ending) (line : Nat) :
    evaluate body (.assign p [⟨none, .read p, line⟩]) m = evaluate body (.read p) m := by
  simp only [evaluate, evaluateSteps]
  cases hvisit : visit p m with
  | error stop later => rw [bind_apply, hvisit]
  | ok v later =>
    have hscalar := (typed_of_visit hdotless hp h hvisit).2 t htype
    -- the operand is read behind the first visit, and finds the same
    have hagain := visit_again hvisit
    have hkept : v.stored p.type = v := by
      rw [htype]
      exact Value.coerce_of_hasScalar hscalar
    have hstore : store p v later = .ok v later := by
      unfold store
      rw [hkept, bind_of_ok hagain]
      change EStateM.Result.ok v (overwrite p v later) = _
      rw [overwrite_of_visit hvisit]
    rw [bind_of_ok hvisit, bind_of_ok hagain]
    change (store p v >>= fun kept => pure kept) later = _
    rw [bind_of_ok hstore]
    rfl

/-- Reading a place changes no cell of scalar type. -/
private theorem at?_read {p : Place} (hp : p.Scoped names (Scope.within stack))
    (body : List Stmt → Run Ending) {a : Address} {t : Scalar} {w : Value}
    (htype : names.typeAt? stack a = some (.scalar t)) (hw : m.at? a = some w) :
    (endOf (evaluate body (.read p)) m).at? a = some w := by
  obtain ⟨⟨rootType, constant⟩, hroot, hfield⟩ := Option.bind_eq_some_iff.mp htype
  rw [evaluate]
  unfold endOf
  cases hvisit : visit p m with
  | error stop later => exact eq_of_visit_error hvisit ▸ hw
  | ok v later =>
    refine at?_of_visit hvisit (fun hslot hshared hpath => ?_) hw
    -- the slot is that of the place, and it is of scalar type: it has no fields
    obtain ⟨placeType, constant', hplace, hfield'⟩ := hp.type
    rw [hslot, Names.slotType?_of_shared (hslot ▸ hshared), hplace] at hroot
    obtain ⟨rfl, -⟩ := Prod.mk.inj (Option.some.inj hroot)
    rw [hpath] at hfield
    have hscalar : placeType = .scalar t := by
      cases placeType <;> exact Option.some.inj hfield
    rw [hscalar] at hfield'
    cases hpath' : p.path with
    | nil => rfl
    | cons segment rest =>
      rw [hpath'] at hfield'
      cases hfield'

/-- What a procedure gives back is of the type that it is declared with. -/
theorem hasScalar_of_call (h : m.Typed names stack) {body : List Stmt → Run Ending}
    {ordinal line : Nat} {name : String} {es : List Expr} {v : Value} {later : Machine}
    (hcall : evaluate body (.call ordinal name es line) m = .ok v later) :
    ∃ p, names.procedures[ordinal]? = some p ∧ v.HasScalar p.returns := by
  rw [evaluate] at hcall
  obtain ⟨q, found, hfound, hcall⟩ := bind_eq_ok.mp hcall
  obtain ⟨values, middle, -, hcall⟩ := bind_eq_ok.mp hcall
  obtain ⟨ending, last, -, hcall⟩ := bind_eq_ok.mp hcall
  obtain ⟨rfl, -⟩ := pure_eq_ok.mp hcall
  obtain ⟨-, -, rfl, hfits⟩ := fits_of_procedure h hfound
  obtain ⟨p, hp, hreturns, -⟩ := hfits.signature
  refine ⟨p, hp, ?_⟩
  rw [hreturns]
  cases ending with
  | returned w => exact Value.hasScalar_coerce w q.returns
  | through => exact Value.hasScalar_zero q.returns

end Machine.Typed

/-- What a typed store means for a part of a run. Its machine is typed when the part begins and when
it ends, with an answer or at a stop; if it is a call, its value is of the type that the procedure
is declared with; and to store back what is read at a scalar place would be the same as to read it,
and would change no cell. -/
structure Moment.StoreTyped (executor : Option Executor) (names : Names) (k : Moment) : Prop where
  begins : k.machine.CellsFit names k.stack
  ends : (k.finish executor).CellsFit names k.stack
  returns : ∀ (ordinal : Nat) (name : String) (es : List Expr) (line : Nat) (v : Value)
    (later : Machine), k.task = .expr (.call ordinal name es line) →
      evaluate (runBody executor k.fuel) (.call ordinal name es line) k.machine = .ok v later →
        ∃ p, names.procedures[ordinal]? = some p ∧ v.HasScalar p.returns
  selfAssignment : ∀ (p : Place) (t : Scalar) (line : Nat),
    p.Scoped names (Scope.within k.stack) → p.type = .scalar t →
      let self := evaluate (runBody executor k.fuel) (.assign p [⟨none, .read p, line⟩])
      self k.machine = evaluate (runBody executor k.fuel) (.read p) k.machine ∧
        ∀ (a : Address) (t : Scalar) (w : Value), names.typeAt? k.stack a = some (.scalar t) →
          k.machine.at? a = some w → (endOf self k.machine).at? a = some w

private theorem Moment.Sound.storeTyped {executor : Option Executor} {names : Names} {k : Moment}
    (hdotless : names.Dotless) (h : k.Sound names) : k.StoreTyped executor names where
  begins := h.typed.cellsFit hdotless
  ends := (h.finish hdotless).cellsFit hdotless
  returns := fun _ _ _ _ _ _ _ hcall => h.typed.hasScalar_of_call hcall
  selfAssignment := by
    intro p t line hp htype self
    have hself := h.typed.evaluate_assign_self hdotless hp htype (runBody executor k.fuel) line
    refine ⟨hself, fun a t w htypeAt hw => ?_⟩
    have hread := Machine.Typed.at?_read hp (runBody executor k.fuel) htypeAt hw
    unfold endOf at hread ⊢
    rw [show self k.machine = _ from hself]
    exact hread

/-! ### Sessions -/

/-- Globals that have no cell yet get a zeroed one. -/
theorem Suited.allocate {names : Names} {m : Machine} {early types : List CellType}
    (h : Suited names m.globals early) (hroom : m.globals.length ≤ early.length)
    (hearly : early <+: types) : Suited names (m.allocate types).globals types := by
  intro i v type hv htype
  -- a cell that was there keeps its content, a new one is zeroed
  by_cases hi : i < m.globals.length
  · have hv : m.globals[i]? = some v := by
      rw [← hv]
      exact (List.getElem?_append_left hi).symm
    have hsame := List.prefix_iff_getElem?.mp hearly i (by omega)
    rw [htype] at hsame
    refine h hv ?_
    rw [hsame, List.getElem?_eq_getElem]
  · have hle := Nat.le_of_not_lt hi
    have hv : (((types.drop m.globals.length).map Value.zero))[i - m.globals.length]? = some v := by
      rw [← hv]
      exact (List.getElem?_append_right hle).symm
    refine Suited.zeros names _ hv ?_
    rw [List.getElem?_drop, Nat.add_sub_cancel' hle]
    exact htype

namespace Session

/-- A session between two texts, with typed cells. -/
structure Typed (s : Session) : Prop where
  dotless : s.names.Dotless
  machine : s.machine.Typed s.names []

/-- The session in which a text is read: a whole run begins on fresh tables. -/
def prepared (mode : Mode) (s : Session) : Session :=
  match mode with
  | .whole => { s with names := Names.empty, machine := s.machine.reset }
  | .onTop => s

/-- The machine on which the statements of a program begin to run. -/
def ready (s : Session) (statements : List Stmt) : Machine :=
  (s.machine.allocate s.names.globalTypes).installAll statements

/-- The tables and the first moment of the run that a request leads to, if its text can be read and
there is any fuel. -/
def opening (host : Host) (s : Session) (r : Request) : Option (Names × Moment) :=
  match r.fuel, parse host r.source (s.prepared r.mode) with
  | n + 1, (.ok statements, later) =>
    some (later.names, ⟨[], n, .statements statements, later.ready statements⟩)
  | _, _ => none

/-- A machine without cells and bodies is typed under any tables. -/
theorem typed_reset (m : Machine) (names : Names) : m.reset.Typed names [] := by
  refine ⟨?_, ⟨names.procedures.length, ?_, ?_⟩, .nil⟩
  · intro i v type hv
    cases hv
  · intro ordinal p hp
    cases hp
  · intro ordinal hle hlt
    exact absurd hlt (Nat.not_lt_of_le hle)

/-- Reading a text leaves the tables as they were, or as the parser leaves them. -/
theorem names_of_parse (host : Host) (source : String) (s : Session) :
    (parse host source s).2.names = s.names ∨ ∃ stream outcome,
      (Stream.ofText host.fetch s.fetched source).outcome = .ok stream ∧
        Grammar.parse s.names stream = (outcome, (parse host source s).2.names) := by
  simp only [parse]
  cases (Stream.ofText host.fetch s.fetched source).outcome with
  | error f => exact Or.inl rfl
  | ok stream =>
    refine Or.inr ⟨stream, (Grammar.parse s.names stream).1, rfl, ?_⟩
    dsimp only
    cases Grammar.parse s.names stream with
    | mk outcome later => cases outcome <;> rfl

/-- Reading a text leaves no dot in the name of a field. -/
theorem dotless_parse (host : Host) (source : String) {s : Session} (hs : s.names.Dotless) :
    (parse host source s).2.names.Dotless := by
  rcases names_of_parse host source s with hsame | ⟨stream, outcome, hscan, hparse⟩
  · rw [hsame]
    exact hs
  · exact Grammar.dotless_of_parse hscan hs hparse

/-- The session in which a text is read is typed, and has no more cells than globals. -/
theorem typed_prepared {s : Session} (hs : s.Typed)
    (hroom : s.machine.globals.length ≤ s.names.globals.length) (mode : Mode) :
    (s.prepared mode).Typed ∧
      (s.prepared mode).machine.globals.length ≤ (s.prepared mode).names.globals.length := by
  cases mode with
  | whole => exact ⟨⟨Names.dotless_empty, typed_reset s.machine Names.empty⟩, le_rfl⟩
  | onTop => exact ⟨hs, hroom⟩

/-- A program begins on a typed machine. -/
theorem typed_ready {s : Session} (hs : s.machine.Typed s.names [])
    (hroom : s.machine.globals.length ≤ s.names.globals.length) {later : Names} {ss : List Stmt}
    (hss : Program.Scoped s.names ss later) (fetched : List String) :
    (ready ⟨later, s.machine, fetched⟩ ss).Typed later [] := by
  obtain ⟨k, hequipped⟩ := hs.equipped
  have hglobals :
      Suited later (s.machine.allocate later.globalTypes).globals later.globalTypes := by
    refine (hs.globals.mono hss.extends.grows).allocate ?_ (hss.extends.globals.map _)
    rw [Names.globalTypes, List.length_map]
    exact hroom
  have hprocedures : Equipped later k (ready ⟨later, s.machine, fetched⟩ ss).procedures :=
    hss.equipped (m := s.machine.allocate later.globalTypes) hequipped
  have hframes : Stacked later [] s.machine.frames := by
    rw [List.forall₂_nil_left_iff.mp hs.frames]
    exact .nil
  refine ⟨?_, ⟨k, hprocedures⟩, ?_⟩
  · rw [ready, Machine.installAll_eq]
    exact hglobals
  · rw [ready, Machine.installAll_eq]
    exact hframes

theorem of_opening {host : Host} {s : Session} {r : Request} {names : Names} {start : Moment}
    (h : s.opening host r = some (names, start)) :
    ∃ n ss later, r.fuel = n + 1 ∧ parse host r.source (s.prepared r.mode) = (.ok ss, later) ∧
      names = later.names ∧ start = ⟨[], n, .statements ss, later.ready ss⟩ := by
  unfold opening at h
  split at h
  · rename_i n ss later hfuel hparse
    cases h
    exact ⟨n, ss, later, hfuel, hparse, rfl, rfl⟩
  · cases h

/-- The first moment of a run is sound. -/
theorem sound_opening {host : Host} {s : Session} (hs : s.Typed)
    (hroom : s.machine.globals.length ≤ s.names.globals.length) {r : Request} {names : Names}
    {start : Moment} (h : s.opening host r = some (names, start)) :
    names.Dotless ∧ start.Sound names := by
  obtain ⟨n, ss, later, -, hparse, rfl, rfl⟩ := of_opening h
  obtain ⟨hprepared, hroom'⟩ := typed_prepared hs hroom r.mode
  have hdotless := dotless_parse host r.source hprepared.dotless
  rcases parse_cases host r.source (s.prepared r.mode) with
    ⟨f, later', hparse', -⟩ | ⟨ss', names, fetched, hparse', hss⟩
  · rw [hparse] at hparse'
    cases hparse'
  · rw [hparse] at hparse' hdotless
    cases hparse'
    exact ⟨hdotless, hss.acts (.refl names), typed_ready hprepared.machine hroom' hss fetched⟩

/-- What a request comes to once its text is parsed: a program is executed; for a text that is no
program, the tables stay as they were if it was to be run on top of others. -/
def attempt (host : Host) (r : Request) (s : Session) :
    Except Failure (List Stmt) × Session → Except Failure String × Session
  | (.ok ss, later) => execute host r.fuel ss later
  | (.error f, later) =>
    match r.mode with
    | .whole => (.error f, later)
    | .onTop => (.error f, { later with names := s.names })

theorem step_eq_attempt (host : Host) (r : Request) (s : Session) :
    step host r.fuel r.mode r.source s =
      let made := attempt host r s (parse host r.source (s.prepared r.mode))
      (⟨made.1, made.2.machine.blocks.drop s.machine.blocks.length⟩, made.2) := by
  obtain ⟨fuel, mode, source⟩ := r
  cases mode with
  | whole =>
    simp only [step, run, prepared]
    generalize parse host source _ = parsed
    obtain ⟨outcome, later⟩ := parsed
    cases outcome <;> rfl
  | onTop =>
    simp only [step, runOnTop, prepared]
    generalize parse host source s = parsed
    obtain ⟨outcome, later⟩ := parsed
    cases outcome <;> rfl

theorem execute_apply (host : Host) (fuel : Nat) (ss : List Stmt) (s : Session) :
    execute host fuel ss s =
      let run := (s.machine.allocate s.names.globalTypes).interpret host.execute fuel ss
      (run.1.mapError .stop, { s with machine := run.2 }) := by
  unfold execute
  dsimp only
  cases (s.machine.allocate s.names.globalTypes).interpret host.execute fuel ss with
  | mk outcome later => cases outcome <;> rfl

/-- Executing statements leaves what the run ends with, less frames and output. -/
theorem execute_eq (host : Host) (fuel : Nat) (ss : List Stmt) (s : Session) :
    (execute host fuel ss s).2 = { s with machine :=
      { endOf (runBody host.execute fuel ss) (s.ready ss) with frames := [], output := "" } } := by
  unfold execute Machine.interpret endOf ready
  dsimp only
  cases runBody host.execute fuel ss ((s.machine.allocate s.names.globalTypes).installAll ss) with
  | ok ending later => rfl
  | error stop later => rfl

/-- A run that has begun leaves the session with what its first moment ends in. -/
theorem step_of_opening {host : Host} {s : Session} {r : Request} {names : Names} {start : Moment}
    (h : s.opening host r = some (names, start)) :
    (step host r.fuel r.mode r.source s).2.names = names ∧
      (step host r.fuel r.mode r.source s).2.machine =
        { start.finish host.execute with frames := [], output := "" } := by
  obtain ⟨n, ss, later, hfuel, hparse, rfl, rfl⟩ := of_opening h
  rw [step_eq_attempt, hparse]
  dsimp only [attempt]
  rw [execute_eq, hfuel]
  exact ⟨rfl, rfl⟩

/-- A request leaves a typed session typed. -/
theorem typed_step {s : Session} (hs : s.Typed)
    (hroom : s.machine.globals.length ≤ s.names.globals.length) (host : Host) (r : Request) :
    (step host r.fuel r.mode r.source s).2.Typed := by
  obtain ⟨hprepared, hroom'⟩ := typed_prepared hs hroom r.mode
  have hdotless := dotless_parse host r.source hprepared.dotless
  rw [step_eq_attempt]
  rcases parse_cases host r.source (s.prepared r.mode) with
    ⟨f, later, hparse, -, hmachine, -⟩ | ⟨ss, names, fetched, hparse, hss⟩
  · rw [hparse] at hdotless ⊢
    dsimp only [attempt] at hdotless ⊢
    -- on top, a text that cannot be read leaves the tables as they were
    cases hmode : r.mode with
    | whole =>
      refine ⟨hdotless, ?_⟩
      rw [hmachine, hmode]
      exact typed_reset s.machine later.names
    | onTop =>
      refine ⟨hs.dotless, ?_⟩
      dsimp only
      rw [hmachine, hmode]
      exact hs.machine
  · rw [hparse] at hdotless ⊢
    dsimp only [attempt] at hdotless ⊢
    rw [execute_eq]
    refine ⟨hdotless, ?_⟩
    have hready := typed_ready hprepared.machine hroom' hss fetched
    have hends : (endOf (runBody host.execute r.fuel ss)
        (ready ⟨names, (s.prepared r.mode).machine, fetched⟩ ss)).Typed names [] := by
      cases r.fuel with
      | zero => exact hready
      | succ n =>
        have hsound : Moment.Sound names ⟨[], n, .statements ss, _⟩ :=
          ⟨hss.acts (.refl names), hready⟩
        exact hsound.finish hdotless
    exact ⟨hends.globals, hends.equipped, .nil⟩

theorem replay_take_succ (host : Host) (s : Session) {requests : List Request} {i : Nat}
    {r : Request} (h : requests[i]? = some r) :
    replay host s (requests.take (i + 1)) =
      (step host r.fuel r.mode r.source (replay host s (requests.take i))).2 := by
  have htake : requests.take (i + 1) = requests.take i ++ [r] := by
    rw [List.take_add_one, h, Option.toList_some]
  rw [htake, replay_append]
  rfl

/-- Between the texts of a session all cells are typed. -/
theorem typed_replay (host : Host) (history : List Request) :
    (replay host fresh history).Typed ∧
      (replay host fresh history).machine.globals.length ≤
        (replay host fresh history).names.globals.length := by
  have hroom : ∀ history : List Request, (replay host fresh history).machine.globals.length ≤
      (replay host fresh history).names.globals.length := by
    intro history
    obtain ⟨orphans, hsound, -⟩ := exists_sound host history
    obtain ⟨types, hprefix, hfilled⟩ := hsound.globals
    have hle := hprefix.length_le
    rw [Names.globalTypes, List.length_map] at hle
    exact hfilled.length ▸ hle
  refine ⟨?_, hroom history⟩
  induction history using List.reverseRecOn with
  | nil => exact ⟨Names.dotless_empty, typed_reset Machine.empty Names.empty⟩
  | append_singleton history r ih =>
    rw [replay_append]
    exact typed_step ih (hroom history) host r

/-- The store is typed in every state of every session. Whatever texts have been run, and whatever
the host answers, every cell that is declared with a scalar type holds a text, an object or a number
that fits the type: between the texts, and at every moment of the next one, up to the machine that
it leaves behind. -/
theorem cells_fit (host : Host) (history : List Request) :
    let s := replay host fresh history
    s.machine.CellsFit s.names [] ∧
      ∀ (r : Request) (names : Names) (start : Moment), s.opening host r = some (names, start) →
        (step host r.fuel r.mode r.source s).2.names = names ∧
        (step host r.fuel r.mode r.source s).2.machine =
          { start.finish host.execute with frames := [], output := "" } ∧
        ∀ k, start.Leads host.execute k → k.StoreTyped host.execute names := by
  intro s
  obtain ⟨hs, hroom⟩ := typed_replay host history
  refine ⟨hs.machine.cellsFit hs.dotless, fun r names start hopening => ?_⟩
  obtain ⟨hdotless, hstart⟩ := sound_opening hs hroom hopening
  obtain ⟨hnames, hmachine⟩ := step_of_opening hopening
  refine ⟨hnames, hmachine, fun k hleads => ?_⟩
  have hk := Moment.Sound.of_leads hdotless hleads hstart
  exact hk.storeTyped hdotless

/-- In the body of a procedure that counts its argument up, the argument overflows from 127 to
-128, while a global object holds 44 in a field that 300 was assigned to. -/
theorem cells_fit_overflow :
    let host : Host := ⟨none, none⟩
    let s := replay host fresh [⟨9, .whole, "class P \x7b U8 x; \x7d; P p; p.x = 300;"⟩]
    let r : Request := ⟨9, .onTop, "I8 f(I8 n) \x7b n++; return n; \x7d f(127);"⟩
    let n : Address := ⟨0, .argument 0, []⟩
    let x : Address := ⟨0, .global 0, ["x"]⟩
    ∃ names start k, s.opening host r = some (names, start) ∧ start.Leads none k ∧
      k.stack = [0] ∧ names.typeAt? k.stack n = some (.scalar .i8) ∧
      ((k.machine.at? n).bind Value.int? = some 127 ∧
        ((k.finish none).at? n).bind Value.int? = some (-128)) ∧
      names.typeAt? k.stack x = some (.scalar .u8) ∧
      (k.machine.at? x).bind Value.int? = some 44 ∧ k.StoreTyped none names := by
  intro host s r n x
  have hrun : ((s.opening host r).bind fun o => (o.2.follow none [0, 0, 1]).filter fun k =>
      decide (k.stack = [0] ∧ o.1.typeAt? k.stack n = some (.scalar .i8) ∧
        ((k.machine.at? n).bind Value.int? = some 127 ∧
          ((k.finish none).at? n).bind Value.int? = some (-128)) ∧
        o.1.typeAt? k.stack x = some (.scalar .u8) ∧
        (k.machine.at? x).bind Value.int? = some 44)).isSome = true := by
    decide +kernel
  obtain ⟨k, hk⟩ := Option.isSome_iff_exists.mp hrun
  obtain ⟨⟨names, start⟩, hopening, hk⟩ := Option.bind_eq_some_iff.mp hk
  obtain ⟨hfollow, hk⟩ := Option.filter_eq_some_iff.mp hk
  obtain ⟨hstack, hn, hvalues, hx, hfield⟩ := of_decide_eq_true hk
  have hleads := Moment.leads_of_follow hfollow
  exact ⟨names, start, k, hopening, hleads, hstack, hn, hvalues, hx, hfield,
    ((cells_fit host _).2 r names start hopening).2.2 k hleads⟩

end Session

end Litany
