import Litany.Proofs.Machine.Pairing
import Litany.Proofs.Session.Typing

/-!
# Field cells are unobservable

An object gets the cell of a field when the field is first visited, be it read, assigned, or
assigned by an expression that fails. No program can tell, as long as it does not use an object
itself as an operand. A session whose variables are total records gives the same answers: the same
output or the same failure, the same blocks of foreign code, and the same value in every scalar
variable and field. The main statement is `Session.lazy_cells_unobservable`.

One request keeps the two sessions paired (`Session.step_paired`); by induction so do all of them.
Objects outlive the text that declares them, and later texts declare more classes; this is why the
tables have to be closed, so that an object has the same fields ever after.
-/

namespace Litany

/-! ### Sessions on records -/

/-- What a session remembers whose variables are records. -/
structure RecordSession where
  names : Names
  records : Records
  fetched : List String

namespace RecordSession

/-- A session without history. -/
def fresh : RecordSession :=
  ⟨Names.empty, Records.empty, []⟩

/-- The session in which a text is read: a whole run begins on fresh tables. -/
def prepared (mode : Mode) (s : RecordSession) : RecordSession :=
  match mode with
  | .whole => { s with names := Names.empty, records := s.records.reset }
  | .onTop => s

/-- Read and parse a text, which has nothing to do with variables. -/
def parse (host : Host) (source : String) (s : RecordSession) :
    Except Failure (List Stmt) × RecordSession :=
  let (outcome, parsed) := Session.parse host source ⟨s.names, Machine.empty, s.fetched⟩
  (outcome, ⟨parsed.names, s.records, parsed.fetched⟩)

/-- Give the declared globals their records and execute statements. -/
def execute (host : Host) (fuel : Nat) (statements : List Stmt) (s : RecordSession) :
    Except Failure String × RecordSession :=
  let allocated := s.records.allocate s.names
  let (outcome, records) := allocated.interpret s.names host.execute fuel statements
  (outcome.mapError .stop, { s with records })

/-- What a request comes to once its text is parsed. -/
def attempt (host : Host) (r : Request) (s : RecordSession) :
    Except Failure (List Stmt) × RecordSession → Except Failure String × RecordSession
  | (.ok ss, later) => execute host r.fuel ss later
  | (.error f, later) =>
    match r.mode with
    | .whole => (.error f, later)
    | .onTop => (.error f, { later with names := s.names })

/-- Run a text and tell which blocks were handed over. -/
def step (host : Host) (r : Request) (s : RecordSession) : Answer × RecordSession :=
  let (outcome, later) := attempt host r s (parse host r.source (s.prepared r.mode))
  (⟨outcome, later.records.blocks.drop s.records.blocks.length⟩, later)

/-- The answer to a request. -/
def reply (host : Host) (s : RecordSession) (r : Request) : Answer :=
  (step host r s).1

/-- The session behind some requests. -/
def replay (host : Host) (s : RecordSession) (requests : List Request) : RecordSession :=
  requests.foldl (fun s r => (step host r s).2) s

theorem replay_take_succ (host : Host) (s : RecordSession) {requests : List Request} {i : Nat}
    {r : Request} (h : requests[i]? = some r) :
    replay host s (requests.take (i + 1)) =
      (step host r (replay host s (requests.take i))).2 := by
  have htake : requests.take (i + 1) = requests.take i ++ [r] := by
    rw [List.take_add_one, h, Option.toList_some]
  rw [htake, replay, List.foldl_append]
  rfl

end RecordSession

namespace Session

/-! ### One request -/

/-- Sessions with the same tables, and with a record for each variable that its cell stands for. -/
structure Paired (s : Session) (s' : RecordSession) : Prop where
  names : s'.names = s.names
  fetched : s'.fetched = s.fetched
  machine : Litany.Paired s.names [] s.machine s'.records
  closed : s.names.Closed

variable {host : Host} {s : Session} {s' : RecordSession}

/-- A text is read alike on both sides, whatever the variables hold. -/
private theorem parse_paired (h : Paired s s') (host : Host) (source : String) :
    RecordSession.parse host source s' =
      ((parse host source s).1,
        ⟨(parse host source s).2.names, s'.records, (parse host source s).2.fetched⟩) := by
  simp only [RecordSession.parse, parse, h.names, h.fetched]
  cases (Stream.ofText host.fetch s.fetched source).outcome with
  | error f => rfl
  | ok stream =>
    dsimp only
    cases Grammar.parse s.names stream with
    | mk outcome later => cases outcome <;> rfl

private theorem closed_parse (host : Host) (source : String) (hs : s.names.Closed) :
    (parse host source s).2.names.Closed := by
  rcases names_of_parse host source s with hsame | ⟨stream, outcome, -, hparse⟩
  · rw [hsame]
    exact hs
  · exact (Grammar.parse_adds hparse).closed hs

/-- Nothing is stored yet on either side. -/
private theorem paired_reset {m : Machine} {r : Records} (names : Names)
    (hblocks : r.blocks = m.blocks) : Litany.Paired names [] m.reset r.reset := by
  refine ⟨typed_reset m names, fun ordinal p hp => ?_, rfl, rfl, hblocks, ⟨rfl, fun _ => rfl⟩, .nil⟩
  cases hp

theorem Paired.prepared (h : Paired s s') (mode : Mode) :
    Paired (s.prepared mode) (s'.prepared mode) := by
  cases mode with
  | whole =>
    exact ⟨rfl, h.fetched, paired_reset Names.empty h.machine.blocks, Names.closed_empty⟩
  | onTop => exact h

/-- Executing a program of scalar operands comes to the same on both sides. -/
theorem execute_paired (h : Paired s s') (hs : s.Typed)
    (hroom : s.machine.globals.length ≤ s.names.globals.length) {later : Names} {ss : List Stmt}
    (hss : Program.Scoped s.names ss later) (hdotless : later.Dotless) (hclosed : later.Closed)
    (honly : Stmt.scalarOnlyAll ss = true) (host : Host) (fuel : Nat) (fetched : List String) :
    (RecordSession.execute host fuel ss ⟨later, s'.records, fetched⟩).1 =
        (execute host fuel ss ⟨later, s.machine, fetched⟩).1 ∧
      Paired (execute host fuel ss ⟨later, s.machine, fetched⟩).2
        (RecordSession.execute host fuel ss ⟨later, s'.records, fetched⟩).2 := by
  have hready := h.machine.ready h.closed hss.extends hroom honly
    (typed_ready hs.machine hroom hss fetched)
  obtain ⟨houtcome, hmachine⟩ :=
    Records.interpret_paired hdotless hss (.refl later) honly host.execute fuel hready
  rw [execute_apply]
  exact ⟨congrArg (Except.mapError Failure.stop) houtcome, rfl, rfl, hmachine, hclosed⟩

/-- A request whose program, if it has one, is of scalar operands is answered alike, and keeps two
sessions paired. -/
private theorem step_paired (h : Paired s s') (hs : s.Typed)
    (hroom : s.machine.globals.length ≤ s.names.globals.length) {r : Request}
    (honly : ∀ ss later, parse host r.source (s.prepared r.mode) = (.ok ss, later) →
      Stmt.scalarOnlyAll ss = true) :
    RecordSession.reply host s' r = reply host s r ∧
      Paired (step host r.fuel r.mode r.source s).2 (RecordSession.step host r s').2 := by
  have hprepared := h.prepared r.mode
  obtain ⟨htyped, hroom'⟩ := typed_prepared hs hroom r.mode
  have hdotless := dotless_parse host r.source htyped.dotless
  have hclosed := closed_parse host r.source hprepared.closed
  have hmade : let made := attempt host r s (parse host r.source (s.prepared r.mode))
      let made' := RecordSession.attempt host r s'
        (RecordSession.parse host r.source (s'.prepared r.mode))
      made'.1 = made.1 ∧ Paired made.2 made'.2 := by
    rw [parse_paired hprepared]
    rcases parse_cases host r.source (s.prepared r.mode) with
      ⟨f, later, hparse, -, hmachine, -⟩ | ⟨ss, later, fetched, hparse, hss⟩
    · rw [hparse] at hclosed ⊢
      -- a whole run that cannot be read leaves its tables, and nothing stored
      dsimp only [attempt, RecordSession.attempt]
      cases hmode : r.mode with
      | whole =>
        refine ⟨rfl, rfl, rfl, ?_, hclosed⟩
        rw [hmachine, hmode]
        exact paired_reset later.names h.machine.blocks
      | onTop =>
        refine ⟨rfl, h.names, rfl, ?_, h.closed⟩
        dsimp only
        rw [hmachine, hmode]
        exact h.machine
    · rw [hparse] at hdotless hclosed ⊢
      exact execute_paired hprepared htyped hroom' hss hdotless hclosed (honly ss _ hparse) host
        r.fuel fetched
  -- blocks are told from the numbers handed over before and after, which are the same
  simp only [RecordSession.reply, RecordSession.step, reply, step_eq_attempt]
  refine ⟨?_, hmade.2⟩
  rw [hmade.1, hmade.2.machine.blocks, h.machine.blocks]

/-! ### Whole histories -/

/-- A history of programs of scalar operands keeps two fresh sessions paired. -/
theorem paired_replay {requests : List Request}
    (honly : ∀ i r ss later, requests[i]? = some r →
      parse host r.source ((replay host fresh (requests.take i)).prepared r.mode) =
        (.ok ss, later) → Stmt.scalarOnlyAll ss = true) {i : Nat} (hi : i ≤ requests.length) :
    Paired (replay host fresh (requests.take i))
      (RecordSession.replay host .fresh (requests.take i)) := by
  induction i with
  | zero =>
    have hempty : Litany.Paired Names.empty [] Machine.empty Records.empty :=
      paired_reset (m := .empty) (r := .empty) Names.empty rfl
    exact ⟨rfl, rfl, hempty, Names.closed_empty⟩
  | succ i ih =>
    have hr : requests[i]? = some requests[i] := List.getElem?_eq_getElem hi
    obtain ⟨hs, hroom⟩ := typed_replay host (requests.take i)
    rw [replay_take_succ host fresh hr, RecordSession.replay_take_succ host .fresh hr]
    exact (step_paired (ih (Nat.le_of_lt hi)) hs hroom fun ss later => honly i _ ss later hr).2

/-- Field cells that are made when they are first visited cannot be observed. Let a history of
requests be run on a fresh session with any host, such that no program that is accepted has an
object as an operand. Then a session in which variables are total records, zeroed when they are
declared, gives the same answer to every request: the same output or the same failure, and the same
blocks. It leaves the same tables, and the same value at every path of a global that leads to a
scalar; where there is no cell, this is zero. -/
theorem lazy_cells_unobservable (host : Host) (requests : List Request)
    (honly : ∀ i r ss later, requests[i]? = some r →
      parse host r.source ((replay host fresh (requests.take i)).prepared r.mode) =
        (.ok ss, later) → Stmt.scalarOnlyAll ss = true) :
    ∀ i r, requests[i]? = some r →
      let later := replay host fresh (requests.take (i + 1))
      let later' := RecordSession.replay host .fresh (requests.take (i + 1))
      RecordSession.reply host (RecordSession.replay host .fresh (requests.take i)) r =
          reply host (replay host fresh (requests.take i)) r ∧
        later'.names = later.names ∧
        ∀ (slot : Nat) (x : Variable) (path : List String) (t : Scalar),
          later.names.globals[slot]? = some x →
          later.names.fieldType? x.type path = some (.scalar t) →
            later'.records.globals[slot]?.bind (fun c => c path) =
              later.machine.globals[slot]?.map fun v =>
                (v.at? path).getD (Value.zero (.scalar t)) := by
  intro i r hr
  have hi : i < requests.length := (List.getElem?_eq_some_iff.mp hr).1
  obtain ⟨hs, hroom⟩ := typed_replay host (requests.take i)
  have hpaired := paired_replay honly (Nat.le_of_lt hi)
  have hlater := paired_replay honly (show i + 1 ≤ requests.length from hi)
  obtain ⟨hreply, -⟩ := step_paired hpaired hs hroom fun ss later => honly i r ss later hr
  refine ⟨hreply, hlater.names, fun slot x path t hx hpath => ?_⟩
  have htype : (replay host fresh (requests.take (i + 1))).names.globalTypes[slot]? =
      some x.type := by
    simp [Names.globalTypes, hx]
  rw [hlater.machine.globals.shown htype]
  cases (replay host fresh (requests.take (i + 1))).machine.globals[slot]? with
  | none => rfl
  | some v => exact v.record_apply hpath

/-- An object within an object; one that is declared anew in each round of a loop; an assignment
that fails after it has stored once and visited another field; and a class around an earlier one. -/
def nestedRequests : List Request :=
  [⟨9, .whole, "class P \x7bI64 x, y;\x7d; class Q \x7bP p; I8 n;\x7d q;"⟩,
    ⟨9, .onTop, "I8 i; for (; i < 2; i++) \x7bQ w; w.p.y += 5; \"%d\", w.p.y;\x7d"⟩,
    ⟨9, .onTop, "js \x7bb\x7d; q.p.y = 1 / q.p.x;"⟩,
    ⟨9, .onTop, "class R \x7bQ q;\x7d r; r.q.n = 300; \"%d %d\", r.q.n, q.p.y;"⟩]

/-- On records, each round of the loop begins with zeros, the failure comes behind the block that is
handed over in front of it, what was stored before it stays, and a field of the last object that was
never visited is zero. -/
theorem lazy_cells_unobservable_nested :
    let host : Host := ⟨none, some fun _ _ => .ok ()⟩
    let s := fun i => RecordSession.replay host .fresh (nestedRequests.take i)
    let answer := fun i => nestedRequests[i]?.map (RecordSession.reply host (s i))
    ((answer 1).bind (·.outcome.toOption) = some "55" ∧
        (answer 2).bind messageOf = some "Runtime failure: division by zero in line 1" ∧
        (answer 2).map (·.blocks) = some ["b"] ∧
        (answer 3).bind (·.outcome.toOption) = some "44 1") ∧
      ((s 4).records.globals[3]?.bind fun c => c ["q", "p", "x"]).bind Value.int? = some 0 := by
  intro host s answer
  let cells := fun i => replay host fresh (nestedRequests.take i)
  have hcells :
      (∀ i ∈ [0, 1, 2, 3], (nestedRequests[i]?.bind fun r =>
          (parse host r.source ((cells i).prepared r.mode)).1.toOption).any
            Stmt.scalarOnlyAll = true) ∧
        ((nestedRequests[1]?.map (reply host (cells 1))).bind (·.outcome.toOption) = some "55" ∧
          (nestedRequests[2]?.map (reply host (cells 2))).bind messageOf =
            some "Runtime failure: division by zero in line 1" ∧
          (nestedRequests[2]?.map (reply host (cells 2))).map (·.blocks) = some ["b"] ∧
          (nestedRequests[3]?.map (reply host (cells 3))).bind (·.outcome.toOption) =
            some "44 1") ∧
        ((cells 4).names.globals[3]?.bind fun x =>
          (cells 4).names.fieldType? x.type ["q", "p", "x"]) = some (.scalar .i64) ∧
        ((cells 4).machine.globals[3]?.map fun v =>
          (v.at? ["q", "p", "x"]).getD (Value.zero (.scalar .i64))).bind Value.int? = some 0 := by
    decide +kernel
  obtain ⟨hprograms, hanswers, htype, hvalue⟩ := hcells
  have hlazy := lazy_cells_unobservable host nestedRequests <| by
    intro i r ss later hr hparse
    have hi : i < 4 := (List.getElem?_eq_some_iff.mp hr).1
    have honly := hprograms i (by simp only [List.mem_cons]; omega)
    rw [hr, Option.bind_some, hparse] at honly
    exact honly
  have hanswer : ∀ i, answer i = nestedRequests[i]?.map (reply host (cells i)) := by
    intro i
    change nestedRequests[i]?.map _ = _
    cases hr : nestedRequests[i]? with
    | none => rfl
    | some r => exact congrArg some (hlazy i r hr).1
  constructor
  · rw [hanswer, hanswer, hanswer]
    exact hanswers
  · obtain ⟨x, hx, htype⟩ := Option.bind_eq_some_iff.mp htype
    rw [(hlazy 3 _ rfl).2.2 3 x ["q", "p", "x"] .i64 hx htype]
    exact hvalue

end Session

end Litany
