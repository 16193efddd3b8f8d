import Litany.Proofs.Grammar.Blame
import Litany.Proofs.Machine.Safety
import Litany.Proofs.Scope.Reading
import Litany.Session

/-!
# Parser and evaluator never disagree

Some failures do not blame the program but the interpreter itself: a name that resolves to nothing,
a slot without a cell, an instance that is none, a procedure without a body. They are told apart
by their message. The main statement, `internal_only_after_failed_run`, says where in a session
such a failure can come up at all: in a text run on top of a whole run that did not parse, when it
calls a procedure that run has declared and no text has given a body. Everywhere else parser and
evaluator agree, whatever texts are run in whatever order and whatever the host answers.

The invariant of a session is `Sound`: its machine agrees with its tables, except for the entries
of such orphaned procedures.
-/

namespace Litany

/-! ### Internal failures -/

/-- A failure that the interpreter reports about itself. -/
def Failure.Internal (f : Failure) : Prop :=
  ∃ text, f.message = internalMessage text

private theorem head?_append {a b : String} {c : Char} (h : a.toList.head? = some c) :
    (a ++ b).toList.head? = some c := by
  rw [String.toList_append, List.head?_append, h]
  rfl

/-- A message that begins otherwise is no internal one. -/
private theorem Failure.not_internal {f : Failure} {c : Char} (hc : c ≠ 'C')
    (hhead : f.message.toList.head? = some c) : ¬ f.Internal := by
  rintro ⟨text, htext⟩
  have hinternal : (internalMessage text).toList.head? = some 'C' := head?_append (by decide)
  rw [← htext, hhead] at hinternal
  exact hc (Option.some.inj hinternal)

private theorem head?_misplaced {stage text : String} {line : Nat} {c : Char}
    (h : stage.toList.head? = some c) : (misplaced stage text line).toList.head? = some c :=
  head?_append (head?_append (head?_append (head?_append h)))

private theorem Failure.not_internal_scan (f : ScanFailure) : ¬ (Failure.scan f).Internal := by
  cases f with
  | lexical e => exact not_internal (c := 'L') (by decide) (head?_misplaced (by decide))
  | unavailable path line reason =>
    refine not_internal (c := 'I') (by decide) ?_
    exact head?_append (head?_append (head?_append (head?_append (head?_append (by decide)))))

private theorem Failure.not_internal_syntax (e : SyntaxError) :
    ¬ (Failure.parse (.error e)).Internal :=
  not_internal (c := 'P') (by decide) (head?_misplaced (by decide))

/-- Of the stops that a well-scoped program may come to, only a missing body is internal. -/
private theorem Failure.internal_of_foreseen {names : Names} {k : Nat} {stop : Stop}
    (hstop : stop.Foreseen names k) (h : (Failure.stop stop).Internal) :
    ∃ name line, stop = .fault (.noBody name line) := by
  have hruntime : ∀ {rest : String}, ("Runtime failure: " ++ rest).toList.head? = some 'R' :=
    head?_append (by decide)
  cases stop with
  | outOfFuel => exact absurd h (not_internal (c := 'R') (by decide) (by decide))
  | fault f =>
    cases f with
    | noBody name line => exact ⟨name, line, rfl⟩
    | emptySlot place slot => exact hstop.elim
    | notObject place => exact hstop.elim
    | divisionByZero line =>
      exact absurd h (not_internal (c := 'R') (by decide) (head?_append (by decide)))
    | unsupported operation line =>
      refine absurd h (not_internal (c := 'R') (by decide) ?_)
      exact head?_append (head?_append (head?_append (by decide)))
    | noExecutor line =>
      exact absurd h (not_internal (c := 'R') (by decide) (head?_append (by decide)))
    | foreign line reason =>
      refine absurd h (not_internal (c := 'R') (by decide) ?_)
      exact head?_append (head?_append (head?_append (by decide)))

/-! ### Single texts -/

namespace Session

/-- A session whose machine agrees with its tables, but for the orphans: entries that a program
left which did not parse. Globals get their cells only when a text is run. -/
structure Sound (orphans : List Signature) (s : Session) : Prop where
  globals : ∃ types, types <+: s.names.globalTypes ∧ Filled s.machine.globals types
  equipped : Equipped s.names orphans.length s.machine.procedures
  registered : orphans <+: s.names.procedures

/-- On a machine without cells and bodies, all procedures of the tables are orphans. -/
theorem sound_of_empty {orphans : List Signature} {s : Session}
    (horphans : orphans = s.names.procedures) (hglobals : s.machine.globals = [])
    (hprocedures : s.machine.procedures = []) : s.Sound orphans := by
  subst horphans
  refine ⟨⟨[], List.nil_prefix, hglobals ▸ .nil⟩, ⟨fun h => ?_, fun ordinal hle hlt => ?_⟩,
    List.prefix_rfl⟩
  · rw [hprocedures] at h
    cases h
  · exact absurd hlt (Nat.not_lt_of_le hle)

/-- Running a well-scoped program keeps a session sound, and the only internal failure is that of
an orphan. -/
theorem execute_sound {orphans : List Signature} {s : Session} (hs : s.Sound orphans)
    {later : Names} {ss : List Stmt} (hss : Program.Scoped s.names ss later) (host : Host)
    (fuel : Nat) :
    (execute host fuel ss { s with names := later }).2.Sound orphans ∧
      ∀ f, (execute host fuel ss { s with names := later }).1 = .error f → f.Internal →
        ∃ name line, f = .stop (.fault (.noBody name line)) ∧ ∃ p ∈ orphans, p.name = name := by
  obtain ⟨early, hearly, hfilled⟩ := hs.globals
  have htypes : early <+: later.globalTypes := hearly.trans (hss.extends.globals.map _)
  obtain ⟨hagrees, hstops⟩ := Machine.interpret_agrees (m := s.machine.allocate later.globalTypes)
    hss (hfilled.allocate htypes) hs.equipped host.execute fuel
  have hregistered := hs.registered.trans hss.extends.procedures
  unfold execute
  dsimp only
  generalize Machine.interpret host.execute fuel ss (s.machine.allocate later.globalTypes) =
    result at hagrees hstops
  obtain ⟨outcome, m'⟩ := result
  cases outcome with
  | ok output =>
    refine ⟨⟨⟨_, List.prefix_rfl, hagrees.globals⟩, hagrees.equipped, hregistered⟩, ?_⟩
    rintro f ⟨⟩
  | error stop =>
    refine ⟨⟨⟨_, List.prefix_rfl, hagrees.globals⟩, hagrees.equipped, hregistered⟩, ?_⟩
    rintro f ⟨⟩ hinternal
    have hforeseen := hstops stop rfl
    obtain ⟨name, line, rfl⟩ := Failure.internal_of_foreseen hforeseen hinternal
    obtain ⟨ordinal, p, hlt, hp, hname⟩ := hforeseen
    have hsame := List.prefix_iff_getElem?.mp hregistered ordinal hlt
    obtain rfl := Option.some.inj (hsame.symm.trans hp)
    exact ⟨name, line, rfl, _, List.getElem_mem hlt, hname⟩

/-- What comes of reading a text: it is at fault itself and the machine is left alone, or it is a
program that is well scoped under the tables of the session. -/
theorem parse_cases (host : Host) (source : String) (s : Session) :
    (∃ f later, parse host source s = (.error f, later) ∧ ¬ f.Internal ∧
        later.machine = s.machine ∧ (later.names = s.names ∨ ∃ e, f = .parse e)) ∨
      ∃ ss later fetched, parse host source s = (.ok ss, ⟨later, s.machine, fetched⟩) ∧
        Program.Scoped s.names ss later := by
  simp only [parse]
  cases hscan : (Stream.ofText host.fetch s.fetched source).outcome with
  | error f => exact Or.inl ⟨_, _, rfl, Failure.not_internal_scan f, rfl, Or.inl rfl⟩
  | ok stream =>
    dsimp only
    cases hparse : Grammar.parse s.names stream with
    | mk outcome later =>
      cases outcome with
      | error f =>
        obtain ⟨e, rfl⟩ := Grammar.parse_error hparse
        exact Or.inl ⟨_, _, rfl, Failure.not_internal_syntax e, rfl, Or.inr ⟨_, rfl⟩⟩
      | ok ss => exact Or.inr ⟨ss, later, _, rfl, Grammar.scoped_of_parse hscan hparse⟩

/-- A whole run never fails internally. It leaves a sound session without orphans, unless it does
not parse: then the procedures it has declared are orphans. -/
theorem run_sound (host : Host) (fuel : Nat) (source : String) (s : Session) :
    (∀ f, (run host fuel source s).1 = .error f → ¬ f.Internal) ∧
      ((run host fuel source s).2.Sound [] ∨
        ∃ e, (run host fuel source s).1 = .error (.parse e) ∧
          (run host fuel source s).2.Sound (run host fuel source s).2.names.procedures) := by
  have hempty : ∀ fetched, Sound [] ⟨Names.empty, s.machine.reset, fetched⟩ :=
    fun _ => sound_of_empty rfl rfl rfl
  unfold run
  rcases parse_cases host source { s with names := Names.empty, machine := s.machine.reset } with
    ⟨f, later, hparse, hf, hmachine, hnames⟩ | ⟨ss, later, fetched, hparse, hss⟩
  · rw [hparse]
    have hsound : later.Sound later.names.procedures :=
      sound_of_empty rfl (by rw [hmachine]; rfl) (by rw [hmachine]; rfl)
    refine ⟨fun f' hf' => ?_, ?_⟩
    · obtain rfl := Except.error.inj hf'
      exact hf
    · rcases hnames with hnames | ⟨e, rfl⟩
      · left
        rw [hnames] at hsound
        exact hsound
      · exact Or.inr ⟨e, rfl, hsound⟩
  · rw [hparse]
    obtain ⟨hsound, hinternal⟩ := execute_sound (hempty fetched) hss host fuel
    refine ⟨fun f hf hf' => ?_, Or.inl hsound⟩
    obtain ⟨name, line, -, p, hp, -⟩ := hinternal f hf hf'
    cases hp

/-- A text run on top of others keeps a session sound, with the same orphans, and fails internally
only at one of them. -/
theorem runOnTop_sound {orphans : List Signature} {s : Session} (hs : s.Sound orphans)
    (host : Host) (fuel : Nat) (source : String) :
    (runOnTop host fuel source s).2.Sound orphans ∧
      ∀ f, (runOnTop host fuel source s).1 = .error f → f.Internal →
        ∃ name line, f = .stop (.fault (.noBody name line)) ∧ ∃ p ∈ orphans, p.name = name := by
  unfold runOnTop
  rcases parse_cases host source s with
    ⟨f, later, hparse, hf, hmachine, -⟩ | ⟨ss, later, fetched, hparse, hss⟩
  · rw [hparse]
    refine ⟨⟨?_, ?_, hs.registered⟩, fun f' hf' hinternal => ?_⟩
    · exact hmachine ▸ hs.globals
    · exact hmachine ▸ hs.equipped
    · obtain rfl := Except.error.inj hf'
      exact absurd hinternal hf
  · rw [hparse]
    have hs' : Sound orphans { s with fetched } := ⟨hs.globals, hs.equipped, hs.registered⟩
    exact execute_sound hs' hss host fuel

/-! ### Whole sessions -/

end Session

/-- A text with the way it is run. -/
structure Request where
  fuel : Nat
  mode : Mode
  source : String

namespace Session

/-- The answer to a request. -/
def reply (host : Host) (s : Session) (r : Request) : Answer :=
  (step host r.fuel r.mode r.source s).1

/-- The session behind some requests. -/
def replay (host : Host) (s : Session) (requests : List Request) : Session :=
  requests.foldl (fun s r => (step host r.fuel r.mode r.source s).2) s

theorem replay_append (host : Host) (s : Session) (earlier later : List Request) :
    replay host s (earlier ++ later) = replay host (replay host s earlier) later :=
  List.foldl_append

/-- The procedures that a history leaves orphaned: those of its last whole run, if that one did
not parse, and otherwise none. -/
def Orphaned (host : Host) (history : List Request) (orphans : List Signature) : Prop :=
  orphans = [] ∨ ∃ earlier whole idles e, history = earlier ++ whole :: idles ∧
    whole.mode = .whole ∧ (∀ r ∈ idles, r.mode = .onTop) ∧
    (reply host (replay host fresh earlier) whole).outcome = .error (.parse e) ∧
    orphans = (replay host fresh (earlier ++ [whole])).names.procedures

private theorem exists_sound_snoc {host : Host} {history : List Request} {orphans : List Signature}
    (hs : (replay host fresh history).Sound orphans) (horphans : Orphaned host history orphans)
    (r : Request) : ∃ orphans', (replay host fresh (history ++ [r])).Sound orphans' ∧
      Orphaned host (history ++ [r]) orphans' := by
  obtain ⟨fuel, mode, source⟩ := r
  rw [replay_append]
  cases mode with
  | whole =>
    rcases (run_sound host fuel source (replay host fresh history)).2 with hsound | ⟨e, he, hsound⟩
    · exact ⟨[], hsound, Or.inl rfl⟩
    · refine ⟨_, hsound, Or.inr ⟨history, ⟨fuel, .whole, source⟩, [], e, rfl, rfl, by simp, he, ?_⟩⟩
      rw [replay_append]
      rfl
  | onTop =>
    refine ⟨orphans, (runOnTop_sound hs host fuel source).1, ?_⟩
    rcases horphans with hnone | ⟨earlier, whole, idles, e, rfl, hwhole, hidles, he, hnames⟩
    · exact Or.inl hnone
    · refine Or.inr ⟨earlier, whole, idles ++ [⟨fuel, .onTop, source⟩], e, by simp, hwhole, ?_, he,
        hnames⟩
      intro r hr
      rcases List.mem_append.mp hr with hr | hr
      · exact hidles r hr
      · rw [List.mem_singleton.mp hr]

/-- At every moment a session is sound, but for the orphans of its history. -/
theorem exists_sound (host : Host) (history : List Request) :
    ∃ orphans, (replay host fresh history).Sound orphans ∧ Orphaned host history orphans := by
  -- the induction takes requests off the end, where the session grows
  suffices h : ∀ reversed : List Request, ∃ orphans,
      (replay host fresh reversed.reverse).Sound orphans ∧
        Orphaned host reversed.reverse orphans by
    simpa using h history.reverse
  intro reversed
  induction reversed with
  | nil => exact ⟨[], sound_of_empty rfl rfl rfl, Or.inl rfl⟩
  | cons r reversed ih =>
    obtain ⟨orphans, hsound, horphans⟩ := ih
    rw [List.reverse_cons]
    exact exists_sound_snoc hsound horphans r

/-- Parser and evaluator never disagree, but for one situation. If, in any session from a fresh
start with any host, a request is answered by an internal failure, then it runs a text on top of
others, the last whole run before it did not parse, and the failure is a call of a procedure which
that run has declared and which has no body. -/
theorem internal_only_after_failed_run (host : Host) (history : List Request) (r : Request)
    (f : Failure) (hanswer : (reply host (replay host fresh history) r).outcome = .error f)
    (hinternal : f.Internal) :
    r.mode = .onTop ∧ ∃ earlier whole idles e name line,
      history = earlier ++ whole :: idles ∧ whole.mode = .whole ∧
      (∀ idle ∈ idles, idle.mode = .onTop) ∧
      (reply host (replay host fresh earlier) whole).outcome = .error (.parse e) ∧
      f = .stop (.fault (.noBody name line)) ∧
      ∃ p ∈ (replay host fresh (earlier ++ [whole])).names.procedures, p.name = name := by
  obtain ⟨orphans, hsound, horphans⟩ := exists_sound host history
  obtain ⟨fuel, mode, source⟩ := r
  cases mode with
  | whole =>
    exact absurd hinternal ((run_sound host fuel source (replay host fresh history)).1 f hanswer)
  | onTop =>
    obtain ⟨name, line, hf, p, hp, hname⟩ :=
      (runOnTop_sound hsound host fuel source).2 f hanswer hinternal
    rcases horphans with rfl | ⟨earlier, whole, idles, e, hhistory, hwhole, hidles, he, rfl⟩
    · cases hp
    · exact ⟨rfl, earlier, whole, idles, e, name, line, hhistory, hwhole, hidles, he, hf, p, hp,
        hname⟩

/-- The message of an answer that is a failure. -/
def messageOf (a : Answer) : Option String :=
  match a.outcome with
  | .ok _ => none
  | .error f => some f.message

private theorem messageOf_eq_some {a : Answer} {t : String} (h : messageOf a = some t) :
    ∃ f, a.outcome = .error f ∧ f.message = t := by
  obtain ⟨outcome, blocks⟩ := a
  cases outcome with
  | ok output => cases h
  | error f => exact ⟨f, rfl, Option.some.inj h⟩

/-- The situation does come up: a whole run breaks off in the body of a procedure, and the next
text calls it. -/
theorem internal_only_after_failed_run_orphan :
    ∃ f, (reply ⟨none, none⟩ (replay ⟨none, none⟩ fresh [⟨9, .whole, "U0 f() \x7b x; \x7d"⟩])
        ⟨9, .onTop, "f;"⟩).outcome = .error f ∧ f.Internal ∧
      ∃ earlier whole idles e name line,
        [(⟨9, .whole, "U0 f() \x7b x; \x7d"⟩ : Request)] = earlier ++ whole :: idles ∧
        whole.mode = .whole ∧ (∀ idle ∈ idles, idle.mode = .onTop) ∧
        (reply ⟨none, none⟩ (replay ⟨none, none⟩ fresh earlier) whole).outcome =
          .error (.parse e) ∧
        f = .stop (.fault (.noBody name line)) ∧
        ∃ p ∈ (replay ⟨none, none⟩ fresh (earlier ++ [whole])).names.procedures,
          p.name = name := by
  obtain ⟨f, hanswer, hmessage⟩ := messageOf_eq_some (a := reply ⟨none, none⟩
    (replay ⟨none, none⟩ fresh [⟨9, .whole, "U0 f() \x7b x; \x7d"⟩]) ⟨9, .onTop, "f;"⟩)
    (t := "CompilerInternalError: procedure 'f' called in line 1 has no body") (by decide +kernel)
  have hinternal : f.Internal := ⟨"procedure 'f' called in line 1 has no body", hmessage⟩
  exact ⟨f, hanswer, hinternal,
    (internal_only_after_failed_run _ _ ⟨9, .onTop, "f;"⟩ f hanswer hinternal).2⟩

end Session

end Litany
