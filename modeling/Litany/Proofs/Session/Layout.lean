import Litany.Proofs.Lines.Parsing
import Litany.Proofs.Lines.Running
import Litany.Proofs.Session.Typing
import Litany.Proofs.Token.Paste

/-!
# Layout has no meaning

Where the lines of a text end shows in the lines that failures carry, and nowhere else. Two
sessions that are given texts with the same tokens, lines apart, go on alike: their answers, their
tables and their values are the same, and so are the blocks that they hand over. What procedures
keep of the lines of their text may differ, and may show in a failure much later. The main
statement is `Session.layout_unobservable`.

One request keeps two sessions alike (`Session.step_alike`); by induction so do all of them.
-/

namespace Litany

/-- The failure without its line. -/
def Failure.unlined : Failure → Failure
  | .scan f => .scan f.unlined
  | .parse f => .parse f.unlined
  | .stop s => .stop s.unlined

/-- The answer without the line of its failure. -/
def Answer.unlined (a : Answer) : Answer :=
  ⟨a.outcome.mapError Failure.unlined, a.blocks⟩

namespace Session

/-- Sessions with the same tables, and with the same machine apart from the lines in the bodies of
procedures. What they asked of their hosts may differ. -/
structure Alike (s s' : Session) : Prop where
  names : s.names = s'.names
  machine : s.machine.unlined = s'.machine.unlined

/-- Requests of the same mode, with texts that two sessions read as the same tokens, lines apart. -/
structure SameTokens (host : Host) (s s' : Session) (r r' : Request) : Prop where
  fuel : r.fuel = r'.fuel
  mode : r.mode = r'.mode
  tokens : ∃ stream stream',
    (Stream.ofText host.fetch s.fetched r.source).outcome = .ok stream ∧
      (Stream.ofText host.fetch s'.fetched r'.source).outcome = .ok stream' ∧
      stream.tokens.map Token.unlined = stream'.tokens.map Token.unlined

variable {host : Host} {s s' : Session}

/-- Sessions that are alike have the same globals. -/
theorem Alike.globals (h : s.Alike s') : s.machine.globals = s'.machine.globals :=
  (Machine.mk.inj h.machine).1

/-- Sessions that are alike have handed over the same blocks. -/
theorem Alike.blocks (h : s.Alike s') : s.machine.blocks = s'.machine.blocks :=
  (Machine.mk.inj h.machine).2.2.2.2

/-! ### One request -/

/-- What comes of a program or of a run, without lines. -/
def unlinedProgram (outcome : Except Failure (List Stmt)) : Except Failure (List Stmt) :=
  (outcome.map (List.map Stmt.unlined)).mapError Failure.unlined

/-- A text that has been scanned is parsed under the tables of the session, which keeps what was
fetched. -/
private theorem parse_of_scan {source : String} {stream : Stream}
    (h : (Stream.ofText host.fetch s.fetched source).outcome = .ok stream) :
    parse host source s = ((Grammar.parse s.names stream).1.mapError .parse,
      ⟨(Grammar.parse s.names stream).2, s.machine,
        (Stream.ofText host.fetch s.fetched source).fetched⟩) := by
  unfold parse
  simp only [h]
  cases Grammar.parse s.names stream with
  | mk outcome later => cases outcome <;> rfl

/-- A failure to parse loses its lines before or after it is taken for a failure of the request. -/
private theorem unlinedProgram_mapError (outcome : Except ParseFailure (List Stmt)) :
    unlinedProgram (outcome.mapError .parse) =
      (Grammar.unlinedOutcome outcome).mapError .parse := by
  cases outcome <;> rfl

/-- Texts with the same tokens, lines apart, are parsed alike by sessions that are. -/
theorem parse_alike (h : s.Alike s') {source source' : String} {stream stream' : Stream}
    (hscan : (Stream.ofText host.fetch s.fetched source).outcome = .ok stream)
    (hscan' : (Stream.ofText host.fetch s'.fetched source').outcome = .ok stream')
    (htokens : stream.tokens.map Token.unlined = stream'.tokens.map Token.unlined) :
    unlinedProgram (parse host source s).1 = unlinedProgram (parse host source' s').1 ∧
      (parse host source s).2.Alike (parse host source' s').2 := by
  have hsame : stream.unlined = stream'.unlined := by rw [Stream.unlined, Stream.unlined, htokens]
  have hseen := Grammar.parse_unlined s.names stream
  rw [hsame, h.names, Grammar.parse_unlined, ← h.names] at hseen
  obtain ⟨houtcome, hnames⟩ := Prod.mk.inj hseen
  rw [parse_of_scan hscan, parse_of_scan hscan', ← h.names]
  constructor
  · rw [unlinedProgram_mapError, unlinedProgram_mapError, houtcome]
  · exact ⟨hnames.symm, h.machine⟩

private theorem unlined_mapError_stop (outcome : Except Stop String) :
    (outcome.mapError Failure.stop).mapError Failure.unlined =
      (outcome.mapError Stop.unlined).mapError Failure.stop := by
  cases outcome <;> rfl

/-- Programs that are the same without their lines are executed alike by sessions that are. -/
private theorem execute_alike (h : s.Alike s') {ss ss' : List Stmt}
    (hss : ss.map Stmt.unlined = ss'.map Stmt.unlined) (fuel : Nat) :
    (execute host fuel ss s).1.mapError Failure.unlined =
        (execute host fuel ss' s').1.mapError Failure.unlined ∧
      (execute host fuel ss s).2.Alike (execute host fuel ss' s').2 := by
  have hcells : (s.machine.allocate s.names.globalTypes).unlined =
      (s'.machine.allocate s'.names.globalTypes).unlined := by
    have hallocate : ∀ (m : Machine) types, (m.allocate types).unlined = m.unlined.allocate types :=
      fun _ _ => rfl
    rw [hallocate, hallocate, h.machine, h.names]
  -- both runs are seen without lines as the run of one machine on one list of statements
  have hseen := Machine.interpret_unlined host.execute fuel
    (s.machine.allocate s.names.globalTypes) ss
  rw [hcells, hss, Machine.interpret_unlined] at hseen
  obtain ⟨houtcome, hmachine⟩ := Prod.mk.inj hseen
  rw [execute_apply, execute_apply]
  constructor
  · rw [unlined_mapError_stop, unlined_mapError_stop, houtcome]
  · exact ⟨h.names, hmachine.symm⟩

/-- A program that parses in one session parses in the other, to the same statements without their
lines; one that does not fails alike. -/
private theorem cases_of_parse {parsed parsed' : Except Failure (List Stmt)}
    (h : unlinedProgram parsed = unlinedProgram parsed') :
    (∃ f f', parsed = .error f ∧ parsed' = .error f' ∧ f.unlined = f'.unlined) ∨
      ∃ ss ss', parsed = .ok ss ∧ parsed' = .ok ss' ∧
        ss.map Stmt.unlined = ss'.map Stmt.unlined := by
  cases parsed with
  | error f =>
    cases parsed' with
    | error f' => exact Or.inl ⟨f, f', rfl, rfl, Except.error.inj h⟩
    | ok ss' => cases h
  | ok ss =>
    cases parsed' with
    | error f' => cases h
    | ok ss' => exact Or.inr ⟨ss, ss', rfl, rfl, Except.ok.inj h⟩

/-- Requests that come to programs which are the same without their lines are answered alike, and
leave sessions alike. -/
private theorem attempt_alike (host : Host) (h : s.Alike s') {r r' : Request}
    (hfuel : r.fuel = r'.fuel)
    (hmode : r.mode = r'.mode) {parsed parsed' : Except Failure (List Stmt) × Session}
    (houtcome : unlinedProgram parsed.1 = unlinedProgram parsed'.1)
    (hlater : parsed.2.Alike parsed'.2) :
    (attempt host r s parsed).1.mapError Failure.unlined =
        (attempt host r' s' parsed').1.mapError Failure.unlined ∧
      (attempt host r s parsed).2.Alike (attempt host r' s' parsed').2 := by
  obtain ⟨outcome, later⟩ := parsed
  obtain ⟨outcome', later'⟩ := parsed'
  rcases cases_of_parse houtcome with ⟨f, f', rfl, rfl, hf⟩ | ⟨ss, ss', rfl, rfl, hss⟩
  · have hfailure : (Except.error f.unlined : Except Failure String) = .error f'.unlined := by
      rw [hf]
    simp only [attempt, ← hmode]
    cases r.mode with
    | whole => exact ⟨hfailure, hlater⟩
    | onTop => exact ⟨hfailure, h.names, hlater.machine⟩
  · simp only [attempt, ← hfuel]
    exact execute_alike hlater hss r.fuel

/-- Sessions that are alike stay so when a request begins afresh, or on top of what was run
before. -/
theorem Alike.prepared (h : s.Alike s') (mode : Mode) :
    (s.prepared mode).Alike (s'.prepared mode) := by
  cases mode with
  | whole =>
    refine ⟨rfl, ?_⟩
    simp only [Session.prepared, Machine.reset, h.blocks]
  | onTop => exact h

/-- Texts with the same tokens, lines apart, keep two sessions alike, and are answered alike. -/
private theorem step_alike (h : s.Alike s') {r r' : Request} (hsame : SameTokens host s s' r r') :
    (reply host s r).unlined = (reply host s' r').unlined ∧
      (step host r.fuel r.mode r.source s).2.Alike (step host r'.fuel r'.mode r'.source s').2 := by
  obtain ⟨stream, stream', hscan, hscan', htokens⟩ := hsame.tokens
  -- a whole run begins on fresh tables, but remembers what was asked of the host
  have hfetched : ∀ (u : Session) mode, (u.prepared mode).fetched = u.fetched := by
    intro u mode
    cases mode <;> rfl
  rw [← hfetched s r.mode] at hscan
  rw [← hfetched s' r'.mode] at hscan'
  have hprepared : (s.prepared r.mode).Alike (s'.prepared r'.mode) :=
    hsame.mode ▸ h.prepared r.mode
  obtain ⟨houtcome, hlater⟩ := parse_alike hprepared hscan hscan' htokens
  obtain ⟨hanswer, hend⟩ := attempt_alike host h hsame.fuel hsame.mode houtcome hlater
  simp only [reply, step_eq_attempt]
  refine ⟨?_, hend⟩
  simp only [Answer.unlined, hanswer, hend.blocks, h.blocks]

/-! ### Whole histories -/

section Histories

variable {requests requests' : List Request}

/-- Two histories keep two fresh sessions alike as far as their texts have the same tokens. -/
theorem replay_alike (hlength : requests.length = requests'.length)
    (hsame : ∀ i r r', requests[i]? = some r → requests'[i]? = some r' →
      SameTokens host (replay host fresh (requests.take i)) (replay host fresh (requests'.take i))
        r r') (i : Nat) :
    (replay host fresh (requests.take i)).Alike (replay host fresh (requests'.take i)) := by
  induction i with
  | zero => exact ⟨rfl, rfl⟩
  | succ i ih =>
    by_cases hi : i < requests.length
    · have hr : requests[i]? = some requests[i] := List.getElem?_eq_getElem hi
      have hr' : requests'[i]? = some requests'[i] := List.getElem?_eq_getElem (hlength ▸ hi)
      rw [replay_take_succ host fresh hr, replay_take_succ host fresh hr']
      exact (step_alike ih (hsame i _ _ hr hr')).2
    · -- beyond their ends there is nothing more to take
      have hend : ∀ j, requests.length ≤ j →
          requests.take j = requests ∧ requests'.take j = requests' := by
        intro j hj
        exact ⟨List.take_of_length_le hj, List.take_of_length_le (hlength ▸ hj)⟩
      obtain ⟨hnow, hnow'⟩ := hend i (by omega)
      obtain ⟨hnext, hnext'⟩ := hend (i + 1) (by omega)
      rw [hnow, hnow'] at ih
      rwa [hnext, hnext']

/-- Layout has no meaning. Let two histories of the same length be run on fresh sessions with the
same host, each request being of the same mode as its counterpart and its text being read, where it
stands, as the same tokens, lines apart. Then every request gets the same answer as its
counterpart, up to the line of a failure, hands over the same blocks, and leaves the same tables and
the same globals. -/
theorem layout_unobservable (host : Host) (requests requests' : List Request)
    (hlength : requests.length = requests'.length)
    (hsame : ∀ i r r', requests[i]? = some r → requests'[i]? = some r' →
      SameTokens host (replay host fresh (requests.take i)) (replay host fresh (requests'.take i))
        r r') :
    ∀ i r r', requests[i]? = some r → requests'[i]? = some r' →
      let answer := reply host (replay host fresh (requests.take i)) r
      let answer' := reply host (replay host fresh (requests'.take i)) r'
      let later := replay host fresh (requests.take (i + 1))
      let later' := replay host fresh (requests'.take (i + 1))
      answer.outcome.mapError Failure.unlined = answer'.outcome.mapError Failure.unlined ∧
        answer.blocks = answer'.blocks ∧ later.names = later'.names ∧
        later.machine.globals = later'.machine.globals := by
  intro i r r' hr hr'
  obtain ⟨hanswer, -⟩ := step_alike (replay_alike hlength hsame i) (hsame i r r' hr hr')
  have hlater := replay_alike hlength hsame (i + 1)
  obtain ⟨houtcome, hblocks⟩ := Answer.mk.inj hanswer
  exact ⟨houtcome, hblocks, hlater.names, hlater.globals⟩

end Histories

/-- Two readings that succeed with the same tokens, lines apart. -/
private theorem exists_sameTokens {a a' : Except ScanFailure Stream}
    (hread : a.toOption.isSome = true)
    (hsame : a.toOption.map Stream.unlined = a'.toOption.map Stream.unlined) :
    ∃ stream stream', a = .ok stream ∧ a' = .ok stream' ∧
      stream.tokens.map Token.unlined = stream'.tokens.map Token.unlined := by
  cases a with
  | error f => cases hread
  | ok stream =>
    cases a' with
    | error f => cases hsame
    | ok stream' => exact ⟨stream, stream', rfl, rfl, (Stream.mk.inj (Option.some.inj hsame)).1⟩

/-- A host that takes every block. -/
def silentHost : Host := ⟨none, some fun _ _ => .ok ()⟩

/-- A procedure on several lines, and a call of it that divides by zero. -/
def spreadRequests : List Request :=
  [⟨9, .whole, "I32 n;\nI32 f(I32 x)\n\x7b\nreturn 6 / x; \x7d"⟩,
    ⟨9, .onTop, "n = f(2);\n\njs \x7bb\x7d; n = f(0);"⟩]

/-- The same on one line each. -/
def flatRequests : List Request :=
  [⟨9, .whole, "I32 n; I32 f(I32 x) \x7b return 6 / x; \x7d"⟩,
    ⟨9, .onTop, "n = f(2); js \x7bb\x7d; n = f(0);"⟩]

/-- The line in a message is that of the procedure, from an earlier text; all else is the same. -/
theorem layout_unobservable_division :
    ∃ answer answer' : Answer,
      messageOf answer = some "Runtime failure: division by zero in line 4" ∧
      messageOf answer' = some "Runtime failure: division by zero in line 1" ∧
      answer.outcome.mapError Failure.unlined = answer'.outcome.mapError Failure.unlined ∧
      answer.blocks = answer'.blocks ∧ answer.blocks = ["b"] ∧
      (replay silentHost fresh spreadRequests).machine.globals =
        (replay silentHost fresh flatRequests).machine.globals := by
  have hsame : ∀ i r r', spreadRequests[i]? = some r → flatRequests[i]? = some r' →
      SameTokens silentHost (replay silentHost fresh (spreadRequests.take i))
        (replay silentHost fresh (flatRequests.take i)) r r' := by
    intro i r r' hr hr'
    match i with
    | 0 =>
      cases hr
      cases hr'
      exact ⟨rfl, rfl, exists_sameTokens (by decide +kernel) (by decide +kernel)⟩
    | 1 =>
      cases hr
      cases hr'
      exact ⟨rfl, rfl, exists_sameTokens (by decide +kernel) (by decide +kernel)⟩
    | i + 2 => cases hr
  obtain ⟨houtcome, hblocks, -, hglobals⟩ :=
    layout_unobservable silentHost spreadRequests flatRequests rfl hsame 1 _ _ rfl rfl
  exact ⟨_, _, by decide +kernel, by decide +kernel, houtcome, hblocks, by decide +kernel, hglobals⟩

end Session

end Litany
