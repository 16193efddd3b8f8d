import Litany.Proofs.Machine.Isolation
import Litany.Proofs.Machine.Sequence
import Litany.Proofs.Session.Typing

/-!
# What sessions forget

A session remembers names, cells and the bodies of procedures from one text to the next, and
nothing else. What it has asked of the host shows in nothing but the answers of the host, so a
host that always answers alike makes it invisible (`Session.Behind`). Three things follow, which
`Session.forgets` puts together: a whole run begins a session anew, a text on top of others that
is no program leaves no trace, and what a program prints never comes out with a later one.
-/

namespace Litany

open Run

/-! ### Steady hosts -/

/-- A host whose answer depends only on the path of the text that is asked for, or on the block of
foreign code that is handed over. -/
structure Host.Steady (host : Host) : Prop where
  fetch : ∀ answer ∈ host.fetch, ∀ asked asked' path, answer asked path = answer asked' path
  execute : ∀ answer ∈ host.execute, ∀ handed handed' code,
    answer handed code = answer handed' code

namespace Host.Steady

variable {host : Host}

/-- What a text is read as does not depend on what was asked before. -/
theorem outcome_ofChars (h : host.Steady) (budget : Nat) (asked asked' : List String)
    (cs : List Char) : (Stream.ofChars host.fetch budget asked' cs).outcome =
      (Stream.ofChars host.fetch budget asked cs).outcome := by
  induction budget generalizing asked asked' cs with
  | zero =>
    rw [Stream.ofChars, Stream.ofChars]
    cases (segment 1 cs).ending <;> rfl
  | succ budget ih =>
    rw [Stream.ofChars, Stream.ofChars]
    cases (segment 1 cs).ending with
    | finished line => rfl
    | fault error => rfl
    | includes path lexeme line rest =>
      cases hfetch : host.fetch with
      | none => rfl
      | some answer =>
        dsimp only
        rw [h.fetch answer hfetch asked' asked path]
        cases answer asked path with
        | error reason => rfl
        | ok text =>
          have hrest := ih (asked ++ [path]) (asked' ++ [path]) (text.toList ++ rest)
          rw [hfetch] at hrest
          simp only [Scan.after, hrest]

/-- The answers to blocks do not depend on the blocks before. -/
private theorem executor_behind (h : host.Steady) (handed : List String) :
    host.execute.map (·.behind handed) = host.execute := by
  cases hexecute : host.execute with
  | none => rfl
  | some answer =>
    refine congrArg some (funext fun blocks => funext fun code => ?_)
    exact h.execute answer hexecute _ _ code

end Host.Steady

/-! ### Runs behind a past -/

namespace Run

variable {executor : Option Executor} {n : Nat} {ss : List Stmt} {m last : Machine}
  {handed : List String} {ending : Ending}

/-- Behind a text that was printed and blocks that were handed over, statements run as they do
without, if the answers of the host are the same. -/
private theorem runBody_before (printed : String) (m : Machine)
    (hsame : executor.map (·.behind handed) = executor) :
    FollowsFrom False ⟨[], printed, handed⟩ m (runBody executor n ss) (runBody executor n ss) := by
  have hfollows := (follows_congruence False ⟨[], printed, handed⟩ executor).runBody
    (Or.inl (rfl : n = n)) ss
  dsimp only at hfollows
  rw [hsame] at hfollows
  exact hfollows m (Or.inr rfl)

/-- From a machine, a computation gives an answer and prints a text, which comes behind whatever
was printed before. -/
def Prints {α : Type} (x : Run α) (m : Machine) (text : String) : Prop :=
  ∀ earlier, ∃ a last, x { m with output := earlier } = .ok a last ∧ last.output = earlier ++ text

/-- What statements leave as output where nothing was printed before is what they print. -/
private theorem prints_of_runBody (houtput : m.output = "")
    (h : runBody executor n ss m = .ok ending last) :
    Prints (runBody executor n ss) m last.output := by
  intro earlier
  have hsame : executor.map (·.behind []) = executor := by cases executor <;> rfl
  obtain ⟨hlast, -⟩ := (runBody_before earlier m hsame).of_ok h
  refine ⟨ending, last.before ⟨[], earlier, []⟩, ?_, rfl⟩
  rw [← hlast]
  simp only [Machine.before, houtput, List.append_nil, String.append_empty, List.nil_append]

end Run

namespace Machine

variable {executor : Option Executor} {n : Nat} {ss : List Stmt} {m : Machine}
  {handed : List String}

private theorem before_nothing (m : Machine) : m.before ⟨[], "", []⟩ = m := by
  simp only [before, List.nil_append, List.append_nil, String.empty_append]

private theorem installAll_before (m : Machine) (b : Backdrop) (ss : List Stmt) :
    (m.before b).installAll ss = (m.installAll ss).before b := by
  induction ss generalizing m with
  | nil => rfl
  | cons s ss ih =>
    cases s with
    | procedure p => exact ih (m.install p)
    | _ => exact ih m

/-- Behind blocks that were handed over, a program comes to the same, and leaves the same machine
behind them. -/
theorem interpret_before (hsame : executor.map (·.behind handed) = executor) (m : Machine) :
    (m.before ⟨[], "", handed⟩).interpret executor n ss =
      ((m.interpret executor n ss).1, (m.interpret executor n ss).2.before ⟨[], "", handed⟩) := by
  have hfollows : FollowsFrom False ⟨[], "", handed⟩ (m.installAll ss) (runBody executor n ss)
      (runBody executor n ss) := runBody_before "" _ hsame
  unfold FollowsFrom Ends at hfollows
  unfold interpret
  rw [installAll_before]
  revert hfollows
  cases runBody executor n ss (m.installAll ss) with
  | ok ending later =>
    rintro ⟨hlater, -⟩
    rw [hlater]
    simp only [before, String.empty_append, List.nil_append]
  | error stop later =>
    rintro (⟨hlater, -⟩ | ⟨hfalse, -⟩)
    · rw [hlater]
      simp only [before, String.empty_append, List.nil_append]
    · exact hfalse.elim

end Machine

/-! ### Sessions that remember the same -/

namespace Session

/-- The second session remembers what the first one does. It may have asked the host for other
texts, and has handed over some more blocks before all others. -/
structure Behind (handed : List String) (s s' : Session) : Prop where
  names : s'.names = s.names
  machine : s'.machine = s.machine.before ⟨[], "", handed⟩

namespace Behind

variable {host : Host} {handed : List String} {s s' : Session}

theorem prepared (h : Behind handed s s') (mode : Mode) :
    Behind handed (s.prepared mode) (s'.prepared mode) := by
  cases mode with
  | onTop => exact h
  | whole =>
    refine ⟨rfl, ?_⟩
    simp only [Session.prepared, h.machine, Machine.reset, Machine.before, String.empty_append]
    rfl

/-- A whole run finds nothing of what was before, but for the blocks that were handed over. -/
theorem whole (s : Session) :
    Behind s.machine.blocks (fresh.prepared .whole) (s.prepared .whole) := by
  refine ⟨rfl, ?_⟩
  simp only [Session.prepared, fresh, Machine.empty, Machine.reset, Machine.before,
    List.append_nil, String.empty_append]

theorem parse (hsteady : host.Steady) (h : Behind handed s s') (source : String) :
    (Session.parse host source s').1 = (Session.parse host source s).1 ∧
      Behind handed (Session.parse host source s).2 (Session.parse host source s').2 := by
  unfold Session.parse
  dsimp only
  rw [Stream.ofText, Stream.ofText, hsteady.outcome_ofChars _ s.fetched s'.fetched, h.names]
  cases (Stream.ofChars host.fetch Stream.includeBudget s.fetched source.toList).outcome with
  | error f => exact ⟨rfl, rfl, h.machine⟩
  | ok stream =>
    dsimp only
    cases Grammar.parse s.names stream with
    | mk outcome later => cases outcome <;> exact ⟨rfl, rfl, h.machine⟩

theorem execute (hsteady : host.Steady) (h : Behind handed s s') (fuel : Nat) (ss : List Stmt) :
    (Session.execute host fuel ss s').1 = (Session.execute host fuel ss s).1 ∧
      Behind handed (Session.execute host fuel ss s).2 (Session.execute host fuel ss s').2 := by
  have hallocate : s'.machine.allocate s'.names.globalTypes =
      (s.machine.allocate s.names.globalTypes).before ⟨[], "", handed⟩ := by
    rw [h.machine, h.names]
    rfl
  rw [execute_apply, execute_apply, hallocate,
    Machine.interpret_before (hsteady.executor_behind handed)]
  exact ⟨rfl, h.names, rfl⟩

/-- A request is answered alike, and both sessions remember the same behind it. -/
theorem step (hsteady : host.Steady) {r : Request}
    (h : Behind handed (s.prepared r.mode) (s'.prepared r.mode)) :
    reply host s' r = reply host s r ∧
      Behind handed (replay host s [r]) (replay host s' [r]) := by
  have hblocks : s'.machine.blocks = handed ++ s.machine.blocks := by
    have hmachine := congrArg Machine.blocks h.machine
    cases hmode : r.mode <;> (rw [hmode] at hmachine; exact hmachine)
  have hmade : (attempt host r s' (Session.parse host r.source (s'.prepared r.mode))).1 =
        (attempt host r s (Session.parse host r.source (s.prepared r.mode))).1 ∧
      Behind handed (attempt host r s (Session.parse host r.source (s.prepared r.mode))).2
        (attempt host r s' (Session.parse host r.source (s'.prepared r.mode))).2 := by
    obtain ⟨hfirst, hlater⟩ := h.parse hsteady r.source
    revert hfirst hlater
    generalize Session.parse host r.source (s.prepared r.mode) = parsed
    generalize Session.parse host r.source (s'.prepared r.mode) = parsed'
    obtain ⟨outcome, later⟩ := parsed
    obtain ⟨outcome', later'⟩ := parsed'
    rintro rfl hlater
    cases outcome' with
    | ok ss => exact hlater.execute hsteady r.fuel ss
    | error f =>
      simp only [attempt]
      cases hmode : r.mode with
      | whole => exact ⟨rfl, hlater⟩
      | onTop =>
        rw [hmode] at h
        exact ⟨rfl, h.names, hlater.machine⟩
  obtain ⟨houtcome, hlater⟩ := hmade
  simp only [reply, replay, List.foldl_cons, List.foldl_nil, step_eq_attempt, houtcome, hlater,
    and_true, Answer.mk.injEq, true_and]
  -- the blocks before are dropped from the answer
  rw [hlater.machine, hblocks, List.length_append]
  simp only [Machine.before, List.drop_append, Nat.le_add_right, List.drop_eq_nil_of_le,
    List.nil_append, Nat.add_sub_cancel_left]

end Behind

/-! ### Transcripts -/

/-- The requests of a session with their answers. -/
def transcript (host : Host) : Session → List Request → List (Request × Answer)
  | _, [] => []
  | s, r :: rest => (r, reply host s r) :: transcript host (replay host s [r]) rest

/-- Sessions that remember the same answer all requests alike. -/
private theorem Behind.transcript {host : Host} (hsteady : host.Steady) {handed : List String}
    {s s' : Session} (h : Behind handed s s') (requests : List Request) :
    transcript host s' requests = transcript host s requests := by
  induction requests generalizing s s' with
  | nil => rfl
  | cons r rest ih =>
    obtain ⟨hreply, hlater⟩ := (h.prepared r.mode).step hsteady
    rw [Session.transcript, Session.transcript, hreply, ih hlater]

/-! ### What is forgotten -/

section Forgetting

variable {host : Host} {s : Session} {r : Request}

/-- Whether a request was run on top of others and came to nothing, because its text could not be
read or is no program. -/
def rejected (exchange : Request × Answer) : Bool :=
  match exchange.1.mode, exchange.2.outcome with
  | .onTop, .error (.scan _) => true
  | .onTop, .error (.parse _) => true
  | _, _ => false

/-- Statements that are executed end in an output or at a stop. -/
private theorem not_rejected_of_execute {fuel : Nat} {ss : List Stmt} {later : Session}
    {blocks : List String} : rejected (r, ⟨(execute host fuel ss later).1, blocks⟩) = false := by
  rw [execute_apply]
  dsimp only
  unfold rejected
  cases (Machine.interpret host.execute fuel ss
    (later.machine.allocate later.names.globalTypes)).1 <;> cases r.mode <;> rfl

/-- A request that came to nothing leaves nothing behind. -/
private theorem behind_of_rejected (h : rejected (r, reply host s r) = true) :
    Behind [] s (replay host s [r]) := by
  have hreplay : replay host s [r] = (step host r.fuel r.mode r.source s).2 := rfl
  rw [reply, step_eq_attempt] at h
  rw [hreplay, step_eq_attempt]
  rcases parse_cases host r.source (s.prepared r.mode) with
    ⟨f, later, hparse, -, hmachine, -⟩ | ⟨ss, names, fetched, hparse, -⟩
  · rw [hparse] at h ⊢
    dsimp only [attempt] at h ⊢
    cases hmode : r.mode with
    | whole =>
      rw [hmode] at h
      simp [rejected, hmode] at h
    | onTop =>
      refine ⟨rfl, ?_⟩
      dsimp only
      rw [hmachine, hmode, Machine.before_nothing]
      rfl
  · rw [hparse] at h
    dsimp only [attempt] at h
    rw [not_rejected_of_execute] at h
    cases h

/-- Requests that came to nothing may be left out: all others are answered as they were. -/
theorem transcript_filter (hsteady : host.Steady) (s : Session) (requests : List Request) :
    transcript host s (((transcript host s requests).filter fun x => !rejected x).map Prod.fst) =
      (transcript host s requests).filter fun x => !rejected x := by
  induction requests generalizing s with
  | nil => rfl
  | cons r rest ih =>
    have hrest := ih (replay host s [r])
    rw [transcript, List.filter_cons]
    cases hrejected : rejected (r, reply host s r) with
    | true =>
      -- what is kept is kept behind the request, which leaves nothing there
      rw [← (behind_of_rejected hrejected).transcript hsteady]
      exact hrest
    | false =>
      simp only [Bool.not_false, if_true, List.map_cons, transcript, hrest]

/-- No call waits, and nothing that was printed is left. -/
def Quiet (s : Session) : Prop :=
  s.machine.frames = [] ∧ s.machine.output = ""

private theorem quiet_prepared (hs : s.Quiet) (mode : Mode) : (s.prepared mode).Quiet := by
  cases mode with
  | whole => exact ⟨rfl, rfl⟩
  | onTop => exact hs

/-- A request leaves no call waiting and no output, however it ends. -/
theorem quiet_step (hs : s.Quiet) (host : Host) (r : Request) : (replay host s [r]).Quiet := by
  have hprepared := quiet_prepared hs r.mode
  have hreplay : replay host s [r] = (step host r.fuel r.mode r.source s).2 := rfl
  rw [hreplay, step_eq_attempt]
  rcases parse_cases host r.source (s.prepared r.mode) with
    ⟨f, later, hparse, -, hmachine, -⟩ | ⟨ss, names, fetched, hparse, -⟩
  · rw [hparse]
    dsimp only [attempt]
    unfold Quiet at hprepared ⊢
    rw [← hmachine] at hprepared
    cases r.mode <;> exact hprepared
  · rw [hparse]
    dsimp only [attempt]
    rw [execute_eq]
    exact ⟨rfl, rfl⟩

private theorem quiet_replay (host : Host) (history : List Request) :
    (replay host fresh history).Quiet := by
  induction history using List.reverseRecOn with
  | nil => exact ⟨rfl, rfl⟩
  | append_singleton history r ih =>
    rw [replay_append]
    exact quiet_step ih host r

/-- The text of an answer is what the program of the request prints. -/
theorem prints_of_reply (hs : s.Quiet) {text : String} (h : (reply host s r).outcome = .ok text) :
    ∃ ss later, parse host r.source (s.prepared r.mode) = (.ok ss, later) ∧
      (runBody host.execute r.fuel ss).Prints (later.ready ss) text := by
  rw [reply, step_eq_attempt] at h
  rcases parse_cases host r.source (s.prepared r.mode) with
    ⟨f, later, hparse, -⟩ | ⟨ss, names, fetched, hparse, -⟩
  · rw [hparse] at h
    dsimp only [attempt] at h
    cases hmode : r.mode <;> (rw [hmode] at h; cases h)
  · rw [hparse] at h
    dsimp only [attempt] at h
    rw [execute_apply] at h
    dsimp only at h
    generalize hresult : Machine.interpret host.execute r.fuel ss _ = result at h
    obtain ⟨outcome, final⟩ := result
    cases outcome with
    | error stop => cases h
    | ok output =>
      obtain rfl : output = text := Except.ok.inj h
      obtain ⟨ending, last, hrun, rfl, -⟩ := Machine.interpret_eq_ok hresult
      refine ⟨ss, _, hparse, prints_of_runBody ?_ hrun⟩
      rw [ready, Machine.installAll_eq]
      exact (quiet_prepared hs r.mode).2

end Forgetting

/-- Sessions forget what they should, if the host always answers alike. From a whole run on, they
answer as a session without history does, whatever came before. Requests on top of others whose
texts cannot be read or are no programs may be left out without a change to any other answer. And
between two requests no call waits and no output is left, so that the text of an answer is what its
own program prints and nothing else. -/
theorem forgets (host : Host) (hsteady : host.Steady) :
    (∀ (before : List Request) (r : Request) (after : List Request), r.mode = .whole →
      transcript host (replay host fresh before) (r :: after) =
        transcript host fresh (r :: after)) ∧
    (∀ requests : List Request,
      let kept := (transcript host fresh requests).filter fun x => !rejected x
      transcript host fresh (kept.map Prod.fst) = kept) ∧
    ∀ history : List Request,
      let s := replay host fresh history
      s.machine.frames = [] ∧ s.machine.output = "" ∧
        ∀ (r : Request) (text : String), (reply host s r).outcome = .ok text →
          ∃ ss later, parse host r.source (s.prepared r.mode) = (.ok ss, later) ∧
            (runBody host.execute r.fuel ss).Prints (later.ready ss) text := by
  refine ⟨fun before r after hmode => ?_, transcript_filter hsteady fresh, fun history => ?_⟩
  · have hbehind := Behind.whole (replay host fresh before)
    rw [← hmode] at hbehind
    obtain ⟨hreply, hlater⟩ := hbehind.step hsteady
    rw [transcript, transcript, hreply, hlater.transcript hsteady]
  · have hquiet := quiet_replay host history
    exact ⟨hquiet.1, hquiet.2, fun r text h => prints_of_reply hquiet h⟩

/-- A host that has one text and takes all blocks. -/
def oneText : Host :=
  ⟨some fun _ path => if path = "n" then .ok "I64 n = 2;" else .error "no such text",
    some fun _ _ => .ok ()⟩

/-- A run that stops in a nested call, after it has printed and has handed over a block; a text on
top that does not parse, after it has declared a name; and a text on top that runs. -/
def troubled : List Request :=
  [⟨9, .whole, "#include \"n\"\nU0 g(I64 k) \x7b \"lost\"; js \x7bgo\x7d; n = 1 / k; \x7d " ++
      "U0 f() \x7b g(0); \x7d f;"⟩,
    ⟨9, .onTop, "I64 k; k = ;"⟩, ⟨9, .onTop, "I64 k = 5; \"%d\", n + k;"⟩]

/-- The text that does not parse may be left out, so that its name is free again; nothing is seen of
the output that was lost; and a whole run declares all names anew. -/
theorem forgets_nested_fault :
    let whole : Request := ⟨9, .whole, "I64 g; \"%d\", g;"⟩
    let outcomes := fun exchanges : List (Request × Answer) =>
      exchanges.map fun x => (x.2.outcome.toOption, x.2.blocks)
    oneText.Steady ∧
      outcomes (transcript oneText fresh troubled) =
        [(none, ["go"]), (none, []), (some "6", [])] ∧
      transcript oneText fresh [troubled[0], troubled[2]] =
        [(troubled[0], reply oneText fresh troubled[0]),
          (troubled[2], reply oneText (replay oneText fresh (troubled.take 2)) troubled[2])] ∧
      transcript oneText (replay oneText fresh troubled) [whole] =
        transcript oneText fresh [whole] ∧
      outcomes (transcript oneText fresh [whole]) = [(some "0", [])] := by
  intro whole outcomes
  have hsteady : oneText.Steady := by
    constructor
    · rintro answer ⟨⟩ asked asked' path
      rfl
    · rintro answer ⟨⟩ handed handed' code
      rfl
  obtain ⟨hwhole, hrejected, -⟩ := forgets oneText hsteady
  have hflags : (transcript oneText fresh troubled).map rejected = [false, true, false] := by
    decide +kernel
  have hkept := hrejected troubled
  simp only [troubled, transcript, List.map_cons, List.map_nil, List.cons.injEq] at hflags
  obtain ⟨hfirst, hsecond, hthird, -⟩ := hflags
  simp only [troubled, transcript, List.filter_cons, hfirst, hsecond, hthird, List.filter_nil,
    Bool.not_false, Bool.not_true, if_true, Bool.false_eq_true, if_false, List.map_cons,
    List.map_nil] at hkept
  exact ⟨hsteady, by decide +kernel, hkept, hwhole troubled whole [] rfl, by decide +kernel⟩

end Session

end Litany
