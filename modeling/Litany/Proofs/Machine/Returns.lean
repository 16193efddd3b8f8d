import Litany.Proofs.Machine.Pruning
import Litany.Proofs.Machine.Sequence
import Litany.Proofs.Scope.Reading

/-!
# Returns

A return may stand inside any nest of loops and branches. `Reaches` says how statements come to one:
what is in front of it runs through, the branches around it are taken, and the loops around it have
gone round some number of times in full. From there on nothing but the value of the return is
evaluated (`executeAll_of_reaches`), and statements end at a return only if they come to one
(`reaches_of_executeAll`). The call around them takes the value as its type keeps it
(`evaluate_call_of_reaches`).

A return has its call inside the program: a program itself runs through.
-/

namespace Litany

open Run

/-! ### Coming to a return -/

/-- A loop goes round a number of times in full, from one machine to another. -/
inductive GoesRound (test : Run Bool) (body : Run Ending) (step : Run Unit) :
    Nat → Machine → Machine → Prop where
  | zero (m : Machine) : GoesRound test body step 0 m m
  | succ {n : Nat} {m tested ended stepped later : Machine} (htest : test m = .ok true tested)
      (hbody : body tested = .ok .through ended) (hstep : step ended = .ok () stepped)
      (hrest : GoesRound test body step n stepped later) : GoesRound test body step (n + 1) m later

/-- From a machine on, statements come to a return of the given value on the machine `last`. -/
inductive Reaches (cx : Context) (value : Option Expr) (last : Machine) :
    List Stmt → Machine → Prop where
  | here (line : Nat) (rest : List Stmt) : Reaches cx value last (.giveBack value line :: rest) last
  | behind {s : Stmt} {rest : List Stmt} {m middle : Machine}
      (hs : execute cx s m = .ok .through middle) (hrest : Reaches cx value last rest middle) :
      Reaches cx value last (s :: rest) m
  | yes {test : Condition} {yes rest : List Stmt} {no : Option (List Stmt)} {m middle : Machine}
      (htest : evaluateCondition cx.body test m = .ok true middle)
      (hyes : Reaches cx value last yes middle) :
      Reaches cx value last (.branch test yes no :: rest) m
  | no {test : Condition} {yes no rest : List Stmt} {m middle : Machine}
      (htest : evaluateCondition cx.body test m = .ok false middle)
      (hno : Reaches cx value last no middle) :
      Reaches cx value last (.branch test yes (some no) :: rest) m
  | loop {initial : Option Expr} {test : Option Condition} {step : Option Expr}
      {body rest : List Stmt} {n : Nat} {m begun middle inner : Machine}
      (hinitial : effect cx.body initial m = .ok () begun) (hn : n < cx.rounds)
      (hrounds : GoesRound (continues cx.body test) (executeAll cx body) (effect cx.body step) n
        begun middle)
      (htest : continues cx.body test middle = .ok true inner)
      (hbody : Reaches cx value last body inner) :
      Reaches cx value last (.loop initial test step body :: rest) m

/-! ### Loops -/

section Loops

variable {test : Run Bool} {body : Run Ending} {step : Run Unit}

/-- A loop that has gone round some number of times goes on with the others. -/
private theorem rounds_of_goesRound {n k : Nat} {m later : Machine}
    (h : GoesRound test body step n m later) :
    rounds test body step (n + k) m = rounds test body step k later := by
  induction h with
  | zero m => rw [Nat.zero_add]
  | @succ n _ _ _ _ _ htest hbody hstep _ ih =>
    rw [Nat.add_right_comm, rounds, bind_of_ok htest, if_pos rfl, bind_of_ok hbody]
    change (step >>= fun _ => rounds test body step (n + k)) _ = _
    rw [bind_of_ok hstep, ih]

/-- A round that begins and does not run through is the last one. -/
private theorem rounds_of_body {k : Nat} {m inner : Machine} (htest : test m = .ok true inner)
    {value : Run Value} {last : Machine}
    (hbody : body inner = (value >>= fun v => pure (.returned v)) last) :
    rounds test body step (k + 1) m = (value >>= fun v => pure (.returned v)) last := by
  rw [rounds, bind_of_ok htest, if_pos rfl, bind_apply, hbody, bind_apply]
  cases value last with
  | error stop later => rfl
  | ok v later => rfl

/-- A loop that ends at a return has gone round some number of times in full, and its body returns
in the round after. -/
private theorem goesRound_of_returned {k : Nat} {m later : Machine} {v : Value}
    (h : rounds test body step k m = .ok (.returned v) later) :
    ∃ n middle inner, n < k ∧ GoesRound test body step n m middle ∧
      test middle = .ok true inner ∧ body inner = .ok (.returned v) later := by
  induction k generalizing m with
  | zero => cases h
  | succ k ih =>
    rw [rounds] at h
    obtain ⟨holds, tested, htest, h⟩ := bind_eq_ok.mp h
    cases holds with
    | false => cases h
    | true =>
      obtain ⟨ending, ended, hbody, h⟩ := bind_eq_ok.mp h
      cases ending with
      | returned w =>
        cases h
        exact ⟨0, m, tested, Nat.succ_pos k, .zero m, htest, hbody⟩
      | through =>
        obtain ⟨u, stepped, hstep, h⟩ := bind_eq_ok.mp h
        obtain ⟨n, middle, inner, hn, hrounds, hlast⟩ := ih h
        exact ⟨n + 1, middle, inner, Nat.succ_lt_succ hn, .succ htest hbody hstep hrounds, hlast⟩

end Loops

/-! ### From the return on -/

section Returns

variable {cx : Context} {value : Option Expr} {last m later : Machine} {ss : List Stmt} {v : Value}

/-- What is left to do on the machine where the return is reached. -/
def returning (cx : Context) (value : Option Expr) : Run Ending := do
  let v ← returnValue cx.body value
  return .returned v

/-- Statements whose first one returns, or fails while it does, end there. -/
private theorem executeAll_of_execute {s : Stmt} {rest : List Stmt}
    (h : execute cx s m = returning cx value last) :
    executeAll cx (s :: rest) m = returning cx value last := by
  rw [executeAll, bind_apply, h, returning, bind_apply]
  cases returnValue cx.body value last with
  | error stop later => rfl
  | ok v later => rfl

/-- Where a return has been reached, its value is all that is still evaluated. -/
theorem executeAll_of_reaches (h : Reaches cx value last ss m) :
    executeAll cx ss m = returning cx value last := by
  induction h with
  | here line rest =>
    refine executeAll_of_execute ?_
    rw [execute]
    rfl
  | behind hs _ ih =>
    rw [executeAll, bind_of_ok hs]
    exact ih
  | @yes _ _ _ no _ _ htest _ ih =>
    refine executeAll_of_execute ?_
    cases no with
    | none | some no =>
      rw [execute, bind_of_ok htest, if_pos rfl]
      exact ih
  | no htest _ ih =>
    refine executeAll_of_execute ?_
    rw [execute, bind_of_ok htest]
    exact ih
  | @loop initial test step body rest n _ begun middle inner hinitial hn hrounds htest _ ih =>
    refine executeAll_of_execute ?_
    obtain ⟨k, hk⟩ := Nat.exists_eq_add_of_lt hn
    rw [execute, bind_of_ok hinitial, hk, Nat.add_assoc, rounds_of_goesRound hrounds]
    exact rounds_of_body htest ih

mutual

/-- A statement that ends at a return comes to one. -/
private theorem reaches_of_execute (cx : Context) {v : Value} {later : Machine} :
    (s : Stmt) → (m : Machine) → (rest : List Stmt) → execute cx s m = .ok (.returned v) later →
    ∃ value last, Reaches cx value last (s :: rest) m ∧
      returnValue cx.body value last = .ok v later
  | .expr _, _, _, h | .declare _, _, _, h | .classDef _ _, _, _, h | .procedure _, _, _, h
  | .foreign _ _, _, _, h => by
    rw [execute] at h
    obtain ⟨u, middle, -, h⟩ := bind_eq_ok.mp h
    cases h
  | .print _ _ _, _, _, h => by
    rw [execute] at h
    obtain ⟨values, middle, -, h⟩ := bind_eq_ok.mp h
    obtain ⟨u, written, -, h⟩ := bind_eq_ok.mp h
    cases h
  | .giveBack value line, m, rest, h => by
    rw [execute] at h
    obtain ⟨w, middle, hvalue, h⟩ := bind_eq_ok.mp h
    cases h
    exact ⟨value, m, .here line rest, hvalue⟩
  | .branch test yes none, m, rest, h => by
    rw [execute] at h
    obtain ⟨holds, middle, htest, h⟩ := bind_eq_ok.mp h
    cases holds with
    | true =>
      obtain ⟨value, last, hreaches, hvalue⟩ := reaches_of_executeAll cx yes middle h
      exact ⟨value, last, .yes htest hreaches, hvalue⟩
    | false => cases h
  | .branch test yes (some no), m, rest, h => by
    rw [execute] at h
    obtain ⟨holds, middle, htest, h⟩ := bind_eq_ok.mp h
    cases holds with
    | true =>
      obtain ⟨value, last, hreaches, hvalue⟩ := reaches_of_executeAll cx yes middle h
      exact ⟨value, last, .yes htest hreaches, hvalue⟩
    | false =>
      obtain ⟨value, last, hreaches, hvalue⟩ := reaches_of_executeAll cx no middle h
      exact ⟨value, last, .no htest hreaches, hvalue⟩
  | .loop initial test step body, m, rest, h => by
    rw [execute] at h
    obtain ⟨u, begun, hinitial, h⟩ := bind_eq_ok.mp h
    obtain ⟨n, middle, inner, hn, hrounds, htest, hbody⟩ := goesRound_of_returned h
    obtain ⟨value, last, hreaches, hvalue⟩ := reaches_of_executeAll cx body inner hbody
    exact ⟨value, last, .loop hinitial hn hrounds htest hreaches, hvalue⟩

/-- Statements that end at a return come to one. -/
theorem reaches_of_executeAll (cx : Context) {v : Value} {later : Machine} :
    (ss : List Stmt) → (m : Machine) → executeAll cx ss m = .ok (.returned v) later →
    ∃ value last, Reaches cx value last ss m ∧ returnValue cx.body value last = .ok v later
  | [], _, h => by
    rw [executeAll] at h
    cases h
  | s :: rest, m, h => by
    rw [executeAll] at h
    obtain ⟨ending, middle, hs, h⟩ := bind_eq_ok.mp h
    cases ending with
    | returned w =>
      cases h
      exact reaches_of_execute cx s m rest hs
    | through =>
      obtain ⟨value, last, hreaches, hvalue⟩ := reaches_of_executeAll cx rest middle h
      exact ⟨value, last, .behind hs hreaches, hvalue⟩

end

/-! ### Calls -/

/-- The outcome of a call whose body ends with the given value: the value as the type of the
procedure keeps it, and the frame of the call is gone. -/
def leaving (returns : Scalar) :
    EStateM.Result Stop Machine Value → EStateM.Result Stop Machine Value
  | .error stop later => .error stop { later with frames := later.frames.tail }
  | .ok v later => .ok (v.coerce returns) { later with frames := later.frames.tail }

end Returns

/-- A call whose body comes to a return ends there, with the value of the return. -/
theorem evaluate_call_of_reaches {executor : Option Executor} {n : Nat} {ordinal line : Nat}
    {name : String} {arguments : List Expr} {p : Procedure} {values : List Value}
    {m called last : Machine} {value : Option Expr}
    (hp : m.procedures[ordinal]? = some (some p))
    (harguments : evaluateArguments (runBody executor (n + 1)) p.parameters arguments m =
      .ok values called)
    (h : Reaches ⟨executor, runBody executor n, n⟩ value last p.body
      { called with frames := ⟨values, p.locals.map Value.zero⟩ :: called.frames }) :
    evaluate (runBody executor (n + 1)) (.call ordinal name arguments line) m =
      leaving p.returns (returnValue (runBody executor n) value last) := by
  have hfound : procedure ordinal name line m = .ok p m := by
    unfold procedure
    rw [hp]
  have hbody := executeAll_of_reaches h
  rw [evaluate, bind_of_ok hfound, bind_of_ok harguments, invoke, bind_apply, inFrame, runBody,
    hbody, returning, bind_apply]
  cases returnValue (runBody executor n) value last with
  | error stop later => rfl
  | ok v later => rfl

/-! ### Nothing runs behind a return -/

/-- Nothing runs behind a return. A program gives the same result without the statements that stand
behind returns, whichever of them are left out, and leaves the same machine but for them; a call
whose body comes to a return, inside any loops and branches, evaluates the value of the return and
nothing else, and gives it as the type of the procedure keeps it; a body ends at a return only if it
comes to one; and a program that has been parsed runs through. -/
theorem nothing_runs_behind_return (executor : Option Executor) (n : Nat) :
    (∀ ss, Program.Prunes ss (ss.map Stmt.prune)) ∧
    (∀ (m m' : Machine) (ss ss' : List Stmt), m.Pruned m' → Program.Prunes ss ss' →
      (m.interpret executor n ss).1 = (m'.interpret executor n ss').1 ∧
        (m.interpret executor n ss).2.Pruned (m'.interpret executor n ss').2) ∧
    (∀ (ordinal line : Nat) (name : String) (arguments : List Expr) (p : Procedure)
      (values : List Value) (m called last : Machine) (value : Option Expr),
      m.procedures[ordinal]? = some (some p) →
      evaluateArguments (runBody executor (n + 1)) p.parameters arguments m = .ok values called →
      Reaches ⟨executor, runBody executor n, n⟩ value last p.body
        { called with frames := ⟨values, p.locals.map Value.zero⟩ :: called.frames } →
      evaluate (runBody executor (n + 1)) (.call ordinal name arguments line) m =
        leaving p.returns (returnValue (runBody executor n) value last)) ∧
    (∀ (ss : List Stmt) (m later : Machine) (v : Value),
      executeAll ⟨executor, runBody executor n, n⟩ ss m = .ok (.returned v) later →
      ∃ value last, Reaches ⟨executor, runBody executor n, n⟩ value last ss m ∧
        returnValue (runBody executor n) value last = .ok v later) ∧
    ∀ (fetch : Option Fetcher) (fetched : List String) (text : String) (stream : Stream)
      (names later : Names) (statements : List Stmt),
      (Stream.ofText fetch fetched text).outcome = .ok stream →
      Grammar.parse names stream = (.ok statements, later) →
      RunsThrough (runBody executor n statements) := by
  refine ⟨Program.prunes_prune, fun m m' ss ss' hm hss => hm.interpret hss executor n, ?_, ?_, ?_⟩
  · intro ordinal line name arguments p values m called last value hp harguments h
    exact evaluate_call_of_reaches hp harguments h
  · intro ss m later v h
    exact reaches_of_executeAll _ ss m h
  · intro fetch fetched text stream names later statements hscan hparse
    cases n with
    | zero =>
      intro m ending later h
      cases h
    | succ n =>
      rw [runBody]
      exact runsThrough_program (Grammar.scoped_of_parse hscan hparse)

/-- A procedure with the loop `for (;; g++)`, where `if (g)` there is a return of `300` with a
statement behind it. -/
def returningProcedure : Procedure :=
  ⟨0, "F", .u8, [], [], [.loop none none
    (some (.bump ⟨"g", [], .global 0, .scalar .i64⟩ true false 1))
    [.branch ⟨⟨false, .read ⟨"g", [], .global 0, .scalar .i64⟩, none, 1⟩, []⟩
      [.giveBack (some (.literal (.int 300))) 1, .print "dead" [] 1] none]]⟩

/-- The procedure is called where `g` is zero. Its loop goes round once, and the return in the
second round gives `300` as a byte keeps it: `g` is one then. The program that prints the result
prints the same without the statement behind the return. -/
theorem nothing_runs_behind_return_byte :
    let program : List Stmt :=
      [.procedure returningProcedure, .print "%d" [.call 0 "F" [] 1] 1]
    let m : Machine := ⟨[.int 0], [some returningProcedure], [], "", []⟩
    (m.interpret none 4 program).1 = .ok "44" ∧
      (m.interpret none 4 (program.map Stmt.prune)).1 = .ok "44" ∧
      evaluate (runBody none 5) (.call 0 "F" [] 1) m =
        .ok (.int 44) ⟨[.int 1], [some returningProcedure], [], "", []⟩ ∧
      ∃ stream statements later,
        (Stream.ofText none [] "U8 F() \x7b return 300; 7; \x7d F();").outcome = .ok stream ∧
          Grammar.parse Names.empty stream = (.ok statements, later) ∧ statements.length = 2 ∧
          RunsThrough (runBody none 4 statements) := by
  intro program m
  obtain ⟨hprune, hsame, hcall, -, hparsed⟩ := nothing_runs_behind_return none 4
  have hprinted : (m.interpret none 4 program).1 = .ok "44" :=
    eq_ok_of_toOption (by decide +kernel)
  have hpruned := (hsame m m program _ (.refl m) (hprune program)).1
  have hreaches : Reaches ⟨none, runBody none 4, 4⟩ (some (.literal (.int 300)))
      ⟨[.int 1], [some returningProcedure], [⟨[], []⟩], "", []⟩ returningProcedure.body
      ⟨[.int 0], [some returningProcedure], [⟨[], []⟩], "", []⟩ :=
    .loop rfl (by decide : 1 < 4) (.succ rfl rfl rfl (.zero _)) rfl (.yes rfl (.here 1 _))
  obtain ⟨stream, statements, later, hscan, hparse, hlength⟩ :=
    Grammar.exists_parse_of_length Names.empty none [] "U8 F() \x7b return 300; 7; \x7d F();" 2
      (by decide +kernel)
  exact ⟨hprinted, hpruned ▸ hprinted,
    hcall 0 1 "F" [] returningProcedure [] m m _ _ rfl rfl hreaches, stream, statements, later,
    hscan, hparse, hlength, hparsed none [] _ stream Names.empty later statements hscan hparse⟩

end Litany
