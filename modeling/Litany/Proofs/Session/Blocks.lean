import Litany.Proofs.Machine.Blocks
import Litany.Proofs.Session.Piecewise
import Litany.Proofs.Session.Typing
import Litany.Proofs.Token.Paste
import Litany.Proofs.Token.Respelling

/-!
# Foreign code is delivered as it is written

A block of foreign code reaches the host as the characters between its braces, and nothing in
between looks at them. The text of the token is what stands there (`segment_block`), and every such
token is written so, with matching braces (`Stream.eq_block_of_ofText`). The statement that a block
becomes carries this text, and a procedure keeps it for as long as it is installed
(`Session.codesIn_replay`). In a run the host is given the text each time the statement is executed,
in the order of the executions.

The main statement is `Session.blocks_verbatim`.
-/

namespace Litany

open Run

open Cut (isGap Matched Spells)

/-! ### Capture -/

/-- A block of foreign code as it is written, with blanks around its braces. -/
def Cut.block (gap body gap' : List Char) : List Char :=
  ['j', 's'] ++ gap ++ '\x7b' :: body ++ '\x7d' :: gap' ++ [';']

/-- A block whose braces match is one token, which holds the characters between the outer braces,
and reading goes on behind its semicolon. -/
theorem segment_block {gap body gap' : List Char} (hgap : ∀ c ∈ gap, isGap c = true)
    (hbody : Matched 0 body) (hgap' : ∀ c ∈ gap', isGap c = true) (line : Nat)
    (rest : List Char) :
    let block := Cut.block gap body gap'
    let later := segment (line + block.count '\n') rest
    segment line (block ++ rest) =
      ⟨⟨.foreign (String.ofList body), String.ofList block, line⟩ :: later.tokens, later.ending⟩ :=
  segment_spelled (.foreign hgap hbody hgap') line

/-- What is spelled as a block is the block of its text, whose braces match. -/
private theorem Cut.Spells.eq_block {kind : Kind} {taken behind : List Char}
    (h : Spells kind taken behind) {body : String} (hkind : kind = .foreign body) :
    ∃ gap gap', (∀ c ∈ gap, isGap c = true) ∧ Matched 0 body.toList ∧
      (∀ c ∈ gap', isGap c = true) ∧ taken = Cut.block gap body.toList gap' := by
  cases h with
  | foreign hgap hbody hgap' =>
    obtain rfl := Kind.foreign.inj hkind
    rw [String.toList_ofList]
    exact ⟨_, _, hgap, hbody, hgap', rfl⟩
  | word =>
    -- a word is a type, a reserved word or a name
    unfold Kind.ofWord at hkind
    split at hkind
    · cases hkind
    · split at hkind <;> cases hkind
  | _ => cases hkind

namespace Stream

/-- A text that begins with a block is read as the block and what is behind it. -/
private theorem ofChars_block {gap body gap' : List Char} (hgap : ∀ c ∈ gap, isGap c = true)
    (hbody : Matched 0 body) (hgap' : ∀ c ∈ gap', isGap c = true) (fetch : Option Fetcher)
    (budget : Nat) (fetched : List String) (rest : List Char) :
    let block := Cut.block gap body gap'
    ofChars fetch budget fetched (block ++ rest) =
      (resume fetch budget fetched (segment (1 + block.count '\n') rest)).after
        [⟨.foreign (String.ofList body), String.ofList block, 1⟩] := by
  intro block
  rw [ofChars_eq_resume, segment_block hgap hbody hgap' 1 rest]
  exact resume_append [_] _

/-- Every token that is a block is written as the block of its text, whose braces match. -/
private theorem eq_block_of_ofText {fetch : Option Fetcher} {fetched : List String} {text : String}
    {stream : Stream} (h : (ofText fetch fetched text).outcome = .ok stream) {t : Token}
    (ht : t ∈ stream.tokens) {body : String} (hkind : t.kind = .foreign body) :
    ∃ gap gap', (∀ c ∈ gap, isGap c = true) ∧ Matched 0 body.toList ∧
      (∀ c ∈ gap', isGap c = true) ∧ t.lexeme.toList = Cut.block gap body.toList gap' :=
  (Token.wellFormed_iff.mp (wellFormed_ofText h t ht)).eq_block hkind

end Stream

/-! ### Sessions -/

namespace Session

/-- A block that is a token of one of the texts of a session, with the line it stands on. -/
def Brings (host : Host) (requests : List Request) (c : String × Nat) : Prop :=
  ∃ i r stream t, requests[i]? = some r ∧
    (Stream.ofText host.fetch (replay host fresh (requests.take i)).fetched r.source).outcome =
      .ok stream ∧
    t ∈ stream.tokens ∧ t.kind = .foreign c.1 ∧ t.line = c.2

section Steps

variable {host : Host} {history : List Request} {r : Request} {s later : Session}
  {ss : List Stmt} {P : String × Nat → Prop}

/-- The blocks of earlier texts stay. -/
private theorem Brings.snoc {c : String × Nat} (h : Brings host history c) (r : Request) :
    Brings host (history ++ [r]) c := by
  obtain ⟨i, q, stream, t, hq, hscan, ht⟩ := h
  have hi : i < history.length := (List.getElem?_eq_some_iff.mp hq).1
  refine ⟨i, q, stream, t, ?_, ?_, ht⟩
  · rw [List.getElem?_append_left hi, hq]
  · rw [List.take_append_of_le_length hi.le]
    exact hscan

/-- The blocks of the last text. -/
private theorem brings_of_parse
    (h : parse host r.source ((replay host fresh history).prepared r.mode) = (.ok ss, later)) :
    ∀ c ∈ Stmt.codesOfAll ss, Brings host (history ++ [r]) c := by
  obtain ⟨stream, hscan, hparse, -⟩ := parse_eq_ok.mp h
  rintro ⟨code, line⟩ hc
  rw [Grammar.codes_of_parse hparse, Token.mem_codes] at hc
  obtain ⟨t, ht, hkind⟩ := hc
  have hfetched : ((replay host fresh history).prepared r.mode).fetched =
      (replay host fresh history).fetched := by
    cases r.mode <;> rfl
  refine ⟨history.length, r, stream, t, ?_, ?_, ht, hkind⟩
  · simp
  · rw [List.take_left, ← hfetched, hscan]

private theorem codesIn_prepared (hs : s.machine.CodesIn P) (mode : Mode) :
    (s.prepared mode).machine.CodesIn P := by
  cases mode with
  | whole =>
    intro ordinal p hp
    cases hp
  | onTop => exact hs

private theorem codesIn_ready (hs : s.machine.CodesIn P) (hss : ∀ c ∈ Stmt.codesOfAll ss, P c) :
    (s.ready ss).CodesIn P := by
  have hallocated : (s.machine.allocate s.names.globalTypes).CodesIn P := hs
  exact hallocated.installAll hss

/-- A program that is executed brings no other blocks into the bodies of procedures. -/
theorem codesIn_execute (hs : s.machine.CodesIn P) (hss : ∀ c ∈ Stmt.codesOfAll ss, P c)
    (host : Host) (fuel : Nat) : (execute host fuel ss s).2.machine.CodesIn P := by
  have hready := codesIn_ready hs hss
  rw [execute_eq]
  cases fuel with
  | zero => exact hready
  | succ n =>
    have hstart : Moment.CodesIn P ⟨[], n, .statements ss, s.ready ss⟩ :=
      .of_statements hss hready
    exact hstart.finish host.execute

/-- A request leaves procedures with blocks of the texts so far. -/
theorem codesIn_step (hs : (replay host fresh history).machine.CodesIn (Brings host history)) :
    (step host r.fuel r.mode r.source (replay host fresh history)).2.machine.CodesIn
      (Brings host (history ++ [r])) := by
  have hprepared := (codesIn_prepared hs r.mode).mono fun c hc => Brings.snoc hc r
  rw [step_eq_attempt]
  rcases hparse : parse host r.source ((replay host fresh history).prepared r.mode) with
    ⟨outcome, later⟩
  cases outcome with
  | error f =>
    -- a text that is refused installs nothing
    have hmachine : later.machine = ((replay host fresh history).prepared r.mode).machine := by
      rcases parse_cases host r.source ((replay host fresh history).prepared r.mode) with
        ⟨f', later', hparse', -, hmachine, -⟩ | ⟨ss, names, fetched, hparse', -⟩
      · rw [hparse] at hparse'
        cases hparse'
        exact hmachine
      · rw [hparse] at hparse'
        cases hparse'
    dsimp only [attempt]
    cases hmode : r.mode <;> exact hmachine ▸ hprepared
  | ok ss =>
    obtain ⟨stream, -, -, hmachine⟩ := parse_eq_ok.mp hparse
    exact codesIn_execute (hmachine ▸ hprepared) (brings_of_parse hparse) host r.fuel

/-- Between the texts of a session no procedure has other blocks than those of the texts. -/
private theorem codesIn_replay (host : Host) (history : List Request) :
    (replay host fresh history).machine.CodesIn (Brings host history) := by
  induction history using List.reverseRecOn with
  | nil =>
    intro ordinal p hp
    cases hp
  | append_singleton history r ih =>
    rw [replay_append]
    exact codesIn_step ih

/-- A run begins with blocks of the texts only. -/
private theorem codesIn_opening {names : Names} {start : Moment}
    (h : (replay host fresh history).opening host r = some (names, start)) :
    start.CodesIn (Brings host (history ++ [r])) := by
  obtain ⟨n, ss, later, -, hparse, -, rfl⟩ := of_opening h
  have hprepared := (codesIn_prepared (codesIn_replay host history) r.mode).mono
    fun c hc => Brings.snoc hc r
  obtain ⟨stream, -, -, hmachine⟩ := parse_eq_ok.mp hparse
  have hss := brings_of_parse hparse
  exact .of_statements hss (codesIn_ready (hmachine ▸ hprepared) hss)

private theorem blocks_prepared (s : Session) (mode : Mode) :
    (s.prepared mode).machine.blocks = s.machine.blocks := by
  cases mode <;> rfl

private theorem blocks_ready (s : Session) (ss : List Stmt) :
    (s.ready ss).blocks = s.machine.blocks := by
  rw [ready, Machine.installAll_eq]
  rfl

/-- A run begins with the blocks that were handed over before. -/
private theorem blocks_opening {names : Names} {start : Moment}
    (h : s.opening host r = some (names, start)) : start.machine.blocks = s.machine.blocks := by
  obtain ⟨n, ss, later, -, hparse, -, rfl⟩ := of_opening h
  obtain ⟨stream, -, -, hmachine⟩ := parse_eq_ok.mp hparse
  change (later.ready ss).blocks = _
  rw [blocks_ready, hmachine, blocks_prepared]

/-- Nothing is handed over if no run begins. -/
private theorem blocks_of_not_opening (h : s.opening host r = none) :
    (step host r.fuel r.mode r.source s).2.machine.blocks = s.machine.blocks := by
  rw [step_eq_attempt]
  rcases parse_cases host r.source (s.prepared r.mode) with
    ⟨f, later, hparse, -, hmachine, -⟩ | ⟨ss, names, fetched, hparse, -⟩
  · rw [hparse, ← blocks_prepared s r.mode, ← hmachine]
    dsimp only [attempt]
    cases r.mode <;> rfl
  · have hfuel : r.fuel = 0 := by
      unfold opening at h
      rw [hparse] at h
      cases hfuel : r.fuel with
      | zero => rfl
      | succ n =>
        rw [hfuel] at h
        cases h
    rw [hparse]
    dsimp only [attempt]
    rw [execute_eq, hfuel, ← blocks_prepared s r.mode]
    exact blocks_ready _ ss

/-- The blocks that a request hands over are those of the trace of its run. -/
theorem blocks_reply {names : Names} {start : Moment}
    (h : s.opening host r = some (names, start)) :
    (reply host s r).blocks =
      (start.trace host.execute).filterMap (Moment.handed host.execute) := by
  have hmachine := (step_of_opening h).2
  -- a request answers with the blocks behind those that were there before
  have hblocks : (step host r.fuel r.mode r.source s).2.machine.blocks =
      s.machine.blocks ++ (start.trace host.execute).filterMap (Moment.handed host.execute) := by
    rw [hmachine, ← blocks_opening h]
    exact (start.delivers host.execute).1
  have hreply : (reply host s r).blocks = (step host r.fuel r.mode r.source s).2.machine.blocks.drop
      s.machine.blocks.length := rfl
  rw [hreply, hblocks, List.drop_left]

end Steps

/-- Foreign code is captured and delivered as it is written.

A block with matching braces inside is read as one token that holds the characters between the outer
braces, wherever it stands and whatever follows it; and every token of a block is written so, with
matching braces inside. A program has the blocks of its tokens, in their order.

In every session, whatever the host answers, the blocks that a text hands over are those of the
statements that are executed, one for each execution, in the order in which they are executed; each
of them is handed over before the next moment of the run begins, and each is a token, as it stands,
of the text or of an earlier one. -/
theorem blocks_verbatim :
    (∀ gap body gap' : List Char, (∀ c ∈ gap, isGap c = true) → Matched 0 body →
      (∀ c ∈ gap', isGap c = true) →
      let block := Cut.block gap body gap'
      let token := fun line => Token.mk (.foreign (String.ofList body)) (String.ofList block) line
      (∀ line rest, segment line (block ++ rest) =
        ⟨token line :: (segment (line + block.count '\n') rest).tokens,
          (segment (line + block.count '\n') rest).ending⟩) ∧
      ∀ fetch fetched rest, Stream.ofText fetch fetched (String.ofList (block ++ rest)) =
        (Stream.resume fetch 64 fetched (segment (1 + block.count '\n') rest)).after [token 1]) ∧
    (∀ fetch fetched text stream, (Stream.ofText fetch fetched text).outcome = .ok stream →
      ∀ t ∈ stream.tokens, ∀ body, t.kind = .foreign body →
        ∃ gap gap', (∀ c ∈ gap, isGap c = true) ∧ Matched 0 body.toList ∧
          (∀ c ∈ gap', isGap c = true) ∧ t.lexeme.toList = Cut.block gap body.toList gap') ∧
    (∀ names stream statements later, Grammar.parse names stream = (.ok statements, later) →
      Stmt.codesOfAll statements = Token.codes stream.tokens) ∧
    ∀ (host : Host) (history : List Request) (r : Request),
      let s := replay host fresh history
      (s.opening host r = none → (reply host s r).blocks = []) ∧
      ∀ names start, s.opening host r = some (names, start) →
        (reply host s r).blocks =
          (start.trace host.execute).filterMap (Moment.handed host.execute) ∧
        (∀ k, k ∈ start.trace host.execute ↔ start.Leads host.execute k) ∧
        ∀ front k back, start.trace host.execute = front ++ k :: back →
          k.machine.blocks =
            s.machine.blocks ++ front.filterMap (Moment.handed host.execute) ∧
          ∀ code line rest, k.task = .statements (.foreign code line :: rest) →
            Brings host (history ++ [r]) (code, line) := by
  refine ⟨fun gap body gap' hgap hbody hgap' => ⟨?_, ?_⟩, ?_, ?_, ?_⟩
  · exact segment_block hgap hbody hgap'
  · intro fetch fetched rest
    rw [Stream.ofText, String.toList_ofList]
    exact Stream.ofChars_block hgap hbody hgap' fetch Stream.includeBudget fetched rest
  · exact fun fetch fetched text stream h t ht body => Stream.eq_block_of_ofText h ht
  · exact fun names stream statements later => Grammar.codes_of_parse
  · intro host history r s
    refine ⟨fun hnone => ?_, fun names start hopening => ?_⟩
    · have hsame := blocks_of_not_opening hnone
      change (step host r.fuel r.mode r.source s).2.machine.blocks.drop s.machine.blocks.length = []
      rw [hsame, List.drop_length]
    · refine ⟨blocks_reply hopening, fun k => Moment.mem_trace_iff, fun front k back htrace => ?_⟩
      -- the moment finds the blocks of those in front of it, and its own are written in some text
      have hordered := (start.delivers host.execute).2
      rw [htrace, blocks_opening hopening] at hordered
      refine ⟨hordered.blocks_eq, fun code line rest htask => ?_⟩
      have hleads : start.Leads host.execute k :=
        Moment.mem_trace_iff.mp (by rw [htrace]; simp)
      have hk := (codesIn_opening hopening).of_leads hleads
      refine hk.codes (code, line) ?_
      rw [htask]
      exact List.mem_append_left _ List.mem_cons_self

/-- Code with an escape, a comment with braces and a request to include a text. -/
def awkwardCode : String := " a('\\n'); /*\x7b\x7d*/ #include 'b' "

/-- A block is delivered in the body of a procedure each time that it is called, with another block
in between. -/
theorem blocks_verbatim_awkward :
    let host : Host := ⟨none, some fun _ _ => .ok ()⟩
    let block := Cut.block [' '] awkwardCode.toList ['\n']
    let s := replay host fresh
      [⟨9, .whole, "U0 f() \x7b " ++ String.ofList block ++ " \x7d"⟩]
    let r : Request := ⟨9, .onTop, "f(); js\x7bb\x7d; f();"⟩
    segment 1 (block ++ [';']) =
        ⟨[⟨.foreign awkwardCode, String.ofList block, 1⟩, ⟨.mark .semicolon, ";", 2⟩],
          .finished 2⟩ ∧
      ∃ names start, s.opening host r = some (names, start) ∧
        (start.trace host.execute).filterMap (Moment.handed host.execute) =
          [awkwardCode, "b", awkwardCode] := by
  intro host block s r
  obtain ⟨hcapture, -, -, hdeliver⟩ := blocks_verbatim
  have hclose : Cut.closeBrace 0 (awkwardCode.toList ++ '\x7d' :: []) =
      some (awkwardCode.toList, []) := by
    decide +kernel
  have hbody : Matched 0 awkwardCode.toList := (Cut.closeBrace_eq_some_iff.mp hclose).2
  obtain ⟨hsegment, -⟩ := hcapture [' '] awkwardCode.toList ['\n'] (by simp [isGap]) hbody
    (by simp [isGap])
  have hopening : (s.opening host r).isSome = true := by decide +kernel
  obtain ⟨⟨names, start⟩, hopening⟩ := Option.isSome_iff_exists.mp hopening
  have hblocks : (reply host s r).blocks = [awkwardCode, "b", awkwardCode] := by decide +kernel
  refine ⟨?_, names, start, hopening, ?_⟩
  · have hcount : 1 + block.count '\n' = 2 := by decide +kernel
    have hsemicolon : Spells (.mark .semicolon) [';'] [] :=
      .single rfl Cut.stops_nil fun h => by cases h
    have hbehind := segment_spelled hsemicolon 2
    rw [List.append_nil, segment.eq_1] at hbehind
    rw [hsegment 1 [';'], hcount, hbehind, String.ofList_toList]
    rfl
  · rw [← hblocks]
    exact ((hdeliver host _ r).2 names start hopening).1.symm

end Session

end Litany
