import Litany.Proofs.Grammar.Completeness.Program
import Litany.Proofs.Grammar.Soundness.Program
import Litany.Proofs.Lines.Parsing
import Litany.Proofs.Lines.Running
import Litany.Proofs.Machine.Sequence
import Litany.Proofs.Session.Agreement
import Litany.Proofs.Token.Seam

/-!
# Programs fed piece by piece

A program may be fed to a fresh session in two pieces, the second on top of the first, or it may be
run whole, the pieces joined by a line end. When both pieces run to their ends the whole does too,
and nobody can tell the difference: the same output, the same blocks handed to the host, the same
tables and the same values. This is `piecewise_eq_whole`. The host may be any, also one whose
answers change from question to question.

Four facts are put together. The pieces are read one after the other, because no lexeme reaches over
the line end. They parse one after the other, because the derivation of a program is the list of its
items and no item looks at what follows it. They run one after the other, because a program is not
disturbed by cells and procedures that it does not know. And the lines of the second piece, which
are the only thing that changes, go into messages and nowhere else.
-/

namespace Litany

namespace Grammar

/-! ### Programs in a row -/

/-- Derivations may be put in a row, the second under the tables behind the first. -/
def Derivation.append {names : Names} {ts us : List Token} (d : Derivation names ts)
    (d' : Derivation d.later us) : Derivation names (ts ++ us) where
  items := d.items ++ d'.items
  statements := d.statements ++ d'.statements
  later := d'.later
  yields := by rw [List.flatMap_append, d.yields, d'.yields]
  reads := readAll_append d.reads d'.reads

/-- Programs whose tokens stand in a row, lines apart, parse in a row. -/
theorem parse_append {names middle later : Names} {stream₁ stream₂ stream : Stream}
    {a b : List Stmt} (h₁ : parse names stream₁ = (.ok a, middle))
    (h₂ : parse middle stream₂ = (.ok b, later))
    (htokens : stream.tokens.map Token.unlined =
      (stream₁.tokens ++ stream₂.tokens).map Token.unlined) :
    ∃ ss, parse names stream = (.ok ss, later) ∧
      ss.map Stmt.unlined = (a ++ b).map Stmt.unlined := by
  obtain ⟨d₁, rfl, rfl⟩ := exists_derivation_of_parse h₁
  obtain ⟨d₂, rfl, rfl⟩ := exists_derivation_of_parse h₂
  have hjoined : parse names ⟨stream₁.tokens ++ stream₂.tokens, 0⟩ =
      (.ok (d₁.append d₂).statements, (d₁.append d₂).later) := parse_of_derivation _
  exact parse_alike htokens hjoined

end Grammar

namespace Session

/-! ### Texts that run to their ends -/

/-- A text is parsed if it is read and its tokens make a program. -/
theorem parse_eq_ok {host : Host} {source : String} {s later : Session} {ss : List Stmt} :
    parse host source s = (.ok ss, later) ↔
      ∃ stream, Stream.ofText host.fetch s.fetched source = ⟨.ok stream, later.fetched⟩ ∧
        Grammar.parse s.names stream = (.ok ss, later.names) ∧ later.machine = s.machine := by
  constructor
  · intro h
    unfold parse at h
    dsimp only at h
    split at h
    · cases h
    · rename_i stream hscan
      split at h
      · cases h
      · rename_i hparse
        cases h
        exact ⟨stream, by rw [← hscan], hparse, rfl⟩
  · rintro ⟨stream, hscan, hparse, hmachine⟩
    obtain ⟨names, machine, fetched⟩ := later
    simp only at hscan hparse hmachine
    unfold parse
    simp only [hscan, hparse, hmachine]

/-- A program is executed if it runs to its end; tables and requests stay as they are. -/
theorem execute_eq_ok {host : Host} {fuel : Nat} {ss : List Stmt} {s later : Session}
    {output : String} :
    execute host fuel ss s = (.ok output, later) ↔
      (s.machine.allocate s.names.globalTypes).interpret host.execute fuel ss =
          (.ok output, later.machine) ∧
        later.names = s.names ∧ later.fetched = s.fetched := by
  constructor
  · intro h
    unfold execute at h
    dsimp only at h
    split at h
    · cases h
    · rename_i hresult
      cases h
      exact ⟨hresult, rfl, rfl⟩
  · rintro ⟨hresult, hnames, hfetched⟩
    obtain ⟨names, machine, fetched⟩ := later
    simp only at hresult hnames hfetched
    unfold execute
    simp only [hresult, hnames, hfetched]

/-- A text run on top of others gives output if it is read, parsed and executed. -/
private theorem runOnTop_eq_ok {host : Host} {fuel : Nat} {source output : String}
    {s later : Session} (h : runOnTop host fuel source s = (.ok output, later)) :
    ∃ stream ss, Stream.ofText host.fetch s.fetched source = ⟨.ok stream, later.fetched⟩ ∧
      Grammar.parse s.names stream = (.ok ss, later.names) ∧
      (s.machine.allocate later.names.globalTypes).interpret host.execute fuel ss =
        (.ok output, later.machine) := by
  unfold runOnTop at h
  split at h
  · cases h
  · rename_i ss parsed hparse
    obtain ⟨stream, hscan, hgrammar, hmachine⟩ := parse_eq_ok.mp hparse
    obtain ⟨hresult, hnames, hfetched⟩ := execute_eq_ok.mp h
    rw [hnames, hfetched]
    rw [hmachine] at hresult
    exact ⟨stream, ss, hscan, hgrammar, hresult⟩

/-- A fresh session runs a text whole if it is read, parsed and executed. -/
private theorem run_fresh_of_ok {host : Host} {fuel : Nat} {source output : String}
    {stream : Stream} {ss : List Stmt} {later : Session}
    (hscan : Stream.ofText host.fetch [] source = ⟨.ok stream, later.fetched⟩)
    (hparse : Grammar.parse Names.empty stream = (.ok ss, later.names))
    (hresult : (Machine.empty.allocate later.names.globalTypes).interpret host.execute fuel ss =
      (.ok output, later.machine)) :
    run host fuel source fresh = (.ok output, later) := by
  have hparsed : parse host source fresh =
      (.ok ss, ⟨later.names, Machine.empty, later.fetched⟩) :=
    parse_eq_ok.mpr ⟨stream, hscan, hparse, rfl⟩
  have hreset : ({ fresh with names := Names.empty, machine := fresh.machine.reset } : Session) =
      fresh := rfl
  unfold run
  rw [hreset, hparsed]
  exact execute_eq_ok.mpr ⟨hresult, rfl, rfl⟩

/-! ### Pieces and wholes -/

/-- Two texts that run to their ends on top of a fresh session run to their end as one. -/
theorem run_fresh_of_pieces {host : Host} {n₁ n₂ n : Nat} {s₁ s₂ o₁ o₂ : String}
    {later₁ later₂ : Session} (h₁ : runOnTop host n₁ s₁ fresh = (.ok o₁, later₁))
    (h₂ : runOnTop host n₂ s₂ later₁ = (.ok o₂, later₂))
    (hincludes : later₂.fetched.length ≤ Stream.includeBudget) (hn₁ : n₁ ≤ n) (hn₂ : n₂ ≤ n) :
    ∃ machine, run host n (s₁ ++ "\n" ++ s₂) fresh =
        (.ok (o₁ ++ o₂), { later₂ with machine }) ∧
      machine.globals = later₂.machine.globals ∧ machine.blocks = later₂.machine.blocks ∧
      later₁.machine.blocks <+: later₂.machine.blocks := by
  obtain ⟨stream₁, a, hscan₁, hparse₁, hresult₁⟩ := runOnTop_eq_ok h₁
  obtain ⟨stream₂, b, hscan₂, hparse₂, hresult₂⟩ := runOnTop_eq_ok h₂
  have ha := Grammar.scoped_of_parse (congrArg Scan.outcome hscan₁) hparse₁
  have hb := Grammar.scoped_of_parse (congrArg Scan.outcome hscan₂) hparse₂
  -- tokens, then statements, then the run: each in a row
  obtain ⟨stream, hscan, htokens⟩ := Stream.ofText_seam hscan₁ hscan₂
    (Nat.le_trans hincludes (Nat.le_add_left _ _))
  obtain ⟨ss, hparse, halike⟩ := Grammar.parse_append hparse₁ hparse₂ htokens
  have hsound : fresh.Sound [] := sound_of_empty rfl rfl rfl
  have hequipped : Equipped fresh.names 0 fresh.machine.procedures := hsound.equipped
  obtain ⟨joined, hjoined, hglobals, hblocks, hprefix⟩ := Machine.interpret_append ha hb
    List.nil_prefix .nil hequipped rfl hresult₁ hresult₂ hn₁ hn₂
  obtain ⟨machine, hmachine, hsame⟩ := Machine.interpret_alike halike hjoined
  have hglobals' : machine.unlined.globals = joined.unlined.globals := by rw [hsame]
  have hblocks' : machine.unlined.blocks = joined.unlined.blocks := by rw [hsame]
  refine ⟨machine, ?_, hglobals'.trans hglobals, hblocks'.trans hblocks, hprefix⟩
  exact run_fresh_of_ok hscan hparse hmachine

end Session

/-- A text to be run on top of everything before. -/
def Request.piece (fuel : Nat) (source : String) : Request :=
  ⟨fuel, .onTop, source⟩

/-- A text to be run whole. -/
def Request.whole (fuel : Nat) (source : String) : Request :=
  ⟨fuel, .whole, source⟩

namespace Session

/-- Feeding a program piece by piece is running it whole. Let `s₁` and then `s₂` be run on top of a
fresh session, and let both run to their ends, with output `o₁` and `o₂`. If together they include
no more texts than a single reading may, then the whole, `s₁` and `s₂` joined by a line end, runs to
its end on a fresh session, with any fuel that is enough for both pieces. It prints `o₁` followed by
`o₂`, hands over the same blocks in the same order, and leaves the same tables and the same globals.
It also asks for the same texts. -/
theorem piecewise_eq_whole (host : Host) (n₁ n₂ n : Nat) (s₁ s₂ o₁ o₂ : String)
    (h₁ : (reply host fresh (.piece n₁ s₁)).outcome = .ok o₁)
    (h₂ : (reply host (replay host fresh [.piece n₁ s₁]) (.piece n₂ s₂)).outcome = .ok o₂)
    (hincludes : (replay host fresh [.piece n₁ s₁, .piece n₂ s₂]).fetched.length ≤
      Stream.includeBudget)
    (hn₁ : n₁ ≤ n) (hn₂ : n₂ ≤ n) :
    (reply host fresh (.whole n (s₁ ++ "\n" ++ s₂))).outcome = .ok (o₁ ++ o₂) ∧
      (reply host fresh (.whole n (s₁ ++ "\n" ++ s₂))).blocks =
        (reply host fresh (.piece n₁ s₁)).blocks ++
          (reply host (replay host fresh [.piece n₁ s₁]) (.piece n₂ s₂)).blocks ∧
      (replay host fresh [.whole n (s₁ ++ "\n" ++ s₂)]).names =
        (replay host fresh [.piece n₁ s₁, .piece n₂ s₂]).names ∧
      (replay host fresh [.whole n (s₁ ++ "\n" ++ s₂)]).machine.globals =
        (replay host fresh [.piece n₁ s₁, .piece n₂ s₂]).machine.globals ∧
      (replay host fresh [.whole n (s₁ ++ "\n" ++ s₂)]).fetched =
        (replay host fresh [.piece n₁ s₁, .piece n₂ s₂]).fetched := by
  have hrun₁ : runOnTop host n₁ s₁ fresh = (.ok o₁, replay host fresh [.piece n₁ s₁]) :=
    Prod.ext h₁ rfl
  have hrun₂ : runOnTop host n₂ s₂ (replay host fresh [.piece n₁ s₁]) =
      (.ok o₂, replay host fresh [.piece n₁ s₁, .piece n₂ s₂]) := Prod.ext h₂ rfl
  obtain ⟨machine, hrun, hglobals, hblocks, hprefix⟩ :=
    run_fresh_of_pieces hrun₁ hrun₂ hincludes hn₁ hn₂
  have hwhole : step host n .whole (s₁ ++ "\n" ++ s₂) fresh =
      (⟨.ok (o₁ ++ o₂), machine.blocks⟩,
        { replay host fresh [.piece n₁ s₁, .piece n₂ s₂] with machine }) := by
    simp only [step, hrun]
    rfl
  have hreply : reply host fresh (.whole n (s₁ ++ "\n" ++ s₂)) =
      ⟨.ok (o₁ ++ o₂), machine.blocks⟩ := congrArg Prod.fst hwhole
  have hreplay : replay host fresh [.whole n (s₁ ++ "\n" ++ s₂)] =
      { replay host fresh [.piece n₁ s₁, .piece n₂ s₂] with machine } := congrArg Prod.snd hwhole
  rw [hreply, hreplay]
  refine ⟨rfl, ?_, rfl, hglobals, rfl⟩
  -- the blocks of the second piece are those behind the ones of the first
  exact hblocks.trans (List.prefix_iff_eq_append.mp hprefix).symm

/-- A host that knows one text and takes every block. -/
def counterHost : Host :=
  ⟨some fun _ path => if path = "n" then .ok "I64 n = 2;" else .error "no such text",
    some fun _ _ => .ok ()⟩

/-- A piece that includes a text, hands over a block from a procedure and ends in a comment. -/
def counterPiece : String :=
  "#include \"n\"\nU0 f() \x7b js \x7bgo\x7d; \"%d\", n++; \x7d f; // twice"

/-- The piece may be followed by one that calls its procedure again. -/
theorem piecewise_eq_whole_counter :
    (reply counterHost fresh (.piece 9 counterPiece)).outcome = .ok "2" ∧
      (reply counterHost (replay counterHost fresh [.piece 9 counterPiece])
        (.piece 9 "if (n == 3) f;")).outcome = .ok "3" ∧
      (reply counterHost fresh (.whole 9 (counterPiece ++ "\n" ++ "if (n == 3) f;"))).outcome =
        .ok ("2" ++ "3") := by
  have h₁ : (reply counterHost fresh (.piece 9 counterPiece)).outcome = .ok "2" :=
    eq_ok_of_toOption (by decide +kernel)
  have h₂ : (reply counterHost (replay counterHost fresh [.piece 9 counterPiece])
      (.piece 9 "if (n == 3) f;")).outcome = .ok "3" :=
    eq_ok_of_toOption (by decide +kernel)
  have hwhole := piecewise_eq_whole counterHost 9 9 9 _ _ _ _ h₁ h₂ (by decide +kernel)
    (Nat.le_refl 9) (Nat.le_refl 9)
  exact ⟨h₁, h₂, hwhole.1⟩

end Session

end Litany
