import Litany.Proofs.Grammar.Blame
import Litany.Proofs.Grammar.Locality.Productions
import Litany.Proofs.Token.Placement
import Litany.Proofs.Token.Spelling

/-!
# Faults point at tokens

Where a fault of parsing stands in its text is known from the parsers alone
(`SyntaxError.Located`). If the tokens have been read from characters, more can be said: every token
is written with some characters, so an empty text means the end, and a dot is written as a dot, so
the text of a place is what its tokens spell.
-/

namespace Litany

/-! ### Written tokens -/

namespace Cut

variable {k : Kind} {cs behind : List Char}

theorem Spells.ne_nil (h : Spells k cs behind) : cs ≠ [] := by
  cases h <;> simp

private theorem ofWord_ne_mark (word : String) (m : Mark) : Kind.ofWord word ≠ .mark m := by
  unfold Kind.ofWord
  split
  · simp
  · split <;> simp

/-- A dot makes no pair with another character. -/
private theorem ofPair?_ne_dot (c d : Char) : Mark.ofPair? c d ≠ some .dot := by
  unfold Mark.ofPair?
  split <;> simp

private theorem eq_of_ofChar?_dot {c : Char} (h : Mark.ofChar? c = some .dot) : c = '.' := by
  unfold Mark.ofChar? at h
  split at h <;> first | rfl | cases h

private theorem Spells.eq_dot (h : Spells (.mark .dot) cs behind) : cs = ['.'] := by
  generalize hkind : Kind.mark .dot = k at h
  cases h with
  | word => exact absurd hkind.symm (ofWord_ne_mark _ _)
  | pair hpair =>
    obtain rfl := Kind.mark.inj hkind
    exact absurd hpair (ofPair?_ne_dot _ _)
  | single hchar =>
    obtain rfl := Kind.mark.inj hkind
    rw [eq_of_ofChar?_dot hchar]
  | _ => cases hkind

end Cut

namespace Stream

/-- Every token of a text is written as its kind says. -/
theorem spells_ofText {fetch : Option Fetcher} {fetched : List String} {text : String}
    {stream : Stream} (h : (ofText fetch fetched text).outcome = .ok stream) :
    ∀ t ∈ stream.tokens, ∃ behind, Cut.Spells t.kind t.lexeme.toList behind := by
  refine forall_mem_ofChars (fun cs t ht => ?_) h
  obtain ⟨front', text', hpasses⟩ := (placed_segment [] cs).exists_passes
  exact hpasses.spells_of_mem t ht

end Stream

namespace Grammar

/-! ### The text of a place -/

/-- The text of a place is what its tokens spell, if its dots are written as dots. -/
theorem PlaceTree.name_eq_join {tree : PlaceTree}
    (hdots : ∀ field ∈ tree.fields, field.1.lexeme = ".") :
    tree.name = String.join (tree.yield.map (·.lexeme)) := by
  obtain ⟨root, fields⟩ := tree
  induction fields generalizing root with
  | nil =>
    simp only [name, path, yield, yieldBehind, List.map_nil, List.map_cons,
      String.intercalate_singleton, String.join_cons, String.join_nil, String.append_empty]
  | cons field fields ih =>
    obtain ⟨dot, next⟩ := field
    obtain ⟨hdot, hrest⟩ := List.forall_mem_cons.mp hdots
    have hnext := ih next hrest
    simp only [name, path, yield, List.map_cons, String.join_cons] at hnext
    simp only [name, path, yield, yieldBehind, List.map_cons, String.intercalate_cons_cons,
      String.join_cons, List.cons_append, List.nil_append, String.append_assoc]
    rw [hnext, ← hdot]

/-- A place begins with the text of its root. -/
private theorem PlaceTree.name_ne_empty {tree : PlaceTree} (hroot : tree.root.lexeme ≠ "") :
    tree.name ≠ "" := by
  intro hempty
  obtain ⟨root, fields⟩ := tree
  cases fields with
  | nil => exact hroot hempty
  | cons field fields =>
    simp only [name, path, List.map_cons, String.intercalate_cons_cons,
      String.append_eq_empty_iff] at hempty
    exact hroot hempty.1.1

/-- Parsing that fails finds a fault in the text. -/
theorem exists_located_of_parse {names later : Names} {stream : Stream} {failure : ParseFailure}
    (h : parse names stream = (.error failure, later)) :
    ∃ e, failure = .error e ∧ e.Located stream := by
  obtain ⟨e, rfl⟩ := parse_error h
  unfold parse at h
  split at h
  · cases h
  · rename_i s hresult
    cases h
    have hstart : Cursor.On stream ⟨stream.tokens, stream.endLine, names⟩ :=
      ⟨List.suffix_rfl, rfl⟩
    exact ⟨e, rfl, ((alike_program.here hstart).ends.of_error hresult).2 e rfl⟩

/-- Faults of parsing point at tokens.

Parsing that fails blames the text. There is a site, a token of the text or its end, whose line is
that of the fault. The text of the fault is that of the site, or, for a field that is not there and
a write to a constant only, what the tokens of a place spell that begins with the site. The cause is
the end of the text exactly at the end, which is exactly where the text of the fault is empty. A
fault of a name that is not declared or declared already, and of a call with too many arguments or
too few, carries the text of a name. -/
theorem fault_points_at_token {fetch : Option Fetcher} {fetched : List String} {text : String}
    {stream : Stream} (hstream : (Stream.ofText fetch fetched text).outcome = .ok stream)
    {names later : Names} {failure : ParseFailure}
    (h : parse names stream = (.error failure, later)) :
    ∃ (e : SyntaxError) (site : Option Token), failure = .error e ∧
      (∀ t ∈ site, t ∈ stream.tokens) ∧
      e.line = site.elim stream.endLine (·.line) ∧
      (e.text = site.elim "" (·.lexeme) ∨
        (e.cause = .unknownField ∨ e.cause = .assignToConstant) ∧
          ∃ tree : PlaceTree, tree.yield <:+: stream.tokens ∧ site = some tree.root.token ∧
            e.text = ".".intercalate (tree.root.lexeme :: tree.path) ∧
            e.text = String.join (tree.yield.map (·.lexeme))) ∧
      (e.cause = .unexpectedEnd ↔ site = none) ∧ (site = none ↔ e.text = "") ∧
      (e.cause.blamesName = true →
        ∃ t, site = some t ∧ e.text = t.lexeme ∧ t.kind = .ident t.lexeme) := by
  have hwritten : ∀ t ∈ stream.tokens, t.lexeme ≠ "" := by
    intro t ht hempty
    obtain ⟨behind, hspells⟩ := Stream.spells_ofText hstream t ht
    exact hspells.ne_nil (by rw [hempty]; rfl)
  obtain ⟨e, rfl, hlocated⟩ := exists_located_of_parse h
  cases hlocated with
  | ending =>
    exact ⟨_, none, rfl, by simp, rfl, .inl rfl, by simp, by simp, fun hname => by cases hname⟩
  | @token t cause ht hend hname =>
    refine ⟨_, some t, rfl, by simpa using ht, rfl, .inl rfl, by simpa using hend,
      by simpa using hwritten t ht, fun hcause => ⟨t, rfl, rfl, ?_⟩⟩
    obtain ⟨name, hident⟩ := Option.isSome_iff_exists.mp (hname hcause)
    have hkind : t.kind = .ident name := Leaf.kind_ident ⟨t, name, hident⟩
    rw [(Stream.spelled_ofText hstream t ht name hkind).1, hkind]
  | @place tree cause htree hcause =>
    have hdots : ∀ field ∈ tree.fields, field.1.lexeme = "." := by
      intro field hfield
      have hmem : field.1.token ∈ tree.yield :=
        List.mem_cons_of_mem _ (mem_yieldBehind.mpr ⟨_, hfield, .inl rfl⟩)
      obtain ⟨behind, hspells⟩ := Stream.spells_ofText hstream _ (htree.subset hmem)
      rw [Leaf.kind_mark] at hspells
      exact String.toList_inj.mp hspells.eq_dot
    have hroot : tree.root.token ∈ stream.tokens := htree.subset List.mem_cons_self
    have hname : tree.name ≠ "" := PlaceTree.name_ne_empty (hwritten _ hroot)
    have hcauses : cause ≠ .unexpectedEnd ∧ cause.blamesName = false := by
      rcases hcause with rfl | rfl <;> exact ⟨by decide, rfl⟩
    refine ⟨_, some tree.root.token, rfl, by simpa using hroot, rfl,
      .inr ⟨hcause, tree, htree, rfl, rfl, PlaceTree.name_eq_join hdots⟩,
      by simpa using hcauses.1, by simpa using hname, fun hblamed => ?_⟩
    rw [hcauses.2] at hblamed
    cases hblamed

/-- A write to a field, with a comment inside its path. -/
def spacedText : String := "\nc . // x\n y = 1;"

/-- The tokens of `spacedText`. -/
def spacedStream : Stream :=
  ⟨[⟨.ident "c", "c", 2⟩, ⟨.mark .dot, ".", 2⟩, ⟨.ident "y", "y", 3⟩, ⟨.mark .equal, "=", 3⟩,
    ⟨.int 1, "1", 3⟩, ⟨.mark .semicolon, ";", 3⟩], 3⟩

/-- Tables with an object `c` of a class with the field `x` only. -/
def spacedNames : Names :=
  ⟨[⟨"c", .object 0, false⟩], [], [⟨"C", [⟨"x", .scalar .i64⟩]⟩]⟩

/-- The fault carries the path without the comment in it, and the line of the object. -/
theorem fault_points_at_token_spaced :
    (Stream.ofText none [] spacedText).outcome = .ok spacedStream ∧
      parse spacedNames spacedStream =
        (.error (.error ⟨.unknownField, "c.y", 2⟩), spacedNames) ∧
      ∃ tree : PlaceTree, tree.yield <:+: spacedStream.tokens ∧ tree.root.token.line = 2 ∧
        String.join (tree.yield.map (·.lexeme)) = "c.y" := by
  have hscanned : (Stream.ofText none [] spacedText).outcome = .ok spacedStream := by
    decide +kernel
  have hparsed : parse spacedNames spacedStream =
      (.error (.error ⟨.unknownField, "c.y", 2⟩), spacedNames) := rfl
  have hnoToken : ∀ t ∈ spacedStream.tokens, t.lexeme ≠ "c.y" := by decide
  refine ⟨hscanned, hparsed, ?_⟩
  obtain ⟨e, site, he, hsite, hline, htext, -⟩ := fault_points_at_token hscanned hparsed
  obtain rfl := ParseFailure.error.inj he
  rcases htext with htext | ⟨-, tree, htree, rfl, -, hspelled⟩
  · cases site with
    | none => exact absurd htext (by decide)
    | some t => exact absurd htext.symm (hnoToken t (hsite t rfl))
  · exact ⟨tree, htree, hline.symm, hspelled.symm⟩

end Grammar

end Litany
