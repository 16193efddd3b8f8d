import Litany.Proofs.Grammar.Runs

/-!
# Parsing moves on along its text

A step of parsing that starts somewhere in a text ends there or further on, and if it fails, its
fault stands in the text: it is the end of the text, a token, or a place that is written there.
What is nested in a construct begins behind the construct's first token, so the parser of nested
constructs matters for fewer tokens than are left.

These facts need one another. A step is only known to go on from a good place if the steps in front
of it move on, and it only sees fewer tokens because of that. So they are proved together:
`Alike text tokens x y` says that from every cursor of the text with no more than the given tokens
left, `x` and `y` have the same outcome, and that `x` moves on and blames the text. There is one
rule for each way to build a parser. The rule for nesting, `alike_of_depth`, says that a depth that
covers the tokens left is as good as any other.
-/

namespace Litany

/-! ### Faults in a text -/

/-- The causes that blame a name. -/
def SyntaxCause.blamesName : SyntaxCause → Bool
  | undeclared | redeclared | arity _ _ | missingArgument _ => true
  | _ => false

/-- The text of a place. -/
def Grammar.PlaceTree.name (tree : PlaceTree) : String :=
  ".".intercalate (tree.root.lexeme :: tree.path)

/-- A fault that stands in a text: at its end, at a token, or at a place that is written in it. -/
inductive SyntaxError.Located (text : Stream) : SyntaxError → Prop where
  | ending : Located text ⟨.unexpectedEnd, "", text.endLine⟩
  | token {t : Token} {cause : SyntaxCause} (ht : t ∈ text.tokens)
      (hend : cause ≠ .unexpectedEnd)
      (hname : cause.blamesName = true → (Kind.ident? t.kind).isSome = true) :
      Located text ⟨cause, t.lexeme, t.line⟩
  | place {tree : Grammar.PlaceTree} {cause : SyntaxCause} (htree : tree.yield <:+: text.tokens)
      (hcause : cause = .unknownField ∨ cause = .assignToConstant) :
      Located text ⟨cause, tree.name, tree.root.token.line⟩

/-- A failure that blames a text if it blames any. -/
def ParseFailure.Located (text : Stream) (f : ParseFailure) : Prop :=
  ∀ e, f = .error e → e.Located text

/-! ### Cursors of a text -/

namespace Cursor

variable {text : Stream} {s s₁ s₂ : Cursor}

/-- The cursor stands somewhere in a text. -/
structure On (text : Stream) (s : Cursor) : Prop where
  rest : s.rest <:+ text.tokens
  endLine : s.endLine = text.endLine

/-- The second cursor stands where the first one does, or further on. -/
def Onward (s s' : Cursor) : Prop :=
  ∃ tokens, s.Past tokens s'

/-- A cursor stands where it stands. -/
theorem Onward.refl (s : Cursor) : s.Onward s :=
  ⟨[], .refl s⟩

/-- What is further on than something further on is further on. -/
theorem Onward.trans (h : s.Onward s₁) (h' : s₁.Onward s₂) : s.Onward s₂ := by
  obtain ⟨ts, h⟩ := h
  obtain ⟨us, h'⟩ := h'
  exact ⟨ts ++ us, h.trans h'⟩

/-- Further on, less is left. -/
theorem Onward.suffix (h : s.Onward s₁) : s₁.rest <:+ s.rest := by
  obtain ⟨ts, h⟩ := h
  exact ⟨ts, h.1.symm⟩

/-- A cursor that moves on stays in its text. -/
theorem On.onward (hs : s.On text) (h : s.Onward s₁) : s₁.On text := by
  refine ⟨h.suffix.trans hs.rest, ?_⟩
  obtain ⟨ts, h⟩ := h
  exact h.2.trans hs.endLine

/-- What is taken stands in the text, in one piece. -/
theorem On.taken (hs : s.On text) {tokens : List Token} (h : s.Past tokens s₁) :
    tokens <:+: text.tokens := by
  have hprefix : tokens <+: s.rest := ⟨s₁.rest, h.1.symm⟩
  exact hprefix.isInfix.trans hs.rest.isInfix

/-- Every cursor stands in the text that it has left. -/
theorem On.self (s : Cursor) : s.On ⟨s.rest, s.endLine⟩ :=
  ⟨List.suffix_rfl, rfl⟩

end Cursor

namespace Parse

open Grammar

/-! ### Steps that are alike -/

/-- At a cursor, two steps have the same outcome. They move on, and if they fail, they blame the
text. -/
structure AlikeAt {α : Type} (text : Stream) (x y : Parse α) (s : Cursor) : Prop where
  same : x s = y s
  ends : Ends x s (fun _ s' => s.Onward s') fun f s' => s.Onward s' ∧ f.Located text

/-- Two steps are alike at every cursor of a text with no more than the given tokens left. -/
def Alike {α : Type} (text : Stream) (tokens : List Token) (x y : Parse α) : Prop :=
  ∀ s : Cursor, s.On text → s.rest <:+ tokens → AlikeAt text x y s

section Rules

variable {α β σ : Type} {text : Stream} {tokens rest : List Token} {x y : Parse α}
  {f g : α → Parse β} {s : Cursor} {t : Token}

/-- Steps that both give an answer are alike if it is the same. -/
theorem AlikeAt.of_ok {a : α} {s' : Cursor} (hx : x s = .ok a s') (hy : y s = .ok a s')
    (h : s.Onward s') : AlikeAt text x y s := by
  refine ⟨hx.trans hy.symm, ?_⟩
  unfold Ends
  rw [hx]
  exact h

/-- Steps that fail on the spot are alike if they blame the text for the same reason. -/
theorem AlikeAt.of_error {failure : ParseFailure} (hx : x s = .error failure s)
    (hy : y s = .error failure s) (h : failure.Located text) : AlikeAt text x y s := by
  refine ⟨hx.trans hy.symm, ?_⟩
  unfold Ends
  rw [hx]
  exact ⟨.refl s, h⟩

/-- Whether steps are alike depends on what they do at the cursor, not on how they are written. -/
theorem AlikeAt.congr {x' y' : Parse α} (h : AlikeAt text x y s) (hx : x' s = x s)
    (hy : y' s = y s) : AlikeAt text x' y' s := by
  refine ⟨hx.trans (h.same.trans hy.symm), ?_⟩
  have hends := h.ends
  unfold Ends at hends ⊢
  rw [hx]
  exact hends

/-- Steps behind others that are alike are compared only where these get to. -/
theorem AlikeAt.bind (h : AlikeAt text x y s)
    (hf : ∀ a s', x s = .ok a s' → s.Onward s' → AlikeAt text (f a) (g a) s') :
    AlikeAt text (x >>= f) (y >>= g) s := by
  cases hresult : x s with
  | error e s' =>
    refine ⟨by rw [bind_apply, bind_apply, ← h.same, hresult], ?_⟩
    unfold Ends
    rw [bind_apply, hresult]
    exact h.ends.of_error hresult
  | ok a s' =>
    have hmoves := h.ends.of_ok hresult
    have hlater := hf a s' hresult hmoves
    refine ⟨?_, ?_⟩
    · rw [bind_of_ok hresult, bind_of_ok (h.same ▸ hresult), hlater.same]
    · unfold Ends
      rw [bind_of_ok hresult]
      exact hlater.ends.mono (fun _ _ => hmoves.trans) fun _ _ hfailed =>
        ⟨hmoves.trans hfailed.1, hfailed.2⟩

/-- Steps behind others that are alike, wherever these get to. -/
theorem Alike.bind (h : Alike text tokens x y)
    (hf : ∀ a, Alike text tokens (f a) (g a)) : Alike text tokens (x >>= f) (y >>= g) :=
  fun s hs hrest => (h s hs hrest).bind fun a s' _ hmoves =>
    hf a s' (hs.onward hmoves) (hmoves.suffix.trans hrest)

/-- Steps that are alike for some tokens are alike for fewer. -/
theorem Alike.mono (h : Alike text tokens x y) (hrest : rest <:+ tokens) : Alike text rest x y :=
  fun s hs hs' => h s hs (hs'.trans hrest)

/-- At a cursor of the text, no more tokens are left than those that are. -/
theorem Alike.here (h : Alike text s.rest x y) (hs : s.On text) : AlikeAt text x y s :=
  h s hs List.suffix_rfl

/-- A cursor is a text of its own. -/
theorem Alike.eq (h : Alike ⟨s.rest, s.endLine⟩ s.rest x y) : x s = y s :=
  (h.here (.self s)).same

/-- Steps that are alike are alike behind a token. -/
theorem Alike.tail (h : Alike text tokens x y) (hrest : t :: rest <:+ tokens) :
    Alike text rest x y :=
  h.mono ((List.suffix_cons t rest).trans hrest)

theorem alike_pure (a : α) : Alike text tokens (pure a) (pure a : Parse α) :=
  fun s _ _ => .of_ok rfl rfl (.refl s)

/-- A failure that stands in the text may be thrown. -/
theorem alike_throw {failure : ParseFailure} (h : failure.Located text) :
    Alike text tokens (throw failure) (throw failure : Parse α) :=
  fun _ _ _ => .of_error rfl rfl h

/-! ### Single tokens -/

/-- A token of the text may be blamed. -/
private theorem located_blame {cause : SyntaxCause} (ht : t ∈ text.tokens)
    (hend : cause ≠ .unexpectedEnd)
    (hname : cause.blamesName = true → (Kind.ident? t.kind).isSome = true) :
    (t.blame cause).Located text := by
  intro e he
  obtain rfl := ParseFailure.error.inj he
  exact .token ht hend hname

/-- A token that is no name may not be blamed as one. -/
theorem located_blame_token {cause : SyntaxCause} (ht : t ∈ text.tokens)
    (hend : cause ≠ .unexpectedEnd) (hname : cause.blamesName = false) :
    (t.blame cause).Located text :=
  located_blame ht hend fun h => absurd (hname.symm.trans h) Bool.false_ne_true

/-- A name of the text may be blamed for anything but the end of the text. -/
theorem located_blame_name {cause : SyntaxCause} (ht : t ∈ text.tokens)
    (hident : (Kind.ident? t.kind).isSome = true) (hend : cause ≠ .unexpectedEnd) :
    (t.blame cause).Located text :=
  located_blame ht hend fun _ => hident

/-- Tables in disagreement with themselves are nothing to blame a text for. -/
theorem located_table (fault : TableFault) : (ParseFailure.table fault).Located text :=
  fun _ he => by cases he

theorem alike_get : Alike text tokens (get : Parse Cursor) get :=
  fun s _ _ => .of_ok rfl rfl (.refl s)

theorem alike_peek : Alike text tokens peek peek :=
  fun s _ _ => .of_ok rfl rfl (.refl s)

theorem alike_names : Alike text tokens names names :=
  fun s _ _ => .of_ok rfl rfl (.refl s)

/-- A text is refused at the next token, or at its end. -/
theorem alike_refuse {cause : SyntaxCause} (hend : cause ≠ .unexpectedEnd)
    (hname : cause.blamesName = false) :
    Alike text tokens (refuse cause : Parse α) (refuse cause) := by
  rintro ⟨rest, endLine, names⟩ hs -
  cases rest with
  | nil =>
    refine .of_error rfl rfl fun e he => ?_
    obtain rfl := ParseFailure.error.inj he
    have hline : endLine = text.endLine := hs.endLine
    rw [hline]
    exact .ending
  | cons t rest =>
    have ht : t ∈ text.tokens := hs.rest.subset List.mem_cons_self
    exact .of_error rfl rfl (located_blame_token ht hend hname)

theorem alike_unexpected : Alike text tokens (unexpected : Parse α) unexpected :=
  alike_refuse (by decide) rfl

/-- Advancing takes a token of the text off. -/
theorem alike_advance : Alike text tokens advance advance := by
  rintro ⟨rest, endLine, names⟩ hs hrest
  cases rest with
  | nil => exact (alike_unexpected _ hs hrest).congr rfl rfl
  | cons t rest => exact .of_ok rfl rfl ⟨[t], rfl, rfl⟩

/-- Steps that are alike behind the next token are alike wherever that token has been taken. -/
theorem alikeAt_of_past {s' : Cursor} {taken : List Token} (hs : s.On text)
    (hrest : s.rest <:+ tokens) (hpast : s.Past (t :: taken) s')
    (h : ∀ rest, t :: rest <:+ tokens → t ∈ text.tokens → Alike text rest x y) :
    AlikeAt text x y s' := by
  have hfront : t :: (taken ++ s'.rest) <:+ tokens := by
    rw [hpast.1] at hrest
    exact hrest
  exact h _ hfront ((hs.taken hpast).subset List.mem_cons_self) s' (hs.onward ⟨_, hpast⟩)
    (List.suffix_append taken s'.rest)

/-- What follows the next token begins behind it. -/
theorem alike_advance_bind {f g : Token → Parse β}
    (h : ∀ t rest, t :: rest <:+ tokens → t ∈ text.tokens → Alike text rest (f t) (g t)) :
    Alike text tokens (advance >>= f) (advance >>= g) :=
  fun s hs hrest => (alike_advance s hs hrest).bind fun t _ hadvance _ =>
    alikeAt_of_past hs hrest (advance_eq_ok hadvance).1 (h t)

/-- A token of some kind is taken off if it is in front. -/
theorem alike_take? (f : Kind → Option α) : Alike text tokens (take? f) (take? f) := by
  rintro s - -
  cases hresult : take? f s with
  | error failure s' =>
    unfold take? at hresult
    split at hresult
    · cases hresult
    · split at hresult <;> cases hresult
  | ok found s' =>
    refine .of_ok hresult hresult ?_
    cases found with
    | none =>
      obtain rfl := take?_eq_none hresult
      exact .refl s
    | some found =>
      obtain ⟨leaf, -, hpast, -⟩ := take?_eq_some hresult
      exact ⟨_, hpast⟩

/-- A token of some kind is taken off or blamed. -/
theorem alike_take (f : Kind → Option α) : Alike text tokens (take f) (take f) := by
  refine (alike_take? f).bind fun found => ?_
  cases found with
  | none => exact alike_unexpected
  | some found => exact alike_pure found

theorem alike_expect (m : Mark) : Alike text tokens (expect m) (expect m) :=
  (alike_take _).bind fun _ => alike_pure ()

theorem alike_accept (m : Mark) : Alike text tokens (accept m) (accept m) :=
  (alike_take? _).bind fun _ => alike_pure _

theorem alike_sees (m : Mark) : Alike text tokens (sees m) (sees m) :=
  alike_peek.bind fun _ => alike_pure _

theorem alike_ident : Alike text tokens ident ident :=
  (alike_take _).bind fun _ => alike_pure _

/-- What follows a name begins behind it. -/
theorem alike_ident_bind {f g : Token → Parse β}
    (h : ∀ t rest, t :: rest <:+ tokens → t ∈ text.tokens →
      (Kind.ident? t.kind).isSome = true → Alike text rest (f t) (g t)) :
    Alike text tokens (ident >>= f) (ident >>= g) := by
  intro s hs hrest
  refine AlikeAt.bind (alike_ident s hs hrest) fun t s' hident _ => ?_
  obtain ⟨name, rfl, hpast, -⟩ := ident_eq_ok hident
  refine alikeAt_of_past hs hrest hpast fun rest hfront ht => h name.token rest hfront ht ?_
  rw [name.fits]
  rfl

/-- An entry that is refused is blamed on the name it would have been made under. -/
theorem alike_enter (ht : t ∈ text.tokens) (hident : (Kind.ident? t.kind).isSome = true)
    (declare : Names → Option (α × Names)) :
    Alike text tokens (enter t declare) (enter t declare) := by
  intro s _ _
  cases hfound : declare s.names with
  | none =>
    have hfailed : enter t declare s = .error (t.blame .redeclared) s := by
      rw [enter, hfound]
    exact .of_error hfailed hfailed (located_blame_name ht hident (by decide))
  | some found =>
    obtain ⟨a, later⟩ := found
    have hentered : enter t declare s = .ok a { s with names := later } := by
      rw [enter, hfound]
    exact .of_ok hentered hentered ⟨[], rfl, rfl⟩

/-! ### Repetition -/

/-- Items are collected alike if they are read alike, whatever the bound on their number. -/
theorem Alike.upTo {x y : Parse (Option α)} (h : Alike text tokens x y) (n : Nat) :
    Alike text tokens (upTo x n) (upTo y n) := by
  induction n with
  | zero => exact alike_pure []
  | succ n ih =>
    refine h.bind fun found => ?_
    cases found with
    | none => exact alike_pure []
    | some a => exact ih.bind fun _ => alike_pure _

/-- Items are collected alike if they are read alike. -/
theorem Alike.many {x y : Parse (Option α)} (h : Alike text tokens x y) :
    Alike text tokens (many x) (many y) :=
  alike_get.bind fun _ => h.upTo _

/-- A loop is alike to itself if its step is, whatever the bound on its rounds. -/
theorem alike_iterate {step : σ → Parse (Option σ)}
    (h : ∀ a, Alike text tokens (step a) (step a)) (n : Nat) (a : σ) :
    Alike text tokens (iterate step n a) (iterate step n a) := by
  induction n generalizing a with
  | zero => exact alike_pure a
  | succ n ih =>
    refine (h a).bind fun found => ?_
    cases found with
    | none => exact alike_pure a
    | some b => exact ih b

/-- A loop is alike to itself if its step is. -/
theorem alike_fold {step : σ → Parse (Option σ)}
    (h : ∀ a, Alike text tokens (step a) (step a)) (a : σ) :
    Alike text tokens (fold step a) (fold step a) :=
  alike_get.bind fun _ => alike_iterate h _ a

/-- What stands behind a mark is read alike if the items are. -/
theorem Alike.behind (m : Mark) (h : Alike text tokens x y) :
    Alike text tokens (Parse.behind m x) (Parse.behind m y) := by
  refine (alike_accept m).bind fun accepted => ?_
  split
  · exact h.bind fun _ => alike_pure _
  · exact alike_pure none

/-- What is read unless a mark is next is read alike if the items are. -/
theorem Alike.unlessAt (m : Mark) (h : Alike text tokens x y) :
    Alike text tokens (unlessAt m x) (unlessAt m y) := by
  refine (alike_sees m).bind fun seen => ?_
  split
  · exact alike_pure none
  · exact h.bind fun _ => alike_pure _

/-- A step may be refused before it is made. -/
theorem alike_unless {p : Prop} [Decidable p] {failure : ParseFailure}
    (hfailure : failure.Located text) (h : Alike text tokens x y) :
    Alike text tokens (if p then (throw failure : Parse PUnit) >>= fun _ => x else x)
      (if p then (throw failure : Parse PUnit) >>= fun _ => y else y) := by
  split
  · exact (alike_throw hfailure).bind fun _ => h
  · exact h

/-! ### Nesting -/

/-- Two depths of nesting are alike if they differ only beyond the number of tokens, provided that
nothing is read at the end of a text and that one more depth is only for what stands behind the
first token. -/
theorem alike_of_depth {x : Nat → Parse α} (hzero : x 0 = unexpected)
    (hnil : ∀ n (s : Cursor), s.rest = [] → x n s = unexpected s)
    (hsucc : ∀ {tokens : List Token} {n m : Nat},
      min (n + 1) tokens.length = min (m + 1) tokens.length →
        (∀ t rest, t :: rest <:+ tokens → Alike text rest (x n) (x m)) →
        Alike text tokens (x (n + 1)) (x (m + 1)))
    {n m : Nat} (h : min n tokens.length = min m tokens.length) :
    Alike text tokens (x n) (x m) := by
  have hend : ∀ n m, Alike text [] (x n) (x m) := by
    intro n m s hs hrest
    have hs' : s.rest = [] := List.suffix_nil.mp hrest
    exact (alike_unexpected s hs hrest).congr (hnil n s hs') (hnil m s hs')
  -- where only one side has a depth, there are no tokens
  induction n generalizing tokens m with
  | zero =>
    cases m with
    | zero =>
      rw [hzero]
      exact alike_unexpected
    | succ m =>
      obtain rfl : tokens = [] := List.length_eq_zero_iff.mp (by omega)
      exact hend 0 (m + 1)
  | succ n ih =>
    cases m with
    | zero =>
      obtain rfl : tokens = [] := List.length_eq_zero_iff.mp (by omega)
      exact hend (n + 1) 0
    | succ m =>
      refine hsucc h fun t rest hrest => ?_
      have hlength := hrest.length_le
      rw [List.length_cons] at hlength
      exact ih (by omega)

end Rules

end Parse

end Litany
