import Litany.Proofs.Grammar.Derivation
import Litany.Proofs.Outcome

/-!
# Successful runs of the token parsers

A parser that succeeds takes some tokens from the front and leaves the rest: `Cursor.Past` says
which. For each of the small parsers that the productions are built from there are two facts, one
for either direction: what was in front when it succeeded, and that it succeeds when this is in
front. Everything later is assembled from them, without opening the parsers again.

`Repeats` and `Folds` do the same for the two kinds of repetition. Their items take at least one
token each, so the bound on the number of items is never what ends a run.
-/

namespace Litany

/-- The second cursor has read the given tokens since the first. -/
def Cursor.Past (s : Cursor) (tokens : List Token) (s' : Cursor) : Prop :=
  s.rest = tokens ++ s'.rest ∧ s'.endLine = s.endLine

namespace Cursor.Past

variable {s s₁ s₂ : Cursor} {ts us : List Token}

/-- Nothing has been read at first. -/
theorem refl (s : Cursor) : s.Past [] s :=
  ⟨rfl, rfl⟩

/-- What is read in two steps stands in a row. -/
theorem trans (h : s.Past ts s₁) (h' : s₁.Past us s₂) : s.Past (ts ++ us) s₂ :=
  ⟨by rw [h.1, h'.1, List.append_assoc], h'.2.trans h.2⟩

/-- A token is read, and then others behind it. -/
theorem cons {t : Token} (h : s.Past [t] s₁) (h' : s₁.Past us s₂) : s.Past (t :: us) s₂ :=
  h.trans h'

end Cursor.Past

namespace Parse

open Grammar

variable {α β σ : Type} {s s' : Cursor}

/-! ### The monad -/

/-- A step that throws has no answer. -/
theorem throw_ne_ok {e : ParseFailure} {a : α} : (throw e : Parse α) s ≠ .ok a s' := by
  intro h
  cases h

/-- A step that refuses has no answer. -/
theorem refuse_ne_ok {cause : SyntaxCause} {a : α} :
    (refuse cause : Parse α) s ≠ .ok a s' := by
  intro h
  rw [refuse] at h
  split at h <;> cases h

theorem unexpected_ne_ok {a : α} : (unexpected : Parse α) s ≠ .ok a s' :=
  refuse_ne_ok

/-- The cursor is looked at without moving it. -/
theorem get_bind (f : Cursor → Parse β) : (get >>= f) s = f s s :=
  rfl

/-- The tables are looked at without moving the cursor. -/
theorem names_bind (f : Names → Parse β) : (Parse.names >>= f) s = f s.names s :=
  rfl

/-- The next token is looked at without taking it. -/
theorem peek_bind (f : Option Token → Parse β) : (peek >>= f) s = f s.rest.head? s :=
  rfl

/-! ### Single tokens -/

section Tokens

variable {f : Kind → Option α} {rest : List Token} {l : Nat} {names : Names}

/-- No token in front is in the domain of `f`. -/
def Lacks (f : Kind → Option α) (tokens : List Token) : Prop :=
  ∀ t ∈ tokens.head?, f t.kind = none

/-- The first token decides what is lacking. -/
theorem Lacks.of_cons {t : Token} (h : f t.kind = none) : Lacks f (t :: rest) := by
  intro t' ht'
  obtain rfl : t = t' := by simpa using ht'
  exact h

/-- What begins with a leaf does not lack it. -/
theorem not_lacks_leaf (leaf : Leaf f) : ¬ Lacks f (leaf.token :: rest) := by
  intro h
  have hnone := h leaf.token rfl
  rw [leaf.fits] at hnone
  cases hnone

/-- A token that is not taken stays where it is. -/
theorem take?_eq_none (h : take? f s = .ok none s') : s = s' := by
  rw [take?] at h
  split at h
  · cases h
    rfl
  · split at h
    · cases h
      rfl
    · cases h

/-- A token that is not taken is not of the kind asked for. -/
theorem lacks_of_take?_eq_none (h : take? f s = .ok none s') : Lacks f s.rest := by
  intro t ht
  rw [take?] at h
  split at h
  · rename_i hrest
    simp [hrest] at ht
  · rename_i t' rest hrest
    obtain rfl : t' = t := by simpa [hrest] using ht
    split at h
    · assumption
    · cases h

/-- A token that is taken is a leaf of the kind asked for. -/
theorem take?_eq_some {r : α × Token} (h : take? f s = .ok (some r) s') :
    ∃ leaf : Leaf f, r = (leaf.value, leaf.token) ∧ s.Past [leaf.token] s' ∧
      s'.names = s.names := by
  rw [take?] at h
  split at h
  · cases h
  · rename_i t rest hrest
    split at h
    · cases h
    · rename_i a hfit
      cases h
      exact ⟨⟨t, a, hfit⟩, rfl, ⟨by simpa using hrest, rfl⟩, rfl⟩

/-- A leaf in front is taken. -/
theorem take?_leaf (leaf : Leaf f) :
    take? f ⟨leaf.token :: rest, l, names⟩ =
      .ok (some (leaf.value, leaf.token)) ⟨rest, l, names⟩ := by
  simp only [take?, leaf.fits]

/-- Nothing is taken where the kind asked for is lacking. -/
theorem take?_lacks (h : Lacks f rest) : take? f ⟨rest, l, names⟩ = .ok none ⟨rest, l, names⟩ := by
  cases rest with
  | nil => rfl
  | cons t rest =>
    have hfit : f t.kind = none := h t rfl
    simp only [take?, hfit]

/-- A token that was required is a leaf of the kind asked for. -/
theorem take_eq_ok {r : α × Token} (h : take f s = .ok r s') :
    ∃ leaf : Leaf f, r = (leaf.value, leaf.token) ∧ s.Past [leaf.token] s' ∧
      s'.names = s.names := by
  obtain ⟨found, s₁, htake, h⟩ := bind_eq_ok.mp h
  cases found with
  | none => exact absurd h unexpected_ne_ok
  | some found =>
    obtain ⟨rfl, rfl⟩ := pure_eq_ok.mp h
    exact take?_eq_some htake

/-- A leaf that is required and in front is taken. -/
theorem take_leaf (leaf : Leaf f) :
    take f ⟨leaf.token :: rest, l, names⟩ = .ok (leaf.value, leaf.token) ⟨rest, l, names⟩ := by
  rw [take, bind_of_ok (take?_leaf leaf)]
  rfl

/-- A mark that was expected has been read. -/
theorem expect_eq_ok {m : Mark} {u : Unit} (h : expect m s = .ok u s') :
    ∃ mark : Punct m, s.Past [mark.token] s' ∧ s'.names = s.names := by
  obtain ⟨r, s₁, htake, h⟩ := bind_eq_ok.mp h
  obtain ⟨-, rfl⟩ := pure_eq_ok.mp h
  obtain ⟨mark, -, hpast, hnames⟩ := take_eq_ok htake
  exact ⟨mark, hpast, hnames⟩

/-- A mark that is expected and in front is read. -/
theorem expect_punct {m : Mark} (mark : Punct m) :
    expect m ⟨mark.token :: rest, l, names⟩ = .ok () ⟨rest, l, names⟩ := by
  rw [expect, bind_of_ok (take_leaf mark)]
  rfl

/-- A name that was asked for has been read. -/
theorem ident_eq_ok {t : Token} (h : ident s = .ok t s') :
    ∃ name : Name, t = name.token ∧ s.Past [name.token] s' ∧ s'.names = s.names := by
  obtain ⟨r, s₁, htake, h⟩ := bind_eq_ok.mp h
  obtain ⟨rfl, rfl⟩ := pure_eq_ok.mp h
  obtain ⟨name, rfl, hpast, hnames⟩ := take_eq_ok htake
  exact ⟨name, rfl, hpast, hnames⟩

/-- A name that is asked for and in front is read. -/
theorem ident_name (name : Name) :
    ident ⟨name.token :: rest, l, names⟩ = .ok name.token ⟨rest, l, names⟩ := by
  rw [ident, bind_of_ok (take_leaf name)]
  rfl

/-- A mark that was accepted has been read. -/
theorem accept_eq_true {m : Mark} (h : accept m s = .ok true s') :
    ∃ mark : Punct m, s.Past [mark.token] s' ∧ s'.names = s.names := by
  obtain ⟨r, s₁, htake, h⟩ := bind_eq_ok.mp h
  obtain ⟨hr, rfl⟩ := pure_eq_ok.mp h
  obtain ⟨r, rfl⟩ := Option.isSome_iff_exists.mp hr.symm
  obtain ⟨mark, -, hpast, hnames⟩ := take?_eq_some htake
  exact ⟨mark, hpast, hnames⟩

/-- A mark that was not accepted has not been read, and neither has anything else. -/
theorem accept_eq_false {m : Mark} (h : accept m s = .ok false s') : s = s' := by
  obtain ⟨r, s₁, htake, h⟩ := bind_eq_ok.mp h
  obtain ⟨hr, rfl⟩ := pure_eq_ok.mp h
  obtain rfl : r = none := by simpa using hr.symm
  exact take?_eq_none htake

/-- A mark that was not accepted is not in front. -/
theorem lacks_of_accept_eq_false {m : Mark} (h : accept m s = .ok false s') :
    Lacks (Kind.mark? m) s.rest := by
  obtain ⟨r, s₁, htake, h⟩ := bind_eq_ok.mp h
  obtain ⟨hr, rfl⟩ := pure_eq_ok.mp h
  obtain rfl : r = none := by simpa using hr.symm
  exact lacks_of_take?_eq_none htake

/-- A mark that may be in front and is there is read. -/
theorem accept_punct {m : Mark} (mark : Punct m) :
    accept m ⟨mark.token :: rest, l, names⟩ = .ok true ⟨rest, l, names⟩ := by
  rw [accept, bind_of_ok (take?_leaf mark)]
  rfl

/-- A mark that may be in front and is not there is left out. -/
theorem accept_lacks {m : Mark} (h : Lacks (Kind.mark? m) rest) :
    accept m ⟨rest, l, names⟩ = .ok false ⟨rest, l, names⟩ := by
  rw [accept, bind_of_ok (take?_lacks h)]
  rfl

/-- Looking for a mark does not move the cursor. -/
theorem sees_eq_ok {m : Mark} {b : Bool} (h : sees m s = .ok b s') : s = s' := by
  rw [sees, peek_bind] at h
  exact (pure_eq_ok.mp h).2

/-- A mark in front is seen. -/
theorem sees_punct {m : Mark} (mark : Punct m) :
    sees m ⟨mark.token :: rest, l, names⟩ = .ok true ⟨mark.token :: rest, l, names⟩ := by
  rw [sees, peek_bind]
  simp [mark.fits, pure_eq_ok]

/-- A mark that is lacking is not seen. -/
theorem sees_lacks {m : Mark} (h : Lacks (Kind.mark? m) rest) :
    sees m ⟨rest, l, names⟩ = .ok false ⟨rest, l, names⟩ := by
  rw [sees, peek_bind]
  cases rest with
  | nil => rfl
  | cons t rest =>
    have hfit : Kind.mark? m t.kind = none := h t rfl
    simp [hfit, pure_eq_ok]

/-- Advancing reads one token, whatever its kind. -/
theorem advance_eq_ok {t : Token} (h : advance s = .ok t s') :
    s.Past [t] s' ∧ s'.names = s.names := by
  rw [advance] at h
  split at h
  · exact absurd h unexpected_ne_ok
  · rename_i hrest
    cases h
    exact ⟨⟨by simpa using hrest, rfl⟩, rfl⟩

/-- Advancing reads the token in front. -/
theorem advance_cons {t : Token} :
    advance ⟨t :: rest, l, names⟩ = .ok t ⟨rest, l, names⟩ :=
  rfl

end Tokens

/-! ### Optional items -/

section Optional

variable {item : Parse α} {m : Mark}

/-- An item that stands behind a mark has been read behind that mark. -/
theorem behind_eq_some {a : α} (h : behind m item s = .ok (some a) s') :
    ∃ (mark : Punct m) (s₁ : Cursor), s.Past [mark.token] s₁ ∧ s₁.names = s.names ∧
      item s₁ = .ok a s' := by
  obtain ⟨b, s₁, haccept, h⟩ := bind_eq_ok.mp h
  cases b with
  | false => exact absurd (pure_eq_ok.mp h).1 (by simp)
  | true =>
    obtain ⟨a', s₂, hitem, h⟩ := bind_eq_ok.mp h
    obtain ⟨ha, rfl⟩ := pure_eq_ok.mp h
    obtain rfl : a = a' := by simpa using ha
    obtain ⟨mark, hpast, hnames⟩ := accept_eq_true haccept
    exact ⟨mark, s₁, hpast, hnames, hitem⟩

/-- Where no item was read behind a mark, nothing was read. -/
theorem behind_eq_none (h : behind m item s = .ok none s') : s = s' := by
  obtain ⟨b, s₁, haccept, h⟩ := bind_eq_ok.mp h
  cases b with
  | false =>
    obtain ⟨-, rfl⟩ := pure_eq_ok.mp h
    exact accept_eq_false haccept
  | true =>
    obtain ⟨a', s₂, -, h⟩ := bind_eq_ok.mp h
    exact absurd (pure_eq_ok.mp h).1 (by simp)

/-- A mark in front, and behind it an item. -/
theorem behind_punct (mark : Punct m) {rest : List Token} {l : Nat} {names : Names} {a : α}
    (h : item ⟨rest, l, names⟩ = .ok a s') :
    behind m item ⟨mark.token :: rest, l, names⟩ = .ok (some a) s' := by
  rw [behind, bind_of_ok (accept_punct mark), if_pos rfl, bind_of_ok h]
  rfl

/-- No item is read where the mark in front of it is lacking. -/
theorem behind_lacks {rest : List Token} {l : Nat} {names : Names}
    (h : Lacks (Kind.mark? m) rest) :
    behind m item ⟨rest, l, names⟩ = .ok none ⟨rest, l, names⟩ := by
  rw [behind, bind_of_ok (accept_lacks h), if_neg (by simp)]
  rfl

/-- An item that was read where a mark could have been is the item. -/
theorem unlessAt_eq_some {a : α} (h : unlessAt m item s = .ok (some a) s') :
    item s = .ok a s' := by
  obtain ⟨b, s₁, hsees, h⟩ := bind_eq_ok.mp h
  obtain rfl := sees_eq_ok hsees
  cases b with
  | true => exact absurd (pure_eq_ok.mp h).1 (by simp)
  | false =>
    obtain ⟨a', s₂, hitem, h⟩ := bind_eq_ok.mp h
    obtain ⟨ha, rfl⟩ := pure_eq_ok.mp h
    obtain rfl : a = a' := by simpa using ha
    exact hitem

/-- Where a mark was found in place of an item, nothing was read. -/
theorem unlessAt_eq_none (h : unlessAt m item s = .ok none s') : s = s' := by
  obtain ⟨b, s₁, hsees, h⟩ := bind_eq_ok.mp h
  obtain rfl := sees_eq_ok hsees
  cases b with
  | true => exact (pure_eq_ok.mp h).2
  | false =>
    obtain ⟨a', s₂, -, h⟩ := bind_eq_ok.mp h
    exact absurd (pure_eq_ok.mp h).1 (by simp)

/-- A mark in front ends the items, and is left there. -/
theorem unlessAt_punct (mark : Punct m) {rest : List Token} {l : Nat} {names : Names} :
    unlessAt m item ⟨mark.token :: rest, l, names⟩ =
      .ok none ⟨mark.token :: rest, l, names⟩ := by
  rw [unlessAt, bind_of_ok (sees_punct mark), if_pos rfl]
  rfl

/-- An item is read where the mark that ends the items is lacking. -/
theorem unlessAt_lacks {rest : List Token} {l : Nat} {names : Names} {a : α}
    (hlacks : Lacks (Kind.mark? m) rest) (h : item ⟨rest, l, names⟩ = .ok a s') :
    unlessAt m item ⟨rest, l, names⟩ = .ok (some a) s' := by
  rw [unlessAt, bind_of_ok (sees_lacks hlacks), if_neg (by simp), bind_of_ok h]
  rfl

end Optional

/-! ### Repetition -/

section Repetition

variable {item : Parse (Option α)}

/-- What holds of the empty list and is kept by putting an item in front holds of every list of
items that was read. -/
theorem many_induction {P : Cursor → List α → Cursor → Prop} (nil : ∀ s, P s [] s)
    (hnone : ∀ {s s'}, item s = .ok none s' → s = s')
    (cons : ∀ {s s₁ s₂ a as}, item s = .ok (some a) s₁ → P s₁ as s₂ → P s (a :: as) s₂)
    {as : List α} (h : many item s = .ok as s') : P s as s' := by
  rw [many, get_bind] at h
  generalize s.rest.length + 1 = n at h
  induction n generalizing s as with
  | zero =>
    obtain ⟨rfl, rfl⟩ := pure_eq_ok.mp h
    exact nil _
  | succ n ih =>
    obtain ⟨r, s₁, hitem, h⟩ := bind_eq_ok.mp h
    cases r with
    | none =>
      obtain ⟨rfl, rfl⟩ := pure_eq_ok.mp h
      obtain rfl := hnone hitem
      exact nil _
    | some a =>
      obtain ⟨as, s₂, hrest, h⟩ := bind_eq_ok.mp h
      obtain ⟨rfl, rfl⟩ := pure_eq_ok.mp h
      exact cons hitem (ih hrest)

/-- A repetition of items that take a token each ends where there is no further item. -/
theorem many_done (hnone : ∀ {s s'}, item s = .ok none s' → s = s')
    (shorter : ∀ {s s₁ a}, item s = .ok (some a) s₁ → s₁.rest.length < s.rest.length)
    {as : List α} (h : many item s = .ok as s') : item s' = .ok none s' := by
  rw [many, get_bind] at h
  have hbound : s.rest.length < s.rest.length + 1 := Nat.lt_succ_self _
  generalize s.rest.length + 1 = n at h hbound
  induction n generalizing s as with
  | zero => omega
  | succ n ih =>
    obtain ⟨r, s₁, hitem, h⟩ := bind_eq_ok.mp h
    cases r with
    | none =>
      obtain ⟨rfl, rfl⟩ := pure_eq_ok.mp h
      obtain rfl := hnone hitem
      exact hitem
    | some a =>
      obtain ⟨as, s₂, hrest, h⟩ := bind_eq_ok.mp h
      obtain ⟨rfl, rfl⟩ := pure_eq_ok.mp h
      have hshorter := shorter hitem
      exact ih hrest (by omega)

/-- Items that are read one after the other, up to where there is none. -/
inductive Repeats (item : Parse (Option α)) : Cursor → List α → Cursor → Prop where
  | done {s : Cursor} (h : item s = .ok none s) : Repeats item s [] s
  | item {s s₁ s₂ : Cursor} {a : α} {as : List α} (h : item s = .ok (some a) s₁)
      (shorter : s₁.rest.length < s.rest.length) (rest : Repeats item s₁ as s₂) :
      Repeats item s (a :: as) s₂

/-- Items that repeat up to a cursor are all collected. -/
theorem Repeats.many_eq_ok {as : List α} (h : Repeats item s as s') : many item s = .ok as s' := by
  rw [many, get_bind]
  have hbound : s.rest.length < s.rest.length + 1 := Nat.lt_succ_self _
  generalize s.rest.length + 1 = n at hbound
  induction h generalizing n with
  | done hnone =>
    cases n with
    | zero => omega
    | succ n =>
      rw [upTo, bind_of_ok hnone]
      rfl
  | item hitem shorter _ ih =>
    cases n with
    | zero => omega
    | succ n =>
      rw [upTo, bind_of_ok hitem]
      change ((upTo _ n) >>= fun as => pure (_ :: as)) _ = _
      rw [bind_of_ok (ih n (by omega))]
      rfl

variable {step : σ → Parse (Option σ)}

/-- What holds at the start of a repetition and is kept by each step holds at its end. -/
theorem fold_induction {P : Cursor → σ → Cursor → σ → Prop} (refl : ∀ s a, P s a s a)
    (hnone : ∀ {s s' a}, step a s = .ok none s' → s = s')
    (cons : ∀ {s s₁ s₂ a b c}, step a s = .ok (some b) s₁ → P s₁ b s₂ c → P s a s₂ c)
    {a b : σ} (h : fold step a s = .ok b s') : P s a s' b := by
  rw [fold, get_bind] at h
  generalize s.rest.length + 1 = n at h
  induction n generalizing s a with
  | zero =>
    obtain ⟨rfl, rfl⟩ := pure_eq_ok.mp h
    exact refl _ _
  | succ n ih =>
    obtain ⟨r, s₁, hstep, h⟩ := bind_eq_ok.mp h
    cases r with
    | none =>
      obtain ⟨rfl, rfl⟩ := pure_eq_ok.mp h
      obtain rfl := hnone hstep
      exact refl _ _
    | some c => exact cons hstep (ih h)

/-- Steps that are taken one after the other, up to where there is none. -/
inductive Folds (step : σ → Parse (Option σ)) : Cursor → σ → Cursor → σ → Prop where
  | done {s : Cursor} {a : σ} (h : step a s = .ok none s) : Folds step s a s a
  | step {s s₁ s₂ : Cursor} {a b c : σ} (h : step a s = .ok (some b) s₁)
      (shorter : s₁.rest.length < s.rest.length) (rest : Folds step s₁ b s₂ c) :
      Folds step s a s₂ c

/-- Steps that fold up to a cursor are all taken. -/
theorem Folds.fold_eq_ok {a b : σ} (h : Folds step s a s' b) : fold step a s = .ok b s' := by
  rw [fold, get_bind]
  have hbound : s.rest.length < s.rest.length + 1 := Nat.lt_succ_self _
  generalize s.rest.length + 1 = n at hbound
  induction h generalizing n with
  | done hnone =>
    cases n with
    | zero => omega
    | succ n =>
      rw [iterate, bind_of_ok hnone]
      rfl
  | step hstep shorter _ ih =>
    cases n with
    | zero => omega
    | succ n =>
      rw [iterate, bind_of_ok hstep]
      exact ih n (by omega)

end Repetition

/-! ### Declarations -/

/-- An entry that was made is the one that the tables allow, and reads no token. -/
theorem enter_eq_ok {t : Token} {declare : Names → Option (α × Names)} {a : α}
    (h : enter t declare s = .ok a s') :
    declare s.names = some (a, s'.names) ∧ s'.rest = s.rest ∧ s'.endLine = s.endLine := by
  rw [enter] at h
  split at h
  · cases h
  · rename_i hdeclare
    cases h
    exact ⟨hdeclare, rfl, rfl⟩

/-- An entry that the tables allow is made. -/
theorem enter_of_eq_some {t : Token} {declare : Names → Option (α × Names)} {a : α}
    {rest : List Token} {l : Nat} {names later : Names} (h : declare names = some (a, later)) :
    enter t declare ⟨rest, l, names⟩ = .ok a ⟨rest, l, later⟩ := by
  simp only [enter, h]

end Parse

end Litany
