import Litany.Proofs.Machine.Moments

/-!
# Conditions as disjunctions of conjunctions

A condition is kept flat, as its terms in the order in which they are written, and is evaluated in
one pass that remembers a single truth. Split at every `||` it is a list of conjunctions
(`Condition.conjunctions`), and the pass is the search of the library through these lists: it looks
for a conjunction all of whose terms hold, and in each conjunction for a term that does not
(`evaluateCondition_eq_anyM`). The two are the same computation, failures included.

Equal computations could still evaluate different terms, where a term has no effect. So the terms
that the pass evaluates are compared as well, one by one with the machines they find: they are the
parts of the condition as a moment of a run, and the terms that the search looks at.
-/

namespace Litany

open Run

/-! ### Splitting a condition -/

/-- Split terms behind a conjunction: the terms that belong to it, up to the next `||`, and the
conjunctions from there on. -/
def splitTerms : List (Connective × Term) → List Term × List (List Term)
  | [] => ([], [])
  | (.and, t) :: rest => (t :: (splitTerms rest).1, (splitTerms rest).2)
  | (.or, t) :: rest => ([], (t :: (splitTerms rest).1) :: (splitTerms rest).2)

/-- The conjunctions of a condition, in the order in which they are written. -/
def Condition.conjunctions (c : Condition) : List (List Term) :=
  (c.first :: (splitTerms c.rest).1) :: (splitTerms c.rest).2

/-- The terms of a conjunction, each with the connective in front of it. -/
def linked : List Term → List (Connective × Term)
  | [] => []
  | t :: rest => (.or, t) :: rest.map fun t => (.and, t)

/-- Terms that have been split can be joined again. -/
theorem join_splitTerms (ts : List (Connective × Term)) :
    ((splitTerms ts).1.map fun t => (Connective.and, t)) ++ (splitTerms ts).2.flatMap linked =
      ts := by
  induction ts with
  | nil => rfl
  | cons head rest ih =>
    obtain ⟨connective, t⟩ := head
    cases connective with
    | and => simpa [splitTerms] using ih
    | or => simpa [splitTerms, linked] using ih

private theorem nil_notMem_splitTerms (ts : List (Connective × Term)) : [] ∉ (splitTerms ts).2 := by
  induction ts with
  | nil => exact List.not_mem_nil
  | cons head rest ih =>
    obtain ⟨connective, t⟩ := head
    cases connective with
    | and => exact ih
    | or => simpa [splitTerms] using ih

/-! ### The answer of a condition -/

section Answer

variable (body : List Stmt → Run Ending)

/-- Whether all terms of a conjunction hold. It ends at the first that does not. -/
def conjunction (ts : List Term) : Run Bool :=
  ts.allM (evaluateTerm body)

/-- Whether all terms of some conjunction hold. It ends at the first such conjunction. -/
def disjunction (conjunctions : List (List Term)) : Run Bool :=
  conjunctions.anyM (conjunction body)

private theorem conjunction_cons (t : Term) (rest : List Term) :
    conjunction body (t :: rest) =
      evaluateTerm body t >>= fun holds => if holds then conjunction body rest else pure false := by
  unfold conjunction
  rw [List.allM]
  congr 1
  funext holds
  cases holds <;> rfl

private theorem disjunction_cons (ts : List Term) (rest : List (List Term)) :
    disjunction body (ts :: rest) =
      conjunction body ts >>= fun holds => if holds then pure true else disjunction body rest := by
  unfold disjunction
  rw [List.anyM]
  congr 1
  funext holds
  cases holds <;> rfl

/-- Behind a conjunction that holds so far, the pass goes on with the terms that belong to it;
behind one that does not, it goes on with the next conjunction. -/
theorem evaluateTerms_eq (ts : List (Connective × Term)) :
    evaluateTerms body true ts =
        disjunction body ((splitTerms ts).1 :: (splitTerms ts).2) ∧
      evaluateTerms body false ts = disjunction body (splitTerms ts).2 := by
  induction ts with
  | nil => exact ⟨rfl, rfl⟩
  | cons head rest ih =>
    obtain ⟨htrue, hfalse⟩ := ih
    -- a term of the pass, and the conjunction that begins with it
    have hterm : ∀ t, (evaluateTerm body t >>= fun holds => evaluateTerms body holds rest) =
        disjunction body ((t :: (splitTerms rest).1) :: (splitTerms rest).2) := by
      intro t
      rw [disjunction_cons, conjunction_cons, bind_assoc]
      congr 1
      funext holds
      cases holds with
      | true => rw [htrue, disjunction_cons]; rfl
      | false => rw [hfalse]; rfl
    obtain ⟨connective, t⟩ := head
    cases connective with
    | and => exact ⟨hterm t, hfalse⟩
    | or => exact ⟨rfl, hterm t⟩

private theorem evaluateCondition_eq_disjunction (c : Condition) :
    evaluateCondition body c = disjunction body c.conjunctions :=
  -- in front of its first term a condition is like a pass behind `||`
  (evaluateTerms_eq body ((.or, c.first) :: c.rest)).2

end Answer

/-! ### The terms that are evaluated -/

section Visits

variable (body : List Stmt → Run Ending)

/-- The terms that a conjunction evaluates, each with the machine that it finds. -/
def conjunctionVisits : List Term → Machine → List (Term × Machine)
  | [], _ => []
  | t :: rest, m =>
    (t, m) :: andThen (evaluateTerm body t) m fun holds later =>
      if holds then conjunctionVisits rest later else []

/-- The terms that a disjunction evaluates, each with the machine that it finds. -/
def disjunctionVisits : List (List Term) → Machine → List (Term × Machine)
  | [], _ => []
  | ts :: rest, m =>
    conjunctionVisits body ts m ++ andThen (conjunction body ts) m fun holds later =>
      if holds then [] else disjunctionVisits rest later

/-- A conjunction evaluates terms of its own in their order, none of them twice. -/
private theorem prefix_of_conjunctionVisits (ts : List Term) (m : Machine) :
    (conjunctionVisits body ts m).map Prod.fst <+: ts := by
  induction ts generalizing m with
  | nil => exact List.prefix_rfl
  | cons t rest ih =>
    unfold conjunctionVisits andThen
    rw [List.map_cons, List.cons_prefix_cons]
    refine ⟨rfl, ?_⟩
    cases evaluateTerm body t m with
    | error stop later => exact List.nil_prefix
    | ok holds later =>
      cases holds with
      | true => exact ih later
      | false => exact List.nil_prefix

private theorem disjunctionVisits_sublist (conjunctions : List (List Term)) (m : Machine) :
    ((disjunctionVisits body conjunctions m).map Prod.fst).Sublist conjunctions.flatten := by
  induction conjunctions generalizing m with
  | nil => exact List.Sublist.refl _
  | cons ts rest ih =>
    unfold disjunctionVisits andThen
    rw [List.map_append, List.flatten_cons]
    refine (prefix_of_conjunctionVisits body ts m).sublist.append ?_
    cases conjunction body ts m with
    | error stop later => exact List.nil_sublist _
    | ok holds later =>
      cases holds with
      | true => exact List.nil_sublist _
      | false => exact ih later

/-- What a disjunction evaluates from the first term on. -/
private theorem disjunctionVisits_cons (t : Term) (ts : List Term) (rest : List (List Term))
    (m : Machine) :
    disjunctionVisits body ((t :: ts) :: rest) m =
      (t, m) :: andThen (evaluateTerm body t) m fun holds later =>
        if holds then disjunctionVisits body (ts :: rest) later
        else disjunctionVisits body rest later := by
  rw [disjunctionVisits, conjunctionVisits, conjunction_cons]
  unfold andThen
  rw [bind_apply]
  cases evaluateTerm body t m with
  | error stop later => rfl
  | ok holds later =>
    cases holds <;> rfl

end Visits

namespace Moment

variable (executor : Option Executor)

/-- The terms among the parts of a condition, each with the machine that it finds, where the parts
are followed down to some depth. -/
def termsWithin : Nat → Moment → List (Term × Machine)
  | 0, _ => []
  | depth + 1, k =>
    match k.task with
    | .term t => [(t, k.machine)]
    | .terms _ _ | .condition _ => (k.parts executor).flatMap (termsWithin depth)
    | _ => []

variable (k : Moment)

private theorem termsWithin_term (t : Term) (m : Machine) (depth : Nat) :
    (k.turn (.term t) m).termsWithin executor (depth + 1) = [(t, m)] :=
  rfl

/-- The terms of the pass behind a conjunction are those that the search looks at. -/
private theorem termsWithin_terms (ts : List (Connective × Term)) (m : Machine) {depth : Nat}
    (hdepth : ts.length + 2 ≤ depth) :
    (k.turn (.terms true ts) m).termsWithin executor depth =
        disjunctionVisits (runBody executor k.fuel)
          ((splitTerms ts).1 :: (splitTerms ts).2) m ∧
      (k.turn (.terms false ts) m).termsWithin executor depth =
        disjunctionVisits (runBody executor k.fuel) (splitTerms ts).2 m := by
  induction ts generalizing m depth with
  | nil =>
    obtain ⟨deep, rfl⟩ := Nat.exists_eq_add_of_le' (Nat.le_of_add_left_le hdepth)
    exact ⟨rfl, rfl⟩
  | cons head rest ih =>
    obtain ⟨deep, rfl⟩ : ∃ deep, depth = deep + 2 := ⟨depth - 2, by simp at hdepth; omega⟩
    have hdeep : rest.length + 2 ≤ deep + 1 := by simp at hdepth; omega
    have hterm : ∀ (t : Term) (k' : Moment),
        (k'.parts executor = k.turn (.term t) m ::
          andThen (evaluateTerm (runBody executor k.fuel) t) m fun holds later =>
            [k.turn (.terms holds rest) later]) →
        (k'.parts executor).flatMap (termsWithin executor (deep + 1)) =
          disjunctionVisits (runBody executor k.fuel)
            ((t :: (splitTerms rest).1) :: (splitTerms rest).2) m := by
      intro t k' hparts
      rw [hparts, disjunctionVisits_cons, List.flatMap_cons, termsWithin_term]
      unfold andThen
      cases evaluateTerm (runBody executor k.fuel) t m with
      | error stop later => rfl
      | ok holds later =>
        obtain ⟨htrue, hfalse⟩ := ih later hdeep
        cases holds with
        | true => simp only [List.flatMap_cons, htrue]; simp
        | false => simp only [List.flatMap_cons, hfalse]; simp
    obtain ⟨connective, t⟩ := head
    cases connective with
    | and =>
      refine ⟨hterm t (k.turn (.terms true ((.and, t) :: rest)) m) rfl, ?_⟩
      have hskip := (ih m hdeep).2
      change [k.turn (.terms false rest) m].flatMap (termsWithin executor (deep + 1)) = _
      rw [List.flatMap_singleton, hskip]
      rfl
    | or => exact ⟨rfl, hterm t (k.turn (.terms false ((.or, t) :: rest)) m) rfl⟩

end Moment

/-! ### Short circuit -/

/-- A condition is a disjunction of conjunctions with short circuit. Its conjunctions are its terms
split at every `||`, and none is empty. However bodies are run, its truth is found by looking for
the first conjunction whose terms all hold, and in each conjunction for the first term that does
not: as computations the two are equal, in the answer or the failure and in the whole machine. And
in every run, the terms evaluated by the condition are those that this search looks at, on the same
machines; they come in their order, none of them twice. -/
theorem evaluateCondition_eq_anyM (c : Condition) :
    (c.conjunctions.flatMap linked = (.or, c.first) :: c.rest ∧ [] ∉ c.conjunctions) ∧
    (∀ body, evaluateCondition body c =
      c.conjunctions.anyM fun ts => ts.allM (evaluateTerm body)) ∧
    (∀ (executor : Option Executor) (stack : List Nat) (fuel : Nat) (m : Machine) (depth : Nat),
      c.rest.length + 3 ≤ depth →
      (Moment.mk stack fuel (.condition c) m).termsWithin executor depth =
        disjunctionVisits (runBody executor fuel) c.conjunctions m) ∧
    ∀ body m, ((disjunctionVisits body c.conjunctions m).map Prod.fst).Sublist
      c.conjunctions.flatten := by
  refine ⟨⟨?_, ?_⟩, fun body => evaluateCondition_eq_disjunction body c, ?_,
    fun body m => disjunctionVisits_sublist body c.conjunctions m⟩
  · exact join_splitTerms ((.or, c.first) :: c.rest)
  · exact nil_notMem_splitTerms ((.or, c.first) :: c.rest)
  · intro executor stack fuel m depth hdepth
    let k : Moment := ⟨stack, fuel, .condition c, m⟩
    have hpass := (k.termsWithin_terms executor ((.or, c.first) :: c.rest) m
      (by simpa using hdepth)).2
    obtain ⟨deep, rfl⟩ := Nat.exists_eq_add_of_le' (Nat.le_of_add_left_le hdepth)
    exact hpass

/-- The terms of `x && y++ || y++ == 3 || 1 / 0`, where `x` and `y` are the first two globals. -/
def isSet : Term :=
  ⟨false, .read ⟨"x", [], .global 0, .scalar .i64⟩, none, 1⟩

def bumped : Expr :=
  .bump ⟨"y", [], .global 1, .scalar .i64⟩ true false 1

def failing : Term :=
  ⟨false, .binary (.literal (.int 1)) .divide (.literal (.int 0)) 1, none, 1⟩

def isThree : Term :=
  ⟨false, bumped, some (.equal, .literal (.int 3)), 1⟩

/-- Where `x` is zero and `y` is three, `y` is counted up once: the second term is skipped with its
conjunction, and the last one, which would fail, is not reached. -/
theorem evaluateCondition_eq_anyM_skipping :
    let c : Condition :=
      ⟨isSet, [(.and, ⟨false, bumped, none, 1⟩), (.or, isThree), (.or, failing)]⟩
    let m : Machine := ⟨[.int 0, .int 3], [], [], "", []⟩
    evaluateCondition (runBody none 0) c m = .ok true ⟨[.int 0, .int 4], [], [], "", []⟩ ∧
      (Moment.mk [] 0 (.condition c) m).termsWithin none 6 = [(isSet, m), (isThree, m)] := by
  intro c m
  obtain ⟨-, hequal, hvisits, -⟩ := evaluateCondition_eq_anyM c
  rw [hequal, hvisits none [] 0 m 6 (by decide)]
  exact ⟨rfl, rfl⟩

end Litany
