import Litany.Proofs.Grammar.Blocks
import Litany.Proofs.Machine.Laws
import Mathlib.Data.Prod.Lex

/-!
# The order of a run

The moments of a run come one after the other: first the moment itself, then the moments of its
parts, part by part. `Moment.trace` lists them in this order. It comes to an end because a part is
always less than what it is a part of (`Moment.Descends`): it is smaller, or there are fewer rounds
left of the same loop, or it is the body of a called procedure, and there is less fuel.

The moments in the trace are those that the first one leads to (`Moment.mem_trace_iff`).
-/

namespace Litany

open Run

/-! ### Parts are less -/

/-- The size of a part as it is written. -/
noncomputable def Task.size : Task → Nat
  | .visit _ => 0
  | .store _ _ => 1
  | .expr e => sizeOf e + 1
  | .arguments _ es => sizeOf es + 1
  | .steps _ _ rest => sizeOf rest + 1
  | .exprs es => sizeOf es + 1
  | .term t => sizeOf t + 1
  | .terms _ ts => sizeOf ts + 1
  | .condition c => sizeOf c + 1
  | .declarators ds => sizeOf ds + 1
  | .statements ss => sizeOf ss + 1
  | .rounds test loop step _ => sizeOf test + sizeOf loop + sizeOf step + 1

/-- How often a loop may still go round. -/
def Task.roundsLeft : Task → Nat
  | .rounds _ _ _ n => n
  | _ => 0

/-- The blocks of foreign code in a part, as far as they are written there. -/
def Task.codes : Task → List (String × Nat)
  | .statements ss => Stmt.codesOfAll ss
  | .rounds _ loop _ _ => Stmt.codesOfAll loop
  | _ => []

/-- A part of a part that is carried out under the same calls: there is less of it, and its blocks
are written there. -/
structure Task.Within (part whole : Task) : Prop where
  less : part.size < whole.size ∨ part.size = whole.size ∧ part.roundsLeft < whole.roundsLeft
  codes : ∀ c ∈ part.codes, c ∈ whole.codes

namespace Task.Within

variable {part whole : Task}

/-- A smaller part without blocks. -/
private theorem blockless (hcodes : part.codes = []) (h : part.size < whole.size) :
    part.Within whole :=
  ⟨.inl h, by simp [hcodes]⟩

end Task.Within

namespace Moment

/-- What a part of a moment is: less of the same program under the same calls, or the body of an
installed procedure with less fuel. -/
inductive Descends (k : Moment) : Moment → Prop
  | turn {task : Task} (m : Machine) : task.Within k.task → Descends k (k.turn task m)
  | enter {ordinal n : Nat} {p : Procedure} (m : Machine) :
      k.fuel = n + 1 → k.machine.procedures[ordinal]? = some (some p) →
      Descends k ⟨ordinal :: k.stack, n, .statements p.body, m⟩

variable {executor : Option Executor} {k : Moment} {α : Type} {x : Run α} {m : Machine}
  {task : Task}

/-- A single part behind a computation. -/
private theorem descends_singleton (htask : task.Within k.task) (m : Machine) :
    ∀ k' ∈ [k.turn task m], k.Descends k' :=
  List.forall_mem_singleton.mpr (.turn m htask)

/-- A part that may be missing. -/
private theorem descends_option {ι : Type} {o : Option ι} {f : ι → Task}
    (htask : ∀ i ∈ o, (f i).Within k.task) (m : Machine) :
    ∀ k' ∈ o.toList.map fun i => k.turn (f i) m, k.Descends k' := by
  intro k' hk'
  obtain ⟨i, hi, rfl⟩ := List.mem_map.mp hk'
  exact .turn m (htask i (Option.mem_toList.mp hi))

/-- What comes behind a computation, whatever machine it leaves. -/
private theorem descends_andThen {next : α → Machine → List Moment}
    (hnext : ∀ a later, ∀ k' ∈ next a later, k.Descends k') :
    ∀ k' ∈ andThen x m next, k.Descends k' :=
  forall_andThen fun a later _ => hnext a later

/-- A part, and behind it another that depends on how it ends. -/
private theorem descends_cons {next : α → Task} (hfirst : task.Within k.task)
    (hnext : ∀ a, (next a).Within k.task) (m m' : Machine) :
    ∀ k' ∈ k.turn task m :: andThen x m' fun a later => [k.turn (next a) later], k.Descends k' :=
  List.forall_mem_cons.mpr ⟨.turn m hfirst, descends_andThen fun a later =>
    descends_singleton (hnext a) later⟩

private theorem descends_exprParts {e : Expr} (hk : k.task = .expr e) :
    ∀ k' ∈ k.exprParts executor e, k.Descends k' := by
  have hpart : ∀ part : Task, part.codes = [] → part.size < sizeOf e + 1 → part.Within k.task := by
    intro part hcodes hsize
    rw [hk]
    exact .blockless hcodes hsize
  cases e with
  | literal v => simp [exprParts]
  | read p => exact descends_singleton (hpart _ rfl (by simp +arith [Task.size])) _
  | group inner => exact descends_singleton (hpart _ rfl (by simp +arith [Task.size])) _
  | negate operand line => exact descends_singleton (hpart _ rfl (by simp +arith [Task.size])) _
  | binary left op right line =>
    exact descends_cons (hpart _ rfl (by simp +arith [Task.size]))
      (fun _ => hpart (.expr right) rfl (by simp +arith [Task.size])) _ _
  | assign target steps =>
    exact descends_cons (hpart _ rfl (by simp +arith [Task.size]))
      (fun v => hpart (.steps target v steps) rfl (by simp +arith [Task.size])) _ _
  | bump target up after line =>
    refine List.forall_mem_cons.mpr ⟨.turn _ (hpart _ rfl (by simp +arith [Task.size])), ?_⟩
    refine descends_andThen fun current later => descends_andThen fun changed last => ?_
    exact descends_singleton (hpart (.store target changed) rfl (by simp +arith [Task.size])) last
  | call ordinal name es line =>
    -- the body is not written in the call, so it is the fuel that goes down
    refine forall_andThen fun p later hfound => ?_
    obtain ⟨hp, rfl⟩ := procedure_eq_ok.mp hfound
    refine List.forall_mem_cons.mpr
      ⟨.turn _ (hpart (.arguments p.parameters es) rfl (by simp +arith [Task.size])), ?_⟩
    refine descends_andThen fun values last => ?_
    unfold enter
    cases hfuel : k.fuel with
    | zero => simp
    | succ n => exact List.forall_mem_singleton.mpr (.enter _ hfuel hp)

private theorem descends_stmtParts {s : Stmt} {rest : List Stmt}
    (hk : k.task = .statements (s :: rest)) : ∀ k' ∈ k.stmtParts executor s, k.Descends k' := by
  have hpart : ∀ part : Task, part.size < sizeOf s + 1 → (∀ c ∈ part.codes, c ∈ s.codes) →
      part.Within k.task := by
    intro part hsize hcodes
    rw [hk]
    refine ⟨.inl ?_, fun c hc => List.mem_append_left _ (hcodes c hc)⟩
    change part.size < sizeOf (s :: rest) + 1
    rw [List.cons.sizeOf_spec]
    omega
  have hquiet : ∀ part : Task, part.codes = [] → part.size < sizeOf s + 1 →
      part.Within k.task := fun part hcodes hsize => hpart part hsize (by simp [hcodes])
  cases s with
  | expr e => exact descends_singleton (hquiet _ rfl (by simp +arith [Task.size])) _
  | declare vars => exact descends_singleton (hquiet _ rfl (by simp +arith [Task.size])) _
  | classDef number vars => exact descends_singleton (hquiet _ rfl (by simp +arith [Task.size])) _
  | procedure p => simp [stmtParts]
  | print template es line =>
    exact descends_singleton (hquiet _ rfl (by simp +arith [Task.size])) _
  | loop initial test step loop =>
    refine List.forall_mem_append.mpr ⟨descends_option (fun e he => ?_) _, ?_⟩
    · obtain rfl : initial = some e := he
      exact hquiet _ rfl (by simp +arith [Task.size])
    · refine descends_andThen fun _ later => descends_singleton (hpart _ ?_ ?_) later
      · simp +arith [Task.size]
      · simp [Task.codes, Stmt.codes]
  | branch test yes no =>
    refine List.forall_mem_cons.mpr
      ⟨.turn _ (hquiet _ rfl (by simp +arith [Task.size])), descends_andThen fun holds later => ?_⟩
    cases holds with
    | true =>
      refine descends_singleton (hpart _ (by simp +arith [Task.size]) fun c hc => ?_) later
      cases no with
      | none => exact hc
      | some no => exact List.mem_append_left _ hc
    | false =>
      refine descends_option (fun no hno => ?_) later
      obtain rfl := Option.mem_def.mp hno
      exact hpart _ (by simp +arith [Task.size]) fun c hc => List.mem_append_right _ hc
  | giveBack value line =>
    refine descends_option (fun e he => ?_) _
    obtain rfl : value = some e := he
    exact hquiet _ rfl (by simp +arith [Task.size])
  | foreign code line => simp [stmtParts]

private theorem descends_stepParts {target : Place} {v : Value} {step : Step Expr}
    {rest : List (Step Expr)} (hk : k.task = .steps target v (step :: rest)) :
    ∀ k' ∈ k.stepParts executor target v step rest, k.Descends k' := by
  have hpart : ∀ part : Task, part.codes = [] → part.size < sizeOf step + sizeOf rest + 2 →
      part.Within k.task := by
    intro part hcodes hsize
    rw [hk]
    refine .blockless hcodes ?_
    change part.size < sizeOf (step :: rest) + 1
    rw [List.cons.sizeOf_spec]
    omega
  obtain ⟨op, operand, line⟩ := step
  refine List.forall_mem_cons.mpr ⟨.turn _ (hpart _ rfl (by simp +arith [Task.size])), ?_⟩
  refine descends_andThen fun r later => descends_andThen fun w last => ?_
  refine List.forall_mem_cons.mpr ⟨.turn _ (hpart _ rfl (by simp +arith [Task.size])), ?_⟩
  refine descends_andThen fun kept after => ?_
  exact descends_singleton (hpart (.steps target kept rest) rfl (by simp +arith [Task.size])) after

private theorem descends_roundParts {test : Option Condition} {loop : List Stmt}
    {step : Option Expr} {n : Nat} (hk : k.task = .rounds test loop step (n + 1)) :
    ∀ k' ∈ k.roundParts executor test loop step n, k.Descends k' := by
  have hquiet : ∀ part : Task, part.codes = [] →
      part.size < sizeOf test + sizeOf loop + sizeOf step + 1 → part.Within k.task := by
    intro part hcodes hsize
    rw [hk]
    exact .blockless hcodes hsize
  refine List.forall_mem_append.mpr
    ⟨descends_option (fun c hc => ?_) _, descends_andThen fun again later => ?_⟩
  · obtain rfl := Option.mem_def.mp hc
    exact hquiet _ rfl (by simp +arith [Task.size])
  cases again with
  | false => simp
  | true =>
    have hloop : (Task.statements loop).Within k.task := by
      rw [hk]
      refine ⟨.inl ?_, fun _ hc => hc⟩
      cases test <;> simp +arith [Task.size]
    refine List.forall_mem_cons.mpr ⟨.turn _ hloop, descends_andThen fun ending last => ?_⟩
    cases ending with
    | returned v => simp
    | through =>
      refine List.forall_mem_append.mpr
        ⟨descends_option (fun e he => ?_) _, descends_andThen fun _ after => ?_⟩
      · obtain rfl := Option.mem_def.mp he
        exact hquiet _ rfl (by simp +arith [Task.size])
      · -- the same loop, with a round less
        refine descends_singleton ?_ after
        rw [hk]
        exact ⟨.inr ⟨rfl, Nat.lt_succ_self n⟩, fun _ hc => hc⟩

/-- Parts are less than the whole. -/
theorem descends_of_mem_parts (executor : Option Executor) (k : Moment) :
    ∀ k' ∈ k.parts executor, k.Descends k' := by
  obtain ⟨stack, fuel, task, m⟩ := k
  cases task with
  | visit p => simp [parts]
  | store p v => exact descends_singleton (.blockless rfl (by simp +arith [Task.size])) _
  | expr e => exact descends_exprParts rfl
  | arguments types es =>
    cases types with
    | nil => simp [parts]
    | cons type types =>
      cases es with
      | nil => simp [parts]
      | cons e rest =>
        exact descends_cons (.blockless rfl (by simp +arith [Task.size]))
          (fun _ => .blockless rfl (by simp +arith [Task.size])) _ _
  | steps target v steps =>
    cases steps with
    | nil => simp [parts]
    | cons step rest => exact descends_stepParts rfl
  | exprs es =>
    cases es with
    | nil => simp [parts]
    | cons e rest =>
      exact descends_cons (.blockless rfl (by simp +arith [Task.size]))
        (fun _ => .blockless rfl (by simp +arith [Task.size])) _ _
  | term t =>
    obtain ⟨negated, left, comparison, line⟩ := t
    refine List.forall_mem_cons.mpr ⟨.turn _ (.blockless rfl (by simp +arith [Task.size])), ?_⟩
    refine descends_andThen fun _ later => descends_option (fun side hside => ?_) later
    obtain rfl : comparison = some side := hside
    obtain ⟨c, right⟩ := side
    exact .blockless rfl (by simp +arith [Task.size])
  | terms sofar ts =>
    cases ts with
    | nil => simp [parts]
    | cons t rest =>
      obtain ⟨connective, t⟩ := t
      have ht : ∀ sofar, (Task.term t).Within (.terms sofar ((connective, t) :: rest)) :=
        fun _ => .blockless rfl (by simp +arith [Task.size])
      have hrest : ∀ holds sofar,
          (Task.terms holds rest).Within (.terms sofar ((connective, t) :: rest)) :=
        fun _ _ => .blockless rfl (by simp +arith [Task.size])
      cases connective with
      | and =>
        cases sofar with
        | true => exact descends_cons (ht _) (fun holds => hrest holds _) _ _
        | false => exact descends_singleton (hrest _ _) _
      | or =>
        cases sofar with
        | true => simp [parts]
        | false => exact descends_cons (ht _) (fun holds => hrest holds _) _ _
  | condition c =>
    obtain ⟨first, rest⟩ := c
    exact descends_cons (.blockless rfl (by simp +arith [Task.size]))
      (fun _ => .blockless rfl (by simp +arith [Task.size])) _ _
  | declarators ds =>
    cases ds with
    | nil => simp [parts]
    | cons d rest =>
      obtain ⟨target, initial⟩ := d
      refine List.forall_mem_cons.mpr ⟨.turn _ (.blockless rfl (by simp +arith [Task.size])), ?_⟩
      refine descends_andThen fun _ later => List.forall_mem_append.mpr
        ⟨descends_option (fun e he => ?_) _, descends_andThen fun _ last => ?_⟩
      · obtain rfl : initial = some e := he
        exact .blockless rfl (by simp +arith [Task.size])
      · exact descends_singleton (.blockless rfl (by simp +arith [Task.size])) last
  | statements ss =>
    cases ss with
    | nil => simp [parts]
    | cons s rest =>
      refine List.forall_mem_append.mpr ⟨descends_stmtParts rfl, descends_andThen ?_⟩
      intro ending later
      cases ending with
      | returned v => simp
      | through =>
        refine descends_singleton ⟨.inl (by simp +arith [Task.size]), fun c hc => ?_⟩ later
        exact List.mem_append_right _ hc
  | rounds test loop step n =>
    cases n with
    | zero => simp [parts]
    | succ n => exact descends_roundParts rfl

/-! ### The trace -/

/-- Moments by their fuel, then by the size of their task, then by the rounds left. -/
noncomputable def rank (k : Moment) : Nat ×ₗ Nat ×ₗ Nat :=
  toLex (k.fuel, toLex (k.task.size, k.task.roundsLeft))

private theorem Descends.rank_lt {k' : Moment} (h : k.Descends k') : k'.rank < k.rank := by
  cases h with
  | turn m hwithin =>
    refine Prod.Lex.toLex_lt_toLex.mpr (.inr ⟨rfl, Prod.Lex.toLex_lt_toLex.mpr ?_⟩)
    exact hwithin.less
  | enter m hfuel hp =>
    refine Prod.Lex.toLex_lt_toLex.mpr (.inl ?_)
    dsimp only
    omega

/-- The moments of a run, in the order in which they come. -/
def trace (executor : Option Executor) (k : Moment) : List Moment :=
  k :: (k.parts executor).attach.flatMap fun part => part.1.trace executor
termination_by k.rank
decreasing_by exact (descends_of_mem_parts executor k _ part.2).rank_lt

theorem trace_eq (executor : Option Executor) (k : Moment) :
    k.trace executor = k :: (k.parts executor).flatMap (trace executor) := by
  rw [trace, List.flatMap_subtype (g := trace executor) fun _ _ => rfl, List.unattach_attach]

/-- What holds of a moment if it holds of its parts holds of every moment. -/
theorem induction_parts {P : Moment → Prop} (executor : Option Executor)
    (h : ∀ k, (∀ k' ∈ k.parts executor, P k') → P k) (k : Moment) : P k := by
  induction k using (InvImage.wf rank wellFounded_lt).induction with
  | _ k ih => exact h k fun k' hk' => ih k' (descends_of_mem_parts executor k k' hk').rank_lt

/-- The moments in the trace are those that the run leads to. -/
theorem mem_trace_iff {k k' : Moment} : k' ∈ k.trace executor ↔ k.Leads executor k' := by
  constructor
  · intro h
    induction k using induction_parts executor with
    | h k ih =>
      rw [trace_eq, List.mem_cons, List.mem_flatMap] at h
      rcases h with rfl | ⟨part, hpart, hk'⟩
      · exact .refl
      · exact .head hpart (ih part hpart hk')
  · intro h
    induction h using Relation.ReflTransGen.head_induction_on with
    | refl =>
      rw [trace_eq]
      exact List.mem_cons_self
    | head hpart _ ih =>
      rw [trace_eq, List.mem_cons, List.mem_flatMap]
      exact .inr ⟨_, hpart, ih⟩

end Moment

end Litany
