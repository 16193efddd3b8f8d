import Litany.Proofs.Machine.Constants
import Litany.Proofs.Machine.Trace

/-!
# Blocks handed over in a run

A block of foreign code goes to the host when its statement is executed, before anything else
happens, and nothing else hands over a block. So the blocks that are handed over in a run are those
of the statements in its trace, in the same order (`Moment.delivers`), and each moment of the run
comes when exactly the blocks of the moments in front of it are handed over (`Ordered.blocks_eq`).

A block that is handed over is written in the program or in the body of a procedure that was
installed before the run (`Moment.CodesIn.of_leads`).
-/

namespace Litany

open Run

/-! ### What the parts hand over -/

/-- The block that a part hands over first of all, if there is a host: it is the execution of a
statement that is a block. -/
def Moment.handed (executor : Option Executor) (k : Moment) : Option String :=
  match k.task with
  | .statements (.foreign code _ :: _) => executor.map fun _ => code
  | _ => none

/-- Parts that are carried out one after the other, while nothing is handed over between them: each
finds the blocks that the one in front of it leaves. -/
def Joined (executor : Option Executor) : List String → List Moment → List String → Prop
  | blocks, [], later => later = blocks
  | blocks, k :: rest, later =>
    k.machine.blocks = blocks ∧ Joined executor (k.finish executor).blocks rest later

section Accounts

variable (executor : Option Executor)

/-- Parts that hand blocks over in their order do so behind others that do. -/
theorem Joined.append {blocks between later : List String} {parts more : List Moment}
    (hparts : Joined executor blocks parts between) (hmore : Joined executor between more later) :
    Joined executor blocks (parts ++ more) later := by
  induction parts generalizing blocks with
  | nil =>
    obtain rfl := hparts
    exact hmore
  | cons k parts ih => exact ⟨hparts.1, ih hparts.2⟩

/-- Blocks are accounted for by the parts. -/
theorem accounting_blocks :
    Accounting executor fun _ m parts later => Joined executor m.blocks parts later.blocks where
  aside _ _ _ _ := rfl
  turn _ _ _ := ⟨rfl, rfl⟩
  append := Joined.append executor
  enter k ordinal p values m := by
    unfold invoke Moment.enter
    rw [endOf_bind]
    cases k.fuel with
    | zero => exact rfl
    | succ n =>
      -- the frame around the body comes and goes without a block
      refine ⟨rfl, ?_⟩
      unfold inFrame Moment.finish
      dsimp only
      unfold Joined endOf runBody
      cases executeAll ⟨executor, runBody executor n, n⟩ p.body
        { m with frames := ⟨values, p.locals.map Value.zero⟩ :: m.frames } with
      | ok ending later => rfl
      | error stop later => rfl

/-- A visit hands nothing over, however it ends. -/
private theorem blocks_visit (p : Place) (m : Machine) : (endOf (visit p) m).blocks = m.blocks := by
  unfold endOf
  cases hresult : visit p m with
  | ok v later => exact (onlyCells_of_visit hresult).blocks
  | error stop later => rw [eq_of_visit_error hresult]

/-- A store hands nothing over besides what its visit does. -/
private theorem blocks_store (p : Place) (v : Value) (m : Machine) :
    (endOf (store p v) m).blocks = (endOf (visit p) m).blocks := by
  unfold store
  rw [endOf_bind]
  unfold endOf
  cases visit p m with
  | ok found later => exact (onlyCells_overwrite p _ later).blocks
  | error stop later => rfl

/-- A block is handed over before the rest of the statements is executed. -/
private theorem joined_foreign (stack : List Nat) (fuel : Nat) (code : String) (line : Nat)
    (rest : List Stmt) (m : Machine) :
    let k : Moment := ⟨stack, fuel, .statements (.foreign code line :: rest), m⟩
    Joined executor (m.blocks ++ (k.handed executor).toList) (k.parts executor)
      (k.finish executor).blocks := by
  intro k
  -- the block counts as handed over even if the host refuses it; then nothing comes behind
  unfold k Moment.handed Moment.parts Moment.stmtParts Moment.finish Run.andThen
  dsimp only
  rw [executeAll, execute, endOf_bind, bind_apply]
  unfold handOver
  cases executor with
  | none => exact (List.append_nil m.blocks).symm
  | some answer =>
    dsimp only
    cases answer m.blocks code with
    | ok done => exact ⟨rfl, rfl⟩
    | error reason => exact rfl

/-- A part hands over its own block, if it is one, and then what its parts hand over. -/
private theorem joined_parts (k : Moment) :
    Joined executor (k.machine.blocks ++ (k.handed executor).toList) (k.parts executor)
      (k.finish executor).blocks := by
  by_cases hforeign : ∃ code line rest, k.task = .statements (.foreign code line :: rest)
  · obtain ⟨stack, fuel, task, m⟩ := k
    obtain ⟨code, line, rest, rfl⟩ := hforeign
    exact joined_foreign executor stack fuel code line rest m
  have hnone : k.handed executor = none := by
    unfold Moment.handed
    split
    · rename_i code line rest htask
      exact absurd ⟨code, line, rest, htask⟩ hforeign
    · rfl
  rw [hnone, Option.toList_none, List.append_nil]
  -- visits and stores end with a machine of their own, anything else with that of its last part
  by_cases hvisit : ∃ p, k.task = .visit p
  · obtain ⟨stack, fuel, task, m⟩ := k
    obtain ⟨p, rfl⟩ := hvisit
    exact blocks_visit p m
  by_cases hstore : ∃ p v, k.task = .store p v
  · obtain ⟨stack, fuel, task, m⟩ := k
    obtain ⟨p, v, rfl⟩ := hstore
    exact ⟨rfl, blocks_store p v m⟩
  refine (accounting_blocks executor).of_parts k (fun p hp => hvisit ⟨p, hp⟩)
    (fun p v hpv => hstore ⟨p, v, hpv⟩) fun code line rest htask => ?_
  exact hforeign ⟨code, line, rest, htask⟩

end Accounts

/-! ### The blocks of a trace -/

/-- Moments that come one after the other: the first finds the given blocks, and each of the others
what the one in front of it finds and its own block. -/
def Ordered (executor : Option Executor) : List String → List Moment → Prop
  | _, [] => True
  | blocks, k :: rest =>
    k.machine.blocks = blocks ∧ Ordered executor (blocks ++ (k.handed executor).toList) rest

section Traces

variable {executor : Option Executor} {blocks later : List String} {moments more : List Moment}

/-- Moments in their order, and behind them more that begin with the blocks handed over so far. -/
theorem Ordered.append (h : Ordered executor blocks moments)
    (hmore : Ordered executor (blocks ++ moments.filterMap (Moment.handed executor)) more) :
    Ordered executor blocks (moments ++ more) := by
  induction moments generalizing blocks with
  | nil => simpa using hmore
  | cons k moments ih =>
    refine ⟨h.1, ih h.2 ?_⟩
    rw [List.filterMap_cons] at hmore
    cases hk : k.handed executor <;> simpa [hk] using hmore

/-- A moment finds the blocks of the moments in front of it. -/
theorem Ordered.blocks_eq {front back : List Moment} {k : Moment}
    (h : Ordered executor blocks (front ++ k :: back)) :
    k.machine.blocks = blocks ++ front.filterMap (Moment.handed executor) := by
  induction front generalizing blocks with
  | nil => simpa using h.1
  | cons first front ih =>
    rw [ih h.2, List.append_assoc, List.filterMap_cons]
    cases first.handed executor <;> rfl

/-- What a part hands over is what the moments of its trace hand over, in this order. -/
def Moment.Delivers (executor : Option Executor) (k : Moment) : Prop :=
  (k.finish executor).blocks =
      k.machine.blocks ++ (k.trace executor).filterMap (Moment.handed executor) ∧
    Ordered executor k.machine.blocks (k.trace executor)

/-- Parts in a row hand over what each of them does. -/
theorem Joined.delivers {parts : List Moment} (h : Joined executor blocks parts later)
    (hparts : ∀ k ∈ parts, k.Delivers executor) :
    let moments := parts.flatMap (Moment.trace executor)
    later = blocks ++ moments.filterMap (Moment.handed executor) ∧
      Ordered executor blocks moments := by
  intro moments
  induction parts generalizing blocks with
  | nil =>
    have hsame : later = blocks := h
    exact ⟨by simpa [moments] using hsame, trivial⟩
  | cons k parts ih =>
    obtain ⟨rfl, hrest⟩ := h
    obtain ⟨⟨hblocks, hordered⟩, hparts⟩ := List.forall_mem_cons.mp hparts
    rw [hblocks] at hrest
    obtain ⟨hlater, hbehind⟩ := ih hrest hparts
    refine ⟨?_, hordered.append hbehind⟩
    rw [hlater, List.append_assoc, ← List.filterMap_append]
    rfl

/-- A part hands over its own block, if it is one, and then what its parts do. -/
theorem Moment.delivers (executor : Option Executor) (k : Moment) : k.Delivers executor := by
  induction k using Moment.induction_parts executor with
  | h k ih =>
    -- the parts go on from the blocks that the moment found, and its own behind them
    obtain ⟨hblocks, hordered⟩ := (joined_parts executor k).delivers ih
    unfold Moment.Delivers
    rw [Moment.trace_eq]
    refine ⟨?_, rfl, hordered⟩
    rw [hblocks, List.append_assoc, List.filterMap_cons]
    cases k.handed executor <;> rfl

end Traces

/-! ### Where blocks are written -/

/-- An act that installs no procedure with other blocks than those. -/
def Act.CodesIn (P : String × Nat → Prop) : Act → Prop
  | .install p => ∀ c ∈ Stmt.codesOfAll p.body, P c
  | _ => True

/-- A machine whose procedures have no other blocks than those. -/
def Machine.CodesIn (P : String × Nat → Prop) (m : Machine) : Prop :=
  ∀ (ordinal : Nat) (p : Procedure), m.procedures[ordinal]? = some (some p) →
    ∀ c ∈ Stmt.codesOfAll p.body, P c

section Provenance

variable {P : String × Nat → Prop}

mutual

/-- An expression holds no procedure, hence no block. -/
private theorem Expr.codesIn : (e : Expr) → Allowed (Act.CodesIn P) e.acts
  | .literal _ => Allowed.nil
  | .read _ => Allowed.singleton_iff.mpr trivial
  | .call _ _ arguments _ => Allowed.cons_iff.mpr ⟨trivial, Expr.codesIn_all arguments⟩
  | .negate operand _ => operand.codesIn
  | .group inner => inner.codesIn
  | .binary left _ right _ => Allowed.append_iff.mpr ⟨left.codesIn, right.codesIn⟩
  | .assign _ steps => Allowed.cons_iff.mpr ⟨trivial, Expr.codesIn_steps steps⟩
  | .bump _ _ _ _ => Allowed.singleton_iff.mpr trivial

private theorem Expr.codesIn_all : (es : List Expr) → Allowed (Act.CodesIn P) (Expr.actsOfAll es)
  | [] => Allowed.nil
  | e :: rest => Allowed.append_iff.mpr ⟨e.codesIn, Expr.codesIn_all rest⟩

private theorem Expr.codesIn_steps :
    (steps : List (Step Expr)) → Allowed (Act.CodesIn P) (Expr.actsOfSteps steps)
  | [] => Allowed.nil
  | ⟨_, operand, _⟩ :: rest => Allowed.append_iff.mpr ⟨operand.codesIn, Expr.codesIn_steps rest⟩

end

/-- A term holds no block. -/
private theorem Term.codesIn (t : Term) : Allowed (Act.CodesIn P) t.acts :=
  Allowed.append_iff.mpr ⟨t.left.codesIn, Allowed.toList_iff.mpr fun side _ => side.2.codesIn⟩

private theorem Condition.codesIn (c : Condition) : Allowed (Act.CodesIn P) c.acts :=
  Allowed.append_iff.mpr ⟨c.first.codesIn, Allowed.flatMap_iff.mpr fun t _ => t.2.codesIn⟩

/-- A declaration holds no block. -/
private theorem Declarator.codesIn (d : Declarator) : Allowed (Act.CodesIn P) d.acts :=
  Allowed.cons_iff.mpr ⟨trivial, Allowed.toList_iff.mpr fun e _ => e.codesIn⟩

mutual

/-- A statement installs procedures with blocks of its own only. -/
theorem Stmt.codesIn : (s : Stmt) → (∀ c ∈ s.codes, P c) → Allowed (Act.CodesIn P) s.acts
  | .expr e, _ => e.codesIn
  | .declare vars, _ => Allowed.flatMap_iff.mpr fun d _ => d.codesIn
  | .classDef _ vars, _ => Allowed.flatMap_iff.mpr fun d _ => d.codesIn
  | .procedure _, h => Allowed.singleton_iff.mpr h
  | .print _ arguments _, _ => Expr.codesIn_all arguments
  | .loop initial test step body, h => by
    rw [Stmt.acts, Allowed.append_iff, Allowed.append_iff, Allowed.append_iff]
    exact ⟨⟨⟨Allowed.toList_iff.mpr fun e _ => e.codesIn,
      Allowed.toList_iff.mpr fun c _ => c.codesIn⟩,
      Allowed.toList_iff.mpr fun e _ => e.codesIn⟩, Stmt.codesIn_all body h⟩
  | .branch test yes none, h => Allowed.append_iff.mpr ⟨test.codesIn, Stmt.codesIn_all yes h⟩
  | .branch test yes (some no), h => by
    obtain ⟨hyes, hno⟩ := List.forall_mem_append.mp h
    rw [Stmt.acts, Allowed.append_iff, Allowed.append_iff]
    exact ⟨⟨test.codesIn, Stmt.codesIn_all yes hyes⟩, Stmt.codesIn_all no hno⟩
  | .giveBack value _, _ => Allowed.toList_iff.mpr fun e _ => e.codesIn
  | .foreign _ _, _ => Allowed.nil

/-- Statements in a row install procedures with blocks of their own only. -/
private theorem Stmt.codesIn_all : (ss : List Stmt) → (∀ c ∈ Stmt.codesOfAll ss, P c) →
    Allowed (Act.CodesIn P) (Stmt.actsOfAll ss)
  | [], _ => Allowed.nil
  | s :: rest, h => by
    obtain ⟨hs, hrest⟩ := List.forall_mem_append.mp h
    exact Allowed.append_iff.mpr ⟨s.codesIn hs, Stmt.codesIn_all rest hrest⟩

end

namespace Machine.CodesIn

variable {m : Machine}

/-- A procedure that is installed brings the blocks of its body. -/
theorem install (hm : m.CodesIn P) {p : Procedure} (hp : ∀ c ∈ Stmt.codesOfAll p.body, P c) :
    (m.install p).CodesIn P := by
  intro ordinal q hq
  have hjoin : (m.install p).procedures[ordinal]?.join = some q := by rw [hq]; rfl
  rw [Machine.install_procedures] at hjoin
  split at hjoin
  · obtain rfl := Option.some.inj hjoin
    exact hp
  · exact hm ordinal q (Option.join_eq_some_iff.mp hjoin)

/-- The procedures of a program bring the blocks of the program. -/
theorem installAll (hm : m.CodesIn P) {ss : List Stmt} (hss : ∀ c ∈ Stmt.codesOfAll ss, P c) :
    (m.installAll ss).CodesIn P := by
  induction ss generalizing m with
  | nil => exact hm
  | cons s ss ih =>
    obtain ⟨hs, hrest⟩ := List.forall_mem_append.mp hss
    cases s with
    | procedure p => exact ih (hm.install hs) hrest
    | _ => exact ih hm hrest

/-- Blocks of a kind are blocks of any wider kind. -/
theorem mono {Q : String × Nat → Prop} (hm : m.CodesIn P) (h : ∀ c, P c → Q c) : m.CodesIn Q :=
  fun ordinal p hp c hc => h c (hm ordinal p hp c hc)

end Machine.CodesIn

/-- Running a program brings no other blocks into the bodies of procedures. -/
theorem codes_law : Law (fun _ => Act.CodesIn P) fun _ m => m.CodesIn P where
  aside := fun _ _ hm => hm
  visit := by
    intro _ p v m later _ hm hvisit ordinal q hq
    exact hm ordinal q ((onlyCells_of_visit hvisit).procedures ▸ hq)
  store := by
    intro _ p v kept m later _ hm hstore ordinal q hq
    exact hm ordinal q ((onlyCells_of_store hstore).procedures ▸ hq)
  install := fun hp hm => hm.install hp
  body := fun _ hm hp => Stmt.codesIn_all _ (hm _ _ hp)
  enter := fun _ _ _ _ hlater => hlater
  leave := fun hm => hm

/-- A moment at which only those blocks may come up. -/
structure Moment.CodesIn (P : String × Nat → Prop) (k : Moment) : Prop where
  obeys : k.Obeys (fun _ => Act.CodesIn P) fun _ m => m.CodesIn P
  codes : ∀ c ∈ k.task.codes, P c

namespace Moment.CodesIn

variable {executor : Option Executor} {k k' : Moment}

/-- Statements with those blocks, on a machine with those blocks. -/
theorem of_statements {stack : List Nat} {fuel : Nat} {ss : List Stmt} {m : Machine}
    (hss : ∀ c ∈ Stmt.codesOfAll ss, P c) (hm : m.CodesIn P) :
    Moment.CodesIn P ⟨stack, fuel, .statements ss, m⟩ :=
  ⟨⟨Stmt.codesIn_all ss hss, hm⟩, hss⟩

/-- What a moment has of blocks its parts have. -/
theorem of_mem_parts (h : k.CodesIn P) : ∀ k' ∈ k.parts executor, k'.CodesIn P := by
  intro k' hk'
  refine ⟨codes_law.of_mem_parts h.obeys k' hk', ?_⟩
  -- the blocks of a part are written in the whole, or in the procedure that is called
  cases descends_of_mem_parts executor k k' hk' with
  | turn m hwithin => exact fun c hc => h.codes c (hwithin.codes c hc)
  | enter m _ hp => exact h.obeys.holds _ _ hp

/-- No other blocks come up in a run. -/
theorem of_leads (hleads : k.Leads executor k') (h : k.CodesIn P) : k'.CodesIn P := by
  induction hleads with
  | refl => exact h
  | tail _ hpart ih => exact ih.of_mem_parts _ hpart

/-- The machine that a moment leaves has no other blocks than the moment. -/
theorem finish (executor : Option Executor) (h : k.CodesIn P) : (k.finish executor).CodesIn P :=
  codes_law.finish h.obeys

end Moment.CodesIn

end Provenance

end Litany
