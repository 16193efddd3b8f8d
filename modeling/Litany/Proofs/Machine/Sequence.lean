import Litany.Proofs.Machine.Extension
import Litany.Proofs.Machine.Safety

/-!
# Programs run one after the other

Two programs that run to their ends, the second on the machine that the first leaves, may be run as
one: with all cells and procedures of both in place from the start, and with any fuel that is enough
for each of them. Then the text that is printed is that of the first followed by that of the second,
and globals and blocks are the same. The main statement is `Machine.interpret_append`.

The first program meets the cells and procedures of the second as a surplus that it leaves alone;
the second meets what the first has printed. A program never returns at top level, so the second is
reached.
-/

namespace Litany

namespace Run

/-! ### Programs do not return -/

/-- A computation that never ends at a return. -/
def RunsThrough (x : Run Ending) : Prop :=
  ∀ m ending later, x m = .ok ending later → ending = .through

private theorem runsThrough_pure : RunsThrough (pure .through) := by
  intro m ending later h
  exact (pure_eq_ok.mp h).1

/-- A computation runs through if what it ends in does. -/
private theorem runsThrough_bind {α : Type} {x : Run α} {f : α → Run Ending}
    (hf : ∀ a, RunsThrough (f a)) : RunsThrough (x >>= f) := by
  intro m ending later h
  obtain ⟨a, middle, -, hlast⟩ := bind_eq_ok.mp h
  exact hf a middle ending later hlast

private theorem runsThrough_rounds {test : Run Bool} {body : Run Ending} {step : Run Unit}
    (hbody : RunsThrough body) (n : Nat) : RunsThrough (rounds test body step n) := by
  induction n with
  | zero =>
    intro m ending later h
    cases h
  | succ n ih =>
    refine runsThrough_bind fun holds => ?_
    split
    · intro m ending later h
      obtain ⟨inner, middle, hinner, hlast⟩ := bind_eq_ok.mp h
      obtain rfl := hbody m inner middle hinner
      exact runsThrough_bind (fun _ => ih) middle ending later hlast
    · exact runsThrough_pure

private theorem runsThrough_executeAll_cons {cx : Context} {s : Stmt} {rest : List Stmt}
    (hs : RunsThrough (execute cx s)) (hrest : RunsThrough (executeAll cx rest)) :
    RunsThrough (executeAll cx (s :: rest)) := by
  rw [executeAll]
  intro m ending later h
  obtain ⟨first, middle, hfirst, hlast⟩ := bind_eq_ok.mp h
  obtain rfl := hs m first middle hfirst
  exact hrest middle ending later hlast

/-- Statements that are well scoped at top level hold no return. -/
private theorem runsThrough_executeAll {cx : Context} {scope : Scope} {opened closed : Names}
    {ss : List Stmt} (hss : Stmt.ScopedAll scope opened ss closed) (hscope : scope = .top) :
    RunsThrough (executeAll cx ss) := by
  induction hss with
  | nil names =>
    rw [executeAll]
    exact runsThrough_pure
  | expr _ _ ih | declare _ _ ih | foreign _ _ _ ih =>
    refine runsThrough_executeAll_cons ?_ ih
    rw [execute]
    exact runsThrough_bind fun _ => runsThrough_pure
  | print _ _ _ _ ih =>
    refine runsThrough_executeAll_cons ?_ ih
    rw [execute]
    exact runsThrough_bind fun _ => runsThrough_bind fun _ => runsThrough_pure
  | loop _ _ _ _ _ ihLoop ih =>
    refine runsThrough_executeAll_cons ?_ ih
    rw [execute]
    exact runsThrough_bind fun _ => runsThrough_rounds ihLoop cx.rounds
  | branch _ _ _ ihYes ih =>
    refine runsThrough_executeAll_cons ?_ ih
    rw [execute]
    refine runsThrough_bind fun holds => ?_
    split
    · exact ihYes
    · exact runsThrough_pure
  | branchElse _ _ _ _ ihYes ihNo ih =>
    refine runsThrough_executeAll_cons ?_ ih
    rw [execute]
    refine runsThrough_bind fun holds => ?_
    split
    · exact ihYes
    · exact ihNo
  | giveBack _ htop => exact absurd hscope htop

/-- A single statement is executed as such. -/
theorem executeAll_singleton (cx : Context) (s : Stmt) : executeAll cx [s] = execute cx s := by
  funext m
  rw [executeAll, executeAll]
  change EStateM.bind _ _ m = _
  unfold EStateM.bind
  cases execute cx s m with
  | error stop m' => rfl
  | ok ending m' => cases ending <;> rfl

/-- A well-scoped program runs through. -/
theorem runsThrough_program {cx : Context} {opened closed : Names} {ss : List Stmt}
    (hss : Program.Scoped opened ss closed) : RunsThrough (executeAll cx ss) := by
  induction hss with
  | nil names =>
    rw [executeAll]
    exact runsThrough_pure
  | procedure _ _ ih | classDef _ _ _ ih =>
    refine runsThrough_executeAll_cons ?_ ih
    rw [execute]
    exact runsThrough_bind fun _ => runsThrough_pure
  | statement hs _ ih =>
    refine runsThrough_executeAll_cons ?_ ih
    rw [← executeAll_singleton]
    exact runsThrough_executeAll hs rfl

/-! ### Statements in a row -/

theorem executeAll_append {cx : Context} {a b : List Stmt} {m later : Machine}
    (h : executeAll cx a m = .ok .through later) :
    executeAll cx (a ++ b) m = executeAll cx b later := by
  induction a generalizing m with
  | nil =>
    rw [executeAll] at h
    obtain ⟨-, rfl⟩ := pure_eq_ok.mp h
    rfl
  | cons s rest ih =>
    rw [executeAll] at h
    obtain ⟨ending, middle, hfirst, hrest⟩ := bind_eq_ok.mp h
    rw [List.cons_append, executeAll, bind_of_ok hfirst]
    cases ending with
    | returned v => cases hrest
    | through => exact ih hrest

/-- A well-scoped program that runs to its end leaves the machine to what stands behind it. -/
theorem runBody_append {executor : Option Executor} {n : Nat} {opened closed : Names}
    {a b : List Stmt} {m later : Machine} {ending : Ending} (ha : Program.Scoped opened a closed)
    (h : runBody executor n a m = .ok ending later) :
    runBody executor n (a ++ b) m = runBody executor n b later := by
  cases n with
  | zero => cases h
  | succ n =>
    rw [runBody] at h ⊢
    obtain rfl := runsThrough_program ha m ending later h
    exact executeAll_append h

end Run

/-! ### What installing changes -/

namespace Machine

theorem installAll_append (m : Machine) (a b : List Stmt) :
    m.installAll (a ++ b) = (m.installAll a).installAll b :=
  List.foldl_append

/-- What is installed under an ordinal depends only on what was there. -/
private theorem installAll_congr {m m' : Machine} {i : Nat}
    (h : m.procedures[i]?.join = m'.procedures[i]?.join) (ss : List Stmt) :
    (m.installAll ss).procedures[i]?.join = (m'.installAll ss).procedures[i]?.join := by
  induction ss generalizing m m' with
  | nil => exact h
  | cons s ss ih =>
    cases s with
    | procedure p =>
      refine ih ?_
      rw [install_procedures, install_procedures, h]
    | _ => exact ih h

/-- A well-scoped program installs nothing under the ordinals of earlier procedures. -/
theorem installAll_of_lt {names later : Names} {ss : List Stmt}
    (hss : Program.Scoped names ss later) {i : Nat} (hi : i < names.procedures.length)
    (m : Machine) : (m.installAll ss).procedures[i]?.join = m.procedures[i]?.join := by
  induction hss generalizing m with
  | nil names => rfl
  | @procedure _ _ _ p _ hp _ ih =>
    obtain ⟨hordinal, hlength⟩ := hp.length
    have hrest := ih (by omega) (m.install p)
    rw [install_procedures, if_neg (by omega)] at hrest
    exact hrest
  | classDef hclass hvars _ ih =>
    obtain ⟨-, rfl⟩ := Names.declareClass_eq_some hclass
    refine ih ?_ m
    rw [hvars.declares.top.1]
    exact hi
  | @statement _ _ _ s _ hs _ ih =>
    have hrest := ih (by rw [hs.declares.top.1]; exact hi) m
    cases hs <;> exact hrest

/-- The machine that a program leaves behind its end. -/
def ended (m : Machine) : Machine :=
  { m with frames := [], output := "" }

/-- A program that gives output has run to its end; what it printed is the output, and its frames
are gone. -/
theorem interpret_eq_ok {executor : Option Executor} {n : Nat} {ss : List Stmt}
    {m later : Machine} {output : String}
    (h : m.interpret executor n ss = (.ok output, later)) :
    ∃ ending last, runBody executor n ss (m.installAll ss) = .ok ending last ∧
      last.output = output ∧ later = last.ended := by
  unfold interpret at h
  split at h
  · rename_i ending last hresult
    cases h
    exact ⟨ending, last, hresult, rfl, rfl⟩
  · cases h

theorem interpret_of_runBody {executor : Option Executor} {n : Nat} {ss : List Stmt}
    {m last : Machine} {ending : Ending}
    (h : runBody executor n ss (m.installAll ss) = .ok ending last) :
    m.interpret executor n ss = (.ok last.output, last.ended) := by
  unfold interpret
  rw [h]
  rfl

/-! ### Programs in a row -/

/-- Cells for more types are those for fewer, and zeros behind them. -/
private theorem allocate_allocate {m : Machine} {types types' : List CellType}
    (hlength : m.globals.length ≤ types.length) (htypes : types <+: types') :
    (m.allocate types').globals =
      (m.allocate types).globals ++ (types'.drop types.length).map Value.zero := by
  obtain ⟨late, rfl⟩ := htypes
  simp only [allocate, List.drop_append_of_le_length hlength, List.drop_left, List.map_append,
    List.append_assoc]

private theorem eq_or_of_imp {α : Type} {a b : Option α} (h : ∀ p, a = some p → b = some p) :
    b = a.or b := by
  cases a with
  | none => rfl
  | some p => exact h p rfl

section Pieces

variable {names middle later : Names} {k : Nat} {early : List CellType} {m : Machine}
  {a b : List Stmt} (ha : Program.Scoped names a middle) (hb : Program.Scoped middle b later)

/-- What the first of two programs finds when both are run as one: the cells and the procedures
of the second. -/
def ahead (m : Machine) (middle later : Names) (a b : List Stmt) : Surplus where
  table i := ((m.allocate later.globalTypes).installAll (a ++ b)).procedures[i]?.join
  printed := ""
  cells := (later.globalTypes.drop middle.globalTypes.length).map Value.zero
  handed := m.blocks

include ha hb

/-- The first program starts with the cells and the procedures of the second as a surplus. -/
private theorem widened_ahead (hearly : early <+: names.globalTypes)
    (hglobals : Filled m.globals early) (hequipped : Equipped names k m.procedures) :
    ((m.allocate middle.globalTypes).installAll a).Widened (ahead m middle later a b)
      ((m.allocate later.globalTypes).installAll (a ++ b)) := by
  have hlength : m.globals.length ≤ middle.globalTypes.length := by
    rw [hglobals.length]
    exact (hearly.trans (ha.extends.globals.map _)).length_le
  have hinstalled : ∀ (i : Nat) (p : Procedure),
      ((m.allocate middle.globalTypes).installAll a).procedures[i]?.join = some p →
        ((m.allocate later.globalTypes).installAll (a ++ b)).procedures[i]?.join = some p := by
    intro i p hp
    -- the first program installs under its own ordinals, which the second one leaves alone
    have hi : i < middle.procedures.length := by
      refine Nat.lt_of_not_le fun hle => ?_
      have hnone := (ha.equipped (m := m.allocate middle.globalTypes) hequipped).eq_none hle
      exact absurd (hp.symm.trans hnone) (by simp)
    have hsame : (m.allocate later.globalTypes).procedures[i]?.join =
        (m.allocate middle.globalTypes).procedures[i]?.join := rfl
    rw [installAll_append, installAll_of_lt hb hi, installAll_congr hsame, hp]
  rw [installAll_eq, installAll_eq (m.allocate later.globalTypes)]
  refine ⟨?_, fun i => eq_or_of_imp (hinstalled i), rfl, ?_, rfl, List.prefix_rfl⟩
  · exact allocate_allocate hlength (hb.extends.globals.map _)
  · exact String.empty_append.symm

/-- The second program finds what it would find on the machine that the first leaves, with the text
of the first printed before. -/
private theorem widened_behind {last last' : Machine}
    (hwidened : last.Widened (ahead m middle later a b) last')
    (hequipped : Equipped names k m.procedures) (hagrees : last.Agrees middle k)
    (hframes : last.frames = []) :
    Widened ⟨fun i => last'.procedures[i]?.join, last.output, [], last.blocks⟩
      ((last.ended.allocate later.globalTypes).installAll b) last' := by
  have hinstalled : ∀ (i : Nat) (p : Procedure),
      ((last.ended.allocate later.globalTypes).installAll b).procedures[i]?.join = some p →
        last'.procedures[i]?.join = some p := by
    intro i p hp
    rw [hwidened.procedures i]
    by_cases hi : i < middle.procedures.length
    · -- a procedure of the first program, or an earlier one
      rw [installAll_of_lt hb hi] at hp
      have hlast : last.procedures[i]?.join = some p := hp
      rw [hlast]
      rfl
    · -- a procedure of the second program
      have hle := Nat.le_of_not_lt hi
      have hnone : last.procedures[i]?.join = none := hagrees.equipped.eq_none hle
      have hnone' : ((m.allocate later.globalTypes).installAll a).procedures[i]?.join = none :=
        (ha.equipped (m := m.allocate later.globalTypes) hequipped).eq_none hle
      have hsame := installAll_congr (m := last.ended.allocate later.globalTypes)
        (hnone.trans hnone'.symm) b
      rw [hnone, Option.none_or]
      simp only [ahead, installAll_append, ← hsame, hp]
  rw [installAll_eq]
  refine ⟨?_, fun i => eq_or_of_imp (hinstalled i), ?_, ?_, hwidened.blocks, List.prefix_rfl⟩
  · rw [hwidened.globals, ahead, List.append_nil]
    simp only [ended, allocate, hagrees.globals.length]
  · rw [hwidened.frames, hframes]
    rfl
  · rw [hwidened.output, ahead, String.empty_append]
    exact String.append_empty.symm

end Pieces

/-- Two programs that run to their ends one after the other may be run as one. -/
theorem interpret_append {names middle later : Names} {k : Nat} {early : List CellType}
    {executor : Option Executor} {n₁ n₂ n : Nat} {a b : List Stmt} {m m₁ m₂ : Machine}
    {output₁ output₂ : String} (ha : Program.Scoped names a middle)
    (hb : Program.Scoped middle b later) (hearly : early <+: names.globalTypes)
    (hglobals : Filled m.globals early) (hequipped : Equipped names k m.procedures)
    (hframes : m.frames = [])
    (h₁ : (m.allocate middle.globalTypes).interpret executor n₁ a = (.ok output₁, m₁))
    (h₂ : (m₁.allocate later.globalTypes).interpret executor n₂ b = (.ok output₂, m₂))
    (hn₁ : n₁ ≤ n) (hn₂ : n₂ ≤ n) :
    ∃ m', (m.allocate later.globalTypes).interpret executor n (a ++ b) =
        (.ok (output₁ ++ output₂), m') ∧
      m'.globals = m₂.globals ∧ m'.blocks = m₂.blocks ∧ m₁.blocks <+: m₂.blocks := by
  obtain ⟨ending₁, last₁, hrun₁, rfl, rfl⟩ := interpret_eq_ok h₁
  obtain ⟨ending₂, last₂, hrun₂, rfl, rfl⟩ := interpret_eq_ok h₂
  -- the first program, with the second ahead
  obtain ⟨last₁', hrun₁', hwidened₁⟩ := Run.mirrors_runBody _ executor hn₁ a _ _ _ _
    (widened_ahead ha hb hearly hglobals hequipped) hrun₁
  have hfilled := hglobals.allocate (hearly.trans (ha.extends.globals.map _))
  have hready := running_installAll ha hfilled hequipped
  have hrunning := (Run.safe_runBody ha executor n₁ _ hready).of_ok hrun₁
  have hframes₁ : last₁.frames = [] := by
    cases hrunning.within with
    | top hsame => exact hsame.trans hframes
  -- the second program, behind the first
  obtain ⟨last₂', hrun₂', hwidened₂⟩ := Run.mirrors_runBody _ executor hn₂ b _ _ _ _
    (widened_behind ha hb hwidened₁ hequipped hrunning.agrees hframes₁) hrun₂
  have hrun := (Run.runBody_append ha hrun₁').trans hrun₂'
  refine ⟨last₂'.ended, ?_, ?_, hwidened₂.blocks, hwidened₂.handed⟩
  · rw [interpret_of_runBody hrun, hwidened₂.output]
  · exact hwidened₂.globals.trans (List.append_nil _)

end Machine

end Litany
