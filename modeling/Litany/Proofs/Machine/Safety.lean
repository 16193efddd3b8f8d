import Litany.Proofs.Machine.Regime
import Litany.Proofs.Machine.ScopedActs
import Litany.Proofs.Outcome

/-!
# Well-scoped programs run safely

On a machine that agrees with the tables, a well-scoped program keeps the agreement at every step
and stops early only for reasons of its own: it divides by zero, combines values that do not go
together, its host refuses a block, its fuel is used up. It never misses a cell and never takes
something else for an object. The body of a procedure can be missing only below the ordinal from
which on the machine is equipped.

Running safely is a regime for well-scoped acts, so it is enough to look at elementary steps and at
calls. Calls go through the body of another procedure and are carried by the fuel.
-/

namespace Litany

/-- The stops that a well-scoped program may come to. -/
def Stop.Foreseen (names : Names) (k : Nat) : Stop → Prop
  | .fault (.noBody name _) =>
    ∃ ordinal p, ordinal < k ∧ names.procedures[ordinal]? = some p ∧ p.name = name
  | .fault (.emptySlot _ _) => False
  | .fault (.notObject _) => False
  | _ => True

namespace Run

/-- A computation is safe in a scope if it keeps the machine running there; when it stops early,
the machine still agrees with the tables and the stop is foreseen. -/
def Safe {α : Type} (names : Names) (k : Nat) (scope : Scope) (below : List Frame) (x : Run α) :
    Prop :=
  ∀ m, m.Running names k scope below → Ends x m (fun _ m' => m'.Running names k scope below)
    fun stop m' => m'.Agrees names k ∧ stop.Foreseen names k

variable {α β : Type} {names : Names} {k : Nat} {scope : Scope} {below : List Frame}

theorem Safe.bind {x : Run α} {f : α → Run β} (hx : Safe names k scope below x)
    (hf : ∀ a, Safe names k scope below (f a)) : Safe names k scope below (x >>= f) :=
  fun m hm => Ends.bind (hx m hm) fun a m' hm' => hf a m' hm'

private theorem safe_pure (a : α) : Safe names k scope below (pure a : Run α) :=
  fun _ hm => hm

private theorem safe_stop {stop : Stop} (h : stop.Foreseen names k) :
    Safe names k scope below (throw stop : Run α) :=
  fun _ hm => ⟨hm.agrees, h⟩

/-! ### Output and foreign code -/

private theorem safe_write (text : String) : Safe names k scope below (write text) :=
  fun _ hm => ⟨⟨hm.agrees.globals, hm.agrees.equipped⟩, hm.within⟩

private theorem safe_handOver (executor : Option Executor) (code : String) (line : Nat) :
    Safe names k scope below (handOver executor code line) := by
  intro m hm
  cases executor with
  | none => exact ⟨hm.agrees, trivial⟩
  | some answer =>
    simp only [Ends, handOver]
    cases answer m.blocks code with
    | ok u => exact ⟨⟨hm.agrees.globals, hm.agrees.equipped⟩, hm.within⟩
    | error reason => exact ⟨⟨hm.agrees.globals, hm.agrees.equipped⟩, trivial⟩

/-! ### Places -/

private theorem safe_visit {p : Place} (hp : p.Scoped names scope) :
    Safe names k scope below (visit p) := by
  obtain ⟨rootType, constant, htype, hfield⟩ := hp.type
  intro m hm
  obtain ⟨content, hcontent, hfits⟩ := hm.exists_cell htype
  simp only [Ends, visit, hcontent]
  cases hpath : p.path with
  | nil => exact hm
  | cons segment rest =>
    obtain ⟨number, rfl⟩ := object_of_path hpath hfield
    cases hfits with
    | object cells number => exact hm.setCell htype (.object _ number)

private theorem running_overwrite {p : Place} (hp : p.Scoped names scope) {v : Value}
    (hv : v.Fits p.type) {m : Machine} (hm : m.Running names k scope below) :
    (overwrite p v m).Running names k scope below := by
  obtain ⟨rootType, constant, htype, hfield⟩ := hp.type
  unfold overwrite
  split
  · rename_i hpath
    exact hm.setCell htype (type_of_path_nil hpath hfield ▸ hv)
  · rename_i segment rest hpath
    obtain ⟨content, hcontent, hfits⟩ := hm.exists_cell htype
    obtain ⟨number, rfl⟩ := object_of_path hpath hfield
    simp only [hcontent]
    cases hfits with
    | object cells number => exact hm.setCell htype (.object _ number)

/-- A scalar takes anything, and an object is zeroed. -/
private theorem safe_store {p : Place} (hp : p.Scoped names scope) {v : Value}
    (hv : v = Value.zero p.type ∨ ∃ t, p.type = .scalar t) :
    Safe names k scope below (store p v) := by
  have hfits : (v.stored p.type).Fits p.type := by
    rcases hv with rfl | ⟨t, htype⟩
    · cases p.type with
      | scalar t => exact .scalar _ t
      | object number => exact .object [] number
    · rw [htype]
      exact .scalar _ t
  exact (safe_visit hp).bind fun _ => Safe.bind (fun _ hm => running_overwrite hp hfits hm)
    fun _ => safe_pure _

/-- Installing a fitting procedure is safe. -/
private theorem safe_install {p : Procedure} (hp : p.Fits names) :
    Safe names k scope below (modify fun m => m.install p : Run Unit) := by
  intro m hm
  have hequipped := hm.agrees.equipped.install (.refl names) hp fun _ hlt _ => hlt
  exact ⟨⟨hm.agrees.globals, hequipped⟩, hm.within⟩

/-! ### Calls -/

/-- The bodies of procedures run safely, each in its own scope. -/
def Serves (names : Names) (k : Nat) (body : List Stmt → Run Ending) : Prop :=
  ∀ {ordinal : Nat} {opened closed : Names} {ss : List Stmt},
    Stmt.ScopedAll (.procedure ordinal) opened ss closed → closed.Grows names →
      ∀ below, Safe names k (.procedure ordinal) below (body ss)

/-- The procedure of a call is the one that the tables know, or it has none below ordinal `k`. -/
private theorem ends_procedure {ordinal line : Nat} {name : String} {signature : Signature}
    {m : Machine}
    (hsignature : names.procedures[ordinal]? = some signature) (hname : signature.name = name)
    (hm : m.Running names k scope below) :
    Ends (procedure ordinal name line) m
      (fun p m' => m'.Running names k scope below ∧ p.ordinal = ordinal ∧ p.Fits names)
      fun stop m' => m'.Agrees names k ∧ stop.Foreseen names k := by
  unfold Ends procedure
  cases hfound : m.procedures[ordinal]?.join with
  | some p =>
    rw [Option.join_eq_some_iff.mp hfound]
    exact ⟨hm, hm.agrees.equipped.fits hfound⟩
  | none =>
    have hk : ordinal < k := by
      refine Nat.lt_of_not_le fun hle => ?_
      have hlt := (List.getElem?_eq_some_iff.mp hsignature).1
      obtain ⟨p, hp⟩ := hm.agrees.equipped.complete ordinal hle hlt
      exact absurd (hp.symm.trans hfound) (by simp)
    have hforeseen : Stop.Foreseen names k (.fault (.noBody name line)) :=
      ⟨ordinal, signature, hk, hsignature, hname⟩
    cases hentry : m.procedures[ordinal]? with
    | none => exact ⟨hm.agrees, hforeseen⟩
    | some entry =>
      cases entry with
      | none => exact ⟨hm.agrees, hforeseen⟩
      | some p => simp [hentry] at hfound

/-- A body runs in a frame of its own, and the caller finds its frames as they were. -/
private theorem safe_invoke {body : List Stmt → Run Ending} (hbody : Serves names k body)
    {p : Procedure} (hp : p.Fits names) {arguments : List Value}
    (hlength : arguments.length = p.parameters.length) :
    Safe names k scope below (invoke body p arguments) := by
  obtain ⟨signature, hsignature, -, hparameters, hlocals⟩ := hp.signature
  obtain ⟨opened, closed, hscoped, hgrows⟩ := hp.body
  refine Safe.bind (fun m hm => ?_) fun _ => safe_pure _
  have hframe : Frame.Fits signature ⟨arguments, p.locals.map Value.zero⟩ := by
    refine ⟨?_, hlocals ▸ Filled.zeros _⟩
    rw [hlength, ← hparameters, List.length_map]
  have hinner : ({ m with frames := ⟨arguments, p.locals.map Value.zero⟩ :: m.frames } :
      Machine).Running names k (.procedure p.ordinal) m.frames :=
    ⟨⟨hm.agrees.globals, hm.agrees.equipped⟩, .procedure hsignature hframe rfl⟩
  have hends := hbody hscoped hgrows m.frames _ hinner
  unfold Ends inFrame at *
  revert hends
  cases body p.body { m with frames := ⟨arguments, p.locals.map Value.zero⟩ :: m.frames } with
  | ok ending m' =>
    intro hends
    refine ⟨⟨hends.agrees.globals, hends.agrees.equipped⟩, ?_⟩
    cases hends.within with
    | procedure _ _ hframes =>
      dsimp only
      rw [hframes]
      exact hm.within
  | error stop m' =>
    rintro ⟨hagrees, hforeseen⟩
    exact ⟨⟨hagrees.globals, hagrees.equipped⟩, hforeseen⟩

section Evaluation

variable {body : List Stmt → Run Ending}

/-- There are as many values as parameters and arguments have in common. -/
private theorem ends_evaluateArguments {types : List Scalar} {es : List Expr}
    (hes : ∀ e ∈ es, Safe names k scope below (evaluate body e)) {m : Machine}
    (hm : m.Running names k scope below) :
    Ends (evaluateArguments body types es) m
      (fun vs m' => m'.Running names k scope below ∧ vs.length = min types.length es.length)
      fun stop m' => m'.Agrees names k ∧ stop.Foreseen names k := by
  induction es generalizing types m with
  | nil => cases types <;> exact ⟨hm, by simp⟩
  | cons e es ih =>
    obtain ⟨he, hrest⟩ := List.forall_mem_cons.mp hes
    cases types with
    | nil => exact ⟨hm, by simp⟩
    | cons type types =>
      rw [evaluateArguments]
      refine Ends.bind (he m hm) fun v m₁ h₁ => Ends.bind (ih hrest h₁) fun vs m₂ h₂ => ?_
      obtain ⟨hrunning, hlength⟩ := h₂
      refine Ends.pure ⟨hrunning, ?_⟩
      simp only [List.length_cons, hlength]
      omega

/-- A call is safe if its arguments are. -/
private theorem safe_call (hbody : Serves names k body) {ordinal line : Nat} {name : String}
    {arguments : List Expr} {signature : Signature}
    (hsignature : names.procedures[ordinal]? = some signature) (hname : signature.name = name)
    (hlength : arguments.length = signature.parameters.length)
    (hes : ∀ e ∈ arguments, Safe names k scope below (evaluate body e)) :
    Safe names k scope below (evaluate body (.call ordinal name arguments line)) := by
  intro m hm
  rw [evaluate]
  refine Ends.bind (ends_procedure hsignature hname hm) ?_
  rintro q m₁ ⟨h₁, rfl, hfits⟩
  refine Ends.bind (ends_evaluateArguments hes h₁) ?_
  rintro vs m₂ ⟨h₂, hvs⟩
  obtain ⟨signature', hsignature', -, hparameters, -⟩ := hfits.signature
  obtain rfl := Option.some.inj (hsignature.symm.trans hsignature')
  refine safe_invoke hbody hfits ?_ m₂ h₂
  rw [hvs, hlength, ← hparameters, List.length_map, Nat.min_self]

private theorem regime_safe (hbody : Serves names k body) :
    Regime (Act.Scoped names scope) body fun _ x => Safe names k scope below x where
  pure := safe_pure
  bind := Safe.bind
  stop := by
    intro α stop hstop
    refine safe_stop ?_
    rcases stop with (_ | _ | _ | _ | _ | _ | _) | _ <;> first | exact trivial | exact hstop.elim
  visit := fun hp => safe_visit (hp.elim id And.left)
  store := fun ⟨hp, hscalar⟩ => safe_store hp (Or.inr hscalar)
  reset := fun ⟨hp, _⟩ => safe_store hp (Or.inl rfl)
  write := safe_write
  handOver := safe_handOver
  install := fun ⟨_, hp⟩ => safe_install hp
  call := fun ⟨_, hsignature, hname, hlength⟩ hes => safe_call hbody hsignature hname hlength hes

end Evaluation

/-! ### Programs -/

/-- With any fuel, the bodies of procedures run safely. -/
theorem serves_runBody (names : Names) (k : Nat) (executor : Option Executor) (n : Nat) :
    Serves names k (runBody executor n) := by
  induction n with
  | zero =>
    intro ordinal opened closed ss hss hgrows below
    exact safe_stop trivial
  | succ n ih =>
    intro ordinal opened closed ss hss hgrows below
    rw [runBody]
    exact (regime_safe ih).executeAll ss (hss.acts hgrows)

/-- With any fuel, a well-scoped program is run safely. -/
theorem safe_runBody {opened : Names} {ss : List Stmt} (hss : Program.Scoped opened ss names)
    (executor : Option Executor) (n : Nat) : Safe names k .top below (runBody executor n ss) := by
  cases n with
  | zero => exact safe_stop trivial
  | succ n =>
    rw [runBody]
    exact (regime_safe (serves_runBody names k executor n)).executeAll ss (hss.acts (.refl names))

end Run

/-- Installing procedures leaves everything else alone. -/
theorem Machine.installAll_eq (m : Machine) (ss : List Stmt) :
    m.installAll ss = { m with procedures := (m.installAll ss).procedures } := by
  induction ss generalizing m with
  | nil => rfl
  | cons s ss ih =>
    cases s with
    | procedure p => exact ih (m.install p)
    | _ => exact ih m

/-- A machine with all cells is ready for a well-scoped program once its procedures are
installed. -/
theorem Machine.running_installAll {names later : Names} {k : Nat} {m : Machine} {ss : List Stmt}
    (hss : Program.Scoped names ss later) (hglobals : Filled m.globals later.globalTypes)
    (hequipped : Equipped names k m.procedures) :
    (m.installAll ss).Running later k .top m.frames := by
  have hprocedures := hss.equipped hequipped
  rw [m.installAll_eq]
  exact ⟨⟨hglobals, hprocedures⟩, .top rfl⟩

/-- A well-scoped program leaves a machine that agrees with the tables, and stops early only at a
foreseen stop. -/
theorem Machine.interpret_agrees {names later : Names} {k : Nat} {m : Machine} {ss : List Stmt}
    (hss : Program.Scoped names ss later) (hglobals : Filled m.globals later.globalTypes)
    (hequipped : Equipped names k m.procedures) (executor : Option Executor) (fuel : Nat) :
    (m.interpret executor fuel ss).2.Agrees later k ∧
      ∀ stop, (m.interpret executor fuel ss).1 = .error stop → stop.Foreseen later k := by
  have hrunning := running_installAll hss hglobals hequipped
  have hends := Run.safe_runBody hss executor fuel _ hrunning
  unfold Machine.interpret
  split
  · rename_i m' hresult
    have hlater := hends.of_ok hresult
    exact ⟨⟨hlater.agrees.globals, hlater.agrees.equipped⟩, fun stop hstop => by cases hstop⟩
  · rename_i stop m' hresult
    obtain ⟨hagrees, hforeseen⟩ := hends.of_error hresult
    refine ⟨⟨hagrees.globals, hagrees.equipped⟩, fun stop' hstop => ?_⟩
    cases hstop
    exact hforeseen

end Litany
