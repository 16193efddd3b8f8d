import Litany.Proofs.Machine.Cells
import Litany.Proofs.Machine.Congruence

/-!
# Calls are isolated from their callers

A body reads and writes the globals and its own frame, so it cannot tell which calls wait below it,
what was printed before, or which blocks were handed over, except through the answers of the host.
Whatever it does in a frame on an otherwise bare machine it does, step by step, in front of any
backdrop of waiting frames, printed text and blocks, and the backdrop stays as it is, also when the
body stops at a fault.

`Run.Follows` compares two runs in this way. It allows the run in front of the backdrop more fuel,
in which case nothing is said about a run that uses its fuel up. The main statement is
`Run.evaluate_call`.
-/

namespace Litany

/-! ### Backdrops -/

/-- What a run has behind it: the frames of the calls that wait, the text printed before and the
blocks handed over before. -/
structure Backdrop where
  frames : List Frame
  printed : String
  handed : List String

/-- The host as it answers once some blocks have been handed over. -/
def Executor.behind (answer : Executor) (handed : List String) : Executor :=
  fun blocks code => answer (handed ++ blocks) code

namespace Machine

/-- The machine in front of a backdrop. -/
def before (b : Backdrop) (m : Machine) : Machine :=
  { m with
    frames := m.frames ++ b.frames
    output := b.printed ++ m.output
    blocks := b.handed ++ m.blocks }

variable {b : Backdrop} {m : Machine}

/-- The cells in reach of a call are the globals and those of its own frame; behind a backdrop
without frames, nothing more is in reach outside of a call either. -/
private theorem cell?_before (hreach : m.frames ≠ [] ∨ b.frames = []) (slot : Slot) :
    (m.before b).cell? slot = m.cell? slot := by
  cases slot with
  | global i => rfl
  | argument i | own i =>
    cases hcons : m.frames with
    | nil =>
      have hnone := hreach.resolve_left fun hframes => hframes hcons
      simp only [cell?, before, hcons, hnone, List.append_nil]
    | cons f rest => simp only [cell?, before, hcons, List.cons_append, List.head?_cons]

/-- A cell that a call may reach is set in front of the backdrop as it is without it. -/
private theorem setCell_before (hreach : m.frames ≠ [] ∨ b.frames = []) (slot : Slot) (v : Value) :
    (m.before b).setCell slot v = (m.setCell slot v).before b := by
  cases slot with
  | global i => rfl
  | argument i | own i =>
    cases hcons : m.frames with
    | nil =>
      have hnone := hreach.resolve_left fun hframes => hframes hcons
      simp only [setCell, before, hcons, hnone, List.append_nil]
    | cons f rest => simp only [setCell, before, hcons, List.cons_append]

/-- Setting a cell makes no frames. -/
private theorem length_frames_setCell (m : Machine) (slot : Slot) (v : Value) :
    (m.setCell slot v).frames.length = m.frames.length := by
  obtain ⟨globals, procedures, frames, output, blocks⟩ := m
  cases slot with
  | global i => rfl
  | argument i | own i => cases frames <;> rfl

end Machine

namespace Run

/-! ### Two runs, one in front of a backdrop -/

/-- From a machine, `x'` does in front of the backdrop what `x` does without it, and `x` leaves as
many frames as it found. Where `lenient` holds, `x` may also use up its fuel, and `x'` do
anything. -/
def FollowsFrom {α : Type} (lenient : Prop) (b : Backdrop) (m : Machine) (x x' : Run α) : Prop :=
  Ends x m
    (fun a later => x' (m.before b) = .ok a (later.before b) ∧
      later.frames.length = m.frames.length)
    fun stop later => (x' (m.before b) = .error stop (later.before b) ∧
      later.frames.length = m.frames.length) ∨ (lenient ∧ stop = .outOfFuel)

/-- Wherever the backdrop is out of reach, because there is a call in front of it or because it has
no frames, `x'` does in front of it what `x` does without it. -/
def Follows {α : Type} (lenient : Prop) (b : Backdrop) (x x' : Run α) : Prop :=
  ∀ m, m.frames ≠ [] ∨ b.frames = [] → FollowsFrom lenient b m x x'

section Rules

variable {α β : Type} {lenient : Prop} {b : Backdrop} {m : Machine} {x x' : Run α}

/-- Two computations in a row follow two others if each does, from as many frames. -/
theorem FollowsFrom.bind {f f' : α → Run β} (hx : FollowsFrom lenient b m x x')
    (hf : ∀ a middle, middle.frames.length = m.frames.length →
      FollowsFrom lenient b middle (f a) (f' a)) :
    FollowsFrom lenient b m (x >>= f) (x' >>= f') := by
  unfold FollowsFrom Ends at hx ⊢
  rw [bind_apply, bind_apply]
  cases hresult : x m with
  | error stop later =>
    rw [hresult] at hx
    rcases hx with ⟨hsame, hlength⟩ | hfuel
    · left
      rw [hsame]
      exact ⟨rfl, hlength⟩
    · exact Or.inr hfuel
  | ok a middle =>
    rw [hresult] at hx
    obtain ⟨hsame, hlength⟩ := hx
    -- both runs are now at `middle`, one in front of the backdrop
    rw [hsame, ← hlength]
    exact hf a middle hlength

private theorem followsFrom_pure (a : α) : FollowsFrom lenient b m (pure a : Run α) (pure a) :=
  Ends.pure ⟨rfl, rfl⟩

private theorem follows_pure (a : α) : Follows lenient b (pure a : Run α) (pure a) :=
  fun _ _ => followsFrom_pure a

private theorem follows_throw (stop : Stop) : Follows lenient b (throw stop : Run α) (throw stop) :=
  fun _ _ => Ends.throw (Or.inl ⟨rfl, rfl⟩)

/-- As many frames keep the backdrop as far out of reach. -/
private theorem reach_of_length {m middle : Machine} (hreach : m.frames ≠ [] ∨ b.frames = [])
    (hlength : middle.frames.length = m.frames.length) :
    middle.frames ≠ [] ∨ b.frames = [] := by
  refine hreach.imp_left fun hframes => ?_
  rw [← List.length_pos_iff] at hframes ⊢
  omega

/-- A run keeps the number of frames, so what comes behind it is inside the same call. -/
theorem Follows.bind {f f' : α → Run β} (hx : Follows lenient b x x')
    (hf : ∀ a, Follows lenient b (f a) (f' a)) : Follows lenient b (x >>= f) (x' >>= f') :=
  fun m hreach => (hx m hreach).bind fun a middle hlength =>
    hf a middle (reach_of_length hreach hlength)

/-- A change that leaves the backdrop alone may be made in front of it. -/
private theorem followsFrom_modify {g : Machine → Machine}
    (h : g (m.before b) = (g m).before b ∧ (g m).frames.length = m.frames.length) :
    FollowsFrom lenient b m (modify g : Run Unit) (modify g) := by
  obtain ⟨hsame, hlength⟩ := h
  exact ⟨congrArg (EStateM.Result.ok ()) hsame, hlength⟩

end Rules

variable {lenient : Prop} {b : Backdrop}

/-! ### Effects outside the cells -/

private theorem followsFrom_write (m : Machine) (text : String) :
    FollowsFrom lenient b m (write text) (write text) := by
  refine followsFrom_modify ⟨?_, rfl⟩
  simp only [Machine.before, String.append_assoc]

/-- The host is asked in front of the backdrop what it is asked without it, behind the blocks of
the backdrop. -/
private theorem followsFrom_handOver (m : Machine) (executor : Option Executor) (code : String)
    (line : Nat) : FollowsFrom lenient b m
      (handOver (executor.map (·.behind b.handed)) code line) (handOver executor code line) := by
  cases executor with
  | none => exact Or.inl ⟨rfl, rfl⟩
  | some answer =>
    simp only [FollowsFrom, Ends, handOver, Option.map_some, Executor.behind, Machine.before]
    cases answer (b.handed ++ m.blocks) code with
    | error reason =>
      left
      simp only [fault, List.append_assoc, and_true]
      rfl
    | ok u => simp only [List.append_assoc, and_self]

/-! ### Places -/

section Places

variable {m : Machine} (hreach : m.frames ≠ [] ∨ b.frames = [])

include hreach

/-- A place is visited in front of the backdrop as it is without it. -/
private theorem followsFrom_visit (p : Place) : FollowsFrom lenient b m (visit p) (visit p) := by
  simp only [FollowsFrom, Ends, visit, Machine.cell?_before hreach]
  cases m.cell? p.slot with
  | none => exact Or.inl ⟨rfl, rfl⟩
  | some content =>
    cases p.path with
    | nil => exact ⟨rfl, rfl⟩
    | cons segment rest =>
      dsimp only
      cases content.visit? p.key (Value.zero p.type) with
      | none => exact Or.inl ⟨rfl, rfl⟩
      | some found =>
        obtain ⟨found, grown⟩ := found
        dsimp only
        rw [Machine.setCell_before hreach]
        exact ⟨rfl, m.length_frames_setCell p.slot grown⟩

/-- A place that a call may reach is overwritten in front of the backdrop as it is without it. -/
private theorem overwrite_before (p : Place) (v : Value) :
    overwrite p v (m.before b) = (overwrite p v m).before b ∧
      (overwrite p v m).frames.length = m.frames.length := by
  unfold overwrite
  rw [Machine.cell?_before hreach]
  cases p.path with
  | nil => exact ⟨Machine.setCell_before hreach p.slot v, m.length_frames_setCell p.slot v⟩
  | cons segment rest =>
    cases m.cell? p.slot with
    | none => exact ⟨rfl, rfl⟩
    | some content =>
      exact ⟨Machine.setCell_before hreach p.slot _, m.length_frames_setCell p.slot _⟩

/-- A value is stored in front of the backdrop as it is without it. -/
private theorem followsFrom_store (p : Place) (v : Value) :
    FollowsFrom lenient b m (store p v) (store p v) := by
  refine (followsFrom_visit hreach p).bind fun _ middle hlength => ?_
  have hoverwrite := overwrite_before (reach_of_length hreach hlength) p (v.stored p.type)
  exact (followsFrom_modify hoverwrite).bind fun _ _ _ => followsFrom_pure _

end Places

/-! ### Calls -/

/-- The procedures of a call do not depend on the backdrop. -/
private theorem followsFrom_procedure (m : Machine) (ordinal : Nat) (name : String) (line : Nat) :
    FollowsFrom lenient b m (procedure ordinal name line) (procedure ordinal name line) := by
  simp only [FollowsFrom, Ends, procedure, Machine.before]
  cases m.procedures[ordinal]? with
  | none => exact Or.inl ⟨rfl, rfl⟩
  | some entry =>
    cases entry with
    | none => exact Or.inl ⟨rfl, rfl⟩
    | some p => exact ⟨rfl, rfl⟩

/-- A body that runs in a frame of its own may do so outside of any other call. -/
private theorem followsFrom_inFrame {α : Type} {x x' : Run α} (hx : Follows lenient b x x')
    (frame : Frame) (m : Machine) :
    FollowsFrom lenient b m (inFrame frame x) (inFrame frame x') := by
  have hinner := hx { m with frames := frame :: m.frames } (Or.inl (List.cons_ne_nil _ _))
  -- what is left of the frames once the innermost is dropped
  have hpopped : ∀ later : Machine, later.frames.length = m.frames.length + 1 →
      later.frames.tail.length = m.frames.length ∧
        (later.frames ++ b.frames).tail = later.frames.tail ++ b.frames := by
    intro later hlength
    obtain ⟨f, rest, hcons⟩ := List.exists_cons_of_length_pos (by omega : 0 < later.frames.length)
    simp only [hcons, List.length_cons, Nat.add_right_cancel_iff] at hlength ⊢
    exact ⟨hlength, rfl⟩
  unfold FollowsFrom Ends at hinner ⊢
  simp only [inFrame]
  revert hinner
  cases x { m with frames := frame :: m.frames } with
  | ok a later =>
    rintro ⟨hsame, hlength⟩
    obtain ⟨hcount, htail⟩ := hpopped later hlength
    simp only [Machine.before, List.cons_append] at hsame
    simp only [Machine.before, hsame, htail, hcount, and_self]
  | error stop later =>
    rintro (⟨hsame, hlength⟩ | hfuel)
    · obtain ⟨hcount, htail⟩ := hpopped later hlength
      left
      simp only [Machine.before, List.cons_append] at hsame
      simp only [Machine.before, hsame, htail, hcount, and_self]
    · exact Or.inr hfuel

/-! ### Whole runs -/

/-- Fuel for a run without a backdrop and for one in front of it: the same, or, where leniency is
allowed, more. -/
def Allows (lenient : Prop) (k n : Nat) : Prop :=
  k = n ∨ (lenient ∧ k ≤ n)

/-- Fuel that is allowed for a call is allowed, less one, for its body. -/
theorem Allows.pred {k n : Nat} (h : Allows lenient (k + 1) n) :
    ∃ n', n = n' + 1 ∧ Allows lenient k n' := by
  rcases h with rfl | ⟨hlenient, hle⟩
  · exact ⟨k, rfl, Or.inl rfl⟩
  · exact ⟨n - 1, by omega, Or.inr ⟨hlenient, by omega⟩⟩

/-- A run without fuel is followed by one that has none either, and need not be followed by one
that has some. -/
private theorem follows_outOfFuel {α : Type} {n : Nat} {x' : Run α} (h : Allows lenient 0 n)
    (hzero : n = 0 → x' = throw .outOfFuel) : Follows lenient b (throw .outOfFuel : Run α) x' := by
  rcases h with hn | ⟨hlenient, -⟩
  · rw [hzero hn.symm]
    exact follows_throw _
  · exact fun _ _ => Ends.throw (Or.inr ⟨hlenient, rfl⟩)

/-- What runs without a backdrop runs in front of it, where the host has already been handed the
blocks of the backdrop. -/
theorem follows_congruence (lenient : Prop) (b : Backdrop) (executor : Option Executor) :
    Congruence (executor.map (·.behind b.handed)) executor (Allows lenient)
      fun α (x x' : Run α) => Follows lenient b x x' where
  pure := follows_pure
  bind := Follows.bind
  fault _ := follows_throw _
  visit p := fun _ hreach => followsFrom_visit hreach p
  store p v := fun _ hreach => followsFrom_store hreach p v
  write text := fun m _ => followsFrom_write m text
  handOver code line := fun m _ => followsFrom_handOver m executor code line
  install _ := fun _ _ => followsFrom_modify ⟨rfl, rfl⟩
  procedure ordinal name line := fun m _ => followsFrom_procedure m ordinal name line
  inFrame frame hx := fun m _ => followsFrom_inFrame hx frame m
  pred := Allows.pred
  spent := follows_outOfFuel

/-- Calls are made in front of a backdrop as they are without it, also outside of any call. -/
private theorem followsFrom_invoke (b : Backdrop) (executor : Option Executor) {k n : Nat}
    (hkn : Allows lenient k n) (p : Procedure) (arguments : List Value) (m : Machine) :
    FollowsFrom lenient b m (invoke (runBody (executor.map (·.behind b.handed)) k) p arguments)
      (invoke (runBody executor n) p arguments) := by
  have hbody := (follows_congruence lenient b executor).runBody hkn p.body
  exact (followsFrom_inFrame hbody _ m).bind fun _ _ _ => followsFrom_pure _

/-! ### Calls by themselves -/

/-- What a call comes to by itself: the procedure is run with the given arguments on a machine with
the given globals and procedures, where no call waits, nothing has been printed and nothing handed
over. -/
def callAlone (answers : Option Executor) (fuel : Nat) (p : Procedure) (arguments : List Value)
    (globals : List Value) (procedures : List (Option Procedure)) :
    EStateM.Result Stop Machine Value :=
  invoke (runBody answers fuel) p arguments ⟨globals, procedures, [], "", []⟩

/-- The outcome of a call by itself, as the caller finds it: globals and procedures are those of
the call, what it printed and handed over comes behind what was there, and the frames of the caller
are as they were. -/
def returnTo {α : Type} (m : Machine) :
    EStateM.Result Stop Machine α → EStateM.Result Stop Machine α
  | .ok a later => .ok a (resumed later)
  | .error stop later => .error stop (resumed later)
where
  resumed (later : Machine) : Machine :=
    ⟨later.globals, later.procedures, m.frames, m.output ++ later.output, m.blocks ++ later.blocks⟩

/-- A computation that uses up its fuel. -/
def Exhausted {α : Type} : EStateM.Result Stop Machine α → Prop
  | .error .outOfFuel _ => True
  | _ => False

/-- A machine is what all calls share, in front of what waits behind. -/
private theorem before_waiting (m : Machine) :
    (Machine.mk m.globals m.procedures [] "" []).before ⟨m.frames, m.output, m.blocks⟩ = m := by
  simp only [Machine.before, List.nil_append, List.append_nil, String.append_empty]

/-- A call that has left no frames returns to those of its caller. -/
private theorem before_eq_resumed {m later : Machine} (hframes : later.frames.length = 0) :
    later.before ⟨m.frames, m.output, m.blocks⟩ = returnTo.resumed m later := by
  rw [List.length_eq_zero_iff] at hframes
  simp only [Machine.before, returnTo.resumed, hframes, List.nil_append]

/-- A call is made as it is by itself, and the caller's frames stay as they are. -/
theorem invoke_eq_returnTo (executor : Option Executor) (fuel : Nat) (p : Procedure)
    (arguments : List Value) (m : Machine) :
    invoke (runBody executor fuel) p arguments m =
      returnTo m (callAlone (executor.map (·.behind m.blocks)) fuel p arguments m.globals
        m.procedures) := by
  -- with the same fuel on both sides nothing has to be excused
  have hsame : Allows False fuel fuel := Or.inl rfl
  have hfollows := followsFrom_invoke ⟨m.frames, m.output, m.blocks⟩ executor hsame p arguments
    ⟨m.globals, m.procedures, [], "", []⟩
  unfold FollowsFrom Ends at hfollows
  rw [before_waiting] at hfollows
  unfold callAlone
  revert hfollows
  cases invoke (runBody (executor.map (·.behind m.blocks)) fuel) p arguments
      ⟨m.globals, m.procedures, [], "", []⟩ with
  | ok v later =>
    rintro ⟨hsame, hframes⟩
    rw [hsame, before_eq_resumed hframes]
    rfl
  | error stop later =>
    rintro (⟨hsame, hframes⟩ | ⟨hfalse, -⟩)
    · rw [hsame, before_eq_resumed hframes]
      rfl
    · exact hfalse.elim

/-- A call that ends does so in the same way with more fuel. -/
theorem callAlone_of_le (answers : Option Executor) {fuel more : Nat} (hle : fuel ≤ more)
    (p : Procedure) (arguments globals : List Value) (procedures : List (Option Procedure))
    (hends : ¬ Exhausted (callAlone answers fuel p arguments globals procedures)) :
    callAlone answers more p arguments globals procedures =
      callAlone answers fuel p arguments globals procedures := by
  have hanswers : answers.map (·.behind []) = answers := by cases answers <;> rfl
  -- in front of an empty backdrop the two runs differ in their fuel only
  have hmore : Allows True fuel more := Or.inr ⟨trivial, hle⟩
  have hbare : ∀ m : Machine, m.before ⟨[], "", []⟩ = m := by
    intro m
    simp only [Machine.before, List.nil_append, List.append_nil, String.empty_append]
  have hfollows := followsFrom_invoke ⟨[], "", []⟩ answers hmore p arguments
    ⟨globals, procedures, [], "", []⟩
  unfold FollowsFrom Ends at hfollows
  simp only [hbare, hanswers] at hfollows
  unfold callAlone at hends ⊢
  revert hfollows hends
  cases invoke (runBody answers fuel) p arguments ⟨globals, procedures, [], "", []⟩ with
  | ok v later => exact fun _ hfollows => hfollows.1
  | error stop later =>
    rintro hends (⟨hsame, -⟩ | ⟨-, rfl⟩)
    · exact hsame
    · exact absurd trivial hends

/-! ### The law of calls -/

/-- A call is isolated from its caller. Once its arguments have values, the call comes to what the
procedure comes to by itself, given those values, the globals, the procedures and the answers of the
host from now on: whether it answers or stops, the frames of the caller are as they were. If it
ends, it does the same for every other caller that finds the same globals, procedures and answers,
whatever frames wait there and with however much fuel more. And what the callee stores changes one
cell, never a copy in another. -/
theorem evaluate_call (executor : Option Executor) (fuel ordinal line : Nat) (name : String)
    (arguments : List Expr) (p : Procedure) (values : List Value) (m caller : Machine)
    (hp : m.procedures[ordinal]? = some (some p))
    (hvalues : evaluateArguments (runBody executor fuel) p.parameters arguments m =
      .ok values caller) :
    let alone := callAlone (executor.map (·.behind caller.blocks)) fuel p values caller.globals
      caller.procedures
    evaluate (runBody executor fuel) (.call ordinal name arguments line) m =
        returnTo caller alone ∧
      (¬ Exhausted alone → ∀ (other : Machine) (executor' : Option Executor) (more : Nat),
        fuel ≤ more → other.globals = caller.globals → other.procedures = caller.procedures →
        executor'.map (·.behind other.blocks) = executor.map (·.behind caller.blocks) →
          invoke (runBody executor' more) p values other = returnTo other alone) ∧
      ∀ (target : Place) (v kept : Value) (inside later : Machine),
        store target v inside = .ok kept later → inside.SameBut target.slot later := by
  intro alone
  refine ⟨?_, ?_, fun target v kept inside later h => sameBut_of_store h⟩
  · have hfound : procedure ordinal name line m = .ok p m := by
      unfold procedure
      rw [hp]
    rw [evaluate, bind_of_ok hfound, bind_of_ok hvalues, invoke_eq_returnTo]
  · intro hends other executor' more hle hglobals hprocedures hanswers
    rw [invoke_eq_returnTo, hglobals, hprocedures, hanswers,
      callAlone_of_le _ hle p values _ _ hends]

/-- Counts its argument up, keeps it in a global, and gives back twice of it. -/
def twiceNext : Procedure :=
  let n : Place := ⟨"n", [], .argument 0, .scalar .u8⟩
  let last : Place := ⟨"last", [], .global 0, .scalar .u8⟩
  ⟨0, "TwiceNext", .i32, [.u8], [], [
    .expr (.bump n true true 1),
    .expr (.assign last [⟨none, .read n, 2⟩]),
    .giveBack (some (.binary (.read n) .add (.read n) 3)) 3]⟩

/-- The argument of the call is counted up, the variable of the caller that it came from is not. -/
theorem evaluate_call_twiceNext :
    evaluate (runBody none 2) (.call 0 "TwiceNext" [.read ⟨"k", [], .argument 0, .scalar .u8⟩] 7)
        ⟨[.int 0], [some twiceNext], [⟨[.int 4], []⟩, ⟨[], [.int 9]⟩], "<", []⟩ =
      .ok (.int 10)
        ⟨[.int 5], [some twiceNext], [⟨[.int 4], []⟩, ⟨[], [.int 9]⟩], "<", []⟩ := by
  obtain ⟨hcall, -, -⟩ := evaluate_call none 2 0 7 "TwiceNext"
    [.read ⟨"k", [], .argument 0, .scalar .u8⟩] twiceNext [.int 4]
    ⟨[.int 0], [some twiceNext], [⟨[.int 4], []⟩, ⟨[], [.int 9]⟩], "<", []⟩
    ⟨[.int 0], [some twiceNext], [⟨[.int 4], []⟩, ⟨[], [.int 9]⟩], "<", []⟩ rfl rfl
  rw [hcall]
  rfl

end Run

end Litany
