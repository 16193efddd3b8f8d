import Litany.Proofs.Machine.Cells
import Litany.Proofs.Machine.Congruence
import Litany.Proofs.Machine.Invariant
import Litany.Proofs.Outcome

/-!
# Runs on a machine that holds more

A program that runs to its end is not disturbed by what it does not know: further cells behind its
globals, further procedures where it has none, text printed before, or more fuel. On a machine with
such a surplus it gives the same answers, makes the same changes, and leaves the surplus alone. The
main statement is `Run.mirrors_runBody`.

Nothing is said about runs that stop early: what is missing on the smaller machine may be there on
the larger one.
-/

namespace Litany

/-- What one machine holds beyond another: procedures, by ordinal, where the other has none, text
printed before, and cells behind the globals. Blocks handed over before are the same on both. -/
structure Surplus where
  table : Nat → Option Procedure
  printed : String
  cells : List Value
  handed : List String

/-- A machine with a surplus over another. -/
structure Machine.Widened (w : Surplus) (m m' : Machine) : Prop where
  globals : m'.globals = m.globals ++ w.cells
  procedures : ∀ i, m'.procedures[i]?.join = m.procedures[i]?.join.or (w.table i)
  frames : m'.frames = m.frames
  output : m'.output = w.printed ++ m.output
  blocks : m'.blocks = m.blocks
  handed : w.handed <+: m.blocks

namespace Machine.Widened

variable {w : Surplus} {m m' : Machine}

/-- A cell that is there is there on the wider machine, with the same content. -/
theorem cell? (h : Widened w m m') {slot : Slot} {v : Value} (hv : m.cell? slot = some v) :
    m'.cell? slot = some v := by
  cases slot with
  | global i =>
    have hi : i < m.globals.length := (List.getElem?_eq_some_iff.mp hv).1
    simp only [Machine.cell?] at hv ⊢
    rw [h.globals, List.getElem?_append_left hi, hv]
  | argument i | own i =>
    simp only [Machine.cell?] at hv ⊢
    rw [h.frames, hv]

/-- A cell that is there is set on both machines. -/
theorem setCell (h : Widened w m m') {slot : Slot} {v : Value} (hv : m.cell? slot = some v)
    (v' : Value) : Widened w (m.setCell slot v') (m'.setCell slot v') := by
  cases slot with
  | global i =>
    have hi : i < m.globals.length := (List.getElem?_eq_some_iff.mp hv).1
    refine ⟨?_, h.procedures, h.frames, h.output, h.blocks, h.handed⟩
    simp only [Machine.setCell]
    rw [h.globals, List.set_append_left _ _ hi]
  | argument i | own i =>
    simp only [Machine.setCell, h.frames]
    cases m.frames with
    | nil => exact h
    | cons f rest => exact ⟨h.globals, h.procedures, rfl, h.output, h.blocks, h.handed⟩

/-- A procedure may be installed on both machines. -/
theorem install (h : Widened w m m') (p : Procedure) :
    Widened w (m.install p) (m'.install p) := by
  refine ⟨h.globals, fun i => ?_, h.frames, h.output, h.blocks, h.handed⟩
  rw [install_procedures, install_procedures]
  split
  · rfl
  · exact h.procedures i

end Machine.Widened

namespace Run

/-- Where `x` answers on a machine, `x'` gives the same answer on every machine with the surplus,
and the surplus stays. -/
def Mirrors {α : Type} (w : Surplus) (x x' : Run α) : Prop :=
  ∀ (m m' : Machine) (a : α) (later : Machine), m.Widened w m' → x m = .ok a later →
    ∃ later', x' m' = .ok a later' ∧ later.Widened w later'

section Rules

variable {α β : Type} {w : Surplus} {x x' : Run α}

private theorem mirrors_pure (a : α) : Mirrors w (pure a : Run α) (pure a) := by
  intro m m' b later hm h
  cases h
  exact ⟨m', rfl, hm⟩

/-- A computation that stops early need not be followed. -/
private theorem mirrors_throw (stop : Stop) : Mirrors w (throw stop : Run α) x' := by
  intro m m' a later hm h
  cases h

/-- Two computations in a row are mirrored one by one. -/
theorem Mirrors.bind {f f' : α → Run β} (hx : Mirrors w x x') (hf : ∀ a, Mirrors w (f a) (f' a)) :
    Mirrors w (x >>= f) (x' >>= f') := by
  intro m m' b later hm h
  obtain ⟨a, middle, hfirst, hsecond⟩ := bind_eq_ok.mp h
  obtain ⟨middle', hfirst', hmiddle⟩ := hx m m' a middle hm hfirst
  obtain ⟨later', hsecond', hlater⟩ := hf a middle middle' b later hmiddle hsecond
  exact ⟨later', bind_eq_ok.mpr ⟨a, middle', hfirst', hsecond'⟩, hlater⟩

/-- A change that a wider machine allows is mirrored by the change itself. -/
private theorem mirrors_modify {g g' : Machine → Machine}
    (h : ∀ {m m'}, m.Widened w m' → (g m).Widened w (g' m')) :
    Mirrors w (modify g : Run Unit) (modify g') := by
  intro m m' a later hm hresult
  cases hresult
  exact ⟨_, rfl, h hm⟩

end Rules

variable {w : Surplus}

/-! ### Effects outside the cells -/

private theorem mirrors_write (text : String) : Mirrors w (write text) (write text) := by
  refine mirrors_modify fun {m m'} h => ⟨h.globals, h.procedures, h.frames, ?_, h.blocks,
    h.handed⟩
  rw [h.output, String.append_assoc]

/-- A block is handed over on the wider machine with the same answer. -/
private theorem mirrors_handOver (executor : Option Executor) (code : String) (line : Nat) :
    Mirrors w (handOver executor code line) (handOver executor code line) := by
  intro m m' a later hm h
  cases executor with
  | none => cases h
  | some answer =>
    simp only [handOver, hm.blocks] at h ⊢
    cases hanswer : answer m.blocks code with
    | error reason =>
      rw [hanswer] at h
      cases h
    | ok u =>
      rw [hanswer] at h
      cases h
      exact ⟨_, rfl, hm.globals, hm.procedures, hm.frames, hm.output, rfl,
        hm.handed.trans (List.prefix_append _ _)⟩

/-! ### Places -/

/-- A visit answers only where there is a cell, and leaves one there. -/
private theorem cell_of_visit {p : Place} {m later : Machine} {v : Value}
    (h : visit p m = .ok v later) : ∃ content, later.cell? p.slot = some content := by
  unfold visit at h
  cases hcell : m.cell? p.slot with
  | none =>
    rw [hcell] at h
    cases h
  | some content =>
    simp only [hcell] at h
    split at h
    · cases h
      exact ⟨_, hcell⟩
    · split at h
      · cases h
      · cases h
        exact ⟨_, Machine.cell?_setCell hcell _⟩

/-- A place is found on the wider machine if it is found on the smaller one. -/
private theorem mirrors_visit (p : Place) : Mirrors w (visit p) (visit p) := by
  intro m m' v later hm h
  unfold visit at h ⊢
  cases hcell : m.cell? p.slot with
  | none =>
    rw [hcell] at h
    cases h
  | some content =>
    rw [hm.cell? hcell]
    simp only [hcell] at h ⊢
    split at h
    · cases h
      exact ⟨m', rfl, hm⟩
    · split at h
      · cases h
      · cases h
        exact ⟨_, rfl, hm.setCell hcell _⟩

/-- A place that has a cell is overwritten on both machines. -/
private theorem widened_overwrite {m m' : Machine} (hm : m.Widened w m') {p : Place}
    {content : Value} (hcell : m.cell? p.slot = some content) (v : Value) :
    (overwrite p v m).Widened w (overwrite p v m') := by
  unfold overwrite
  rw [hm.cell? hcell, hcell]
  split
  · exact hm.setCell hcell v
  · exact hm.setCell hcell _

/-- A value is stored where the place has just been visited, so there is a cell. -/
private theorem mirrors_store (p : Place) (v : Value) : Mirrors w (store p v) (store p v) := by
  intro m m' kept later hm h
  obtain ⟨found, visited, hvisit, hrest⟩ := bind_eq_ok.mp h
  obtain ⟨visited', hvisit', hvisited⟩ := mirrors_visit p m m' found visited hm hvisit
  obtain ⟨content, hcell⟩ := cell_of_visit hvisit
  cases hrest
  exact ⟨_, bind_of_ok hvisit' _, widened_overwrite hvisited hcell _⟩

/-! ### Calls -/

/-- A procedure of the smaller machine is found on the wider one. -/
private theorem mirrors_procedure (ordinal : Nat) (name : String) (line : Nat) :
    Mirrors w (procedure ordinal name line) (procedure ordinal name line) := by
  intro m m' p later hm h
  unfold procedure at h ⊢
  split at h
  · rename_i q hentry
    cases h
    -- what the smaller machine has is not replaced by the surplus
    have hfound := hm.procedures ordinal
    rw [hentry] at hfound
    rw [Option.join_eq_some_iff.mp hfound]
    exact ⟨m', rfl, hm⟩
  · cases h

/-- A frame of its own is the same on both machines. -/
private theorem mirrors_inFrame {α : Type} {x x' : Run α} (hx : Mirrors w x x') (frame : Frame) :
    Mirrors w (inFrame frame x) (inFrame frame x') := by
  intro m m' a later hm h
  have hinner : Machine.Widened w { m with frames := frame :: m.frames }
      { m' with frames := frame :: m'.frames } :=
    ⟨hm.globals, hm.procedures, congrArg (frame :: ·) hm.frames, hm.output, hm.blocks, hm.handed⟩
  unfold inFrame at h ⊢
  split at h
  · rename_i b m₁ hresult
    cases h
    obtain ⟨m₂, hresult', hm₂⟩ := hx _ _ _ _ hinner hresult
    rw [hresult']
    exact ⟨_, rfl, hm₂.globals, hm₂.procedures, congrArg List.tail hm₂.frames, hm₂.output,
      hm₂.blocks, hm₂.handed⟩
  · cases h

/-! ### Whole runs -/

/-- What runs on the smaller machine runs on the wider one, with the same host and more fuel. -/
private theorem mirrors_congruence (w : Surplus) (executor : Option Executor) :
    Congruence executor executor (· ≤ ·) fun α (x x' : Run α) => Mirrors w x x' where
  pure := mirrors_pure
  bind := Mirrors.bind
  fault _ := mirrors_throw _
  visit := mirrors_visit
  store := mirrors_store
  write := mirrors_write
  handOver := mirrors_handOver executor
  install p := mirrors_modify fun h => h.install p
  procedure := mirrors_procedure
  inFrame frame hx := mirrors_inFrame hx frame
  pred {_ n} hkn := ⟨n - 1, by omega, by omega⟩
  spent _ _ := mirrors_throw _

/-- Statements that run to their end do the same on a wider machine, with more fuel. -/
theorem mirrors_runBody (w : Surplus) (executor : Option Executor) {k n : Nat} (hkn : k ≤ n)
    (ss : List Stmt) : Mirrors w (runBody executor k ss) (runBody executor n ss) :=
  (mirrors_congruence w executor).runBody hkn ss

end Run

end Litany
